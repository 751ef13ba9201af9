import Precedence.Proofs.Descent.Repetition

/-! What a reading comes to: it gives a value and stands behind the tokens that spell it, or it
misses a level at some token and that is the first fault it adds. Either way a reading is made up
of its parts in order. -/
namespace Precedence
open Parse Cursor

/-- The first fault that an outcome adds to those of the cursor at the start. -/
def Outcome.FirstFault {α : Type} (o : Outcome α) (c : Cursor) (f : Fault) : Prop :=
  match o with
  | .done _ d => c.faults.toList ++ [f] <+: d.faults.toList
  | .failed g d => c.faults.toList ++ [f] <+: d.faults.toList ++ [g]
  | .endless => False

/-- A cursor has come, without a fault, to a place that is told by the tokens ahead. -/
structure Cursor.Reached (d c : Cursor) (place : Cursor → Prop) : Prop where
  proper : d.Proper
  place : place d
  faults : d.faults = c.faults

/-- The place where the given tokens lie behind the current one. -/
def Cursor.Behind (ts : List Token) (d : Cursor) : Prop := d.rest = ts

def Cursor.Before (ts : List Token) (d : Cursor) : Prop := d.ahead = ts

/-- The reading goes on as `next` from some place, unless a level is missing on the way. -/
def Outcome.Meets {α : Type} (o : Outcome α) (c : Cursor) (missing : Option Token)
    (next : Parse α) (place : Cursor → Prop) : Prop :=
  match missing with
  | none => ∃ d, o = next d ∧ d.Reached c place
  | some t => o.FirstFault c ⟨.tooDeep nestingLimit,t.position⟩

namespace Outcome.FirstFault
variable {α β : Type} {c d : Cursor} {f : Fault} {p : Parse α}

theorem congr {o : Outcome α} (h : o.FirstFault d f) (hf : d.faults = c.faults) :
    o.FirstFault c f := by
  simpa [FirstFault,hf] using h

theorem bind {q : α → Parse β} (h : (p c).FirstFault c f) (hp : Steady .standard p)
    (hq : ∀ a, Steady .standard (q a)) (hl : c.last.kind = .endOfInput) :
    ((p >>= q) c).FirstFault c f := by
  have hf := hp c hl
  rw [bind_apply]
  cases hc : p c with
  | done a d =>
    rw [hc] at h hf
    have hd := hq a d ((congrArg Token.kind hf.last).trans hl)
    simp only
    cases hqa : q a d with
    | done b e =>
      rw [hqa] at hd
      exact h.trans hd.faults
    | failed g e =>
      rw [hqa] at hd
      exact h.trans (hd.faults.trans (List.prefix_append _ _))
    | endless =>
      rw [hqa] at hd
      exact hd Grammar.standard_terminating
  | failed g d => rw [hc] at h; exact h
  | endless => rw [hc] at h; exact h

theorem nested (h : (p c.deeper).FirstFault c.deeper f) : (Parse.nested p c).FirstFault c f := by
  unfold Parse.nested
  cases hc : p c.deeper with
  | done a d => rw [hc] at h; exact h
  | failed g d => rw [hc] at h; exact h
  | endless => rw [hc] at h; exact h

theorem attempt (h : (p c).FirstFault c f) : (Parse.attempt p c).FirstFault c f := by
  unfold Parse.attempt
  cases hc : p c with
  | done a d => rw [hc] at h; exact h
  | failed g d =>
    rw [hc] at h
    simpa [FirstFault] using h
  | endless => rw [hc] at h; exact h

theorem loop {round : α → Parse (Round α β)} {a : α} (h : (round a c).FirstFault c f)
    (hs : ∀ a, Steady .standard (round a)) (hr : Steady.Progresses .standard round)
    (hl : c.last.kind = .endOfInput) : (Parse.loop round a c).FirstFault c f := by
  have hf := hs a c hl
  cases hc : round a c with
  | done r d =>
    rw [hc] at h hf
    cases r with
    | stop b => rw [loop_stop hc]; exact h
    | again b =>
      have hlt := (hr a c b d hl hc).resolve_right fun hn => hn Grammar.standard_terminating
      rw [loop_again hc hlt]
      have hd := Steady.loop hs hr b d ((congrArg Token.kind hf.last).trans hl)
      cases hb : Parse.loop round b d with
      | done b e =>
        rw [hb] at hd
        exact h.trans hd.faults
      | failed g e =>
        rw [hb] at hd
        exact h.trans (hd.faults.trans (List.prefix_append _ _))
      | endless =>
        rw [hb] at hd
        exact hd Grammar.standard_terminating
  | failed g d =>
    rw [hc] at h
    rw [loop_failed hc]
    exact h
  | endless => rw [hc] at h; exact h.elim

end Outcome.FirstFault

namespace Cursor.Reached
variable {c d e : Cursor} {t : Token} {rest : List Token} {P Q : Cursor → Prop}

theorem trans (h : e.Reached d P) (k : d.Reached c Q) : e.Reached c P :=
  ⟨h.proper,h.place,h.faults.trans k.faults⟩

theorem refl (h : c.Proper) (hp : P c) : c.Reached c P := ⟨h,hp,rfl⟩

theorem advance (h : d.Reached c (Behind (t :: rest))) : d.advance.Reached c (Behind rest) :=
  ⟨h.proper.advance,rest_of_ahead h.place,h.faults⟩

theorem peek (h : d.Reached c (Behind (t :: rest))) : d.peek = t := peek_of_rest h.place

theorem before (h : d.Reached c (Behind rest)) : d.advance.Reached c (Before rest) :=
  ⟨h.proper.advance,h.place,h.faults⟩

end Cursor.Reached

namespace Outcome.Meets
variable {α β : Type} {c d : Cursor} {x y : Option Token} {a : α} {P Q : Cursor → Prop}

theorem of_done {o : Outcome α} (h : o = .done a d) (hd : d.Reached c P) :
    o.Meets c none (pure a) P := ⟨d,h,hd⟩

theorem congr {o : Outcome α} {next : Parse α} (h : o.Meets d x next P)
    (hf : d.faults = c.faults) : o.Meets c x next P := by
  cases x with
  | none =>
    obtain ⟨e,he,hr⟩ := h
    exact ⟨e,he,⟨hr.proper,hr.place,hr.faults.trans hf⟩⟩
  | some t => exact FirstFault.congr h hf

theorem seq {o : Outcome α} {next next' : Parse α} (h : o.Meets c x next P)
    (hn : ∀ d, d.Reached c P → (next d).Meets c y next' Q) : o.Meets c (x <|> y) next' Q := by
  cases x with
  | none =>
    obtain ⟨d,rfl,hr⟩ := h
    exact hn d hr
  | some t => exact h

/-- After its first part, a reading goes on with what follows. -/
theorem lift {p : Parse α} {q : α → Parse β} (h : (p c).Meets c x (pure a) P) (hc : c.Proper)
    (hp : Steady .standard p) (hs : ∀ a, Steady .standard (q a)) :
    ((p >>= q) c).Meets c x (q a) P := by
  cases x with
  | none =>
    obtain ⟨d,hd,hr⟩ := h
    exact ⟨d,bind_of_done hd,hr⟩
  | some t => exact FirstFault.bind h hp hs hc.last

theorem bind {p : Parse α} {q : α → Parse β} {next : Parse β}
    (h : (p c).Meets c x (pure a) P) (hq : ∀ d, d.Reached c P → (q a d).Meets c y next Q)
    (hc : c.Proper) (hp : Steady .standard p) (hs : ∀ a, Steady .standard (q a)) :
    ((p >>= q) c).Meets c (x <|> y) next Q :=
  (h.lift hc hp hs).seq hq

theorem map {p : Parse α} {q : α → Parse β} {next : Parse β}
    (h : (p c).Meets c x (pure a) P) (hq : ∀ d, d.Reached c P → (q a d).Meets c none next Q)
    (hc : c.Proper) (hp : Steady .standard p) (hs : ∀ a, Steady .standard (q a)) :
    ((p >>= q) c).Meets c x next Q := by
  simpa using h.bind hq hc hp hs

theorem nested {p : Parse α} {ts : List Token}
    (h : (p c.deeper).Meets c.deeper x (pure a) (Cursor.Behind ts)) :
    (Parse.nested p c).Meets c x (pure a) (Cursor.Behind ts) := by
  cases x with
  | none =>
    obtain ⟨d,hd,hr⟩ := h
    exact ⟨d.leave,nested_eq_done.mpr ⟨d,hd,rfl⟩,⟨hr.proper.last,hr.proper.ahead⟩,hr.place,hr.faults⟩
  | some t => exact FirstFault.nested h

theorem attempt {p : Parse α} (h : (p c).Meets c x (pure a) P) :
    (Parse.attempt p c).Meets c x (pure (some a)) P := by
  cases x with
  | none =>
    obtain ⟨d,hd,hr⟩ := h
    exact ⟨d,attempt_eq_done.mpr (.inl ⟨a,hd,rfl⟩),hr⟩
  | some t => exact FirstFault.attempt h

theorem loop {round : α → Parse (Round α β)} {s : α} (h : (round s d).Meets c x (pure (.again a)) P)
    (hd : d.Proper) (hf : d.faults = c.faults) (hs : ∀ a, Steady .standard (round a))
    (hr : Steady.Progresses .standard round) :
    (Parse.loop round s d).Meets c x (Parse.loop round a) P := by
  cases x with
  | none =>
    obtain ⟨e,he,hre⟩ := h
    have hlt := (hr s d a e hd.last he).resolve_right fun hn => hn Grammar.standard_terminating
    exact ⟨e,loop_again he hlt,hre⟩
  | some t =>
    have hfirst : (round s d).FirstFault d _ := FirstFault.congr h hf.symm
    exact FirstFault.congr (hfirst.loop hs hr hd.last) hf

end Outcome.Meets

theorem Cursor.Reached.expect {α : Type} {q : Token → Parse α} {c d : Cursor} {t : Token}
    {rest : List Token} {k : Kind} (h : d.Reached c (Behind (t :: rest))) (hk : t.kind = k) :
    (Parse.expect k >>= q) d = q t d.advance := by
  rw [bind_of_done (expect_of_kind (by rw [h.peek,hk])),h.peek]

namespace Descent
variable {α : Type} {item : Parse α} {a : α} {as ys : List α} {c d : Cursor} {x y : Option Token}
  {inner rest : List Token} {close comma : Token}

/-- An item and those behind it, put in front of the items held already. -/
def itemsOnto (item : Parse α) (ys : List α) : Parse (List α) :=
  item >>= fun y => loop (moreItems item) (y :: ys)

theorem itemsOnto_steady (hi : Parse.Steady .standard item) (ys : List α) :
    Parse.Steady .standard (itemsOnto item ys) :=
  .bind hi fun _ => .loop (moreItems_steady hi) (moreItems_progresses hi) _

theorem loop_moreItems (hi : Parse.Steady .standard item) (hc : c.Proper)
    (hk : c.peek.kind = .comma) :
    loop (moreItems item) ys c = itemsOnto item ys c.advance := by
  have hround : moreItems item ys c = (item >>= fun y => pure (.again (y :: ys))) c.advance := by
    simp [moreItems,hk]
  rw [itemsOnto,bind_apply]
  cases hx : item c.advance with
  | done y d =>
    have hd : moreItems item ys c = .done (.again (y :: ys)) d := by
      rw [hround,bind_of_done hx,pure_apply]
    have hlt := (moreItems_progresses hi ys c _ d hc.last hd).resolve_right
      fun hn => hn Grammar.standard_terminating
    rw [loop_again hd hlt]
  | failed f d =>
    rw [loop_failed (hround.trans (bind_of_failed hx))]
  | endless =>
    have hs := hi c.advance hc.last
    rw [hx] at hs
    exact absurd Grammar.standard_terminating hs

theorem itemsOnto_last (h : (item c).Meets c x (pure a) (Behind rest)) (hc : c.Proper)
    (hi : Parse.Steady .standard item) (hk : ∀ t ∈ rest.head?, t.kind ≠ .comma) :
    (itemsOnto item ys c).Meets c x (pure (ys.reverse ++ [a])) (Behind rest) := by
  refine h.map (fun d hd => ?_) hc hi fun _ =>
    .loop (moreItems_steady hi) (moreItems_progresses hi) _
  have hne : d.peek.kind ≠ .comma := by
    rw [peek_eq,hd.place]
    cases rest with
    | nil => rw [List.headD_nil,hd.proper.last]; decide
    | cons t ts => exact hk t rfl
  refine .of_done (d := d) (loop_stop ?_) hd
  simp [moreItems,hne]

theorem itemsOnto_more (h : (item c).Meets c x (pure a) (Behind (comma :: inner)))
    (hm : ∀ d, d.Reached c (Behind inner) →
      (itemsOnto item (a :: ys) d).Meets c y (pure ((a :: ys).reverse ++ as)) (Behind rest))
    (hk : comma.kind = .comma) (hc : c.Proper) (hi : Parse.Steady .standard item) :
    (itemsOnto item ys c).Meets c (x <|> y) (pure (ys.reverse ++ a :: as)) (Behind rest) := by
  refine h.bind (fun d hd => ?_) hc hi fun _ =>
    .loop (moreItems_steady hi) (moreItems_progresses hi) _
  rw [loop_moreItems hi hd.proper (by rw [hd.peek,hk])]
  simpa using hm d.advance hd.advance

theorem listed_none (hc : c.Proper) (hr : c.rest = close :: rest) (hk : close.kind = .closeParen) :
    (listed item c).Meets c none (pure []) (Behind rest) := by
  refine .of_done (d := c.advance) ?_ (Reached.refl hc hr).advance
  simp [listed,peek_of_rest hr,hk]

theorem listed_some (h : (itemsOnto item [] c).Meets c x (pure as) (Behind (close :: rest)))
    (hc : c.Proper) (hi : Parse.Steady .standard item) (hk : close.kind = .closeParen)
    (hp : c.peek.kind ≠ .closeParen) : (listed item c).Meets c x (pure as) (Behind rest) := by
  have hl : listed item c =
      (itemsOnto item [] >>= fun as => expect .closeParen >>= fun _ => pure as) c := by
    rw [itemsOnto,bind_assoc]
    simp [listed,hp]
  rw [hl]
  refine h.map (fun d hd => ?_) hc (itemsOnto_steady hi []) fun _ => .bind (.expect _) fun _ => .pure _
  rw [hd.expect hk]
  exact .of_done rfl hd.advance

end Descent
end Precedence
