import Precedence.Proofs.Descent.Lockstep
import Precedence.Proofs.Syntax.Braces
import Precedence.Proofs.Syntax.Sound
import Precedence.Proofs.Token.Places

/-! Readings of tokens that go on behind a semicolon. What is read up to that semicolon does not
depend on what comes behind it, and what is read from there on does not depend on what was before,
except that it stands further behind. -/
namespace Precedence
open Parse Descent Likeness Pairing

/-- A fault in a source that starts `n` bytes further behind. -/
def Fault.moved (n : Nat) (f : Fault) : Fault :=
  { f with position := { f.position with offset := f.position.offset+n.toUInt32 } }

namespace Pairing

/-- The same tokens `n` bytes further behind, by a reading that has found faults before. -/
def moved (n : Nat) (last : Token) (held : List Fault) : Pairing where
  Same t u := u = t.moved n
  last := last
  last' := last.moved n
  held := held
  Near xs ys := ys = xs.map (Token.moved n)
  Gone _ := False
  alike := by
    rintro t _ rfl
    simp [Token.alike,Token.moved]
  current := by
    rintro xs _ rfl -
    cases xs <;> rfl
  peek := by
    rintro xs _ rfl - -
    rcases xs with _ | ⟨t,_ | ⟨u,ts⟩⟩ <;> rfl
  advance := by
    rintro xs _ rfl - -
    exact List.map_tail.symm
  shorter := by
    rintro xs _ zs _ rfl rfl - -
    simp
  goneTail := id
  blocks := .inl fun xs _ h _ => by
    subst h
    exact List.map_tail.symm

theorem eq_of_sameFault_moved {n : Nat} {last : Token} {held : List Fault} {f g : Fault}
    (h : (moved n last held).SameFault f g) : g = f.moved n := by
  obtain ⟨hc,t,_,rfl,hf,hg⟩ := h
  cases f
  cases g
  simp_all [Fault.moved,Token.position,Span.position,Token.moved]

theorem Cursors.faults_moved {n : Nat} {last : Token} {held : List Fault} {c d : Cursor}
    (h : (moved n last held).Cursors c d) :
    d.faults.toList = held ++ c.faults.toList.map (Fault.moved n) := by
  obtain ⟨gs,hgs,hf⟩ := h.faults
  have hmap : List.Forall₂ (· = ·) (c.faults.toList.map (Fault.moved n)) gs := by
    simpa using hf.imp fun _ _ hfg => (eq_of_sameFault_moved hfg).symm
  rw [List.forall₂_eq_eq_eq] at hmap
  rw [hgs,hmap]
  rfl

/-- All that is ahead ends with a semicolon. Where blocks are ruled out, no brace opens one. -/
structure Ready (flat : Prop) (ts : List Token) : Prop where
  last : ∀ t ∈ ts.getLast?, t.kind = .semicolon
  flat : flat → ∀ t ∈ ts, t.kind ≠ .openBrace

namespace Ready
variable {flat : Prop} {t : Token} {ts xs : List Token}

theorem tail (h : Ready flat ts) : Ready flat ts.tail where
  last u hu := by
    cases ts with
    | nil => simp at hu
    | cons t ts => exact h.last u (by rw [List.getLast?_cons,show ts.getLast? = _ from hu]; rfl)
  flat hf u hu := h.flat hf u (List.mem_of_mem_tail hu)

theorem tail_ne_nil (h : Ready flat (t :: ts)) (hk : t.kind ≠ .semicolon) : ts ≠ [] := by
  rintro rfl
  exact hk (h.last t rfl)

theorem ne_nil (hf : flat → xs ≠ []) (hg : ¬ (¬ flat ∧ xs = [])) : xs ≠ [] :=
  fun hx => hg ⟨fun h => hf h hx,hx⟩

end Ready

/-- Other tokens behind a last semicolon. Without blocks no reading of a statement comes past the
semicolon; with blocks it may, and is gone then. -/
def cut (flat : Prop) (more : List Token) (last last' : Token) : Pairing where
  Same := Eq
  last := last
  last' := last'
  held := []
  Near xs ys := ys = xs ++ more ∧ Ready flat xs ∧ (flat → xs ≠ [])
  Gone xs := ¬ flat ∧ xs = []
  alike := by
    rintro t _ rfl
    exact t.alike_refl
  current := by
    rintro xs _ ⟨rfl,-,hf⟩ hg
    obtain ⟨t,ts,rfl⟩ := List.exists_cons_of_ne_nil (Ready.ne_nil hf hg)
    rfl
  peek := by
    rintro xs _ ⟨rfl,hr,hf⟩ hg hk
    obtain ⟨t,ts,rfl⟩ := List.exists_cons_of_ne_nil (Ready.ne_nil hf hg)
    obtain ⟨u,us,rfl⟩ := List.exists_cons_of_ne_nil (hr.tail_ne_nil hk)
    rfl
  advance := by
    rintro xs _ ⟨rfl,hr,hf⟩ hg hk
    obtain ⟨t,ts,rfl⟩ := List.exists_cons_of_ne_nil (Ready.ne_nil hf hg)
    exact ⟨rfl,hr.tail,fun _ => hr.tail_ne_nil hk⟩
  shorter := by
    rintro xs _ zs _ ⟨rfl,-⟩ ⟨rfl,-⟩ - -
    simp
  goneTail := by
    rintro _ ⟨hf,rfl⟩
    exact ⟨hf,rfl⟩
  blocks := by
    by_cases hflat : flat
    · refine .inr ⟨fun _ hg => hg.1 hflat,?_⟩
      rintro xs _ ⟨rfl,hr,hf⟩
      obtain ⟨t,ts,rfl⟩ := List.exists_cons_of_ne_nil (hf hflat)
      exact hr.flat hflat t (by simp)
    · refine .inl ?_
      rintro xs _ ⟨rfl,hr,-⟩ hg
      obtain ⟨t,ts,rfl⟩ := List.exists_cons_of_ne_nil fun hx => hg ⟨hflat,hx⟩
      exact ⟨rfl,hr.tail,fun hf => absurd hf hflat⟩

theorem eq_of_sameFault_cut {flat : Prop} {more : List Token} {last last' : Token} {f g : Fault}
    (h : (cut flat more last last').SameFault f g) : f = g := by
  obtain ⟨hc,t,_,rfl,hf,hg⟩ := h
  cases f
  cases g
  simp_all

end Pairing

namespace Descent
variable {n : Nat} {s : Stmt} {c c' : Cursor}

theorem value_ends {d : Descent} {e : Expr} {c₁ c₂ : Cursor} (hb : Braced c.ahead c₁.ahead)
    (hc₁ : c₁.Proper) (he : d.expr .lowest c₁ = .done e c₂) :
    (if c₂.peek.kind = .semicolon then c₂.advance else c₂).current.kind = .semicolon ∨
      ∃ e c₁, Braced c.ahead c₁.ahead ∧ c₁.Proper ∧ d.expr .lowest c₁ =
        .done e (if c₂.peek.kind = .semicolon then c₂.advance else c₂) := by
  split
  · rename_i hk
    exact .inl hk
  · exact .inr ⟨e,c₁,hb,hc₁,he⟩

theorem statement_ends {d : Descent} (hc : c.Proper) (h : statement .standard d c = .done s c') :
    c'.current.kind = .semicolon ∨
      ∃ e c₁, Braced c.ahead c₁.ahead ∧ c₁.Proper ∧ d.expr .lowest c₁ = .done e c' := by
  simp only [statement,current_bind] at h
  cases hk : c.current.kind <;> simp only [hk,Grammar.standard,statementBy] at h
  case letWord =>
    simp only [bindingStatement,current_bind,advance_bind,bind_eq_done,expect_eq_done,skip_apply] at h
    obtain ⟨_,_,⟨hname,rfl,rfl⟩,_,_,⟨hassign,rfl,rfl⟩,e,c₁,he,_,_,hs,h⟩ := h
    obtain ⟨-,rfl⟩ := Outcome.done.inj hs
    obtain ⟨-,rfl⟩ := Outcome.done.inj h
    refine value_ends ?_ hc.advance.advance.advance he
    rw [hc.ahead_eq (by simp [hk]),hc.rest_eq (by simp [hname]),
      hc.advance.rest_eq (by simp [hassign])]
    exact ((Braced.token hassign rfl).cons hname rfl).cons hk rfl
  case returnWord =>
    simp only [resultStatement,advance_bind,current_bind] at h
    split at h
    · rename_i hs
      obtain ⟨-,rfl⟩ := Outcome.done.inj h
      exact .inl hs
    · simp only [bind_eq_done,skip_apply] at h
      obtain ⟨e,c₁,he,_,_,hs,h⟩ := h
      obtain ⟨-,rfl⟩ := Outcome.done.inj hs
      obtain ⟨-,rfl⟩ := Outcome.done.inj h
      refine value_ends ?_ hc.advance he
      rw [hc.ahead_eq (by simp [hk])]
      exact .token hk rfl
  all_goals
    simp only [expressionStatement,current_bind,bind_eq_done,skip_apply] at h
    obtain ⟨e,c₁,he,_,_,hs,h⟩ := h
    obtain ⟨-,rfl⟩ := Outcome.done.inj hs
    obtain ⟨-,rfl⟩ := Outcome.done.inj h
    exact value_ends .refl hc he

/-- Where all blocks are closed and a semicolon comes last, a statement that is read ends there at
the latest. -/
theorem statement_closed (hc : c.Proper) (h : statement .standard (within .standard n) c = .done s c')
    (hf : c'.faults = #[]) (hb : opens c.ahead = closes c.ahead)
    (hlast : ∀ t ∈ c.ahead.getLast?, t.kind = .semicolon) :
    c'.ahead ≠ [] ∧ opens c'.rest = closes c'.rest := by
  have hd := within_sound False n
  have hopen : ∀ {rest}, ¬ Unclosed c.ahead rest := fun hu => by
    have := hu.2
    omega
  constructor
  · -- Used up, the input would end with the value, whose last token is no semicolon.
    intro hnil
    have hend : c'.current.kind = .endOfInput := by
      have hl := ((statement_steady hd.steady).proper hc h).last
      rwa [Cursor.current,hnil]
    obtain ⟨e,c₁,hb₁,hc₁,he⟩ := (statement_ends hc h).resolve_left (by simp [hend])
    obtain ⟨-,m,-,D,-⟩ := hd.lowest hc₁ he (.inr hf)
    have hm : Marked c₁.ahead c'.rest := D.closes
    rcases (hm.after hb₁).mark with hu | ⟨used,t,hu,ht⟩
    · exact hopen hu
    · have hrest : c'.rest = [] := by rw [Cursor.rest,hnil]; rfl
      refine ht (hlast t ?_)
      rw [hu,hrest]
      simp
  · obtain ⟨D,-⟩ := statement_sound hd hc h (.inr hf)
    have hD : Braced c.ahead c'.rest := D.closes
    have := hD.count.resolve_left hopen
    omega

section Cut
variable {flat : Prop} {more : List Token} {last last' : Token}

theorem attempt_cut {d : Cursor} {o : Option Stmt} (hc : c.Proper)
    (hcd : (cut flat more last last').Cursors c d)
    (ho : attempt (statement .standard (within .standard n)) c = .done o c')
    (hclosed : flat ∨ c'.faults = #[] ∧ opens c.ahead = closes c.ahead) :
    ∃ o' d', attempt (statement .standard (within .standard n)) d = .done o' d' ∧ Alike o o' ∧
      (cut flat more last last').Cursors c' d' ∧ c'.ahead ≠ [] ∧
        (flat ∨ opens c'.rest = closes c'.rest) := by
  have hstay : ¬ flat → c'.ahead ≠ [] ∧ opens c'.rest = closes c'.rest := by
    intro hflat
    obtain ⟨hf,hb⟩ := hclosed.resolve_left hflat
    rcases attempt_eq_done.mp ho with ⟨s,hs,-⟩ | ⟨f,e,-,-,rfl⟩
    · exact statement_closed hc hs hf hb hcd.near.2.1.last
    · simp [Cursor.record] at hf
  -- With blocks the first reading may be gone; that they are all closed is what rules it out.
  have hp := (Paired.attempt (statement_paired (within_lockstep n))).resume hcd trivial
  rw [ho] at hp
  generalize attempt _ d = o' at hp
  cases hp with
  | done hv hcd' _ =>
    refine ⟨_,_,rfl,hv,hcd',?_⟩
    by_cases hflat : flat
    · exact ⟨hcd'.near.2.2 hflat,.inl hflat⟩
    · exact ⟨(hstay hflat).1,.inr (hstay hflat).2⟩
  | gone hg => exact absurd hg.2 (hstay hg.1).1

theorem cursors_flat {d : Cursor} (h : (cut False more last last').Cursors c d)
    (hr : Ready flat c.ahead) (hne : c.ahead ≠ []) : (cut flat more last last').Cursors c d :=
  ⟨⟨h.near.1,hr,fun _ => hne⟩,h.last,h.last',h.depth,h.faults⟩

theorem cursors_advance {d : Cursor} (h : (cut flat more last last').Cursors c d)
    (hne : c.ahead ≠ []) : (cut False more last last').Cursors c.advance d.advance := by
  obtain ⟨hd,hr,-⟩ := h.near
  refine ⟨⟨?_,⟨hr.tail.last,False.elim⟩,False.elim⟩,h.last,h.last',h.depth,h.faults⟩
  rw [Cursor.ahead_advance,Cursor.ahead_advance,Cursor.rest,Cursor.rest,hd]
  exact List.tail_append_of_ne_nil hne

/-- Reading goes on in front of the other tokens, with the statements and faults of the first. -/
def Resumes (n : Nat) (more : List Token) (last last' : Token) (ss : List Stmt) (e : Cursor)
    (read : List Stmt) (d : Cursor) : Prop :=
  ∃ (before : List Stmt) (d' : Cursor), Alike ss before.reverse ∧
    loop (moreStatements .standard (within .standard n) (· == .endOfInput)) read d =
      loop (moreStatements .standard (within .standard n) (· == .endOfInput)) before d' ∧
    d'.ahead = more ∧ (cut False more last last').Cursors e d'

/-- When the first reading is over, the second one starts on the other tokens. -/
theorem statements_cut (flat : Prop) {ss : List Stmt} {e : Cursor} (read : List Stmt) (c : Cursor)
    (h : loop (moreStatements .standard (within .standard n) (· == .endOfInput)) read c =
      .done ss e) :
    ∀ (read' : List Stmt) (d : Cursor), Alike read read' → c.Proper →
      (cut False more last last').Cursors c d → Ready flat c.ahead →
      (flat ∨ e.faults = #[] ∧ opens c.ahead = closes c.ahead) →
      Resumes n more last last' ss e read' d := by
  have hd := within_steady .standard n
  fun_induction loop (moreStatements .standard (within .standard n) (· == .endOfInput)) read c with
  | case1 read c r c₁ hr =>
    intro read' d hread hc hcd _ _
    obtain ⟨rfl,rfl⟩ := Outcome.done.inj h
    obtain ⟨hk,rfl,rfl⟩ := moreStatements_stop hr
    refine ⟨read',d,List.rel_reverse hread,rfl,?_,hcd⟩
    rw [hcd.near.1,hc.ahead_eq_nil (eq_of_beq hk),List.nil_append]
  | case2 read c next c₁ hr hl ih =>
    intro read' d hread hc hcd hready hclosed
    obtain ⟨hk,o,c₂,ho,rfl,rfl⟩ := moreStatements_again hr
    have hne : c.ahead ≠ [] := Cursor.ahead_ne_nil hc.last (by simpa using hk)
    have hc₂ := (Steady.attempt (statement_steady hd)).proper hc ho
    -- Faults are never taken back: with none at the end there are none behind this statement.
    have hlater := (Steady.loop (moreStatements_steady hd _)
      (moreStatements_progresses hd rfl) _).follows hc₂.advance h
    obtain ⟨o',d₂,ho',hv,hcd₂,hne₂,hclosed₂⟩ := attempt_cut hc (cursors_flat hcd hready hne) ho
      (hclosed.imp_right fun h => ⟨(hlater.clean (.inr h.1)).resolve_left id,h.2⟩)
    have hread₂ : Alike (o.toList ++ read) (o'.toList ++ read') := by
      cases hv with
      | none => exact hread
      | some hv => exact .cons hv hread
    have hround : moreStatements .standard (within .standard n) (· == .endOfInput) read' d =
        .done (.again (o'.toList ++ read')) d₂.advance := by
      refine moreStatements_eq_done.mpr (.inr ⟨?_,o',d₂,ho',rfl,rfl⟩)
      rw [← hcd.kind fun hg => hne hg.2]
      exact hk
    have hnext := cursors_advance hcd₂ hne₂
    have hleft : d₂.advance.left < d.left := by
      rw [Cursor.left_eq,Cursor.left_eq] at hl ⊢
      rw [hnext.near.1,hcd.near.1,List.length_append,List.length_append]
      omega
    have hlast : flat ∨ e.faults = #[] ∧ opens c₂.rest = closes c₂.rest := by
      rcases hclosed with hf | ⟨hf,-⟩
      · exact .inl hf
      · exact hclosed₂.imp_right fun hb => ⟨hf,hb⟩
    obtain ⟨before,d',hs,hl,hd'⟩ := ih h (o'.toList ++ read') d₂.advance hread₂ hc₂.advance hnext
      hcd₂.near.2.1.tail hlast
    exact ⟨before,d',hs,(loop_again hround hleft).trans hl,hd'⟩
  | case3 => simp at h
  | case4 => simp at h
  | case5 => simp at h

end Cut

theorem statements_moved {m : Nat} {last : Token} {held : List Fault} {d e : Cursor}
    {ss : List Stmt} (hcd : (moved m last held).Cursors c d)
    (h : loop (moreStatements .standard (within .standard n) (· == .endOfInput)) [] c = .done ss e)
    (before : List Stmt) : ∃ ss' e',
      loop (moreStatements .standard (within .standard n) (· == .endOfInput)) before d =
        .done (before.reverse ++ ss') e' ∧ Alike ss ss' ∧
      e'.faults.toList = held ++ e.faults.toList.map (Fault.moved m) := by
  have hcross : (moved m last held).Crosses := by
    rintro xs _ rfl -
    exact List.map_tail.symm
  have hp := (Paired.loop (fun _ _ hs =>
    moreStatements_paired (within_lockstep n) hcross (· == .endOfInput) hs) .nil).resume hcd trivial
  rw [h] at hp
  generalize hd : loop _ [] d = o at hp
  cases hp with
  | done hv hce _ =>
    exact ⟨_,_,loop_moreStatements_onto hd before,hv,hce.faults_moved⟩
  | gone hg => exact hg.elim

end Descent

end Precedence
