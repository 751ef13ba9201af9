import Precedence.Proofs.Descent.Order
import Precedence.Proofs.Descent.Repetition
import Precedence.Proofs.Syntax.Braces

/-! Where blocks end. A brace that opens a block is closed by the brace that counting finds, as long
as no brace is skipped on the way. A brace is skipped where a statement fails with the brace as its
current token; wherever else a statement fails, the braces behind it count as before. -/
namespace Precedence
open Parse Cursor

/-- The tokens from the closing brace on that belongs to the opening brace in front, by counting. With
`n` more blocks open in between, that brace closes the outermost of them. Where input ends before,
there are none. -/
def closer : Nat → List Token → List Token
  | _, [] => []
  | n, t :: ts =>
    if t.kind = .openBrace then closer (n+1) ts
    else if t.kind = .closeBrace then
      match n with
      | 0 => t :: ts
      | n+1 => closer n ts
    else closer n ts

@[simp] theorem closer_nil (n : Nat) : closer n [] = [] := rfl

theorem closer_open {n : Nat} {t : Token} {ts : List Token} (h : t.kind = .openBrace) :
    closer n (t :: ts) = closer (n+1) ts := by
  simp [closer,h]

theorem closer_zero {t : Token} {ts : List Token} (h : t.kind = .closeBrace) :
    closer 0 (t :: ts) = t :: ts := by
  simp [closer,h]

theorem closer_succ {n : Nat} {t : Token} {ts : List Token} (h : t.kind = .closeBrace) :
    closer (n+1) (t :: ts) = closer n ts := by
  simp [closer,h]

theorem closer_plain {n : Nat} {t : Token} {ts : List Token} (h : t.kind.plain = true) :
    closer n (t :: ts) = closer n ts := by
  simp only [Kind.plain,bne_iff_ne,ne_eq,Bool.and_eq_true] at h
  simp [closer,h]

/-- All braces in between are matched: from either place on the same braces close what is open. -/
def Matched (xs ys : List Token) : Prop := ∀ n, closer n xs = closer n ys

namespace Matched
variable {xs ys zs : List Token} {t : Token} {k : Kind}

theorem refl : Matched xs xs := fun _ => rfl

theorem trans (h : Matched xs ys) (k : Matched ys zs) : Matched xs zs :=
  fun n => (h n).trans (k n)

theorem plain (hk : t.kind = k) (hp : k.plain = true) : Matched (t :: xs) xs :=
  fun _ => closer_plain (hk ▸ hp)

theorem block {o : Token} (ho : o.kind = .openBrace) (h : Matched xs ys)
    (hy : ∀ t ∈ ys.head?, t.kind = .closeBrace) : closer 0 xs = ys ∧ Matched (o :: xs) ys.tail := by
  cases ys with
  | nil => exact ⟨h 0,fun n => (closer_open ho).trans (h (n+1))⟩
  | cons t ts =>
    have hk := hy t rfl
    exact ⟨(h 0).trans (closer_zero hk),
      fun n => (closer_open ho).trans ((h (n+1)).trans (closer_succ hk))⟩

end Matched

/-- The fault lies at a brace that was the current token, so that the brace is skipped. Where another
token was asked for, the lookahead is at fault and stays. -/
def Fault.SkipsBrace (all : List Token) (f : Fault) : Prop :=
  f.cause.isUnexpected = false ∧ ∃ t ∈ all, t.kind.plain = false ∧ f.position = t.position

instance (all : List Token) (f : Fault) : Decidable (f.SkipsBrace all) :=
  inferInstanceAs (Decidable (_ ∧ _))

def Cursor.Skips (all : List Token) (d c : Cursor) : Prop :=
  ∃ fs f, c.faults.toList ++ fs <+: d.faults.toList ∧ f ∈ fs ∧ f.SkipsBrace all

/-- Reading has come from `xs` behind the current token with all braces matched, unless it has
skipped one or fails at one now. -/
def Outcome.Matched {α : Type} (all : List Token) (c : Cursor) (xs : List Token) :
    Outcome α → Prop
  | .done _ d => Precedence.Matched xs d.rest ∨ d.Skips all c
  | .failed f d => Precedence.Matched xs d.rest ∨ d.Skips all c ∨ f.SkipsBrace all
  | .endless => True

/-- An action that only reads on, and matches all braces from where it starts: with the current token
or behind it. -/
structure Parse.Matches {α : Type} (all : List Token) (start : Cursor → List Token)
    (p : Parse α) : Prop where
  steady : Steady .standard p
  run : ∀ c, c.Proper → c.ahead ⊆ all → (p c).Matched all c (start c)

structure Parse.MatchesBlock {α : Type} (all : List Token) (p : Parse α) : Prop where
  steady : Steady .standard p
  run : ∀ c, c.Proper → c.ahead ⊆ all → c.current.kind = .openBrace → (p c).Matched all c c.ahead

namespace Cursor.Skips
variable {all : List Token} {c d e : Cursor}

theorem later (h : d.Skips all c) (hf : e.Follows d) : e.Skips all c := by
  obtain ⟨fs,f,hfs,hmem,hs⟩ := h
  exact ⟨fs,f,hfs.trans hf.faults,hmem,hs⟩

theorem earlier (h : e.Skips all d) (hf : d.Follows c) : e.Skips all c := by
  obtain ⟨fs,f,hfs,hmem,hs⟩ := h
  obtain ⟨gs,hgs⟩ := hf.faults
  refine ⟨gs ++ fs,f,?_,List.mem_append_right _ hmem,hs⟩
  rwa [← List.append_assoc,hgs]

theorem record {f : Fault} (hf : f.SkipsBrace all) (h : d.Follows c) : (d.record f).Skips all c := by
  obtain ⟨gs,hgs⟩ := h.faults
  have hr : c.faults.toList ++ (gs ++ [f]) = (d.record f).faults.toList := by
    rw [faults_record,← hgs,List.append_assoc]
  exact ⟨gs ++ [f],f,hr ▸ List.prefix_rfl,by simp,hf⟩

end Cursor.Skips

namespace Outcome.Matched
variable {α : Type} {all xs ys : List Token} {c d : Cursor}

theorem after {o : Outcome α} (h : o.Matched all d ys) (hf : d.Follows c)
    (hx : Precedence.Matched xs ys ∨ d.Skips all c) (ho : o.Follows .standard d) :
    o.Matched all c xs := by
  cases o with
  | done a e =>
    rcases hx with hx | hx
    · exact h.imp hx.trans (·.earlier hf)
    · exact .inr (hx.later ho)
  | failed f e =>
    rcases hx with hx | hx
    · exact h.imp hx.trans (Or.imp_left (·.earlier hf))
    · exact .inr (.inl (hx.later ho))
  | endless => trivial

end Outcome.Matched

namespace Parse.Matches
variable {α β : Type} {all : List Token} {start : Cursor → List Token} {p : Parse α} {k : Kind}

theorem pure (a : α) : Matches all rest (pure a : Parse α) :=
  ⟨.pure a,fun _ _ _ => .inl .refl⟩

theorem goes_on {q : α → Parse β} (sp : Steady .standard p) (hq : ∀ a, Matches all rest (q a))
    {c : Cursor} (hc : c.Proper) (ha : c.ahead ⊆ all) {xs : List Token}
    (h : (p c).Matched all c xs) : ((p >>= q) c).Matched all c xs := by
  rw [bind_apply]
  cases hpc : p c with
  | done a d =>
    rw [hpc] at h
    have hf := sp.follows hc hpc
    have hd := hf.proper hc
    exact ((hq a).run d hd fun t ht => ha (hf.ahead.subset ht)).after hf h ((hq a).steady d hd.last)
  | failed f d => rw [hpc] at h; exact h
  | endless => trivial

theorem bind {q : α → Parse β} (hp : Matches all start p) (hq : ∀ a, Matches all rest (q a)) :
    Matches all start (p >>= q) where
  steady := .bind hp.steady fun a => (hq a).steady
  run c hc ha := goes_on hp.steady hq hc ha (hp.run c hc ha)

theorem current : Matches all rest Parse.current := ⟨.current,fun _ _ _ => .inl .refl⟩

theorem peek : Matches all rest Parse.peek := ⟨.peek,fun _ _ _ => .inl .refl⟩

theorem ite {t : Prop} [Decidable t] {q : Parse α} (hp : Matches all start p)
    (hq : Matches all start q) : Matches all start (if t then p else q) := by
  split
  · exact hp
  · exact hq

theorem behind {q : Token → Parse α} (hq : ∀ t, Matches all ahead (q t)) :
    Matches all rest (Parse.advance >>= q) where
  steady := .bind .advance fun t => (hq t).steady
  run c hc ha :=
    (hq c.current).run c.advance hc.advance fun _ ht => ha (List.mem_of_mem_tail ht)

theorem passed (h : Matches all rest p) {c : Cursor} (hc : c.Proper) (ha : c.ahead ⊆ all)
    (hk : c.current.kind.plain = true) : (p c).Matched all c c.ahead := by
  refine (h.run c hc ha).after (.refl c) (.inl ?_) (h.steady c hc.last)
  cases hcur : c.ahead with
  | nil => rw [rest,hcur]; exact .refl
  | cons t ts =>
    rw [rest_of_ahead hcur]
    rw [current_of_ahead hcur] at hk
    exact .plain rfl hk

theorem expect (hp : k.plain = true) (hk : k ≠ .endOfInput) : Matches all rest (Parse.expect k) where
  steady := .expect k
  run c hc ha := by
    unfold Parse.expect
    split
    · rename_i h
      refine .inl ?_
      rw [hc.rest_eq (h ▸ hk)]
      exact .plain h hp
    · exact .inl .refl

theorem skip (hp : k.plain = true) (hk : k ≠ .endOfInput) : Matches all rest (Parse.skip k) where
  steady := .skip k
  run c hc ha := by
    rw [skip_apply]
    split
    · rename_i h
      refine .inl ?_
      rw [hc.rest_eq (h ▸ hk)]
      exact .plain h hp
    · exact .inl .refl

theorem lookahead {q : Token → Parse α} (hp : k.plain = true) (hk : k ≠ .endOfInput)
    (hq : ∀ t, Matches all rest (q t)) (h : Matches all rest p) :
    Matches all rest (Parse.peekIs k >>= fun b => if b then Parse.advance >>= q else p) where
  steady := .bind (.peekIs k) fun _ => .ite (.bind .advance fun t => (hq t).steady) h.steady
  run c hc ha := by
    rw [peekIs_bind]
    split
    · rename_i hpeek
      rw [advance_bind]
      have hm : Precedence.Matched c.rest c.advance.rest := by
        rw [hc.rest_eq (by rw [eq_of_beq hpeek]; exact hk)]
        exact .plain (eq_of_beq hpeek) hp
      have hq := hq c.current
      exact (hq.run c.advance hc.advance fun _ ht => ha (List.mem_of_mem_tail ht)).after
        (.advance c) (.inl hm) (hq.steady c.advance hc.last)
    · exact h.run c hc ha

/-- A fault at the current token leaves all braces matched, or is one that skips a brace. -/
theorem fails {f : Fault} {c : Cursor} (ha : c.ahead ⊆ all) (hf : f.cause.isUnexpected = false)
    (hp : f.position = c.current.position) :
    Precedence.Matched c.ahead c.rest ∨ c.Skips all c ∨ f.SkipsBrace all := by
  cases hc : c.ahead with
  | nil => rw [rest,hc]; exact .inl .refl
  | cons t ts =>
    rw [current_of_ahead hc] at hp
    rw [rest_of_ahead hc]
    cases hk : t.kind.plain with
    | true => exact .inl (.plain rfl hk)
    | false => exact .inr (.inr ⟨hf,t,ha (by simp [hc]),hk,hp⟩)

theorem tooDeep : Matches all ahead (Parse.tooDeep : Parse α) :=
  ⟨.tooDeep,fun _ _ ha => fails ha rfl rfl⟩

theorem nested (hp : Matches all ahead p) : Matches all ahead (Parse.nested p) where
  steady := .nested hp.steady
  run c hc ha := by
    have h := hp.run c.deeper hc.deeper ha
    unfold Parse.nested
    cases hpc : p c.deeper with
    | done a d => rw [hpc] at h; exact h
    | failed f d => rw [hpc] at h; exact h
    | endless => trivial

/-- Where an attempt fails, its fault is kept, so that a brace skipped then is told by the faults. -/
theorem attempt (h : Matches all start p) {c e : Cursor} {o : Option α} (hc : c.Proper)
    (ha : c.ahead ⊆ all) (ho : Parse.attempt p c = .done o e) :
    Precedence.Matched (start c) e.rest ∨ e.Skips all c := by
  have hm := h.run c hc ha
  have hf := h.steady c hc.last
  rcases attempt_eq_done.mp ho with ⟨a,ha,-⟩ | ⟨f,d,hd,-,rfl⟩
  · rw [ha] at hm
    exact hm
  · rw [hd] at hm hf
    rcases hm with hm | hm | hm
    · exact .inl hm
    · exact .inr (hm.later (.record d f))
    · exact .inr (.record hm hf)

theorem loop {round : α → Parse (Round α β)} (h : ∀ a, Matches all rest (round a))
    (hr : Steady.Progresses .standard round) (a : α) : Matches all rest (Parse.loop round a) where
  steady := .loop (fun a => (h a).steady) hr a
  run c hc ha := by
    fun_induction Parse.loop round a c with
    | case1 a c b d hd =>
      have hm := (h a).run c hc ha
      rw [hd] at hm
      exact hm
    | case2 a c b d hd _ ih =>
      have hm := (h a).run c hc ha
      rw [hd] at hm
      have hf := (h a).steady.follows hc hd
      have hd' := hf.proper hc
      exact (ih hd' fun _ ht => ha (hf.ahead.subset ht)).after hf hm
        (Steady.loop (fun a => (h a).steady) hr b d hd'.last)
    | case3 => trivial
    | case4 a c f d hd =>
      have hm := (h a).run c hc ha
      rw [hd] at hm
      exact hm
    | case5 => trivial

end Parse.Matches

structure Descent.Matches (all : List Token) (d : Descent) : Prop where
  expr : ∀ p, Parse.Matches all ahead (d.expr p)
  block : Parse.MatchesBlock all d.block

namespace Descent
variable {α : Type} {all : List Token} {d : Descent}
open Parse.Matches

theorem Matches.steady (h : d.Matches all) : d.Steady .standard :=
  ⟨fun p => (h.expr p).steady,h.block.steady⟩

theorem brace_matches (h : d.Matches all) {q : Block → Parse α}
    (hq : ∀ b, Parse.Matches all rest (q b)) :
    Parse.Matches all rest (expect .openBrace >>= fun _ => d.block >>= q) where
  steady := .bind (.expect _) fun _ => .bind h.block.steady fun b => (hq b).steady
  run c hc ha := by
    have ha' : c.advance.ahead ⊆ all := fun _ ht => ha (List.mem_of_mem_tail ht)
    rw [bind_apply,Parse.expect]
    by_cases hk : c.peek.kind = .openBrace
    · rw [if_pos hk]
      have hb := h.block.run c.advance hc.advance ha' hk
      have hs : Parse.Steady .standard (d.block >>= q) := .bind h.block.steady fun b => (hq b).steady
      exact (goes_on h.block.steady hq hc.advance ha' hb).after (.advance c) (.inl .refl)
        (hs c.advance hc.last)
    · rw [if_neg hk]
      exact .inl .refl

theorem listed_matches {item : Parse α} (h : Parse.Matches all rest item) :
    Parse.Matches all rest (listed item) := by
  refine lookahead rfl (by decide) (fun _ => pure _) (bind h fun _ => ?_)
  refine bind (loop (fun xs => ?_) (moreItems_progresses h.steady) _) fun _ =>
    bind (expect rfl (by decide)) fun _ => pure _
  exact lookahead rfl (by decide) (fun _ => bind h fun _ => pure _) (pure _)

theorem argument_matches (h : d.Matches all) : Parse.Matches all rest d.argument :=
  behind fun _ => h.expr _

theorem alternative_matches (h : d.Matches all) : Parse.Matches all rest d.alternative :=
  lookahead rfl (by decide) (fun _ => brace_matches h fun _ => pure _) (pure _)

theorem conditional_matches (h : d.Matches all) : Parse.Matches all rest d.conditional := by
  refine bind current fun _ => bind (expect rfl (by decide)) fun _ => behind fun _ => ?_
  refine bind (h.expr _) fun _ => bind (expect rfl (by decide)) fun _ => brace_matches h fun _ => ?_
  exact bind (alternative_matches h) fun _ => pure _

theorem function_matches (h : d.Matches all) : Parse.Matches all rest d.function := by
  refine bind current fun _ => bind (expect rfl (by decide)) fun _ => bind ?_ fun _ =>
    brace_matches h fun _ => pure _
  exact listed_matches (bind (expect rfl (by decide)) fun _ => pure _)

theorem integer_matches : Parse.Matches all rest integer where
  steady := integer_steady
  run c _ _ := by
    simp only [integer,current_bind]
    cases Text.numeral? c.current.text with
    | none => exact .inl .refl
    | some n => exact .inl .refl

theorem head_matches (h : d.Matches all) (r : HeadRule) : Parse.Matches all rest (d.head r) := by
  cases r with
  | name => exact bind current fun _ => pure _
  | integer => exact integer_matches
  | boolean => exact bind current fun _ => pure _
  | unary => exact behind fun _ => bind (h.expr _) fun _ => pure _
  | group =>
    exact behind fun _ => bind (h.expr _) fun _ => bind (expect rfl (by decide)) fun _ => pure _
  | conditional => exact conditional_matches h
  | function => exact function_matches h

theorem tail_matches (h : d.Matches all) (r : TailRule) (left : Expr) (p : Power) :
    Parse.Matches all rest (d.tail r left p) := by
  cases r with
  | binary => exact behind fun _ => bind (h.expr _) fun _ => pure _
  | call => exact bind current fun _ => bind (listed_matches (argument_matches h)) fun _ => pure _

theorem plain_of_head {k : Kind} {r : HeadRule} (h : Grammar.standard.head k = some r) :
    k.plain = true := by
  cases k <;> first | rfl | simp [Grammar.standard] at h

theorem plain_of_tail {k : Kind} {r : TailRule} (h : Grammar.standard.tail k = some r) :
    k.plain = true ∧ k ≠ .endOfInput := by
  cases k <;> first | decide | simp [Grammar.standard] at h

theorem firstOperand_matches (h : d.Matches all) :
    Parse.Matches all ahead (firstOperand .standard d) where
  steady := firstOperand_steady h.steady
  run c hc ha := by
    simp only [firstOperand,current_bind]
    cases hr : Grammar.standard.head c.current.kind with
    | none => exact fails ha rfl rfl
    | some rule => exact (head_matches h rule).passed hc ha (plain_of_head hr)

theorem operator_matches (h : d.Matches all) (p : Power) (left : Expr) :
    Parse.Matches all rest (operator .standard d p left) where
  steady := operator_steady h.steady p left
  run c hc ha := by
    simp only [operator,peek_bind]
    split
    · cases hr : Grammar.standard.tail c.peek.kind with
      | none => exact .inl .refl
      | some rule =>
        obtain ⟨hp,hk⟩ := plain_of_tail hr
        have ht := bind (tail_matches h rule left (Grammar.standard.power c.peek.kind))
          fun e => @pure (Round Expr Expr) all (.again e)
        have hm : Precedence.Matched c.rest c.advance.rest := by
          rw [hc.rest_eq hk]
          exact .plain rfl hp
        exact (ht.run c.advance hc.advance fun _ ht => ha (List.mem_of_mem_tail ht)).after
          (.advance c) (.inl hm) (ht.steady c.advance hc.last)
    · exact .inl .refl

theorem expression_matches (h : d.Matches all) (p : Power) :
    Parse.Matches all ahead (expression .standard d p) :=
  bind (firstOperand_matches h) fun _ =>
    loop (operator_matches h p) (operator_progresses h.steady p) _

theorem value_matches (h : d.Matches all) (f : Expr → Stmt) : Parse.Matches all ahead
    (d.expr .lowest >>= fun e => Parse.skip .semicolon >>= fun _ => Pure.pure (f e)) :=
  bind (h.expr _) fun _ => bind (skip rfl (by decide)) fun _ => pure _

theorem expressionStatement_matches (h : d.Matches all) :
    Parse.Matches all ahead d.expressionStatement where
  steady := expressionStatement_steady h.steady
  run c := (value_matches h (.expression c.current)).run c

theorem bindingStatement_matches (h : d.Matches all) :
    Parse.Matches all rest d.bindingStatement := by
  refine bind current fun t => bind (expect rfl (by decide)) fun n => ?_
  exact bind (expect rfl (by decide)) fun _ => behind fun _ =>
    value_matches h (.binding t (.ofToken n))

theorem resultStatement_matches (h : d.Matches all) : Parse.Matches all rest d.resultStatement := by
  refine behind fun t => ⟨?_,fun c hc ha => ?_⟩
  · exact .bind .current fun _ => .ite (.pure _) (value_matches h fun e => .result t (some e)).steady
  · rw [current_bind]
    split
    · rename_i hk
      exact (pure _).passed hc ha (by rw [hk]; rfl)
    · exact (value_matches h fun e => .result t (some e)).run c hc ha

theorem statement_matches (h : d.Matches all) : Parse.Matches all ahead (statement .standard d) where
  steady := statement_steady h.steady
  run c hc ha := by
    simp only [statement,current_bind]
    cases hk : c.current.kind
    case letWord => exact (bindingStatement_matches h).passed hc ha (by rw [hk]; rfl)
    case returnWord => exact (resultStatement_matches h).passed hc ha (by rw [hk]; rfl)
    all_goals exact (expressionStatement_matches h).run c hc ha

/-- The braces of statements are matched up to the token at which reading stops: where a statement
fails, the token at which it does is left behind. -/
theorem statements_matched (h : d.Matches all) {stop : Kind → Bool} (hstop : stop .endOfInput = true)
    {ss : List Stmt} {e : Cursor} (read : List Stmt) (c : Cursor) (hc : c.Proper) (ha : c.ahead ⊆ all)
    (hs : loop (moreStatements .standard d stop) read c = .done ss e) :
    Matched c.ahead e.ahead ∨ e.Skips all c := by
  have hst := statement_matches h
  fun_induction loop (moreStatements .standard d stop) read c with
  | case1 read c r c' hr =>
    obtain ⟨-,rfl⟩ := Outcome.done.inj hs
    obtain ⟨-,-,rfl⟩ := moreStatements_stop hr
    exact .inl .refl
  | case2 read c next c' hr _ ih =>
    obtain ⟨-,o,c₁,ho,-,rfl⟩ := moreStatements_again hr
    have hf := (Steady.attempt hst.steady).follows hc ho
    have hc₁ := (hf.proper hc).advance
    have hlater := (Steady.loop (moreStatements_steady h.steady stop)
      (moreStatements_progresses h.steady hstop) _).follows hc₁ hs
    rcases hst.attempt hc ha ho with hround | hround
    · have hrest := ih hc₁ (fun _ ht => ha (hf.ahead.subset (List.mem_of_mem_tail ht))) hs
      exact hrest.imp hround.trans (·.earlier ((Follows.advance c₁).trans hf))
    · exact .inr (hround.later (hlater.trans (.advance c₁)))
  | case3 => simp at hs
  | case4 => simp at hs
  | case5 => simp at hs

theorem body_matched (h : d.Matches all) {c e : Cursor} {b : Block} (hc : c.Proper)
    (ha : c.ahead ⊆ all) (hk : c.current.kind = .openBrace) (hb : body .standard d c = .done b e) :
    (e.ahead = closer 0 c.rest ∧ Matched c.ahead e.rest) ∨ e.Skips all c := by
  simp only [body,advance_bind,bind_eq_done] at hb
  obtain ⟨ss,e,hss,hdone⟩ := hb
  obtain ⟨-,rfl⟩ := Outcome.done.inj hdone
  have hend := statements_stop hss
  have he := (statements_steady h.steady rfl).proper hc.advance hss
  have hclose : ∀ t ∈ e.ahead.head?, t.kind = .closeBrace := by
    intro t ht
    obtain ⟨ts,hts⟩ := List.head?_eq_some_iff.mp ht
    rw [current_of_ahead hts] at hend
    have hne := he.ahead t (by simp [hts])
    simpa [endsBlock,hne] using hend
  have hm := statements_matched h rfl [] c.advance hc.advance
    (fun _ ht => ha (List.mem_of_mem_tail ht)) hss
  rcases hm with hm | hm
  · rw [hc.ahead_eq (by simp [hk])]
    obtain ⟨hown,hrest⟩ := Matched.block hk hm hclose
    exact .inl ⟨hown.symm,hrest⟩
  · exact .inr (hm.earlier (.advance c))

theorem body_ne_failed {d : Descent} (c : Cursor) (f : Fault) (c' : Cursor) :
    body .standard d c ≠ .failed f c' := by
  intro h
  rw [body,advance_bind,bind_apply] at h
  cases hs : statements .standard d endsBlock c.advance with
  | done ss e => simp [hs] at h
  | failed f e => exact loop_moreStatements_ne_failed _ _ _ _ hs
  | endless => simp [hs] at h

theorem within_matches (all : List Token) (n : Nat) : (within .standard n).Matches all := by
  induction n with
  | zero => exact ⟨fun _ => tooDeep,.tooDeep,fun c hc ha _ => tooDeep.run c hc ha⟩
  | succ n ih =>
    refine ⟨fun p => nested (expression_matches ih p),.nested (body_steady ih.steady),?_⟩
    intro c hc ha hk
    change (Parse.nested (body .standard (within .standard n)) c).Matched all c c.ahead
    unfold Parse.nested
    cases hb : body .standard (within .standard n) c.deeper with
    | done b e => exact (body_matched ih hc.deeper ha hk hb).imp_left And.right
    | failed f e => exact absurd hb (body_ne_failed _ _ _)
    | endless => trivial

end Descent
end Precedence
