import Precedence.Proofs.Descent.Repetition
import Precedence.Proofs.Syntax.Layers

/-! Readings of tokens that end early. As long as a reading stays in front of an edge it is the same
whatever comes behind: where tokens go on behind the edge, none of them is taken unless the reading
passes the edge. A reading that fails at the edge has passed it once its fault is kept. -/
namespace Precedence
open Parse Cursor

/-- The cursor has come to what is behind the edge. -/
def Cursor.Past (more : List Token) (c : Cursor) : Prop := c.ahead.length ≤ more.length

/-- Two cursors in front of an edge that differ only in what comes behind it: tokens that go on for
the first, and the end of input for the second. -/
structure Cursor.Trimmed (more : List Token) (c d : Cursor) : Prop where
  ahead : c.ahead = d.ahead ++ more
  front : d.ahead ≠ []
  last : c.last.kind = .endOfInput
  last' : d.last.kind = .endOfInput
  depth : d.depth = c.depth
  faults : d.faults = c.faults

/-- The second reading does as the first, unless the first has passed the edge or fails at it. -/
def Outcome.Trims {α : Type} (more : List Token) : Outcome α → Outcome α → Prop
  | .done a c, o => c.Past more ∨ ∃ d, o = .done a d ∧ c.Trimmed more d
  | .failed f c, o => c.advance.Past more ∨ ∃ d, o = .failed f d ∧ c.Trimmed more d
  | .endless, _ => True

/-- An action that only reads on, and does not depend on what comes behind an edge that it does not
pass. -/
structure Parse.Trims {α : Type} (more : List Token) (p : Parse α) : Prop where
  steady : Steady .standard p
  run : ∀ c d, c.Trimmed more d → (p c).Trims more (p d)

namespace Cursor
variable {more : List Token} {c d : Cursor}

theorem Past.later (h : c.Past more) (hf : d.Follows c) : d.Past more :=
  Nat.le_trans hf.ahead.length_le h

namespace Trimmed

theorem current (h : c.Trimmed more d) : c.current = d.current := by
  obtain ⟨t,ts,ht⟩ := List.exists_cons_of_ne_nil h.front
  rw [current_of_ahead (h.ahead.trans (by rw [ht]; rfl)),current_of_ahead ht]

theorem deeper (h : c.Trimmed more d) : c.deeper.Trimmed more d.deeper :=
  ⟨h.ahead,h.front,h.last,h.last',congrArg (·+1) h.depth,h.faults⟩

theorem leave (h : c.Trimmed more d) : c.leave.Trimmed more d.leave :=
  ⟨h.ahead,h.front,h.last,h.last',congrArg (·-1) h.depth,h.faults⟩

theorem record (f : Fault) (h : c.Trimmed more d) : (c.record f).Trimmed more (d.record f) :=
  ⟨h.ahead,h.front,h.last,h.last',h.depth,congrArg (·.push f) h.faults⟩

/-- Moving on, the cursors stay together, or the current token was the last one in front of the
edge. -/
theorem step (h : c.Trimmed more d) :
    c.peek = d.peek ∧ c.advance.Trimmed more d.advance ∨
      c.advance.Past more ∧ d.peek.kind = .endOfInput := by
  obtain ⟨t,ts,ht⟩ := List.exists_cons_of_ne_nil h.front
  have hc : c.rest = ts ++ more := rest_of_ahead (h.ahead.trans (by rw [ht]; rfl))
  have hd : d.rest = ts := rest_of_ahead ht
  cases ts with
  | nil =>
    refine .inr ⟨?_,?_⟩
    · rw [Past,ahead_advance,hc]
      exact Nat.le_refl _
    · rw [peek_eq,hd]
      exact h.last'
  | cons u us =>
    refine .inl ⟨(peek_of_rest hc).trans (peek_of_rest hd).symm,?_,?_,h.last,h.last',h.depth,
      h.faults⟩
    · rw [ahead_advance,ahead_advance,hc,hd]
    · rw [ahead_advance,hd]
      exact List.cons_ne_nil _ _

theorem left_lt {c' d' : Cursor} (h : c.Trimmed more d) (h' : c'.Trimmed more d')
    (hl : c'.left < c.left) : d'.left < d.left := by
  simp only [Cursor.left_eq,h.ahead,h'.ahead,List.length_append] at hl ⊢
  omega

end Trimmed
end Cursor

namespace Parse.Trims
variable {α β : Type} {more : List Token} {p : Parse α} {k : Kind}

theorem past (hp : Steady .standard p) {c : Cursor} (hl : c.last.kind = .endOfInput)
    (hc : c.Past more) (o : Outcome α) : (p c).Trims more o := by
  have hf := hp c hl
  cases hpc : p c with
  | done a d =>
    rw [hpc] at hf
    exact .inl (hc.later hf)
  | failed f d =>
    rw [hpc] at hf
    exact .inl ((hc.later hf).later (.advance d))
  | endless => trivial

theorem pure (a : α) : Trims more (pure a : Parse α) :=
  ⟨.pure a,fun _ _ h => .inr ⟨_,rfl,h⟩⟩

theorem goes_on {q : α → Parse β} (hp : Steady .standard p) (hq : ∀ a, Trims more (q a))
    {c d : Cursor} (hl : c.last.kind = .endOfInput) (h : (p c).Trims more (p d)) :
    ((p >>= q) c).Trims more ((p >>= q) d) := by
  have hf := hp c hl
  rw [bind_apply]
  cases hpc : p c with
  | done a c' =>
    rw [hpc] at h hf
    rcases h with hpast | ⟨d',hd,hcd⟩
    · exact past (hq a).steady ((congrArg Token.kind hf.last).trans hl) hpast _
    · rw [bind_of_done hd]
      exact (hq a).run c' d' hcd
  | failed f c' =>
    rw [hpc] at h
    rcases h with hpast | ⟨d',hd,hcd⟩
    · exact .inl hpast
    · rw [bind_of_failed hd]
      exact .inr ⟨d',rfl,hcd⟩
  | endless => trivial

theorem bind {q : α → Parse β} (hp : Trims more p) (hq : ∀ a, Trims more (q a)) :
    Trims more (p >>= q) where
  steady := .bind hp.steady fun a => (hq a).steady
  run c d h := goes_on hp.steady hq h.last (hp.run c d h)

theorem current : Trims more Parse.current :=
  ⟨.current,fun _ _ h => .inr ⟨_,by rw [current_apply,h.current],h⟩⟩

theorem ite {t : Prop} [Decidable t] {q : Parse α} (hp : Trims more p) (hq : Trims more q) :
    Trims more (if t then p else q) := by
  split
  · exact hp
  · exact hq

theorem advance : Trims more Parse.advance where
  steady := .advance
  run c d h := by
    rw [advance_apply,advance_apply,h.current]
    rcases h.step with ⟨-,hcd⟩ | ⟨hpast,-⟩
    · exact .inr ⟨_,rfl,hcd⟩
    · exact .inl hpast

/-- At the edge the first reading passes it or fails at it, whatever the second one finds there. -/
theorem expect (k : Kind) : Trims more (Parse.expect k) where
  steady := .expect k
  run c d h := by
    unfold Parse.expect
    rcases h.step with ⟨hpeek,hcd⟩ | ⟨hpast,-⟩
    · rw [hpeek]
      by_cases hd : d.peek.kind = k
      · rw [if_pos hd,if_pos hd]
        exact .inr ⟨_,rfl,hcd⟩
      · rw [if_neg hd,if_neg hd]
        exact .inr ⟨_,rfl,h⟩
    · by_cases hc : c.peek.kind = k
      · rw [if_pos hc]
        exact .inl hpast
      · rw [if_neg hc]
        exact .inl hpast

theorem lookahead {q : Token → Parse α} (hk : k ≠ .endOfInput) (hq : ∀ t, Trims more (q t))
    (hp : Trims more p) :
    Trims more (Parse.peekIs k >>= fun b => if b then Parse.advance >>= q else p) where
  steady := .bind (.peekIs k) fun _ => .ite (.bind .advance fun t => (hq t).steady) hp.steady
  run c d h := by
    rw [peekIs_bind,peekIs_bind]
    rcases h.step with ⟨hpeek,hcd⟩ | ⟨hpast,hend⟩
    · rw [hpeek]
      split
      · exact (bind advance hq).run c d h
      · exact hp.run c d h
    · rw [if_neg (show ¬ (d.peek.kind == k) = true by simpa [hend] using hk.symm)]
      split
      · exact past (hq _).steady (c := c.advance) h.last hpast _
      · exact hp.run c d h

theorem skip (hk : k ≠ .endOfInput) : Trims more (Parse.skip k) where
  steady := .skip k
  run c d h := by
    rw [skip_apply,skip_apply]
    rcases h.step with ⟨hpeek,hcd⟩ | ⟨hpast,hend⟩
    · rw [hpeek]
      split
      · exact .inr ⟨_,rfl,hcd⟩
      · exact .inr ⟨_,rfl,h⟩
    · rw [if_neg (show ¬ d.peek.kind = k from hend ▸ hk.symm)]
      split
      · exact .inl hpast
      · exact .inr ⟨_,rfl,h⟩

theorem tooDeep : Trims more (Parse.tooDeep : Parse α) :=
  ⟨.tooDeep,fun _ _ h => .inr ⟨_,by rw [Parse.tooDeep,h.current],h⟩⟩

theorem nested (hp : Trims more p) : Trims more (Parse.nested p) where
  steady := .nested hp.steady
  run c d h := by
    have hr := hp.run c.deeper d.deeper h.deeper
    unfold Parse.nested
    cases hpc : p c.deeper with
    | done a c' =>
      rw [hpc] at hr
      rcases hr with hpast | ⟨d',hd,hcd⟩
      · exact .inl hpast
      · rw [hd]
        exact .inr ⟨_,rfl,hcd.leave⟩
    | failed f c' =>
      rw [hpc] at hr
      rcases hr with hpast | ⟨d',hd,hcd⟩
      · exact .inl hpast
      · rw [hd]
        exact .inr ⟨_,rfl,hcd.leave⟩
    | endless => trivial

/-- Where an attempt fails at the edge, the step behind it passes the edge. -/
theorem attempt {q : Option α → Parse β} (hp : Trims more p) (hq : ∀ o, Trims more (q o)) :
    Trims more (Parse.attempt p >>= fun o => Parse.advance >>= fun _ => q o) where
  steady := .bind (.attempt hp.steady) fun o => .bind .advance fun _ => (hq o).steady
  run c d h := by
    have hr := hp.run c d h
    have hf := hp.steady c h.last
    rw [bind_apply,bind_apply]
    unfold Parse.attempt
    cases hpc : p c with
    | done a c' =>
      rw [hpc] at hr hf
      have hl := (congrArg Token.kind hf.last).trans h.last
      rcases hr with hpast | ⟨d',hd,hcd⟩
      · exact past (hq (some a)).steady (c := c'.advance) hl (hpast.later (.advance c')) _
      · rw [hd]
        exact (bind advance fun _ => hq (some a)).run c' d' hcd
    | failed f c' =>
      rw [hpc] at hr hf
      have hl := (congrArg Token.kind hf.last).trans h.last
      rcases hr with hpast | ⟨d',hd,hcd⟩
      · exact past (hq none).steady (c := (c'.record f).advance) hl hpast _
      · rw [hd]
        exact (bind advance fun _ => hq none).run _ _ (hcd.record f)
    | endless => trivial

theorem loop {round : α → Parse (Round α β)} (h : ∀ a, Trims more (round a))
    (hr : Steady.Progresses .standard round) (a : α) : Trims more (Parse.loop round a) where
  steady := .loop (fun a => (h a).steady) hr a
  run c d hcd := by
    have hsteady := Steady.loop (fun a => (h a).steady) hr
    fun_induction Parse.loop round a c generalizing d with
    | case1 a c b e he =>
      have ho := (h a).run c d hcd
      rw [he] at ho
      rcases ho with hpast | ⟨d',hd,hed⟩
      · exact .inl hpast
      · rw [loop_stop hd]
        exact .inr ⟨d',rfl,hed⟩
    | case2 a c b e he hlt ih =>
      have ho := (h a).run c d hcd
      have hf := (h a).steady.done hcd.last he
      rw [he] at ho
      rcases ho with hpast | ⟨d',hd,hed⟩
      · exact past (hsteady b) ((congrArg Token.kind hf.last).trans hcd.last) hpast _
      · rw [loop_again hd (hcd.left_lt hed hlt)]
        exact ih d' hed
    | case3 => trivial
    | case4 a c f e he =>
      have ho := (h a).run c d hcd
      rw [he] at ho
      rcases ho with hpast | ⟨d',hd,hed⟩
      · exact .inl hpast
      · rw [loop_failed hd]
        exact .inr ⟨d',rfl,hed⟩
    | case5 => trivial

end Parse.Trims

structure Descent.Trims (more : List Token) (d : Descent) : Prop where
  expr : ∀ p, Parse.Trims more (d.expr p)
  block : Parse.Trims more d.block

namespace Descent
variable {α : Type} {more : List Token} {d : Descent}
open Parse.Trims

theorem Trims.steady (h : d.Trims more) : d.Steady .standard :=
  ⟨fun p => (h.expr p).steady,h.block.steady⟩

theorem listed_trims {item : Parse α} (h : Parse.Trims more item) :
    Parse.Trims more (listed item) := by
  refine lookahead (by decide) (fun _ => pure _) (bind h fun _ => ?_)
  refine bind (loop (fun xs => ?_) (moreItems_progresses h.steady) _) fun _ =>
    bind (expect _) fun _ => pure _
  exact lookahead (by decide) (fun _ => bind h fun _ => pure _) (pure _)

theorem integer_trims : Parse.Trims more integer where
  steady := integer_steady
  run c e h := by
    simp only [integer,current_bind,h.current]
    cases Text.numeral? e.current.text with
    | none => exact .inr ⟨_,rfl,h⟩
    | some n => exact .inr ⟨_,rfl,h⟩

section Rules
variable (h : d.Trims more)
include h

theorem alternative_trims : Parse.Trims more d.alternative := by
  refine lookahead (by decide) (fun _ => ?_) (pure _)
  exact bind (expect _) fun _ => bind h.block fun _ => pure _

theorem conditional_trims : Parse.Trims more d.conditional := by
  refine bind current fun _ => bind (expect _) fun _ => bind advance fun _ => ?_
  refine bind (h.expr _) fun _ => bind (expect _) fun _ => ?_
  refine bind (expect _) fun _ => bind h.block fun _ => ?_
  exact bind (alternative_trims h) fun _ => pure _

theorem function_trims : Parse.Trims more d.function := by
  refine bind current fun _ => bind (expect _) fun _ => bind ?_ fun _ =>
    bind (expect _) fun _ => bind h.block fun _ => pure _
  exact listed_trims (bind (expect _) fun _ => pure _)

theorem head_trims (r : HeadRule) : Parse.Trims more (d.head r) := by
  cases r with
  | name => exact bind current fun _ => pure _
  | integer => exact integer_trims
  | boolean => exact bind current fun _ => pure _
  | unary => exact bind advance fun _ => bind (h.expr _) fun _ => pure _
  | group =>
    exact bind advance fun _ => bind (h.expr _) fun _ => bind (expect _) fun _ => pure _
  | conditional => exact conditional_trims h
  | function => exact function_trims h

theorem tail_trims (r : TailRule) (left : Expr) (p : Power) : Parse.Trims more (d.tail r left p) := by
  cases r with
  | binary => exact bind advance fun _ => bind (h.expr _) fun _ => pure _
  | call =>
    exact bind current fun _ => bind (listed_trims (bind advance fun _ => h.expr _)) fun _ => pure _

theorem firstOperand_trims : Parse.Trims more (firstOperand .standard d) where
  steady := firstOperand_steady h.steady
  run c e hce := by
    simp only [firstOperand,current_bind,hce.current]
    cases Grammar.standard.head e.current.kind with
    | none => exact .inr ⟨_,rfl,hce⟩
    | some rule => exact (head_trims h rule).run c e hce

theorem operator_trims (p : Power) (left : Expr) :
    Parse.Trims more (operator .standard d p left) where
  steady := operator_steady h.steady p left
  run c e hce := by
    have ht (rule : TailRule) (power : Power) :=
      bind (tail_trims h rule left power) fun e => @pure (Round Expr Expr) more (.again e)
    simp only [operator,peek_bind]
    rcases hce.step with ⟨hpeek,hnext⟩ | ⟨hpast,hend⟩
    · rw [hpeek]
      split
      · cases Grammar.standard.tail e.peek.kind with
        | none => exact .inr ⟨_,rfl,hce⟩
        | some rule => exact (ht rule _).run c.advance e.advance hnext
      · exact .inr ⟨_,rfl,hce⟩
    · have hstop : ¬ (e.peek.kind ≠ .semicolon ∧ p < Grammar.standard.power e.peek.kind) := by
        rw [hend]
        exact fun hlt => p.not_lt_lowest hlt.2
      rw [if_neg hstop]
      split
      · cases Grammar.standard.tail c.peek.kind with
        | none => exact .inr ⟨_,rfl,hce⟩
        | some rule => exact past (ht rule _).steady (c := c.advance) hce.last hpast _
      · exact .inr ⟨_,rfl,hce⟩

theorem expression_trims (p : Power) : Parse.Trims more (expression .standard d p) :=
  bind (firstOperand_trims h) fun _ =>
    loop (operator_trims h p) (operator_progresses h.steady p) _

theorem value_trims (f : Expr → Stmt) : Parse.Trims more
    (d.expr .lowest >>= fun e => Parse.skip .semicolon >>= fun _ => Pure.pure (f e)) :=
  bind (h.expr _) fun _ => bind (skip (by decide)) fun _ => pure _

theorem expressionStatement_trims : Parse.Trims more d.expressionStatement :=
  bind current fun t => value_trims h (.expression t)

theorem bindingStatement_trims : Parse.Trims more d.bindingStatement := by
  refine bind current fun t => bind (expect _) fun n => ?_
  exact bind (expect _) fun _ => bind advance fun _ => value_trims h (.binding t (.ofToken n))

theorem resultStatement_trims : Parse.Trims more d.resultStatement :=
  bind advance fun t => bind current fun _ => ite (pure _) (value_trims h fun e => .result t (some e))

theorem statement_trims : Parse.Trims more (statement .standard d) where
  steady := statement_steady h.steady
  run c e hce := by
    simp only [statement,current_bind,hce.current]
    cases e.current.kind
    case letWord => exact (bindingStatement_trims h).run c e hce
    case returnWord => exact (resultStatement_trims h).run c e hce
    all_goals exact (expressionStatement_trims h).run c e hce

theorem moreStatements_trims (stop : Kind → Bool) (read : List Stmt) :
    Parse.Trims more (moreStatements .standard d stop read) :=
  bind current fun _ => ite (pure _) (attempt (statement_trims h) fun _ => pure _)

theorem body_trims : Parse.Trims more (body .standard d) := by
  refine bind advance fun _ => bind ?_ fun _ => pure _
  exact loop (moreStatements_trims h _) (moreStatements_progresses h.steady rfl) _

end Rules

theorem within_trims (more : List Token) (n : Nat) : (within .standard n).Trims more := by
  induction n with
  | zero => exact ⟨fun _ => tooDeep,tooDeep⟩
  | succ n ih => exact ⟨fun p => nested (expression_trims ih p),nested (body_trims ih)⟩

/-- A statement is read alike where input ends right behind its last token. -/
theorem statement_trimmed {n : Nat} {s : Stmt} {c c' d : Cursor} (h : c.Trimmed more d)
    (hs : statement .standard (within .standard n) c = .done s c')
    (hc : more.length < c'.ahead.length) :
    ∃ d', statement .standard (within .standard n) d = .done s d' ∧ c'.Trimmed more d' := by
  have hr := (statement_trims (within_trims more n)).run c d h
  rw [hs] at hr
  exact hr.resolve_left (Nat.not_le.mpr hc)

end Descent
end Precedence
