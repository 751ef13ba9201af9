import Precedence.Parser
import Precedence.Proofs.Descent.Steps

/-! What every reading leaves alone, whether it ends with a value or with a fault: the cursor only
reads on, all levels opened are closed again, and faults are only added behind those found before.
A reading without end is the fault of the grammar. -/
namespace Precedence

/-- Nothing goes on behind the end of input, and no statement rule asks the grammar again. -/
structure Grammar.Terminating (g : Grammar) : Prop where
  tail : g.tail .endOfInput = none
  statement : ∀ k, g.statement k ≠ some .any

theorem Grammar.standard_terminating : Grammar.standard.Terminating where
  tail := rfl
  statement k := by cases k <;> decide

/-- One cursor comes from another by reading on. -/
structure Cursor.Follows (d c : Cursor) : Prop where
  ahead : d.ahead <:+ c.ahead
  last : d.last = c.last
  depth : d.depth = c.depth
  faults : c.faults.toList <+: d.faults.toList

namespace Cursor.Follows

theorem refl (c : Cursor) : c.Follows c :=
  ⟨List.suffix_rfl,rfl,rfl,List.prefix_rfl⟩

theorem trans {a b c : Cursor} (h : a.Follows b) (k : b.Follows c) : a.Follows c :=
  ⟨h.ahead.trans k.ahead,h.last.trans k.last,h.depth.trans k.depth,k.faults.trans h.faults⟩

theorem advance (c : Cursor) : c.advance.Follows c :=
  ⟨List.tail_suffix _,rfl,rfl,List.prefix_rfl⟩

theorem record (c : Cursor) (f : Fault) : (c.record f).Follows c :=
  ⟨List.suffix_rfl,rfl,rfl,by simp⟩

theorem leave {d c : Cursor} (h : d.Follows c.deeper) : d.leave.Follows c :=
  ⟨h.ahead,h.last,by simp [Cursor.leave,h.depth,deeper],h.faults⟩

theorem left_le {d c : Cursor} (h : d.Follows c) : d.left ≤ c.left := by
  rw [d.left_eq,c.left_eq]
  exact h.ahead.length_le

end Cursor.Follows

def Outcome.Follows {α : Type} (g : Grammar) (o : Outcome α) (c : Cursor) : Prop :=
  match o with
  | .done _ d | .failed _ d => d.Follows c
  | .endless => ¬ g.Terminating

/-- An action that only reads on. -/
def Parse.Steady {α : Type} (g : Grammar) (p : Parse α) : Prop :=
  ∀ c, c.last.kind = .endOfInput → (p c).Follows g c

theorem Outcome.Follows.trans {α : Type} {g : Grammar} {o : Outcome α} {d c : Cursor}
    (h : o.Follows g d) (k : d.Follows c) : o.Follows g c := by
  cases o with
  | done a e => exact Cursor.Follows.trans h k
  | failed f e => exact Cursor.Follows.trans h k
  | endless => exact h

namespace Cursor

theorem ahead_ne_nil {c : Cursor} (hl : c.last.kind = .endOfInput)
    (h : c.current.kind ≠ .endOfInput) : c.ahead ≠ [] := by
  intro ha
  simp [current,ha,hl] at h

theorem tail_ne_nil {c : Cursor} (hl : c.last.kind = .endOfInput)
    (h : c.peek.kind ≠ .endOfInput) : c.ahead.tail ≠ [] := by
  intro ha
  simp [peek,ha,hl] at h

theorem advance_left_lt_of_peek {c : Cursor} (hl : c.last.kind = .endOfInput)
    (h : c.peek.kind ≠ .endOfInput) : c.advance.left < c.left := by
  apply advance_left_lt
  intro ha
  exact tail_ne_nil hl h (by simp [ha])

end Cursor

namespace Parse.Steady
variable {α β : Type} {g : Grammar}
open Cursor.Follows

theorem done {p : Parse α} (hp : Steady g p) {c d : Cursor} {a : α}
    (hl : c.last.kind = .endOfInput) (h : p c = .done a d) : d.Follows c := by
  have hf := hp c hl
  rw [h] at hf
  exact hf

theorem pure (a : α) : Steady g (pure a : Parse α) := fun c _ => refl c

theorem bind {p : Parse α} {q : α → Parse β} (hp : Steady g p) (hq : ∀ a, Steady g (q a)) :
    Steady g (p >>= q) := by
  intro c hl
  have h := hp c hl
  rw [bind_apply]
  cases hc : p c with
  | done a d =>
    rw [hc] at h
    exact (hq a d ((congrArg Token.kind h.last).trans hl)).trans h
  | failed f d => rw [hc] at h; exact h
  | endless => rw [hc] at h; exact h

theorem current : Steady g Parse.current := fun c _ => refl c

theorem peek : Steady g Parse.peek := fun c _ => refl c

theorem peekIs (k : Kind) : Steady g (Parse.peekIs k) := fun c _ => refl c

theorem advance : Steady g Parse.advance := fun c _ => Cursor.Follows.advance c

theorem fail (e : Cause) (p : Position) : Steady g (Parse.fail e p : Parse α) :=
  fun c _ => refl c

theorem tooDeep : Steady g (Parse.tooDeep : Parse α) := fun c _ => refl c

theorem diverge (h : ¬ g.Terminating) : Steady g (Parse.diverge : Parse α) := fun _ _ => h

theorem expect (k : Kind) : Steady g (Parse.expect k) := by
  intro c _
  unfold Parse.expect
  split
  · exact Cursor.Follows.advance c
  · exact refl c

theorem skip (k : Kind) : Steady g (Parse.skip k) := by
  intro c _
  unfold Parse.skip
  simp only [Outcome.Follows]
  split
  · exact Cursor.Follows.advance c
  · exact refl c

theorem ite {t : Prop} [Decidable t] {p q : Parse α} (hp : Steady g p) (hq : Steady g q) :
    Steady g (if t then p else q) := by
  split
  · exact hp
  · exact hq

theorem nested {p : Parse α} (hp : Steady g p) : Steady g (Parse.nested p) := by
  intro c hl
  have h := hp c.deeper hl
  unfold Parse.nested
  cases hc : p c.deeper with
  | done a d => rw [hc] at h; exact leave h
  | failed f d => rw [hc] at h; exact leave h
  | endless => rw [hc] at h; exact h

theorem attempt {p : Parse α} (hp : Steady g p) : Steady g (Parse.attempt p) := by
  intro c hl
  have h := hp c hl
  unfold Parse.attempt
  cases hc : p c with
  | done a d => rw [hc] at h; exact h
  | failed f d => rw [hc] at h; exact (record d f).trans h
  | endless => rw [hc] at h; exact h

/-- A round that asks for another one has used up a token, unless the grammar is to blame. -/
def Progresses (g : Grammar) (round : α → Parse (Round α β)) : Prop :=
  ∀ a c b d, c.last.kind = .endOfInput → round a c = .done (.again b) d →
    d.left < c.left ∨ ¬ g.Terminating

theorem loop {round : α → Parse (Round α β)} (h : ∀ a, Steady g (round a))
    (hr : Progresses g round) (a : α) : Steady g (Parse.loop round a) := by
  intro c hl
  fun_induction Parse.loop round a c with
  | case1 a c b d hd => exact (h a).done hl hd
  | case2 a c b d hd _ ih =>
    have hf := (h a).done hl hd
    exact (ih ((congrArg Token.kind hf.last).trans hl)).trans hf
  | case3 a c b d hd hn => exact (hr a c b d hl hd).resolve_left hn
  | case4 a c f d hd =>
    have hf := h a c hl
    rw [hd] at hf
    exact hf
  | case5 a c hd =>
    have hf := h a c hl
    rw [hd] at hf
    exact hf

end Parse.Steady

structure Descent.Steady (g : Grammar) (d : Descent) : Prop where
  expr : ∀ p, Parse.Steady g (d.expr p)
  block : Parse.Steady g d.block

namespace Descent
variable {α : Type} {g : Grammar} {d : Descent}
open Parse.Steady

theorem moreItems_steady {item : Parse α} (h : Parse.Steady g item) (xs : List α) :
    Parse.Steady g (moreItems item xs) := by
  refine bind (peekIs _) fun b => ite ?_ (pure _)
  exact bind advance fun _ => bind h fun _ => pure _

theorem moreItems_progresses {item : Parse α} (h : Parse.Steady g item) :
    Progresses g (moreItems item) := by
  intro xs c ys e hl hr
  refine .inl ?_
  simp only [moreItems,Parse.peekIs_bind] at hr
  split at hr
  · rename_i hk
    simp only [Parse.advance_bind,Parse.bind_eq_done] at hr
    obtain ⟨x,e',hx,he⟩ := hr
    have hf := h.done (c := c.advance) hl hx
    have hp : c.peek.kind ≠ .endOfInput := by
      rw [eq_of_beq hk]
      decide
    obtain ⟨_,rfl⟩ := Outcome.done.inj he
    exact Nat.lt_of_le_of_lt hf.left_le (Cursor.advance_left_lt_of_peek hl hp)
  · simp at hr

theorem listed_steady {item : Parse α} (h : Parse.Steady g item) :
    Parse.Steady g (listed item) := by
  refine bind (peekIs _) fun b => ite (bind advance fun _ => pure _) ?_
  refine bind h fun x => bind ?_ fun _ => bind (expect _) fun _ => pure _
  exact loop (moreItems_steady h) (moreItems_progresses h) _

theorem argument_steady (h : d.Steady g) : Parse.Steady g d.argument :=
  bind advance fun _ => h.expr _

theorem alternative_steady (h : d.Steady g) : Parse.Steady g d.alternative := by
  refine bind (peekIs _) fun b => ite ?_ (pure _)
  exact bind advance fun _ => bind (expect _) fun _ => bind h.block fun _ => pure _

theorem conditional_steady (h : d.Steady g) : Parse.Steady g d.conditional := by
  refine bind current fun _ => bind (expect _) fun _ => bind advance fun _ => ?_
  refine bind (h.expr _) fun _ => bind (expect _) fun _ => bind (expect _) fun _ => ?_
  exact bind h.block fun _ => bind (alternative_steady h) fun _ => pure _

theorem function_steady (h : d.Steady g) : Parse.Steady g d.function := by
  refine bind current fun _ => bind (expect _) fun _ => bind (listed_steady ?_) fun _ => ?_
  · exact bind (expect _) fun _ => pure _
  · exact bind (expect _) fun _ => bind h.block fun _ => pure _

theorem integer_steady : Parse.Steady g integer := by
  refine bind current fun t => ?_
  split
  · exact pure _
  · exact fail _ _

theorem head_steady (h : d.Steady g) (r : HeadRule) : Parse.Steady g (d.head r) := by
  cases r with
  | name => exact bind current fun _ => pure _
  | integer => exact integer_steady
  | boolean => exact bind current fun _ => pure _
  | unary => exact bind advance fun _ => bind (h.expr _) fun _ => pure _
  | group => exact bind advance fun _ => bind (h.expr _) fun _ => bind (expect _) fun _ => pure _
  | conditional => exact conditional_steady h
  | function => exact function_steady h

theorem tail_steady (h : d.Steady g) (r : TailRule) (e : Expr) (p : Power) :
    Parse.Steady g (d.tail r e p) := by
  cases r with
  | binary => exact bind advance fun _ => bind (h.expr _) fun _ => pure _
  | call => exact bind current fun _ => bind (listed_steady (argument_steady h)) fun _ => pure _

theorem operator_steady (h : d.Steady g) (p : Power) (e : Expr) :
    Parse.Steady g (operator g d p e) := by
  refine bind peek fun t => ite ?_ (pure _)
  split
  · exact pure _
  · exact bind advance fun _ => bind (tail_steady h _ _ _) fun _ => pure _

theorem operator_progresses (h : d.Steady g) (p : Power) : Progresses g (operator g d p) := by
  intro e c e' c' hl hr
  refine (Classical.em g.Terminating).symm.elim .inr fun hg => .inl ?_
  simp only [operator,Parse.peek_bind] at hr
  split at hr
  · cases hrule : g.tail c.peek.kind with
    | none => simp [hrule] at hr
    | some rule =>
      simp only [hrule,Parse.advance_bind,Parse.bind_eq_done] at hr
      obtain ⟨x,c'',hx,he⟩ := hr
      have hf := (tail_steady h _ _ _).done (c := c.advance) hl hx
      have hp : c.peek.kind ≠ .endOfInput := by
        intro hk
        rw [hk,hg.tail] at hrule
        simp at hrule
      obtain ⟨_,rfl⟩ := Outcome.done.inj he
      exact Nat.lt_of_le_of_lt hf.left_le (Cursor.advance_left_lt_of_peek hl hp)
  · simp at hr

theorem operators_steady (h : d.Steady g) (p : Power) (e : Expr) :
    Parse.Steady g (operators g d p e) :=
  loop (operator_steady h p) (operator_progresses h p) e

theorem firstOperand_steady (h : d.Steady g) : Parse.Steady g (firstOperand g d) := by
  refine bind current fun t => ?_
  split
  · exact fail _ _
  · exact head_steady h _

theorem expression_steady (h : d.Steady g) (p : Power) : Parse.Steady g (expression g d p) :=
  bind (firstOperand_steady h) fun _ => operators_steady h p _

theorem expressionStatement_steady (h : d.Steady g) : Parse.Steady g d.expressionStatement :=
  bind current fun _ => bind (h.expr _) fun _ => bind (skip _) fun _ => pure _

theorem bindingStatement_steady (h : d.Steady g) : Parse.Steady g d.bindingStatement := by
  refine bind current fun _ => bind (expect _) fun _ => bind (expect _) fun _ => ?_
  exact bind advance fun _ => bind (h.expr _) fun _ => bind (skip _) fun _ => pure _

theorem resultStatement_steady (h : d.Steady g) : Parse.Steady g d.resultStatement := by
  refine bind advance fun _ => bind current fun t => ite (pure _) ?_
  exact bind (h.expr _) fun _ => bind (skip _) fun _ => pure _

theorem statement_steady (h : d.Steady g) : Parse.Steady g (statement g d) := by
  refine bind current fun t => ?_
  split
  · exact expressionStatement_steady h
  · rename_i rule hr
    cases rule with
    | any => exact diverge fun hg => hg.statement _ hr
    | binding => exact bindingStatement_steady h
    | result => exact resultStatement_steady h
    | expression => exact expressionStatement_steady h
    | block => exact bind h.block fun _ => pure _

theorem moreStatements_steady (h : d.Steady g) (stop : Kind → Bool) (ss : List Stmt) :
    Parse.Steady g (moreStatements g d stop ss) := by
  refine bind current fun t => ite (pure _) ?_
  exact bind (attempt (statement_steady h)) fun _ => bind advance fun _ => pure _

/-- Whatever became of the statement, one token is used up behind it. -/
theorem moreStatements_progresses (h : d.Steady g) {stop : Kind → Bool}
    (hs : stop .endOfInput = true) : Progresses g (moreStatements g d stop) := by
  intro ss c ss' c' hl hr
  refine .inl ?_
  simp only [moreStatements,Parse.current_bind] at hr
  split at hr
  · simp at hr
  · rename_i hk
    simp only [Parse.advance_bind,Parse.bind_eq_done] at hr
    obtain ⟨o,e,ho,he⟩ := hr
    have hf := (attempt (statement_steady h)).done hl ho
    have hc : c.ahead ≠ [] := by
      apply Cursor.ahead_ne_nil hl
      intro hk'
      rw [hk'] at hk
      exact hk hs
    obtain ⟨_,rfl⟩ := Outcome.done.inj he
    have hle := hf.left_le
    have hpos := List.length_pos_iff.mpr hc
    rw [← c.left_eq] at hpos
    simp only [Cursor.advance]
    omega

theorem statements_steady (h : d.Steady g) {stop : Kind → Bool} (hs : stop .endOfInput = true) :
    Parse.Steady g (statements g d stop) :=
  loop (moreStatements_steady h stop) (moreStatements_progresses h hs) _

theorem body_steady (h : d.Steady g) : Parse.Steady g (body g d) :=
  bind advance fun _ => bind (statements_steady h rfl) fun _ => pure _

theorem within_steady (g : Grammar) (n : Nat) : (within g n).Steady g := by
  induction n with
  | zero => exact ⟨fun _ => tooDeep,tooDeep⟩
  | succ n ih => exact ⟨fun p => nested (expression_steady ih p),nested (body_steady ih)⟩

end Descent
end Precedence
