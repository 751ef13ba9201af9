import Precedence.Proofs.Descent.Frame
import Precedence.Proofs.Descent.Inheritance

/-! Every reading closes the levels that it opens, wherever it starts and whatever the grammar, and
leaves the faults found before in front without a look at them. Nothing is asked of the end token
here. -/
namespace Precedence
open Parse Cursor

/-- Where an outcome has a cursor, that one follows the one at the start. -/
def Outcome.Restores {α : Type} (o : Outcome α) (c : Cursor) : Prop :=
  match o with
  | .done _ d | .failed _ d => d.Follows c
  | .endless => True

def Parse.Restores (α : Type) (p : Parse α) : Prop := ∀ c, (p c).Restores c

theorem Outcome.Restores.trans {α : Type} {o : Outcome α} {d c : Cursor} (h : o.Restores d)
    (k : d.Follows c) : o.Restores c := by
  cases o with
  | done a e => exact Cursor.Follows.trans h k
  | failed f e => exact Cursor.Follows.trans h k
  | endless => trivial

namespace Parse.Restores
variable {α β : Type} {p : Parse α} {g : Grammar}
open Cursor.Follows

theorem bind {q : α → Parse β} (hp : Restores α p) (hq : ∀ a, Restores β (q a)) :
    Restores β (p >>= q) := by
  intro c
  have h := hp c
  rw [bind_apply]
  cases hc : p c with
  | done a d => rw [hc] at h; exact (hq a d).trans h
  | failed f d => rw [hc] at h; exact h
  | endless => trivial

theorem expect (k : Kind) : Restores Token (Parse.expect k) := by
  intro c
  unfold Parse.expect
  split
  · exact Cursor.Follows.advance c
  · exact refl c

theorem skip (k : Kind) : Restores Unit (Parse.skip k) := by
  intro c
  rw [skip_apply]
  simp only [Outcome.Restores]
  split
  · exact Cursor.Follows.advance c
  · exact refl c

theorem nested (hp : Restores α p) : Restores α (Parse.nested p) := by
  intro c
  have h := hp c.deeper
  unfold Parse.nested
  cases hc : p c.deeper with
  | done a d => rw [hc] at h; exact leave h
  | failed f d => rw [hc] at h; exact leave h
  | endless => trivial

theorem attempt (hp : Restores α p) : Restores (Option α) (Parse.attempt p) := by
  intro c
  have h := hp c
  unfold Parse.attempt
  cases hc : p c with
  | done a d => rw [hc] at h; exact h
  | failed f d => rw [hc] at h; exact (Cursor.Follows.record d f).trans h
  | endless => trivial

theorem loop {round : α → Parse (Round α β)} (h : ∀ a, Restores (Round α β) (round a)) (a : α) :
    Restores β (Parse.loop round a) := by
  intro c
  have hround := h a c
  fun_induction Parse.loop round a c with
  | case1 a c b d hd => rw [hd] at hround; exact hround
  | case2 a c b d hd _ ih => rw [hd] at hround; exact (ih (h b d)).trans hround
  | case3 => trivial
  | case4 a c f d hd => rw [hd] at hround; exact hround
  | case5 => trivial

theorem integer : Restores Expr Descent.integer := by
  intro c
  simp only [Descent.integer,current_bind]
  cases Text.numeral? c.current.text with
  | some n => exact refl c
  | none => exact refl c

theorem head {d : Descent} (h : ∀ rule, rule ≠ .integer → Restores Expr (d.head rule))
    (rule : HeadRule) : Restores Expr (d.head rule) := by
  by_cases hi : rule = .integer
  · subst hi
    exact integer
  · exact h rule hi

theorem firstOperand {d : Descent} (h : ∀ rule, rule ≠ .integer → Restores Expr (d.head rule)) :
    Restores Expr (Descent.firstOperand g d) := by
  intro c
  simp only [Descent.firstOperand,current_bind]
  cases g.head c.current.kind with
  | none => exact refl c
  | some rule => exact head h rule c

theorem inherited (g : Grammar) : Parse.Inherited g Parse.Restores where
  pure _ := fun c => refl c
  bind := bind
  current := fun c => refl c
  peek := fun c => refl c
  peekIs _ := fun c => refl c
  advance := fun c => Cursor.Follows.advance c
  expect _ := expect _
  skip := skip
  tooDeep := fun c => refl c
  diverge := fun _ => trivial
  nested := nested
  attempt hp hq :=
    bind (attempt hp) fun o => bind (fun c => Cursor.Follows.advance c) fun _ => hq o
  loop := loop
  firstOperand := firstOperand

end Parse.Restores

/-- The cursor with more faults in front of those that it has. -/
def Cursor.holding (c : Cursor) (fs : Array Fault) : Cursor := { c with faults := fs++c.faults }

def Outcome.holding {α : Type} (fs : Array Fault) : Outcome α → Outcome α
  | .done a c => .done a (c.holding fs)
  | .failed f c => .failed f (c.holding fs)
  | .endless => .endless

/-- An action that does the same whatever faults were found before. -/
def Parse.Oblivious (α : Type) (p : Parse α) : Prop := ∀ fs c, p (c.holding fs) = (p c).holding fs

theorem Cursor.holding_record (c : Cursor) (fs : Array Fault) (f : Fault) :
    (c.holding fs).record f = (c.record f).holding fs := by
  simp [holding,record]

namespace Parse.Oblivious
variable {α β : Type} {p : Parse α} {g : Grammar}

theorem bind {q : α → Parse β} (hp : Oblivious α p) (hq : ∀ a, Oblivious β (q a)) :
    Oblivious β (p >>= q) := by
  intro fs c
  rw [bind_apply,bind_apply,hp fs c]
  cases p c with
  | done a d => exact hq a fs d
  | failed f d => rfl
  | endless => rfl

theorem expect (k : Kind) : Oblivious Token (Parse.expect k) := by
  intro fs c
  change (if c.peek.kind = k then _ else _) = _
  rw [Parse.expect]
  split
  · rfl
  · rfl

theorem skip (k : Kind) : Oblivious Unit (Parse.skip k) := by
  intro fs c
  rw [skip_apply,skip_apply]
  change Outcome.done _ (if c.peek.kind = k then _ else _) = _
  split
  · rfl
  · rfl

theorem nested (hp : Oblivious α p) : Oblivious α (Parse.nested p) := by
  intro fs c
  have h : p (c.holding fs).deeper = _ := hp fs c.deeper
  rw [Parse.nested,Parse.nested,h]
  cases p c.deeper <;> rfl

theorem attempt (hp : Oblivious α p) : Oblivious (Option α) (Parse.attempt p) := by
  intro fs c
  rw [Parse.attempt,Parse.attempt,hp fs c]
  cases p c with
  | done a d => rfl
  | failed f d => exact congrArg (Outcome.done none) (d.holding_record fs f)
  | endless => rfl

theorem loop {round : α → Parse (Round α β)} (h : ∀ a, Oblivious (Round α β) (round a)) (a : α) :
    Oblivious β (Parse.loop round a) := by
  intro fs c
  have hround := h a fs c
  fun_induction Parse.loop round a c with
  | case1 a c b d hd =>
    rw [hd] at hround
    exact loop_stop hround
  | case2 a c b d hd hl ih =>
    rw [hd] at hround
    rw [loop_again hround hl]
    exact ih (h b fs d)
  | case3 a c b d hd hl =>
    rw [Parse.loop,hround,hd]
    exact if_neg hl
  | case4 a c f d hd =>
    rw [hd] at hround
    exact loop_failed hround
  | case5 a c hd =>
    rw [Parse.loop,hround,hd]
    rfl

theorem integer : Oblivious Expr Descent.integer := by
  intro fs c
  have hcurrent : (c.holding fs).current = c.current := rfl
  simp only [Descent.integer,current_bind,hcurrent]
  cases Text.numeral? c.current.text with
  | some n => rfl
  | none => rfl

theorem firstOperand {d : Descent} (h : ∀ rule, rule ≠ .integer → Oblivious Expr (d.head rule)) :
    Oblivious Expr (Descent.firstOperand g d) := by
  intro fs c
  have hcurrent : (c.holding fs).current = c.current := rfl
  simp only [Descent.firstOperand,current_bind,hcurrent]
  cases g.head c.current.kind with
  | none => rfl
  | some rule =>
    by_cases hi : rule = .integer
    · subst hi
      exact integer fs c
    · exact h rule hi fs c

theorem inherited (g : Grammar) : Parse.Inherited g Parse.Oblivious where
  pure _ := fun _ _ => rfl
  bind := bind
  current := fun _ _ => rfl
  peek := fun _ _ => rfl
  peekIs _ := fun _ _ => rfl
  advance := fun _ _ => rfl
  expect _ := expect _
  skip := skip
  tooDeep := fun _ _ => rfl
  diverge := fun _ _ => rfl
  nested := nested
  attempt hp hq := bind (attempt hp) fun o => bind (fun _ _ => rfl) fun _ => hq o
  loop := loop
  firstOperand := firstOperand

end Parse.Oblivious
end Precedence
