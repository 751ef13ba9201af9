import Precedence.Parser
import Precedence.Proofs.Descent.Steps

/-! Properties that readings inherit from the actions they are made of. The rules are put together
here once; a property only says why it holds of the elementary actions and of what they make up. -/
namespace Precedence

def Kind.asked : Kind → Bool
  | .identifier | .assign | .openParen | .closeParen | .openBrace => true
  | _ => false

/-- A property of actions that elementary actions have, and larger ones whose parts have it. A first
operand is told apart, since what may go wrong with a literal depends on its token. An attempt comes
with the step behind it, which leaves the token at which the attempt may have failed. -/
structure Parse.Inherited (g : Grammar) (P : (α : Type) → Parse α → Prop) : Prop where
  pure {α : Type} (a : α) : P α (pure a)
  bind {α β : Type} {p : Parse α} {q : α → Parse β} (hp : P α p) (hq : ∀ a, P β (q a)) :
    P β (p >>= q)
  current : P Token current
  peek : P Token peek
  peekIs (k : Kind) : P Bool (peekIs k)
  advance : P Token advance
  expect {k : Kind} (h : k.asked = true) : P Token (expect k)
  skip (k : Kind) : P Unit (skip k)
  tooDeep {α : Type} : P α tooDeep
  diverge {α : Type} : P α diverge
  nested {α : Type} {p : Parse α} (hp : P α p) : P α (nested p)
  attempt {α β : Type} {p : Parse α} {q : Option α → Parse β} (hp : P α p) (hq : ∀ o, P β (q o)) :
    P β (Parse.attempt p >>= fun o => Parse.advance >>= fun _ => q o)
  loop {α β : Type} {round : α → Parse (Round α β)} (h : ∀ a, P (Round α β) (round a)) (a : α) :
    P β (loop round a)
  firstOperand {d : Descent} (h : ∀ rule, rule ≠ .integer → P Expr (d.head rule)) :
    P Expr (Descent.firstOperand g d)

theorem Parse.either {α : Type} {P : Parse α → Prop} {t : Prop} [Decidable t] {p q : Parse α}
    (hp : P p) (hq : P q) : P (if t then p else q) := by
  split
  · exact hp
  · exact hq

namespace Parse.Inherited
variable {g : Grammar} {P : (α : Type) → Parse α → Prop} {α : Type} {d : Descent}
  (hP : Parse.Inherited g P)
include hP

theorem listed {item : Parse α} (h : P α item) : P (List α) (Descent.listed item) := by
  refine hP.bind (hP.peekIs _) fun _ => either (hP.bind hP.advance fun _ => hP.pure _) ?_
  refine hP.bind h fun _ => hP.bind (hP.loop (fun xs => ?_) _) fun _ =>
    hP.bind (hP.expect rfl) fun _ => hP.pure _
  refine hP.bind (hP.peekIs _) fun _ => either ?_ (hP.pure _)
  exact hP.bind hP.advance fun _ => hP.bind h fun _ => hP.pure _

theorem alternative (hb : P Block d.block) : P (Option Block) d.alternative := by
  refine hP.bind (hP.peekIs _) fun _ => either ?_ (hP.pure _)
  exact hP.bind hP.advance fun _ => hP.bind (hP.expect rfl) fun _ => hP.bind hb fun _ => hP.pure _

theorem conditional (he : ∀ p, P Expr (d.expr p)) (hb : P Block d.block) :
    P Expr d.conditional := by
  refine hP.bind hP.current fun _ => hP.bind (hP.expect rfl) fun _ => hP.bind hP.advance fun _ => ?_
  refine hP.bind (he _) fun _ => hP.bind (hP.expect rfl) fun _ => hP.bind (hP.expect rfl) fun _ => ?_
  exact hP.bind hb fun _ => hP.bind (hP.alternative hb) fun _ => hP.pure _

theorem function (hb : P Block d.block) : P Expr d.function := by
  refine hP.bind hP.current fun _ => hP.bind (hP.expect rfl) fun _ => ?_
  refine hP.bind (hP.listed (hP.bind (hP.expect rfl) fun _ => hP.pure _)) fun _ => ?_
  exact hP.bind (hP.expect rfl) fun _ => hP.bind hb fun _ => hP.pure _

/-- Every head rule but that for integers, whose fault is not inherited from anything. -/
theorem head (he : ∀ p, P Expr (d.expr p)) (hb : P Block d.block) {r : HeadRule}
    (hr : r ≠ .integer) : P Expr (d.head r) := by
  cases r with
  | name => exact hP.bind hP.current fun _ => hP.pure _
  | integer => exact absurd rfl hr
  | boolean => exact hP.bind hP.current fun _ => hP.pure _
  | unary => exact hP.bind hP.advance fun _ => hP.bind (he _) fun _ => hP.pure _
  | group =>
    exact hP.bind hP.advance fun _ => hP.bind (he _) fun _ => hP.bind (hP.expect rfl) fun _ => hP.pure _
  | conditional => exact hP.conditional he hb
  | function => exact hP.function hb

theorem tail (he : ∀ p, P Expr (d.expr p)) (r : TailRule) (left : Expr) (p : Power) :
    P Expr (d.tail r left p) := by
  cases r with
  | binary => exact hP.bind hP.advance fun _ => hP.bind (he _) fun _ => hP.pure _
  | call =>
    refine hP.bind hP.current fun _ => hP.bind (hP.listed ?_) fun _ => hP.pure _
    exact hP.bind hP.advance fun _ => he _

theorem expression (he : ∀ p, P Expr (d.expr p)) (hb : P Block d.block) (p : Power) :
    P Expr (Descent.expression g d p) := by
  refine hP.bind (hP.firstOperand fun _ hr => hP.head he hb hr) fun _ => hP.loop (fun left => ?_) _
  refine hP.bind hP.peek fun t => either ?_ (hP.pure _)
  split
  · exact hP.pure _
  · exact hP.bind hP.advance fun _ => hP.bind (hP.tail he _ _ _) fun _ => hP.pure _

theorem statement (he : ∀ p, P Expr (d.expr p)) (hb : P Block d.block) :
    P Stmt (Descent.statement g d) := by
  have hx : P Stmt d.expressionStatement :=
    hP.bind hP.current fun _ => hP.bind (he _) fun _ => hP.bind (hP.skip _) fun _ => hP.pure _
  refine hP.bind hP.current fun t => ?_
  split
  · exact hx
  · rename_i rule _
    cases rule with
    | any => exact hP.diverge
    | binding =>
      refine hP.bind hP.current fun _ => hP.bind (hP.expect rfl) fun _ => ?_
      refine hP.bind (hP.expect rfl) fun _ => hP.bind hP.advance fun _ => ?_
      exact hP.bind (he _) fun _ => hP.bind (hP.skip _) fun _ => hP.pure _
    | result =>
      refine hP.bind hP.advance fun _ => hP.bind hP.current fun _ => either (hP.pure _) ?_
      exact hP.bind (he _) fun _ => hP.bind (hP.skip _) fun _ => hP.pure _
    | expression => exact hx
    | block => exact hP.bind hb fun _ => hP.pure _

theorem statements (he : ∀ p, P Expr (d.expr p)) (hb : P Block d.block) (stop : Kind → Bool) :
    P (List Stmt) (Descent.statements g d stop) := by
  refine hP.loop (fun read => ?_) _
  refine hP.bind hP.current fun _ => either (hP.pure _) ?_
  exact hP.attempt (hP.statement he hb) fun _ => hP.pure _

theorem within (n : Nat) : (∀ p, P Expr ((Descent.within g n).expr p)) ∧
    P Block (Descent.within g n).block := by
  induction n with
  | zero => exact ⟨fun _ => hP.tooDeep,hP.tooDeep⟩
  | succ n ih =>
    obtain ⟨he,hb⟩ := ih
    refine ⟨fun p => hP.nested (hP.expression he hb p),hP.nested ?_⟩
    exact hP.bind hP.advance fun _ => hP.bind (hP.statements he hb _) fun _ => hP.pure _

theorem program (n : Nat) (stop : Kind → Bool) :
    P (List Stmt) (Descent.statements g (Descent.within g n) stop) :=
  hP.statements (hP.within n).1 (hP.within n).2 stop

end Parse.Inherited
end Precedence
