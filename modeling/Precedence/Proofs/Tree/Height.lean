import Precedence.Proofs.Tree.Nodes

/-! How high trees are, and how many operations and calls stand in a row in them. -/
namespace Precedence

mutual

/-- How many steps there are from an expression down to what is lowest in it. -/
def Expr.height : Expr → Nat
  | .name _ | .integer _ _ | .boolean _ _ => 0
  | .unary _ _ right => right.height+1
  | .binary _ left _ right => max (left.height+1) (right.height+1)
  | .conditional _ condition consequence none =>
    max (condition.height+1) (consequence.height+1)
  | .conditional _ condition consequence (some alternative) =>
    max (condition.height+1) (max (consequence.height+1) (alternative.height+1))
  | .function _ _ body => body.height+1
  | .call _ callee arguments => max (callee.height+1) (heightEach arguments)
termination_by structural e => e

def heightEach : List Expr → Nat
  | [] => 0
  | e :: es => max (e.height+1) (heightEach es)
termination_by structural es => es

def Block.height : Block → Nat
  | .mk _ body => heightAll body
termination_by structural b => b

def Stmt.height : Stmt → Nat
  | .binding _ _ value => value.height+1
  | .result _ none => 0
  | .result _ (some value) => value.height+1
  | .expression _ e => e.height+1
  | .block b => b.height
termination_by structural s => s

def heightAll : List Stmt → Nat
  | [] => 0
  | s :: ss => max (s.height+1) (heightAll ss)
termination_by structural ss => ss

end

/-- How many operations and calls stand in a row, each the left operand or the callee of the one
before. -/
def Expr.links : Expr → Nat
  | .binary _ left _ _ => left.links+1
  | .call _ callee _ => callee.links+1
  | _ => 0

def Node.links : Node → Nat
  | .expr e => e.links
  | _ => 0

theorem Expr.links_le {e : Expr} {w : Nat} (h : ∀ n ∈ e.nodes, n.links ≤ w) : e.links ≤ w := by
  cases e with
  | name => exact Nat.zero_le w
  | conditional _ _ _ b => exact Nat.zero_le w
  | _ => exact h _ List.mem_cons_self

end Precedence
