import Precedence.Tree.Basic

/-! How many statements there are in a tree, those in the blocks of its expressions among them. -/
namespace Precedence

/-- What the items of a list come to. -/
def total {α : Type} (worth : α → Nat) (xs : List α) : Nat := xs.foldr (fun x n => worth x+n) 0

section Total
variable {α : Type} (worth : α → Nat) (x : α) (xs ys : List α)

@[simp] theorem total_nil : total worth [] = 0 := rfl

@[simp] theorem total_cons : total worth (x :: xs) = worth x+total worth xs := rfl

@[simp] theorem total_append : total worth (xs ++ ys) = total worth xs+total worth ys := by
  induction xs with
  | nil => simp
  | cons x xs ih => simp [ih,Nat.add_assoc]

@[simp] theorem total_reverse : total worth xs.reverse = total worth xs := by
  induction xs with
  | nil => rfl
  | cons x xs ih => simp [ih,Nat.add_comm]

end Total

mutual

def Expr.statementCount : Expr → Nat
  | .name _ | .integer _ _ | .boolean _ _ => 0
  | .unary _ _ right => right.statementCount
  | .binary _ left _ right => left.statementCount+right.statementCount
  | .conditional _ condition consequence none =>
    condition.statementCount+consequence.statementCount
  | .conditional _ condition consequence (some alternative) =>
    condition.statementCount+consequence.statementCount+alternative.statementCount
  | .function _ _ body => body.statementCount
  | .call _ callee arguments => callee.statementCount+statementCountEach arguments
termination_by structural e => e

def statementCountEach : List Expr → Nat
  | [] => 0
  | e :: es => e.statementCount+statementCountEach es
termination_by structural es => es

def Block.statementCount : Block → Nat
  | .mk _ body => statementCountAll body
termination_by structural b => b

/-- A statement counts itself and those inside it. -/
def Stmt.statementCount : Stmt → Nat
  | .binding _ _ value => 1+value.statementCount
  | .result _ none => 1
  | .result _ (some value) => 1+value.statementCount
  | .expression _ e => 1+e.statementCount
  | .block b => 1+b.statementCount
termination_by structural s => s

def statementCountAll : List Stmt → Nat
  | [] => 0
  | s :: ss => s.statementCount+statementCountAll ss
termination_by structural ss => ss

end

def Program.statementCount (p : Program) : Nat := statementCountAll p.statements

def alternativeCount : Option Block → Nat
  | none => 0
  | some b => b.statementCount

theorem Expr.statementCount_conditional (t : Token) (e : Expr) (a : Block) (b : Option Block) :
    (conditional t e a b).statementCount =
      e.statementCount+a.statementCount+alternativeCount b := by
  cases b <;> rfl

theorem statementCountEach_eq (es : List Expr) :
    statementCountEach es = total Expr.statementCount es := by
  induction es with
  | nil => rfl
  | cons e es ih => rw [statementCountEach,total_cons,ih]

theorem statementCountAll_eq (ss : List Stmt) :
    statementCountAll ss = total Stmt.statementCount ss := by
  induction ss with
  | nil => rfl
  | cons s ss ih => rw [statementCountAll,total_cons,ih]

end Precedence
