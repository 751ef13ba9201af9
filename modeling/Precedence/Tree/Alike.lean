import Precedence.Tree.Basic

/-! Sameness of trees wherever they stand in a source: all data agree except the spans of the
tokens. -/
namespace Precedence

namespace Name

def alike (a b : Name) : Bool := a.token.alike b.token && a.value == b.value

end Name

mutual

def Expr.alike : Expr → Expr → Bool
  | .name a, .name b => a.alike b
  | .integer t a, .integer u b => t.alike u && a == b
  | .boolean t a, .boolean u b => t.alike u && a == b
  | .unary t o a, .unary u p b => t.alike u && o == p && a.alike b
  | .binary t a o c, .binary u b p d => t.alike u && a.alike b && o == p && c.alike d
  | .conditional t c a none, .conditional u d b none => t.alike u && c.alike d && a.alike b
  | .conditional t c a (some x), .conditional u d b (some y) =>
    t.alike u && c.alike d && a.alike b && x.alike y
  | .function t ps a, .function u qs b => t.alike u && ps.isEqv qs Name.alike && a.alike b
  | .call t f as, .call u g bs => t.alike u && f.alike g && exprsAlike as bs
  | _, _ => false
termination_by structural x => x

def exprsAlike : List Expr → List Expr → Bool
  | [], [] => true
  | a :: as, b :: bs => a.alike b && exprsAlike as bs
  | _, _ => false
termination_by structural x => x

def Block.alike : Block → Block → Bool
  | .mk t as, .mk u bs => t.alike u && stmtsAlike as bs
termination_by structural x => x

def Stmt.alike : Stmt → Stmt → Bool
  | .binding t n a, .binding u m b => t.alike u && n.alike m && a.alike b
  | .result t none, .result u none => t.alike u
  | .result t (some a), .result u (some b) => t.alike u && a.alike b
  | .expression t a, .expression u b => t.alike u && a.alike b
  | .block a, .block b => a.alike b
  | _, _ => false
termination_by structural x => x

def stmtsAlike : List Stmt → List Stmt → Bool
  | [], [] => true
  | a :: as, b :: bs => a.alike b && stmtsAlike as bs
  | _, _ => false
termination_by structural x => x

end

def Program.alike (p q : Program) : Bool := stmtsAlike p.statements q.statements

end Precedence
