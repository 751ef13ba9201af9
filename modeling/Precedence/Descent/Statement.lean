import Precedence.Descent.Expression

/-! How statements and blocks are read. A semicolon behind a statement is optional and belongs to
it. -/
namespace Precedence
open Parse

namespace Descent
variable (g : Grammar) (d : Descent)

def bindingStatement : Parse Stmt := do
  let t ← current
  let n ← expect .identifier
  let _ ← expect .assign
  let _ ← advance
  let value ← d.expr .lowest
  skip .semicolon
  return .binding t (.ofToken n) value

/-- The word `return` alone, when a semicolon follows, or with a value. -/
def resultStatement : Parse Stmt := do
  let t ← advance
  let next ← current
  if next.kind = .semicolon then return .result t none
  else
    let value ← d.expr .lowest
    skip .semicolon
    return .result t (some value)

def expressionStatement : Parse Stmt := do
  let t ← current
  let e ← d.expr .lowest
  skip .semicolon
  return .expression t e

def blockStatement : Parse Stmt := do
  let b ← d.block
  return .block b

/-- A statement by a rule that the grammar gave. A grammar that gives `any` is asked the same
question again, without end. -/
def statementBy : StatementRule → Parse Stmt
  | .any => diverge
  | .binding => d.bindingStatement
  | .result => d.resultStatement
  | .expression => d.expressionStatement
  | .block => d.blockStatement

def statement : Parse Stmt := do
  let t ← current
  match g.statement t.kind with
  | none => d.expressionStatement
  | some rule => d.statementBy rule

/-- One more statement, unless the current token is one at which to stop. A statement that fails
is left out, its fault is kept, and reading goes on behind the token where it failed. -/
def moreStatements (stop : Kind → Bool) (read : List Stmt) :
    Parse (Round (List Stmt) (List Stmt)) := do
  let t ← current
  if stop t.kind then return .stop read.reverse
  else
    let s ← attempt (statement g d)
    let _ ← advance
    return .again (s.toList ++ read)

def statements (stop : Kind → Bool) : Parse (List Stmt) := loop (moreStatements g d stop) []

/-- A block ends at a closing brace, and at the end of input where that is missing. -/
def endsBlock (k : Kind) : Bool := k == .closeBrace || k == .endOfInput

/-- A block whose opening brace is current. The token that ends it becomes current. -/
def body : Parse Block := do
  let t ← advance
  let ss ← statements g d endsBlock
  return .mk t ss

end Descent
end Precedence
