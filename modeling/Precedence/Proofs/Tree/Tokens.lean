import Precedence.Token.Basic
import Precedence.Tree.Basic

/-! The tokens that a tree keeps, in the order of its text, and the kinds they can have. -/
namespace Precedence

mutual

/-- The tokens kept by an expression, in the order in which its text has them. -/
def Expr.tokens : Expr → List Token
  | .name n => [n.token]
  | .integer t _ | .boolean t _ => [t]
  | .unary t _ right => t :: right.tokens
  | .binary t left _ right => left.tokens ++ t :: right.tokens
  | .conditional t condition consequence none => t :: (condition.tokens ++ consequence.tokens)
  | .conditional t condition consequence (some alternative) =>
    t :: (condition.tokens ++ (consequence.tokens ++ alternative.tokens))
  | .function t parameters body => t :: (parameters.map Name.token ++ body.tokens)
  | .call t callee arguments => callee.tokens ++ t :: tokensEach arguments
termination_by structural e => e

def tokensEach : List Expr → List Token
  | [] => []
  | e :: es => e.tokens ++ tokensEach es
termination_by structural es => es

def Block.tokens : Block → List Token
  | .mk t body => t :: tokensAll body
termination_by structural b => b

/-- The token of an expression statement is one of its expression and is not told twice. -/
def Stmt.tokens : Stmt → List Token
  | .binding t n value => t :: n.token :: value.tokens
  | .result t none => [t]
  | .result t (some value) => t :: value.tokens
  | .expression _ e => e.tokens
  | .block b => b.tokens
termination_by structural s => s

def tokensAll : List Stmt → List Token
  | [] => []
  | s :: ss => s.tokens ++ tokensAll ss
termination_by structural ss => ss

end

def Program.tokens (p : Program) : List Token := tokensAll p.statements

/-- The kinds of the tokens that trees keep, but for the opening parenthesis, which a call keeps
and a group does not. -/
def Kind.kept : Kind → Bool
  | .identifier | .integer | .plus | .minus | .star | .slash | .bang | .less | .greater | .equal
  | .notEqual | .openBrace | .fnWord | .letWord | .returnWord | .trueWord | .falseWord
  | .ifWord => true
  | _ => false

def withoutParens (ts : List Token) : List Token := ts.filter fun t => t.kind ≠ .openParen

def keptOnly (ts : List Token) : List Token := ts.filter fun t => t.kind.kept

@[simp] theorem withoutParens_append (ts us : List Token) :
    withoutParens (ts ++ us) = withoutParens ts ++ withoutParens us := List.filter_append ..

@[simp] theorem keptOnly_append (ts us : List Token) :
    keptOnly (ts ++ us) = keptOnly ts ++ keptOnly us := List.filter_append ..

end Precedence
