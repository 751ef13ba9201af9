import Precedence.Token.Kind

/-! Grammars: which rule reads an expression or a statement that starts with a kind of token,
which rule continues an expression, and how tightly it binds. -/
namespace Precedence

/-- How tightly an operator holds its operands, loosest first. -/
inductive Power where
  | lowest
  | equality
  | comparison
  | sum
  | product
  | unary
  | call
  deriving DecidableEq

namespace Power

def rank : Power → Nat
  | lowest => 0
  | equality => 1
  | comparison => 2
  | sum => 3
  | product => 4
  | unary => 5
  | call => 6

instance : LT Power := ⟨fun a b => a.rank < b.rank⟩

instance (a b : Power) : Decidable (a < b) := inferInstanceAs (Decidable (a.rank < b.rank))

theorem rank_injective {a b : Power} (h : a.rank = b.rank) : a = b := by
  cases a <;> cases b <;> simp_all [rank]

end Power

/-- What an expression starts with. -/
inductive HeadRule where
  | name
  | integer
  | boolean
  | unary
  | group
  | conditional
  | function
  deriving DecidableEq

/-- How an expression goes on after a first operand. -/
inductive TailRule where
  | binary
  | call
  deriving DecidableEq

/-- What a statement is. The rule `any` asks the grammar again. -/
inductive StatementRule where
  | any
  | binding
  | result
  | expression
  | block
  deriving DecidableEq

/-- The rules for each kind of token. A kind without a statement rule starts an expression
statement. -/
structure Grammar where
  head : Kind → Option HeadRule
  tail : Kind → Option TailRule
  power : Kind → Power
  statement : Kind → Option StatementRule

namespace Grammar

def standard : Grammar where
  head
    | .identifier => some .name
    | .integer => some .integer
    | .trueWord | .falseWord => some .boolean
    | .bang | .minus => some .unary
    | .openParen => some .group
    | .ifWord => some .conditional
    | .fnWord => some .function
    | _ => none
  tail
    | .equal | .notEqual | .less | .greater | .plus | .minus | .star | .slash => some .binary
    | .openParen => some .call
    | _ => none
  power
    | .equal | .notEqual => .equality
    | .less | .greater => .comparison
    | .plus | .minus => .sum
    | .star | .slash => .product
    | .openParen => .call
    | _ => .lowest
  statement
    | .letWord => some .binding
    | .returnWord => some .result
    | _ => none

def withHead (g : Grammar) (kind : Kind) (rule : HeadRule) : Grammar :=
  { g with head := fun k => if k = kind then some rule else g.head k }

/-- A rule for what follows an operand comes with its binding power. -/
def withTail (g : Grammar) (kind : Kind) (power : Power) (rule : TailRule) : Grammar :=
  { g with tail := fun k => if k = kind then some rule else g.tail k,
           power := fun k => if k = kind then power else g.power k }

def withStatement (g : Grammar) (kind : Kind) (rule : StatementRule) : Grammar :=
  { g with statement := fun k => if k = kind then some rule else g.statement k }

end Grammar
end Precedence
