import Precedence.Grammar

/-! The layers of expressions, and which kinds of tokens the language lets begin an expression,
go on with it, or stand between two operands. -/
namespace Precedence

namespace Power

theorem eq_or_lt_of_not_lt {a b : Power} (h : ¬ a < b) : b = a ∨ b < a :=
  (Nat.eq_or_lt_of_le (Nat.le_of_not_lt h)).imp_left rank_injective

theorem not_lt_lowest (a : Power) : ¬ a < .lowest := Nat.not_lt_zero _

theorem not_call_lt (a : Power) : ¬ .call < a := by cases a <;> decide

end Power

def Power.operators : Power → List Kind
  | .equality => [.equal,.notEqual]
  | .comparison => [.less,.greater]
  | .sum => [.plus,.minus]
  | .product => [.star,.slash]
  | _ => []

theorem Power.lowest_lt_of_operator {layer : Power} {k : Kind} (h : k ∈ layer.operators) :
    .lowest < layer := by
  cases layer with
  | equality | comparison | sum | product => decide
  | _ => simp [operators] at h

/-- The tokens that go on with an expression: binary operators and the parenthesis of a call. -/
def Kind.continues : Kind → Bool
  | .equal | .notEqual | .less | .greater | .plus | .minus | .star | .slash | .openParen => true
  | _ => false

def Kind.starts : Kind → Bool
  | .identifier | .integer | .trueWord | .falseWord | .bang | .minus | .openParen | .ifWord
  | .fnWord => true
  | _ => false

def Kind.startsStatement (k : Kind) : Bool := k.starts || k == .letWord || k == .returnWord

/-- The layers of what is read with operators that bind tighter than `power` only. A prefix
operator may always come first. -/
def Power.Admits (power layer : Power) : Prop := power < layer ∨ layer = .unary

namespace Grammar

theorem standard_tail_none {k : Kind} (h : standard.tail k = none) : standard.power k = .lowest := by
  cases k <;> first | rfl | simp [standard] at h

theorem standard_tail_binary {k : Kind} (h : standard.tail k = some .binary) :
    k ∈ (standard.power k).operators ∧ standard.power k < .unary := by
  cases k <;> first | decide | simp [standard] at h

theorem standard_tail_call {k : Kind} (h : standard.tail k = some .call) : k = .openParen := by
  cases k <;> simp [standard] at h ⊢

theorem continues_eq_false {k : Kind} :
    k.continues = false ↔ ¬ Power.lowest < standard.power k := by
  cases k <;> decide

theorem standard_operator {layer : Power} {k : Kind} (h : k ∈ layer.operators) :
    k ≠ .semicolon ∧ k ≠ .endOfInput ∧ standard.power k = layer ∧ standard.tail k = some .binary ∧
      layer < .unary := by
  cases layer <;> simp [Power.operators] at h <;> rcases h with rfl | rfl <;> decide

theorem statement_of_starts {k : Kind} (h : k.starts = true) : standard.statement k = none := by
  cases k <;> first | rfl | simp [Kind.starts] at h

end Grammar

end Precedence
