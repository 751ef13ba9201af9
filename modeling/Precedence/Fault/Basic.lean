import Precedence.Text.Quoted
import Precedence.Token.Basic

/-! Faults: what keeps a statement from being read, and where. -/
namespace Precedence

inductive Cause where
  /-- The lookahead is not the token that the rule asks for. -/
  | unexpected (expected received : Kind)
  /-- No expression starts with this kind of token. -/
  | noHead (kind : Kind)
  /-- The literal is no integer in range. -/
  | badInteger (literal : String)
  /-- Expressions and blocks would nest deeper than `limit` levels. -/
  | tooDeep (limit : Nat)
  deriving DecidableEq

namespace Cause

def message : Cause → String
  | unexpected expected received =>
    "expected next token to be " ++ expected.label ++ ", got " ++ received.label ++ " instead"
  | noHead kind => "no prefix parse function for " ++ kind.label ++ " found"
  | badInteger literal => "could not parse " ++ Text.quoted literal ++ " as integer"
  | tooDeep limit => "expression nested more than " ++ Nat.repr limit ++ " levels deep"

def tip : Cause → Option String
  | unexpected .semicolon _ => some "did you miss a semicolon?"
  | unexpected _ _ => none
  | noHead .illegal => some "this character is not part of the language"
  | noHead _ => some "an expression cannot start here"
  | badInteger _ => some "is it above the 64-bit integer limit?"
  | tooDeep _ => some "split it up with let statements"

end Cause

structure Fault where
  cause : Cause
  position : Position
  deriving DecidableEq

end Precedence
