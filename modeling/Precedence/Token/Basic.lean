import Precedence.Source
import Precedence.Token.Kind

/-! Tokens: a piece of source text, its kind, and where it stands. -/
namespace Precedence

structure Token where
  kind : Kind
  text : String
  span : Span
  deriving DecidableEq

namespace Token

def position (t : Token) : Position := t.span.position

/-- A token in words. The text is told only where the kind does not fix it. -/
def describe (t : Token) : String :=
  match t.kind with
  | .identifier | .integer | .illegal => t.kind.label ++ " (" ++ t.text ++ ")"
  | kind => kind.label

/-- Sameness of tokens wherever they stand: a span only locates a token. -/
def alike (a b : Token) : Bool := a.kind == b.kind && a.text == b.text

theorem alike_iff (a b : Token) : a.alike b = true ↔ a.kind = b.kind ∧ a.text = b.text := by
  simp [alike]

end Token
end Precedence
