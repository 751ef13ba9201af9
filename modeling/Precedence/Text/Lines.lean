import Precedence.Text.Bytes

/-! Lines of a text and the line that holds a byte offset. A line keeps the line
feed that ends it; only the last line of a text may lack one. -/
namespace Precedence.Text

/-- Cuts a text after every line feed. -/
def lines : List Char → List (List Char)
  | [] => []
  | c :: cs =>
    if c = '\n' then [c] :: lines cs
    else match lines cs with
      | [] => [[c]]
      | l :: ls => (c :: l) :: ls

theorem lines_flatten (cs : List Char) : (lines cs).flatten = cs := by
  induction cs with
  | nil => rfl
  | cons c cs ih =>
    simp only [lines]
    split
    · simp [ih]
    · split <;> rename_i h <;> simp_all

/-- A line of a text, with a byte column inside it. Lines are numbered from 1. -/
structure Line where
  number : Nat
  text : String
  column : Nat
  deriving DecidableEq

/-- Walks down numbered lines to the one that holds byte `pos`. The end of the text
belongs to the last line unless a line feed closed it. -/
def locate (n : Nat) : List (List Char) → Nat → Line
  | [], _ => ⟨n,"",0⟩
  | l :: ls, pos =>
    if pos < bytes l ∨ l.getLast? ≠ some '\n' then ⟨n,String.ofList l,pos⟩
    else locate (n+1) ls (pos-bytes l)

/-- The line that holds byte `pos` of `content`, if `pos` is not past its end. -/
def lineAt (content : String) (pos : Nat) : Option Line :=
  if bytes content.toList < pos then none else some (locate 1 (lines content.toList) pos)

end Precedence.Text
