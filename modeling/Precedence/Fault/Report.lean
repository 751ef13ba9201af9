import Precedence.Fault.Basic
import Precedence.Text.Lines
import Precedence.Text.Space

/-! A fault shown against its source: the message, the file, and the line of the source with a
caret below the place. -/
namespace Precedence
open Text

def indentOf (line : List Char) : Nat := (line.takeWhile fun c => c == ' ' || c == '\t').length

/-- A line without its indent and without white space at its end. -/
def excerpt (line : List Char) : List Char := trimEnd (line.drop (indentOf line))

/-- Column that a reader sees, in characters. A byte inside a character counts as it is. -/
def columnOf (line : Line) : Nat := (charsBefore line.text.toList line.column).getD line.column

/-- The frame of an excerpt: blanks as wide as the line number, and a bar. -/
def gutter (line : Line) : String :=
  String.ofList (List.replicate ((Nat.repr line.number).length+1) ' ') ++ "|"

def caret (n : Nat) : String := String.ofList (List.replicate n '-') ++ "^"

def showLine (line : Line) : String :=
  gutter line ++ "\n" ++
    Nat.repr line.number ++ " | " ++ String.ofList (excerpt line.text.toList) ++ "\n" ++
    gutter line ++ " " ++ caret (columnOf line-indentOf line.text.toList) ++ "\n"

namespace Fault

def heading (f : Fault) : String :=
  "error: " ++ f.cause.message ++
    (match f.cause.tip with
    | none => ""
    | some tip => " (" ++ tip ++ ")") ++ "\n-> " ++ f.position.file ++ "\n"

/-- The whole report of a fault. A position past the end of the text shows no line. -/
def report (f : Fault) (text : String) : String :=
  match lineAt text f.position.offset.toNat with
  | none => f.heading
  | some line => f.heading ++ showLine line

end Fault
end Precedence
