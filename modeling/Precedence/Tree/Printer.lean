import Precedence.Tree.Basic

/-! The canonical text of a tree. Operations are fully parenthesised, statements follow each
other without a blank, and a block stands in braces wherever it belongs to an expression. -/
namespace Precedence

def inBraces (body : String) : String := "\x7b " ++ body ++ " \x7d"

mutual

/-- Literals print their token, names their value, operations their operator. -/
def Expr.render : Expr → String
  | .name n => n.value
  | .integer t _ => t.text
  | .boolean t _ => t.text
  | .unary _ operator right => "(" ++ operator ++ right.render ++ ")"
  | .binary _ left operator right =>
    "(" ++ left.render ++ " " ++ operator ++ " " ++ right.render ++ ")"
  | .conditional _ condition consequence none =>
    "if (" ++ condition.render ++ ") " ++ consequence.braced
  | .conditional _ condition consequence (some alternative) =>
    "if (" ++ condition.render ++ ") " ++ consequence.braced ++ " else " ++ alternative.braced
  | .function t parameters body =>
    t.text ++ "(" ++ ", ".intercalate (parameters.map Name.value) ++ ") " ++ body.braced
  | .call _ callee arguments =>
    callee.render ++ "(" ++ ", ".intercalate (renderEach arguments) ++ ")"

def renderEach : List Expr → List String
  | [] => []
  | e :: es => e.render :: renderEach es

/-- A block with its braces; an empty one has nothing between them. -/
def Block.braced : Block → String
  | .mk _ [] => "\x7b\x7d"
  | .mk _ (s :: ss) => inBraces (s.render ++ renderAll ss)

/-- A block without its braces, as it prints when it is a statement by itself. -/
def Block.render : Block → String
  | .mk _ body => renderAll body

def Stmt.render : Stmt → String
  | .binding t name value => t.text ++ " " ++ name.value ++ " = " ++ value.render ++ ";"
  | .result t none => t.text ++ ";"
  | .result t (some value) => t.text ++ " " ++ value.render ++ ";"
  | .expression _ e => e.render
  | .block b => b.render

def renderAll : List Stmt → String
  | [] => ""
  | s :: ss => s.render ++ renderAll ss

end

def Program.render (p : Program) : String := renderAll p.statements

end Precedence
