import Precedence.Descent.Parse
import Precedence.Grammar
import Precedence.Text.Numeral
import Precedence.Tree.Basic

/-! How expressions are read. Each rule starts at the current token and ends with the last token
of what it has read as the current one. What nests inside is read by a descent that has one level
less to spend. -/
namespace Precedence
open Parse

/-- How to read what nests one level deeper: an expression whose operators bind tighter than a
power, and a block. -/
structure Descent where
  expr : Power → Parse Expr
  block : Parse Block

namespace Descent
variable {α : Type} (g : Grammar) (d : Descent)

def name : Parse Expr := do
  let t ← current
  return .name (.ofToken t)

def integer : Parse Expr := do
  let t ← current
  match Text.numeral? t.text with
  | some n => return .integer t n
  | none => fail (.badInteger t.text) t.position

/-- A truth value; every word but `true` is false. -/
def boolean : Parse Expr := do
  let t ← current
  return .boolean t (t.kind == .trueWord)

def unary : Parse Expr := do
  let t ← advance
  let right ← d.expr .unary
  return .unary t t.text right

def group : Parse Expr := do
  let _ ← advance
  let e ← d.expr .lowest
  let _ ← expect .closeParen
  return e

def alternative : Parse (Option Block) := do
  if ← peekIs .elseWord then
    let _ ← advance
    let _ ← expect .openBrace
    let b ← d.block
    return some b
  else return none

/-- A choice between blocks: `if (condition) block`, perhaps with an alternative. -/
def conditional : Parse Expr := do
  let t ← current
  let _ ← expect .openParen
  let _ ← advance
  let condition ← d.expr .lowest
  let _ ← expect .closeParen
  let _ ← expect .openBrace
  let consequence ← d.block
  let alternative ← d.alternative
  return .conditional t condition consequence alternative

/-- One more item behind a comma, if a comma comes next. The items are collected backwards. -/
def moreItems (item : Parse α) (items : List α) : Parse (Round (List α) (List α)) := do
  if ← peekIs .comma then
    let _ ← advance
    let next ← item
    return .again (next :: items)
  else return .stop items.reverse

/-- Items between parentheses, separated by commas. The opening parenthesis is current. -/
def listed (item : Parse α) : Parse (List α) := do
  if ← peekIs .closeParen then
    let _ ← advance
    return []
  else
    let first ← item
    let items ← loop (moreItems item) [first]
    let _ ← expect .closeParen
    return items

def parameter : Parse Name := do
  let t ← expect .identifier
  return .ofToken t

/-- A function: `fn (parameters) block`. -/
def function : Parse Expr := do
  let t ← current
  let _ ← expect .openParen
  let parameters ← listed parameter
  let _ ← expect .openBrace
  let body ← d.block
  return .function t parameters body

def head : HeadRule → Parse Expr
  | .name => name
  | .integer => integer
  | .boolean => boolean
  | .unary => d.unary
  | .group => d.group
  | .conditional => d.conditional
  | .function => d.function

/-- The right operand is read at the operator's own power, so that operators of one power hold
to the left. -/
def binary (left : Expr) (power : Power) : Parse Expr := do
  let t ← advance
  let right ← d.expr power
  return .binary t left t.text right

def argument : Parse Expr := do
  let _ ← advance
  d.expr .lowest

def call (callee : Expr) : Parse Expr := do
  let t ← current
  let arguments ← listed d.argument
  return .call t callee arguments

def tail : TailRule → Expr → Power → Parse Expr
  | .binary, left, power => d.binary left power
  | .call, callee, _ => d.call callee

def operator (power : Power) (left : Expr) : Parse (Round Expr Expr) := do
  let t ← peek
  if t.kind ≠ .semicolon ∧ power < g.power t.kind then
    match g.tail t.kind with
    | none => return .stop left
    | some rule =>
      let _ ← advance
      let e ← d.tail rule left (g.power t.kind)
      return .again e
  else return .stop left

def operators (power : Power) (left : Expr) : Parse Expr := loop (operator g d power) left

def firstOperand : Parse Expr := do
  let t ← current
  match g.head t.kind with
  | none => fail (.noHead t.kind) t.position
  | some rule => d.head rule

/-- An expression with the operators that bind tighter than `power`. -/
def expression (power : Power) : Parse Expr := do
  let left ← firstOperand g d
  operators g d power left

end Descent
end Precedence
