import Precedence.Token.Basic

/-! Trees of the language: expressions, statements, blocks and whole programs. Every node
keeps the token it was read from. Grouping parentheses have no node: they only shape the tree. -/
namespace Precedence

structure Name where
  token : Token
  value : String
  deriving DecidableEq

mutual

inductive Expr where
  | name (name : Name)
  | integer (token : Token) (value : Int)
  | boolean (token : Token) (value : Bool)
  | unary (token : Token) (operator : String) (right : Expr)
  | binary (token : Token) (left : Expr) (operator : String) (right : Expr)
  | conditional (token : Token) (condition : Expr) (consequence : Block)
      (alternative : Option Block)
  | function (token : Token) (parameters : List Name) (body : Block)
  | call (token : Token) (callee : Expr) (arguments : List Expr)

inductive Block where
  | mk (token : Token) (body : List Stmt)

inductive Stmt where
  | binding (token : Token) (name : Name) (value : Expr)
  | result (token : Token) (value : Option Expr)
  | expression (token : Token) (expression : Expr)
  | block (block : Block)

end

def Name.ofToken (t : Token) : Name := ⟨t,t.text⟩

namespace Block

def token : Block → Token
  | mk t _ => t

def body : Block → List Stmt
  | mk _ ss => ss

end Block

/-- The token that an expression keeps: the operator of an operation, the opening
parenthesis of a call, the first token otherwise. -/
def Expr.token : Expr → Token
  | name n => n.token
  | integer t _ | boolean t _ | unary t _ _ | binary t _ _ _ | conditional t _ _ _
  | function t _ _ | call t _ _ => t

def Stmt.token : Stmt → Token
  | binding t _ _ | result t _ | expression t _ => t
  | block b => b.token

structure Program where
  statements : List Stmt

/-- Text of the first token of a program; empty for an empty program. -/
def Program.literal (p : Program) : String :=
  match p.statements with
  | [] => ""
  | s :: _ => s.token.text

end Precedence
