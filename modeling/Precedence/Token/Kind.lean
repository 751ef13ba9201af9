/-! Kinds of tokens: their names in reports, and the reserved words and symbols that
belong to them. -/
namespace Precedence

inductive Kind where
  | endOfInput
  | illegal
  | identifier
  | integer
  | assign
  | plus
  | minus
  | star
  | slash
  | bang
  | less
  | greater
  | equal
  | notEqual
  | comma
  | semicolon
  | openParen
  | closeParen
  | openBrace
  | closeBrace
  | fnWord
  | letWord
  | returnWord
  | trueWord
  | falseWord
  | ifWord
  | elseWord
  deriving DecidableEq

namespace Kind

/-- Every kind, in the order that numbers them. -/
def all : List Kind :=
  [endOfInput,illegal,identifier,integer,assign,plus,minus,star,slash,bang,less,greater,equal,
    notEqual,comma,semicolon,openParen,closeParen,openBrace,closeBrace,fnWord,letWord,returnWord,
    trueWord,falseWord,ifWord,elseWord]

theorem mem_all (k : Kind) : k ∈ all := by cases k <;> decide

def ordinal (k : Kind) : Nat := all.idxOf k

theorem ordinal_lt (k : Kind) : k.ordinal < all.length := List.idxOf_lt_length_of_mem (mem_all k)

def label : Kind → String
  | endOfInput => "EOF"
  | illegal => "ILLEGAL"
  | identifier => "IDENT"
  | integer => "INT"
  | assign => "="
  | plus => "+"
  | minus => "-"
  | star => "*"
  | slash => "/"
  | bang => "!"
  | less => "<"
  | greater => ">"
  | equal => "=="
  | notEqual => "!="
  | comma => ","
  | semicolon => ";"
  | openParen => "("
  | closeParen => ")"
  | openBrace => "\x7b"
  | closeBrace => "\x7d"
  | fnWord => "FUNCTION"
  | letWord => "LET"
  | returnWord => "RETURN"
  | trueWord => "TRUE"
  | falseWord => "FALSE"
  | ifWord => "IF"
  | elseWord => "ELSE"

def reserved : List (String × Kind) :=
  [("fn",fnWord),("let",letWord),("return",returnWord),("true",trueWord),("false",falseWord),
    ("if",ifWord),("else",elseWord)]

def ofWord (word : String) : Kind := (reserved.lookup word).getD identifier

/-- A character that is a token by itself; all others are illegal. -/
def ofSymbol : Char → Kind
  | '=' => assign
  | '+' => plus
  | '-' => minus
  | '*' => star
  | '/' => slash
  | '!' => bang
  | '<' => less
  | '>' => greater
  | ',' => comma
  | ';' => semicolon
  | '(' => openParen
  | ')' => closeParen
  | '\x7b' => openBrace
  | '\x7d' => closeBrace
  | _ => illegal

end Kind
end Precedence
