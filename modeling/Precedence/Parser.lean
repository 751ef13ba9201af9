import Precedence.Descent.Levels

/-! A parser is a cursor with a grammar. Reading can start at any token, by any rule, with as
many levels as are still free there; the grammar can be changed between two readings. -/
namespace Precedence

namespace Grammar
variable {α : Type} (g : Grammar)

/-- Runs an action that descends from the cursor's own level. -/
def here (action : Descent → Parse α) : Parse α := fun c =>
  action (.within g (nestingLimit-c.depth)) c

def expr (power : Power) : Parse Expr := g.here fun d => d.expr power

def block : Parse Block := g.here fun d => d.block

def stmt : Parse Stmt := g.here fun d => d.statement g

/-- An expression by one head rule only, without operators behind it. -/
def exprByHead (rule : HeadRule) : Parse Expr := g.here fun d => d.head rule

def exprByTail (rule : TailRule) (left : Expr) (power : Power) : Parse Expr :=
  g.here fun d => d.tail rule left power

def stmtBy : StatementRule → Parse Stmt
  | .any => g.stmt
  | rule => g.here fun d => d.statementBy rule

def program : Parse Program := do
  let ss ← g.here fun d => d.statements g (· == .endOfInput)
  return ⟨ss⟩

end Grammar

structure Parser where
  cursor : Cursor
  grammar : Grammar := .standard

namespace Parser
variable {α : Type}

def ofScanner (s : Scanner) : Parser := { cursor := .ofScanner s }

def ofSource (source : Source) : Parser := ofScanner (.ofSource source)

/-- Runs an action on the parser's cursor. There is no answer if the action is endless. -/
def run (p : Parser) (action : Parse α) : Option (Except Fault α × Parser) :=
  match action p.cursor with
  | .done a c => some (.ok a,{ p with cursor := c })
  | .failed f c => some (.error f,{ p with cursor := c })
  | .endless => none

def currentPower (p : Parser) : Power := p.grammar.power p.cursor.current.kind

def peekPower (p : Parser) : Power := p.grammar.power p.cursor.peek.kind

end Parser
end Precedence
