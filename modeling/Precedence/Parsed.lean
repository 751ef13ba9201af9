import Precedence.Parser

/-! The result of reading a whole source, and the journal that reading it leaves. -/
namespace Precedence

/-- Every statement that could be read, and the faults of the others. -/
structure Parsed where
  program : Program
  faults : List Fault

/-- What a reading of statements to the end amounts to. Such a reading always ends and never
fails as a whole, so only the first case arises. -/
def Parsed.ofOutcome : Outcome Program → Parsed
  | .done p c => ⟨p,c.faults.toList⟩
  | .failed f c => ⟨⟨[]⟩,(c.record f).faults.toList⟩
  | .endless => ⟨⟨[]⟩,[]⟩

def Scanner.parse (s : Scanner) : Parsed := .ofOutcome (Grammar.standard.program (.ofScanner s))

def parse (source : Source) : Parsed := (Scanner.ofSource source).parse

inductive Level where
  | debug
  | trace
  deriving DecidableEq

def Level.label : Level → String
  | debug => "DEBUG"
  | trace => "TRACE"

structure Entry where
  level : Level
  text : String
  deriving DecidableEq

def Fault.summary (f : Fault) : String :=
  f.position.file ++ "@" ++ Nat.repr f.position.offset.toNat ++ ": " ++ f.cause.message

/-- The journal of reading a file: the start, each fault, and the totals. -/
def Parsed.journal (r : Parsed) (file : String) : List Entry :=
  [⟨.debug,"Parsing " ++ file⟩] ++ r.faults.map (fun f => ⟨.trace,f.summary⟩) ++
    [⟨.debug,"Parsed " ++ Nat.repr r.program.statements.length ++ " statements from " ++ file ++
      " with " ++ Nat.repr r.faults.length ++ " errors"⟩]

end Precedence
