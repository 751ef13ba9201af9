import Precedence.Fault.Report
import Precedence.Parsed
import Precedence.Tree.Printer

/-! What the command line says: a session that answers line by line, and a run over one file. -/
namespace Precedence.Console

def greeting : String := "Parses each line and prints its canonical form.\n"

def prompt : String := ">> "

def notText : String := "stream did not contain valid UTF-8"

def reports (faults : List Fault) (text : String) : String :=
  String.join (faults.map fun f => f.report text)

def canonical (p : Program) : String := p.render ++ "\n"

/-- What a session says to a line: its canonical form, or what is wrong with it. -/
def answer (line : String) : String :=
  let r := parse { text := line }
  if r.faults.isEmpty then canonical r.program else reports r.faults line

/-- What a command leaves behind: its two outputs and its exit code. -/
structure Transcript where
  output : String
  errors : String
  code : UInt8
  deriving DecidableEq

/-- What comes of the bytes of one line in a session. The empty line is the end of input. -/
inductive Reply where
  | answer (text : String)
  | finished
  | refused (errors : String)
  deriving DecidableEq

def reply (line : ByteArray) : Reply :=
  if line.isEmpty then .finished
  else match String.fromUTF8? line with
    | some text => .answer (answer text)
    | none => .refused ("Error: Error \x7b kind: InvalidData, message: \"" ++ notText ++ "\" \x7d\n")

/-- Cuts bytes after every line feed. -/
def byteLines : List UInt8 → List (List UInt8)
  | [] => []
  | b :: bs =>
    if b = 10 then [b] :: byteLines bs
    else match byteLines bs with
      | [] => [[b]]
      | l :: ls => (b :: l) :: ls

/-- A session over given lines, from the first prompt on. -/
def dialogue : List (List UInt8) → Transcript
  | [] => ⟨prompt,"",0⟩
  | l :: ls =>
    match reply ⟨l.toArray⟩ with
    | .finished => ⟨prompt,"",0⟩
    | .refused errors => ⟨prompt,errors,1⟩
    | .answer text =>
      let rest := dialogue ls
      { rest with output := prompt ++ text ++ rest.output }

def session (input : ByteArray) : Transcript :=
  let t := dialogue (byteLines input.toList)
  { t with output := greeting ++ t.output }

/-- Parts of a path that name something: empty parts and lone dots at the end do not. -/
def namingParts (path : String) : List String :=
  ((path.toList.splitOn '/').map String.ofList).reverse.dropWhile fun p => p == "" || p == "."

/-- The name of a file is the last part of its path, or the whole path where that part is
missing or leads upwards. -/
def fileName (path : String) : String :=
  match namingParts path with
  | [] => path
  | p :: _ => if p = ".." then path else p

/-- An error of the system in words. Some numbers come negated. -/
def systemError (number : UInt32) (details : String) : String :=
  let positive := if number < 0x80000000 then number else 0-number
  details.capitalize ++ " (os error " ++ Nat.repr positive.toNat ++ ")"

def unreadable (path why : String) : Transcript :=
  ⟨"","Error: could not read '" ++ path ++ "': " ++ why ++ "\n",1⟩

def sourceOf (path : String) (contents : Except String ByteArray) : Except Transcript Source :=
  match contents with
  | .error why => .error (unreadable path why)
  | .ok bytes =>
    match String.fromUTF8? bytes with
    | none => .error (unreadable path notText)
    | some text => .ok { text := text, file := fileName path }

/-- What a run says of a source once it is read: how long that took, then the canonical form or
the reports. -/
def verdict (source : Source) (r : Parsed) (elapsed : String) : Transcript :=
  let timing := "Parsed in " ++ elapsed ++ "\n"
  if r.faults.isEmpty then ⟨timing ++ canonical r.program,"",0⟩
  else ⟨timing,reports r.faults source.text,1⟩

def fileRun (path : String) (contents : Except String ByteArray) (elapsed : String) : Transcript :=
  match sourceOf path contents with
  | .error transcript => transcript
  | .ok source => verdict source (parse source) elapsed

end Precedence.Console
