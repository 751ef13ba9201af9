import Precedence.Console.Basic
import Precedence.Console.Elapsed

/-! The command line: without arguments a session over standard input, with one a run over that
file. -/
namespace Precedence.Console

/-- The next line of a stream with its line feed; empty at the end of input. -/
partial def readLine (stream : IO.FS.Stream) (line : ByteArray) : IO ByteArray := do
  let byte ← stream.read 1
  if byte.isEmpty then return line
  else if byte.toList = [10] then return line ++ byte
  else readLine stream (line ++ byte)

partial def converse (input output : IO.FS.Stream) : IO UInt32 := do
  output.putStr prompt
  output.flush
  match reply (← readLine input .empty) with
  | .finished => return 0
  | .answer text =>
    output.putStr text
    converse input output
  | .refused errors =>
    output.flush
    (← IO.getStderr).putStr errors
    return 1

def whyUnread (e : IO.Error) : String :=
  match e with
  | .noFileOrDirectory _ number details | .permissionDenied _ number details
  | .inappropriateType _ number details | .invalidArgument _ number details
  | .resourceExhausted _ number details | .otherError number details =>
    systemError number details
  | e => toString e

def readContents (path : String) : IO (Except String ByteArray) := do
  try
    let bytes ← IO.FS.readBinFile path
    return .ok bytes
  catch e => return .error (whyUnread e)

def say (t : Transcript) : IO UInt32 := do
  let output ← IO.getStdout
  output.putStr t.output
  output.flush
  (← IO.getStderr).putStr t.errors
  return t.code.toUInt32

def runFile (path : String) : IO UInt32 := do
  match sourceOf path (← readContents path) with
  | .error transcript => say transcript
  | .ok source =>
    let start ← IO.monoNanosNow
    let r ← IO.lazyPure fun _ => parse source
    let stop ← IO.monoNanosNow
    say (verdict source r (elapsedText (stop-start)))

end Precedence.Console

open Precedence.Console in
def main (args : List String) : IO UInt32 := do
  match args with
  | path :: _ => runFile path
  | [] =>
    let output ← IO.getStdout
    output.putStr greeting
    converse (← IO.getStdin) output
