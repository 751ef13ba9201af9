/-! Sources and places in them. -/
namespace Precedence

/-- A text together with the name that reports give it. -/
structure Source where
  text : String
  file : String := "shell"
  deriving DecidableEq

/-- Byte offset into a named source. Offsets are 32-bit words and wrap. -/
structure Position where
  offset : UInt32
  file : String
  deriving DecidableEq

def Position.nowhere : Position := ⟨0,"<null>"⟩

/-- Bytes from `start` up to `stop` of a named source. -/
structure Span where
  file : String
  start : UInt32
  stop : UInt32
  deriving DecidableEq

def Span.position (s : Span) : Position := ⟨s.start,s.file⟩

end Precedence
