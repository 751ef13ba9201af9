/-! Text between double quotes, with what cannot be read in print written as escapes. -/
namespace Precedence.Text

/-- Control characters of the C0 and C1 sets and delete. -/
def isControl (c : Char) : Bool := c.toNat < 0x20 || (0x7F ≤ c.toNat && c.toNat < 0xA0)

/-- A character as it stands between the quotes. Controls without a short escape are
written by their code point in hexadecimal. -/
def escape (c : Char) : List Char :=
  match c with
  | '\x00' => ['\\','0']
  | '\t' => ['\\','t']
  | '\n' => ['\\','n']
  | '\r' => ['\\','r']
  | '"' => ['\\','"']
  | '\\' => ['\\','\\']
  | c =>
    if isControl c then ['\\','u','\x7b'] ++ Nat.toDigits 16 c.toNat ++ ['\x7d'] else [c]

def quoted (s : String) : String := "\"" ++ String.ofList (s.toList.flatMap escape) ++ "\""

end Precedence.Text
