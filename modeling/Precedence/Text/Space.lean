/-! White space in the sense of the Unicode property `White_Space`. -/
namespace Precedence.Text

/-- Code point ranges of the property, in order. -/
def spaceRanges : List (Nat × Nat) :=
  [(0x09,0x0D),(0x20,0x20),(0x85,0x85),(0xA0,0xA0),(0x1680,0x1680),(0x2000,0x200A),
    (0x2028,0x2029),(0x202F,0x202F),(0x205F,0x205F),(0x3000,0x3000)]

def isSpace (c : Char) : Bool := spaceRanges.any fun r => r.1 ≤ c.toNat && c.toNat ≤ r.2

def trimEnd (cs : List Char) : List Char := (cs.reverse.dropWhile isSpace).reverse

end Precedence.Text
