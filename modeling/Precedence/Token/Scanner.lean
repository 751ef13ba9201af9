import Precedence.Text.Bytes
import Precedence.Token.Basic

/-! The scanner cuts a source into tokens. Blanks separate tokens, and each token is the
longest one that starts where the last one ended. -/
namespace Precedence
open Text

/-- Characters that separate tokens and belong to none. -/
def isBlank (c : Char) : Bool := c == ' ' || c == '\t' || c == '\n' || c == '\r'

/-- Characters that start a word: ASCII letters and the underscore. -/
def isWordStart (c : Char) : Bool := c.isAlpha || c == '_'

/-- Characters that continue a word: also ASCII digits. -/
def isWordPart (c : Char) : Bool := c.isAlphanum || c == '_'

/-- The first token of a text, with what is left of the text behind it. -/
structure Lexeme where
  kind : Kind
  text : List Char
  rest : List Char

/-- The symbol at the front of a text: two characters if those are a symbol, else one. -/
def symbolAt : Char → List Char → Lexeme
  | '=', '=' :: cs => ⟨.equal,['=','='],cs⟩
  | '!', '=' :: cs => ⟨.notEqual,['!','='],cs⟩
  | c, cs => ⟨.ofSymbol c,[c],cs⟩

def lexemeAt (c : Char) (cs : List Char) : Lexeme :=
  if isWordStart c then
    ⟨.ofWord (String.ofList (c :: cs.takeWhile isWordPart)),c :: cs.takeWhile isWordPart,
      cs.dropWhile isWordPart⟩
  else if c.isDigit then
    ⟨.integer,c :: cs.takeWhile Char.isDigit,cs.dropWhile Char.isDigit⟩
  else symbolAt c cs

theorem symbolAt_append (c : Char) (cs : List Char) :
    (symbolAt c cs).text ++ (symbolAt c cs).rest = c :: cs := by
  unfold symbolAt
  split <;> simp

theorem lexemeAt_append (c : Char) (cs : List Char) :
    (lexemeAt c cs).text ++ (lexemeAt c cs).rest = c :: cs := by
  unfold lexemeAt
  split
  · simp
  split
  · simp
  · exact symbolAt_append c cs

theorem lexemeAt_text_ne_nil (c : Char) (cs : List Char) : (lexemeAt c cs).text ≠ [] := by
  unfold lexemeAt symbolAt
  split
  · simp
  split
  · simp
  · split <;> simp

theorem lexemeAt_rest_lt (c : Char) (cs : List Char) :
    (lexemeAt c cs).rest.length < (c :: cs).length := by
  have hl := congrArg List.length (lexemeAt_append c cs)
  have ht := List.length_pos_iff.mpr (lexemeAt_text_ne_nil c cs)
  simp only [List.length_append] at hl
  omega

/-- A place in a source: the text still to read and the bytes already read. -/
structure Scanner where
  rest : List Char
  offset : Nat := 0
  file : String
  deriving DecidableEq

namespace Scanner

def ofSource (source : Source) : Scanner := ⟨source.text.toList,0,source.file⟩

def skipBlanks (s : Scanner) : Scanner :=
  { s with rest := s.rest.dropWhile isBlank, offset := s.offset+bytes (s.rest.takeWhile isBlank) }

def tokenHere (s : Scanner) (kind : Kind) (text : List Char) : Token :=
  ⟨kind,String.ofList text,⟨s.file,s.offset.toUInt32,(s.offset+bytes text).toUInt32⟩⟩

/-- Reads one token. At the end of the text this is the end token, again and again. -/
def next (s : Scanner) : Token × Scanner :=
  match s.skipBlanks.rest with
  | [] => (s.skipBlanks.tokenHere .endOfInput [],s.skipBlanks)
  | c :: cs =>
    (s.skipBlanks.tokenHere (lexemeAt c cs).kind (lexemeAt c cs).text,
      { s with rest := (lexemeAt c cs).rest,
               offset := s.skipBlanks.offset+bytes (lexemeAt c cs).text })

theorem skipBlanks_rest_le (s : Scanner) : s.skipBlanks.rest.length ≤ s.rest.length := by
  have hl := congrArg List.length (List.takeWhile_append_dropWhile (p := isBlank) (l := s.rest))
  simp only [List.length_append] at hl
  simp only [skipBlanks]
  omega

theorem next_rest_lt (s : Scanner) (h : s.next.1.kind ≠ .endOfInput) :
    s.next.2.rest.length < s.rest.length := by
  have hs := s.skipBlanks_rest_le
  unfold next at h ⊢
  split at h
  · simp [tokenHere] at h
  · rename_i c cs hc
    have hl := lexemeAt_rest_lt c cs
    rw [hc] at hs
    exact Nat.lt_of_lt_of_le hl hs

/-- The tokens still to come, without the end token. -/
def ahead (s : Scanner) : List Token :=
  if _ : s.next.1.kind = .endOfInput then []
  else s.next.1 :: s.next.2.ahead
termination_by s.rest.length
decreasing_by exact s.next_rest_lt (by assumption)

theorem ahead_ne_end (s : Scanner) : ∀ t ∈ s.ahead, t.kind ≠ .endOfInput := by
  fun_induction Scanner.ahead s with
  | case1 => simp
  | case2 s h ih => simpa [h] using ih

/-- The end token: an empty piece of text behind the last byte. -/
def last (s : Scanner) : Token :=
  { s with rest := [], offset := s.offset+bytes s.rest }.tokenHere .endOfInput []

end Scanner

def Source.tokens (source : Source) : List Token :=
  (Scanner.ofSource source).ahead ++ [(Scanner.ofSource source).last]

end Precedence
