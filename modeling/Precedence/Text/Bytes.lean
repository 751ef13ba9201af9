/-! Text measured in UTF-8 bytes. Positions in a source are byte offsets, while
columns that a reader counts are characters. -/
namespace Precedence.Text

/-- Bytes that the characters take up in UTF-8. -/
def bytes (cs : List Char) : Nat := cs.foldr (fun c n => c.utf8Size+n) 0

@[simp] theorem bytes_nil : bytes [] = 0 := rfl

@[simp] theorem bytes_cons (c : Char) (cs : List Char) :
    bytes (c :: cs) = c.utf8Size + bytes cs := rfl

@[simp] theorem bytes_append (xs ys : List Char) : bytes (xs ++ ys) = bytes xs + bytes ys := by
  induction xs with
  | nil => simp
  | cons c cs ih => simp [ih,Nat.add_assoc]

/-- Number of characters in the first `n` bytes, provided that one of them ends there. -/
def charsBefore : List Char → Nat → Option Nat
  | _, 0 => some 0
  | [], _+1 => none
  | c :: cs, n+1 => if n+1 < c.utf8Size then none else (charsBefore cs (n+1-c.utf8Size)).map (·+1)

theorem charsBefore_bytes (xs ys : List Char) :
    charsBefore (xs ++ ys) (bytes xs) = some xs.length := by
  induction xs with
  | nil => cases ys <;> rfl
  | cons c cs ih =>
    have hc := Char.utf8Size_pos c
    obtain ⟨n,hn⟩ : ∃ n, bytes (c :: cs) = n+1 := ⟨bytes (c :: cs)-1,by simp only [bytes_cons]; omega⟩
    have hr : n+1-c.utf8Size = bytes cs := by simp only [bytes_cons] at hn; omega
    have hl : ¬ n+1 < c.utf8Size := by simp only [bytes_cons] at hn; omega
    simp [hn,charsBefore,hl,hr,ih]

end Precedence.Text
