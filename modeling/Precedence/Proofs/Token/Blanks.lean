import Precedence.Proofs.Token.Longest

/-! Blanks keep tokens apart. No token reaches over a blank, so that what stands before blanks and
what stands behind them are scanned each by itself, and the tokens of a text can be written with any
blanks in between. -/
namespace Precedence
open Text

theorem not_blank_of_part {d : Char} (h : isBlank d = true) :
    isWordPart d = false ∧ d.isDigit = false ∧ d ≠ '=' := by
  simp only [isBlank,Bool.or_eq_true,beq_iff_eq] at h
  rcases h with ((rfl | rfl) | rfl) | rfl <;> decide

theorem Kind.Longest.beforeBlank {k : Kind} {text xs : List Char} {d : Char} (ys : List Char)
    (h : k.Longest text xs) (hd : isBlank d = true) : k.Longest text (xs ++ d :: ys) := by
  obtain ⟨hpart,hdigit,heq⟩ := not_blank_of_part hd
  have hhead : ∀ e ∈ (xs ++ d :: ys).head?, e ∈ xs.head? ∨ e = d := by
    cases xs with
    | nil => simp
    | cons x xs => simp
  cases h with
  | keyword h hb =>
    refine .keyword h fun e he => ?_
    rcases hhead e he with he | rfl
    · exact hb e he
    · exact hpart
  | identifier hc hcs h hb =>
    refine .identifier hc hcs h fun e he => ?_
    rcases hhead e he with he | rfl
    · exact hb e he
    · exact hpart
  | integer hc hcs hb =>
    refine .integer hc hcs fun e he => ?_
    rcases hhead e he with he | rfl
    · exact hb e he
    · exact hdigit
  | equal => exact .equal
  | notEqual => exact .notEqual
  | assign hb => exact .assign fun he => (hhead _ he).elim hb fun h => heq h.symm
  | bang hb => exact .bang fun he => (hhead _ he).elim hb fun h => heq h.symm
  | single h => exact .single h
  | illegal hb hw hd hs he hx => exact .illegal hb hw hd hs he hx

theorem lexemeAt_beforeBlank {c d : Char} (cs ys : List Char) (hc : isBlank c = false)
    (hd : isBlank d = true) : lexemeAt c (cs ++ d :: ys) =
      ⟨(lexemeAt c cs).kind,(lexemeAt c cs).text,(lexemeAt c cs).rest ++ d :: ys⟩ := by
  have hlong := (lexemeAt_longest cs hc).beforeBlank ys hd
  have hsplit := lexemeAt_append c cs
  obtain ⟨tl,htext,-⟩ := lexemeAt_text c cs
  rw [htext] at hlong hsplit
  have hcs : cs = tl ++ (lexemeAt c cs).rest := (List.cons.inj hsplit).2.symm
  have hlex := hlong.lexemeAt
  rw [← List.append_assoc,← hcs] at hlex
  rw [hlex,htext]

namespace Scanner

/-- In front of a blank a text is scanned as if it ended there, and behind it as if it started. -/
theorem ahead_append_blank {d : Char} (hd : isBlank d = true) (ys : List Char) (s : Scanner) :
    ({ s with rest := s.rest ++ d :: ys } : Scanner).ahead =
      s.ahead ++ ({ s with rest := d :: ys, offset := s.offset+bytes s.rest } : Scanner).ahead := by
  induction s using scan_induction with
  | blanks s h => rw [ahead_of_blanks h,List.nil_append,ahead_append_blanks _ h]
  | lexeme s c cs h ih =>
    have hext := lexemeAt_beforeBlank cs ys (not_blank_of_lexeme h) hd
    rw [ahead_append_lexeme _ h hext,ahead_of_lexeme h,ih,bytes_behind h]
    rfl

theorem ahead_separated {s : Scanner} {w : List Char} (hne : w ≠ [])
    (hw : ∀ c ∈ w, isBlank c = true) (ys : List Char) :
    ({ s with rest := s.rest ++ (w ++ ys) } : Scanner).ahead = s.ahead ++
      ({ s with rest := ys, offset := s.offset+bytes (s.rest ++ w) } : Scanner).ahead := by
  obtain ⟨d,ds,rfl⟩ := List.exists_cons_of_ne_nil hne
  have hall := (takeWhile_all hw).2
  have hblanks := @ahead_append_blanks ys
    { s with rest := d :: ds, offset := s.offset+bytes s.rest } hall
  rw [List.cons_append,ahead_append_blank (hw d (by simp)),bytes_append,← Nat.add_assoc]
  exact congrArg (s.ahead ++ ·) hblanks

end Scanner

theorem spellings_separated {w : List Char} (hne : w ≠ []) (hw : ∀ c ∈ w, isBlank c = true)
    (xs ys : List Char) : spellings (xs ++ (w ++ ys)) = spellings xs ++ spellings ys := by
  have h := congrArg (List.map Token.spelling)
    (Scanner.ahead_separated (s := ⟨xs,0,""⟩) hne hw ys)
  rwa [List.map_append,Scanner.ahead_spellings,Scanner.ahead_spellings,
    Scanner.ahead_spellings] at h

theorem Spelling.Lexes.alone {w : Spelling} (h : w.Lexes) : spellings w.text.toList = [w] := by
  have hw := @spellings_cons w [] h (by simp)
  rwa [List.append_nil,spellings_nil] at hw

/-- The texts of tokens one behind the other, with blanks between any two of them. -/
inductive Token.Spaced : List Token → List Char → Prop where
  | last (t : Token) : Spaced [t] t.text.toList
  | more (t : Token) {ts : List Token} {w cs : List Char} (hne : w ≠ [])
      (hw : ∀ c ∈ w, isBlank c = true) (h : Spaced ts cs) :
      Spaced (t :: ts) (t.text.toList ++ (w ++ cs))

theorem Token.Spaced.spellings_eq {ts : List Token} {cs : List Char} (h : Token.Spaced ts cs) :
    spellings cs = ts.flatMap fun t => spellings t.text.toList := by
  induction h with
  | last t => simp
  | more t hne hw _ ih => rw [spellings_separated hne hw,ih,List.flatMap_cons]

end Precedence
