import Precedence.Fault.Report
import Precedence.Proofs.Text.Lines
import Precedence.Proofs.Token.Longest

/-! What a report shows of a line: the line without its indent and without the white space at its
end, and a caret below a piece of it that has no white space. -/
namespace Precedence.Text

theorem trimEnd_append {c : Char} (hc : isSpace c = false) (xs ys : List Char) :
    trimEnd (xs ++ c :: ys) = xs ++ c :: trimEnd ys := by
  simp only [trimEnd,List.reverse_append,List.reverse_cons,List.append_assoc,List.dropWhile_append]
  split
  · rename_i h
    rw [List.isEmpty_iff.mp h]
    simp [hc]
  · simp

theorem trimEnd_space {c : Char} (hc : isSpace c = true) (xs : List Char) :
    trimEnd (xs ++ [c]) = trimEnd xs := by
  simp [trimEnd,hc]

theorem mem_of_mem_trimEnd {c : Char} {cs : List Char} (h : c ∈ trimEnd cs) : c ∈ cs := by
  rw [trimEnd,List.mem_reverse] at h
  exact List.mem_reverse.mp ((List.dropWhile_sublist _).mem h)

theorem indentOf_le {c : Char} (hc : isSpace c = false) (xs ys : List Char) :
    indentOf (xs ++ c :: ys) ≤ xs.length := by
  have hblank : (c == ' ' || c == '\t') = false := by
    by_contra h
    simp only [Bool.not_eq_false,Bool.or_eq_true,beq_iff_eq] at h
    rcases h with rfl | rfl <;> exact absurd hc (by decide)
  rw [indentOf]
  induction xs with
  | nil => simp [hblank]
  | cons x xs ih =>
    rw [List.cons_append,List.takeWhile_cons]
    split
    · exact Nat.succ_le_succ ih
    · exact Nat.zero_le _

section Piece
variable {x : List Char} (hx : x ≠ []) (hs : ∀ c ∈ x, isSpace c = false)
include hx hs

theorem trimEnd_piece (xs ys : List Char) : trimEnd (xs ++ (x ++ ys)) = xs ++ (x ++ trimEnd ys) := by
  obtain ⟨init,d,rfl⟩ := (List.eq_nil_or_concat x).resolve_left hx
  have ht := trimEnd_append (hs d (by simp)) (xs ++ init) ys
  simpa using ht

/-- An excerpt shows a piece without white space where it stands behind the indent. -/
theorem excerpt_drop (xs ys : List Char) :
    x <+: (excerpt (xs ++ (x ++ ys))).drop (xs.length-indentOf (xs ++ (x ++ ys))) := by
  obtain ⟨c,cs,rfl⟩ := List.exists_cons_of_ne_nil hx
  have hle : indentOf (xs ++ (c :: cs ++ ys)) ≤ xs.length :=
    indentOf_le (hs c (by simp)) xs (cs ++ ys)
  rw [excerpt,List.drop_append_of_le_length hle,trimEnd_piece hx hs,
    List.drop_left' (List.length_drop ..)]
  exact List.prefix_append _ _

end Piece

/-- The last line of a report has its one caret in a column from which on the line above it, which
is headed by the number `n`, shows the text `x`. -/
def PointsAt (report : String) (n : Nat) (x : List Char) : Prop :=
  ∃ above excerpt pointer column, report.toList =
      above ++ '\n' :: ((Nat.repr n ++ " | ").toList ++ excerpt ++ '\n' :: (pointer ++ ['\n'])) ∧
    '\n' ∉ (Nat.repr n ++ " | ").toList ++ excerpt ∧ '\n' ∉ pointer ∧
    pointer.count '^' = 1 ∧ pointer[(Nat.repr n ++ " | ").length+column]? = some '^' ∧
    x <+: excerpt.drop column

theorem columnOf_eq {line : Line} {xs ys : List Char} (ht : line.text.toList = xs ++ ys)
    (hc : line.column = bytes xs) : columnOf line = xs.length := by
  rw [columnOf,ht,hc,charsBefore_bytes]
  rfl

theorem lineFeed_not_mem_repr (n : Nat) : '\n' ∉ (Nat.repr n ++ " | ").toList := by
  intro h
  rw [String.toList_append,List.mem_append,Nat.toList_repr] at h
  rcases h with h | h
  · exact absurd (Nat.isDigit_of_mem_toDigits (by decide) (by decide) h) (by decide)
  · exact absurd h (by decide)

theorem pointer_eq (line : Line) (n : Nat) : ∃ dashes : List Char,
    (gutter line ++ " " ++ caret n).toList = dashes ++ ['^'] ∧ '\n' ∉ dashes ∧ '^' ∉ dashes ∧
      dashes.length = (Nat.repr line.number ++ " | ").length+n := by
  refine ⟨(gutter line ++ " ").toList ++ List.replicate n '-',?_,?_,?_,?_⟩
  · simp [caret]
  · simp [gutter]
  · simp [gutter]
  · have hbar : " | ".length = 3 := by decide
    simp [gutter,hbar]
    omega

theorem showLine_pointsAt {line : Line} {xs x ys : List Char} (heading : String)
    (ht : line.text.toList = xs ++ (x ++ ys)) (hc : line.column = bytes xs) (hx : x ≠ [])
    (hs : ∀ c ∈ x, isSpace c = false) (hn : '\n' ∉ excerpt line.text.toList) :
    PointsAt (heading ++ showLine line) line.number x := by
  have hdrop := excerpt_drop hx hs xs ys
  rw [← ht,← columnOf_eq ht hc] at hdrop
  obtain ⟨dashes,hdashes,hfeed,hcaret,hlen⟩ :=
    pointer_eq line (columnOf line-indentOf line.text.toList)
  refine ⟨(heading ++ gutter line).toList,excerpt line.text.toList,dashes ++ ['^'],
    columnOf line-indentOf line.text.toList,?_,?_,?_,?_,?_,hdrop⟩
  · rw [← hdashes]
    simp [showLine]
  · rw [List.mem_append,not_or]
    exact ⟨lineFeed_not_mem_repr _,hn⟩
  · simpa using hfeed
  · rw [List.count_append,List.count_eq_zero.mpr hcaret]
    rfl
  · rw [← hlen]
    simp

theorem Line.Holds.excerpt_clear {line : Line} {n p : Nat} {cs before behind : List Char}
    (h : line.Holds n p cs before behind) : '\n' ∉ excerpt line.text.toList := by
  intro hm
  rcases h.ends with ⟨l,hl,hn,-⟩ | ⟨hn,-,-⟩
  · rw [hl,excerpt,List.drop_append] at hm
    cases hk : indentOf (l ++ ['\n'])-l.length with
    | zero =>
      rw [hk,List.drop_zero,trimEnd_space (by decide)] at hm
      exact hn (List.mem_of_mem_drop (mem_of_mem_trimEnd hm))
    | succ k =>
      rw [hk] at hm
      have hm := mem_of_mem_trimEnd hm
      simp only [List.drop_succ_cons,List.drop_nil,List.append_nil] at hm
      exact hn (List.mem_of_mem_drop hm)
  · exact hn (List.mem_of_mem_drop (mem_of_mem_trimEnd hm))

/-- A piece of a text without a line feed stands on one line, from its first byte on. -/
theorem Line.Holds.piece {line : Line} {n : Nat} {cs before behind xs x ys : List Char}
    (h : line.Holds n (bytes xs) cs before behind) (ht : cs = xs ++ (x ++ ys)) (hx : '\n' ∉ x) :
    line.number = n+xs.count '\n' ∧
      ∃ front back, line.text.toList = front ++ (x ++ back) ∧ line.column = bytes front := by
  obtain ⟨front,rfl,hrest⟩ := split_of_bytes_le (h.text.symm.trans ht) (by
    rw [h.column]
    exact Nat.le_add_right _ _)
  have hcolumn : line.column = bytes front := by
    have hc := h.column
    rw [bytes_append] at hc
    omega
  have hnumber : '\n' ∉ front → line.number = n+(before ++ front).count '\n' := by
    intro hf
    rw [h.number,List.count_append,List.count_eq_zero.mpr hf,Nat.add_zero]
  rcases h.ends with ⟨l,hl,hn,hc⟩ | ⟨hn,rfl,-⟩
  · -- Neither the piece nor what is in front of it reaches the line feed.
    rw [hl,List.append_assoc] at hrest
    obtain ⟨tl,rfl,htl⟩ := split_of_bytes_le hrest.symm (hcolumn ▸ hc)
    simp only [List.mem_append,not_or] at hn
    rcases List.append_eq_append_iff.mp htl with ⟨ms,rfl,-⟩ | ⟨ms,rfl,hms⟩
    · exact ⟨hnumber hn.1,front,ms ++ ['\n'],by simp [hl],hcolumn⟩
    · cases ms with
      | nil => exact ⟨hnumber hn.1,front,['\n'],by simp [hl],hcolumn⟩
      | cons m ms =>
        obtain ⟨rfl,-⟩ := List.cons.inj hms
        simp at hx
  · rw [List.append_nil] at hrest
    rw [hrest] at hn
    exact ⟨hnumber fun hf => hn (List.mem_append_left _ hf),front,ys,hrest,hcolumn⟩

end Precedence.Text
