import Precedence.Text.Lines

/-! Where the line that holds a byte stands in its text: behind a line feed or at the start, with as
many line feeds in front of it as its number tells, and up to its own line feed or to the end. -/
namespace Precedence.Text
variable {l rest : List Char}

theorem lines_of_not_mem (hne : l ≠ []) (h : '\n' ∉ l) : lines l = [l] := by
  induction l with
  | nil => exact absurd rfl hne
  | cons c cs ih =>
    simp only [List.mem_cons,not_or] at h
    rw [lines,if_neg (Ne.symm h.1)]
    cases cs with
    | nil => rfl
    | cons d ds => rw [ih (by simp) h.2]

theorem lines_append (h : '\n' ∉ l) (rest : List Char) :
    lines (l ++ '\n' :: rest) = (l ++ ['\n']) :: lines rest := by
  induction l with
  | nil => simp [lines]
  | cons c cs ih =>
    simp only [List.mem_cons,not_or] at h
    rw [List.cons_append,lines,if_neg (Ne.symm h.1),ih h.2,List.cons_append]

/-- A text is empty, or one line without a line feed, or starts with a line that has one. -/
theorem line_induction {P : List Char → Prop} (nil : P [])
    (last : ∀ l, l ≠ [] → '\n' ∉ l → P l)
    (line : ∀ l rest, '\n' ∉ l → P rest → P (l ++ '\n' :: rest)) (cs : List Char) : P cs := by
  by_cases h : '\n' ∈ cs
  · obtain ⟨l,rest,hcs,hl⟩ := List.eq_append_cons_of_mem h
    have hlt : rest.length < cs.length := by
      rw [hcs,List.length_append,List.length_cons]
      omega
    rw [hcs]
    exact line l rest hl (line_induction nil last line rest)
  · by_cases hne : cs = []
    · rw [hne]
      exact nil
    · exact last cs hne h
termination_by cs.length

/-- The line is what stands between two parts of a text whose first line has number `n`, and byte `p`
of the text lies in it or right behind it. -/
structure Line.Holds (line : Line) (n p : Nat) (cs before behind : List Char) : Prop where
  text : cs = before ++ (line.text.toList ++ behind)
  number : line.number = n+before.count '\n'
  column : p = bytes before+line.column
  starts : ∀ c ∈ before.getLast?, c = '\n'
  /-- It ends with its only line feed, or at the end of the text. Only there can the byte be behind
  it. -/
  ends : (∃ l, line.text.toList = l ++ ['\n'] ∧ '\n' ∉ l ∧ line.column ≤ bytes l) ∨
    '\n' ∉ line.text.toList ∧ behind = [] ∧ line.column ≤ bytes line.text.toList

/-- Walking down the lines of a text leads to the line that holds the byte. -/
theorem locate_holds (cs : List Char) (n p : Nat) (hp : p ≤ bytes cs) :
    ∃ before behind, (locate n (lines cs) p).Holds n p cs before behind := by
  induction cs using line_induction generalizing n p with
  | nil =>
    have h0 : p = 0 := by simpa using hp
    exact ⟨[],[],by simp [lines,locate],by simp [lines,locate],by simp [lines,locate,h0],by simp,
      .inr (by simp [lines,locate])⟩
  | last l hne hl =>
    have hlast : l.getLast? ≠ some '\n' := fun h => hl (List.mem_of_getLast? h)
    have hline : locate n (lines l) p = ⟨n,String.ofList l,p⟩ := by
      rw [lines_of_not_mem hne hl,locate,if_pos (.inr hlast)]
    rw [hline]
    exact ⟨[],[],by simp,by simp,by simp,by simp,.inr (by simpa using ⟨hl,hp⟩)⟩
  | line l rest hl ih =>
    rw [lines_append hl,locate]
    have hbytes : bytes (l ++ ['\n']) = bytes l+1 := by rw [bytes_append]; rfl
    -- A byte behind this line is looked for in the later ones, counted from its end.
    by_cases hlt : p < bytes (l ++ ['\n'])
    · rw [if_pos (.inl hlt)]
      exact ⟨[],rest,by simp,by simp,by simp,by simp,.inl ⟨l,by simp,hl,by simp; omega⟩⟩
    · rw [if_neg (not_or.mpr ⟨hlt,by simp⟩)]
      have htotal : bytes (l ++ '\n' :: rest) = bytes (l ++ ['\n'])+bytes rest := by
        rw [← bytes_append,List.append_assoc]
        rfl
      obtain ⟨before,behind,h⟩ := ih (n+1) (p-bytes (l ++ ['\n'])) (by omega)
      refine ⟨l ++ '\n' :: before,behind,?_,?_,?_,fun c hc => ?_,h.ends⟩
      · simpa using h.text
      · rw [h.number,List.count_append,List.count_eq_zero.mpr hl,List.count_cons_self]
        omega
      · have hcolumn := h.column
        have hsplit : bytes (l ++ '\n' :: before) = bytes (l ++ ['\n'])+bytes before := by
          rw [← bytes_append,List.append_assoc]
          rfl
        omega
      · cases hb : before.getLast? with
        | none =>
          rw [List.getLast?_eq_none_iff.mp hb] at hc
          simpa [eq_comm] using hc
        | some d =>
          have hd := h.starts d hb
          rw [List.getLast?_append,List.getLast?_cons,hb] at hc
          simpa [hd,eq_comm] using hc

theorem lineAt_eq_some {content : String} {p : Nat} {line : Line}
    (h : lineAt content p = some line) :
    ∃ before behind, line.Holds 1 p content.toList before behind := by
  unfold lineAt at h
  split at h
  · simp at h
  · obtain rfl := Option.some.inj h
    exact locate_holds _ 1 p (by omega)

theorem lineAt_eq_none {content : String} {p : Nat} :
    lineAt content p = none ↔ bytes content.toList < p := by
  unfold lineAt
  split <;> simp_all

end Precedence.Text
