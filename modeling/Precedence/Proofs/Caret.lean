import Precedence.Proofs.IllegalTokens
import Precedence.Proofs.Text.Excerpt

/-! A report shows the token that a fault lies at: its line, and a caret below where it starts. -/
namespace Precedence
open Text

theorem isSpace_of_isWordPart {c : Char} (h : isWordPart c = true) : isSpace c = false := by
  have hc : 48 ≤ c.toNat ∧ c.toNat ≤ 122 := by
    simp only [isWordPart,Char.isAlphanum,Bool.or_eq_true,beq_iff_eq] at h
    rcases h with (h | h) | rfl
    · change (decide ('A'.val ≤ c.val ∧ c.val ≤ 'Z'.val) ||
        (decide ('a'.val ≤ c.val) && decide (c.val ≤ 'z'.val))) = true at h
      simp only [Bool.or_eq_true,Bool.and_eq_true,decide_eq_true_eq,UInt32.le_iff_toNat_le] at h
      rcases h with h | h
      · exact ⟨Nat.le_trans (by decide) h.1,Nat.le_trans h.2 (by decide)⟩
      · exact ⟨Nat.le_trans (by decide) h.1,Nat.le_trans h.2 (by decide)⟩
    · rw [Char.isDigit_iff_toNat] at h
      exact ⟨Nat.le_trans (by decide) h.1,Nat.le_trans h.2 (by decide)⟩
    · decide
  simp only [isSpace,spaceRanges,List.any_cons,List.any_nil,Bool.or_eq_false_iff,
    Bool.and_eq_false_iff,decide_eq_false_iff_not,and_true]
  omega

/-- No white space is part of a token, unless it is an illegal token by itself. -/
theorem Kind.Longest.isSpace {k : Kind} {text behind : List Char} (h : k.Longest text behind)
    (hi : ¬ (k = .illegal ∧ text.all Text.isSpace = true)) : ∀ c ∈ text, Text.isSpace c = false := by
  have hrun {c : Char} {cs : List Char} (hc : isWordPart c = true)
      (hcs : ∀ d ∈ cs, isWordPart d = true) : ∀ d ∈ c :: cs, Text.isSpace d = false :=
    List.forall_mem_cons.mpr ⟨isSpace_of_isWordPart hc,fun d hd => isSpace_of_isWordPart (hcs d hd)⟩
  cases h with
  | keyword h =>
    obtain ⟨-,d,ds,rfl,hd,hds⟩ := Kind.ofWord_keywords h
    exact hrun (isWordPart_of_isWordStart hd) (List.all_eq_true.mp hds)
  | identifier hc hcs =>
    exact hrun (isWordPart_of_isWordStart hc) hcs
  | integer hc hcs =>
    exact hrun (isWordPart_of_isDigit hc) fun d hd => isWordPart_of_isDigit (hcs d hd)
  | equal | notEqual | assign | bang => simp [Text.isSpace,spaceRanges]
  | @single c k behind hs =>
    have hall : ∀ q ∈ singles, Text.isSpace q.1 = false := by decide
    simpa using hall _ hs
  | illegal => simpa using hi

theorem Fault.report_pointsAt {f : Fault} {text : String} {xs x ys : List Char}
    (ht : text.toList = xs ++ (x ++ ys)) (hf : f.place = bytes xs) (hx : x ≠ [])
    (hs : ∀ c ∈ x, isSpace c = false) :
    PointsAt (f.report text) (1+xs.count '\n') x := by
  have hle : bytes xs ≤ bytes text.toList := by
    rw [ht,bytes_append]
    exact Nat.le_add_right _ _
  have hfeed : '\n' ∉ x := fun hm => absurd (hs _ hm) (by decide)
  cases hline : lineAt text (bytes xs) with
  | none => exact absurd (lineAt_eq_none.mp hline) (Nat.not_lt.mpr hle)
  | some line =>
    obtain ⟨before,behind,hholds⟩ := lineAt_eq_some hline
    obtain ⟨hnumber,front,back,htext,hcolumn⟩ := hholds.piece ht hfeed
    have hreport : f.report text = f.heading ++ showLine line := by
      rw [Fault.report,show f.position.offset.toNat = bytes xs from hf,hline]
    rw [hreport,← hnumber]
    exact showLine_pointsAt f.heading htext hcolumn hx hs hholds.excerpt_clear

/-- Each fault of a source lies at one of its tokens. Unless that is the end token, or white space that
is no part of the language, the report of the fault ends with two lines that show it: the line on which
the token starts, behind its number, which is one more than the line feeds in front of the token, and
below it a caret in the column from which on the token stands there with its whole text. -/
theorem caret_below_token (source : Source) (hlen : bytes source.text.toList < 2^32) (f : Fault)
    (hf : f ∈ (parse source).faults) :
    ∃ t ∈ source.tokens, f.position = t.position ∧ f.cause.Blames t ∧
      (∀ u ∈ source.tokens, f.position = u.position → u = t) ∧
      (t.kind ≠ .endOfInput → ¬ (t.kind = .illegal ∧ t.text.toList.all isSpace = true) →
        ∃ before behind, source.text.toList = before ++ (t.text.toList ++ behind) ∧
          t.place = bytes before ∧
          PointsAt (f.report source.text) (1+before.count '\n') t.text.toList) := by
  have hbytes : (Scanner.ofSource source).offset+bytes (Scanner.ofSource source).rest < 2^32 := by
    simpa [Scanner.ofSource] using hlen
  obtain ⟨t,ht,hp,hblames⟩ := Scanner.parse_fault_lies hf
  have hplace : f.place = t.place := by rw [Fault.place,hp]; rfl
  refine ⟨t,ht,hp,hblames,fun u hu hup => ?_,fun hk hi => ?_⟩
  · exact Scanner.eq_of_place hbytes hu ht (congrArg (fun p => p.offset.toNat) (hup.symm.trans hp))
  · obtain ⟨before,behind,hstands,hlong⟩ := Source.token_stands hlen ht
    obtain ⟨c,cs,hc,-⟩ := (hlong hk).head
    have hstart : t.place = bytes before := by
      have hs := hstands.start
      rwa [Scanner.ofSource,Nat.zero_add] at hs
    exact ⟨before,behind,hstands.text,hstart,
      Fault.report_pointsAt hstands.text (hplace.trans hstart) (by simp [hc])
        ((hlong hk).isSpace hi)⟩

/-- Below the second character of an indented line, which has more than one byte. -/
theorem caret_below_token_indented :
    bytes "a;\n \té @ +;\r\n".toList < 2^32 ∧
      ⟨.noHead .illegal,⟨8,"f"⟩⟩ ∈ (parse ⟨"a;\n \té @ +;\r\n","f"⟩).faults ∧
      Fault.report ⟨.noHead .illegal,⟨8,"f"⟩⟩ "a;\n \té @ +;\r\n" =
        "error: no prefix parse function for ILLEGAL found (this character is not part of the " ++
          "language)\n-> f\n  |\n2 | é @ +;\n  | --^\n" ∧
      PointsAt (Fault.report ⟨.noHead .illegal,⟨8,"f"⟩⟩ "a;\n \té @ +;\r\n") 2 ['@'] := by
  have hlen : bytes "a;\n \té @ +;\r\n".toList < 2^32 := by decide
  have hf : ⟨.noHead .illegal,⟨8,"f"⟩⟩ ∈ (parse ⟨"a;\n \té @ +;\r\n","f"⟩).faults := by
    decide +kernel
  obtain ⟨t,-,-,-,hone,hshown⟩ := caret_below_token _ hlen _ hf
  obtain rfl : ⟨.illegal,"@",⟨"f",8,9⟩⟩ = t := hone _ (by decide +kernel) rfl
  obtain ⟨before,behind,htext,hplace,hpoints⟩ := hshown (by decide) (by decide)
  have hbefore : before = "a;\n \té ".toList := by
    have hsplit : "a;\n \té ".toList ++ "@ +;\r\n".toList = before ++ ("@".toList ++ behind) := htext
    have hbytes : bytes before = bytes "a;\n \té ".toList := hplace.symm
    obtain ⟨ms,rfl,-⟩ := split_of_bytes_le hsplit (Nat.le_of_eq hbytes.symm)
    rw [bytes_append,Nat.add_eq_left] at hbytes
    by_contra hne
    have hpos := bytes_pos fun hm : ms = [] => hne (by rw [hm,List.append_nil])
    omega
  subst hbefore
  exact ⟨hlen,hf,by decide +kernel,hpoints⟩

end Precedence
