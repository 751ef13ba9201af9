import Precedence.Console.Elapsed
import Mathlib.Algebra.Group.Nat.Defs

/-! A duration is written in the largest unit that it fills, and nothing of it is lost. -/
namespace Precedence.Console

/-- The text is the number `n` with its point moved left by so many digits, where no zero stands at
the end of the fraction. -/
def Tells (text : String) (digits n : Nat) : Prop :=
  ∃ (whole : Nat) (kept : List Char),
    text = Nat.repr whole ++ (if kept.isEmpty then "" else "." ++ String.ofList kept) ∧
    kept.length ≤ digits ∧ kept.getLast? ≠ some '0' ∧
    Nat.ofDigitChars 10 (kept ++ List.replicate (digits-kept.length) '0') whole = n

theorem strip_append (cs : List Char) : ∃ kept zeros : List Char,
    (cs.reverse.dropWhile (· == '0')).reverse = kept ∧ cs = kept ++ zeros ∧
      zeros = List.replicate (cs.length-kept.length) '0' ∧ kept.getLast? ≠ some '0' := by
  have hsplit := congrArg List.reverse
    (List.takeWhile_append_dropWhile (p := (· == '0')) (l := cs.reverse))
  rw [List.reverse_append,List.reverse_reverse] at hsplit
  refine ⟨_,(cs.reverse.takeWhile (· == '0')).reverse,rfl,hsplit.symm,?_,?_⟩
  · have hlength := congrArg List.length hsplit
    rw [List.length_append] at hlength
    refine List.eq_replicate_iff.mpr ⟨by omega,fun c hc => ?_⟩
    exact eq_of_beq (List.all_eq_true.mp List.all_takeWhile c (List.mem_reverse.mp hc))
  · rw [List.getLast?_reverse]
    intro h
    have hnot := List.head?_dropWhile_not (· == '0') cs.reverse
    rw [h] at hnot
    simp at hnot

theorem decimalText_tells {fraction digits : Nat} (whole : Nat) (hd : 0 < digits)
    (h : fraction < 10^digits) :
    Tells (decimalText whole fraction digits) digits (10^digits*whole+fraction) := by
  have hlength : (Nat.toDigits 10 fraction).length ≤ digits :=
    (Nat.length_toDigits_le_iff (by decide) hd).mpr h
  obtain ⟨kept,zeros,hkept,hsplit,hzeros,hlast⟩ := strip_append
    (List.replicate (digits-(Nat.toDigits 10 fraction).length) '0' ++ Nat.toDigits 10 fraction)
  have hpadded := congrArg List.length hsplit
  simp only [List.length_append,List.length_replicate] at hpadded hzeros
  rw [Nat.sub_add_cancel hlength] at hpadded hzeros
  refine ⟨whole,kept,by rw [decimalText,hkept],by omega,hlast,?_⟩
  rw [← hzeros,← hsplit,Nat.ofDigitChars_append,Nat.ofDigitChars_replicate_zero,
    Nat.ofDigitChars_eq_ofDigitChars_zero,Nat.ofDigitChars_ten_toDigits,← Nat.mul_assoc,
    ← Nat.pow_add,Nat.add_sub_cancel' hlength]

/-- A duration is told to the nanosecond, in the largest unit that it fills or else in the smallest
one. -/
theorem elapsedText_tells (n : Nat) : ∃ digits unit text,
    (digits,unit) ∈ [(9,"s"),(6,"ms"),(3,"µs"),(0,"ns")] ∧ elapsedText n = text ++ unit ∧
      Tells text digits n ∧ (10^digits ≤ n ∨ digits = 0) ∧ (n < 10^(digits+3) ∨ digits = 9) := by
  have hscaled (digits : Nat) (hd : 0 < digits) :
      Tells (decimalText (n/10^digits) (n%10^digits) digits) digits n := by
    have h := decimalText_tells (n/10^digits) hd (Nat.mod_lt n (Nat.pow_pos (by decide)))
    rwa [Nat.div_add_mod] at h
  unfold elapsedText
  split
  · exact ⟨9,"s",_,by decide,rfl,hscaled 9 (by decide),by omega,by omega⟩
  split
  · exact ⟨6,"ms",_,by decide,rfl,hscaled 6 (by decide),by omega,by omega⟩
  split
  · exact ⟨3,"µs",_,by decide,rfl,hscaled 3 (by decide),by omega,by omega⟩
  · exact ⟨0,"ns",_,by decide,rfl,⟨n,[],by simp,by decide,by decide,rfl⟩,by omega,by omega⟩

example : elapsedText 12345 = "12.345µs" := by decide
example : elapsedText 1000000001 = "1.000000001s" := by decide

end Precedence.Console
