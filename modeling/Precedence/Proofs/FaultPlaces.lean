import Precedence.Proofs.Descent.Blame
import Precedence.Proofs.Descent.Order
import Precedence.Proofs.Syntax.Acceptance
import Precedence.Proofs.Token.Places

/-! Faults tell where they are: each lies at a token of the source, and what it says is true of
that token. They come in the order of the source, with no more than two at one token. -/
namespace Precedence
open Parse Descent

theorem Scanner.parse_fault_lies {s : Scanner} {f : Fault} (hf : f ∈ s.parse.faults) :
    ∃ t ∈ s.ahead ++ [s.last], f.LiesAt t := by
  obtain ⟨ss,c,hc⟩ := s.statements_done
  have h := Parse.Blames.inherited.program nestingLimit (· == .endOfInput)
    (.ofScanner s) s.ahead_lexed rfl
  rw [show within .standard nestingLimit = levels nestingLimit from rfl,hc] at h
  rw [parse_of_statements hc] at hf
  rcases h.2 f hf with hf | hf
  · simp [Cursor.ofScanner] at hf
  · exact hf

theorem Source.tokens_file (source : Source) :
    ∀ t ∈ source.tokens, t.position.file = source.file := by
  intro t ht
  rcases List.mem_append.mp ht with ht | ht
  · exact (Scanner.ofSource source).ahead_file t ht
  · rw [List.mem_singleton.mp ht]
    rfl

/-- Every fault of a source stands in its file, the shell if it has none, and at the start of a
token. What the fault says is wrong with that token is so. -/
theorem fault_lies_at_token (source : Source) :
    (∀ f ∈ (parse source).faults, f.position.file = source.file ∧
      ∃ t ∈ source.tokens, f.position = t.position ∧ f.cause.Blames t) ∧
    ∀ text, ∀ f ∈ (parse { text := text }).faults, f.position.file = "shell" := by
  have key (source : Source) (f : Fault) (hf : f ∈ (parse source).faults) :
      f.position.file = source.file ∧
        ∃ t ∈ source.tokens, f.position = t.position ∧ f.cause.Blames t := by
    obtain ⟨t,ht,hp,hb⟩ := Scanner.parse_fault_lies hf
    exact ⟨by rw [hp]; exact source.tokens_file t ht,t,ht,hp,hb⟩
  exact ⟨key source,fun text f hf => (key _ f hf).1⟩

/-- A number out of range, what that leaves behind, and a parenthesis missing where the input
ends. -/
theorem fault_lies_at_token_cascade :
    (parse ⟨"let a = 9223372036854775808; (b","f"⟩).faults =
        [⟨.badInteger "9223372036854775808",⟨8,"f"⟩⟩,⟨.noHead .semicolon,⟨27,"f"⟩⟩,
          ⟨.unexpected .closeParen .endOfInput,⟨31,"f"⟩⟩] ∧
      (∃ t ∈ Source.tokens ⟨"let a = 9223372036854775808; (b","f"⟩,
        ⟨8,"f"⟩ = t.position ∧ (Cause.badInteger "9223372036854775808").Blames t) ∧
      ∃ t ∈ Source.tokens ⟨"let a = 9223372036854775808; (b","f"⟩,
        ⟨31,"f"⟩ = t.position ∧ (Cause.unexpected .closeParen .endOfInput).Blames t := by
  have h : (parse ⟨"let a = 9223372036854775808; (b","f"⟩).faults =
      [⟨.badInteger "9223372036854775808",⟨8,"f"⟩⟩,⟨.noHead .semicolon,⟨27,"f"⟩⟩,
        ⟨.unexpected .closeParen .endOfInput,⟨31,"f"⟩⟩] := by decide +kernel
  obtain ⟨-,hnumber⟩ := (fault_lies_at_token ⟨"let a = 9223372036854775808; (b","f"⟩).1
    ⟨.badInteger "9223372036854775808",⟨8,"f"⟩⟩ (by simp [h])
  obtain ⟨-,hend⟩ := (fault_lies_at_token ⟨"let a = 9223372036854775808; (b","f"⟩).1
    ⟨.unexpected .closeParen .endOfInput,⟨31,"f"⟩⟩ (by simp [h])
  exact ⟨h,hnumber,hend⟩

/-- Faults that all lie at one place, which is not where the input ends, are at most two: that the
token was not the one asked for, and what was then wrong with it. -/
theorem Fault.length_le_two {last n : Nat} (hn : n ≠ last) {fs : List Fault}
    (h : fs.Pairwise (Fault.Before last)) (hp : ∀ f ∈ fs, f.place = n) :
    fs.length ≤ 2 ∧ ∀ f g, fs = [f,g] →
      f.cause.isUnexpected = true ∧ g.cause.isUnexpected = false := by
  have pair {f g : Fault} (hf : f.place = n) (hg : g.place = n) (hfg : Fault.Before last f g) :
      f.cause.isUnexpected = true ∧ g.cause.isUnexpected = false := by
    rcases hfg with hlt | ⟨-,hlast | hk⟩
    · omega
    · omega
    · exact hk
  match fs with
  | [] | [_] => exact ⟨by simp,by simp⟩
  | [f,g] =>
    refine ⟨Nat.le_refl 2,fun f' g' he => ?_⟩
    obtain ⟨rfl,rfl⟩ : f = f' ∧ g = g' := by simpa using he
    exact pair (hp f (by simp)) (hp g (by simp)) (List.rel_of_pairwise_cons h (by simp))
  | f :: g :: k :: fs =>
    have hfg := pair (hp f (by simp)) (hp g (by simp)) (List.rel_of_pairwise_cons h (by simp))
    have hgk := pair (hp g (by simp)) (hp k (by simp))
      (List.rel_of_pairwise_cons (List.pairwise_cons.mp h).2 (by simp))
    simp [hfg.2] at hgk

def Parsed.faultsAt (r : Parsed) (t : Token) : List Fault :=
  r.faults.filter fun f => f.position = t.position

theorem Scanner.parse_faults_before {s : Scanner} (h : s.offset+Text.bytes s.rest < 2^32) :
    s.parse.faults.Pairwise (Fault.Before s.last.place) := by
  obtain ⟨ss,c,hc⟩ := s.statements_done
  have ho := (Parse.Orderly.inherited .standard).program nestingLimit (· == .endOfInput)
    (.ofScanner s) (.ofScanner h)
  have hf := (statements_steady (levels_steady nestingLimit) rfl).follows s.proper hc
  have hlast : c.last = s.last := hf.last
  rw [show within .standard nestingLimit = levels nestingLimit from rfl,hc] at ho
  rw [parse_of_statements hc,← hlast]
  exact ho.before

/-- The faults of a source are found from its start to its end. A token of the source is the place
of two faults at the most, and of two only if it was not the one asked for and then something else
was wrong with it. -/
theorem faults_in_order (source : Source) (h : Text.bytes source.text.toList < 2^32) :
    ((parse source).faults.Pairwise fun f g => f.place ≤ g.place) ∧
      ∀ t ∈ source.words, ((parse source).faultsAt t).length ≤ 2 ∧
        ∀ f g, (parse source).faultsAt t = [f,g] →
          f.cause.isUnexpected = true ∧ g.cause.isUnexpected = false := by
  have hlen : (Scanner.ofSource source).offset+Text.bytes (Scanner.ofSource source).rest < 2^32 := by
    simpa [Scanner.ofSource] using h
  have hbefore := Scanner.parse_faults_before hlen
  refine ⟨hbefore.imp fun hfg => ?_,fun t ht => ?_⟩
  · rcases hfg with hlt | ⟨heq,-⟩
    · exact Nat.le_of_lt hlt
    · exact Nat.le_of_eq heq
  · have hend : t.place < (Scanner.ofSource source).last.place := by
      rw [Source.words_eq] at ht
      have ha := (Scanner.ofSource source).ahead_ascending hlen
      exact (List.pairwise_append.mp ha).2.2 t ht _ (by simp)
    refine Fault.length_le_two (Nat.ne_of_lt hend) (hbefore.sublist List.filter_sublist) ?_
    intro f hf
    have hp : f.position = t.position := by simpa using (List.mem_filter.mp hf).2
    rw [Fault.place,hp]
    rfl

/-- No name behind `let`, and what stands there starts no statement. -/
theorem faults_in_order_assign :
    Text.bytes "let = 1; )".toList < 2^32 ∧
      (parse ⟨"let = 1; )","f"⟩).faults =
        [⟨.unexpected .identifier .assign,⟨4,"f"⟩⟩,⟨.noHead .assign,⟨4,"f"⟩⟩,
          ⟨.noHead .closeParen,⟨9,"f"⟩⟩] ∧
      ((parse ⟨"let = 1; )","f"⟩).faultsAt ⟨.assign,"=",⟨"f",4,5⟩⟩).length ≤ 2 := by
  have h : Text.bytes "let = 1; )".toList < 2^32 := by decide +kernel
  obtain ⟨-,hfaults⟩ := faults_in_order ⟨"let = 1; )","f"⟩ h
  exact ⟨h,by decide +kernel,(hfaults _ (by decide +kernel)).1⟩

end Precedence
