import Mathlib.Data.List.Basic
import Precedence.Proofs.Syntax.Acceptance
import Precedence.Proofs.Token.Blanks

/-! Blanks between two texts separate their tokens, and the tokens of a text do not depend on the
blanks between them. -/
namespace Precedence
open Text

namespace Source
variable {source : Source}

theorem tokens_spelling (source : Source) : source.tokens.map Token.spelling =
    spellings source.text.toList ++ [⟨.endOfInput,""⟩] := by
  rw [tokens,List.map_append,Scanner.ahead_spellings]
  rfl

theorem spellings_words (source : Source) :
    source.words.flatMap (fun t => spellings t.text.toList) = spellings source.text.toList := by
  have hwords : source.words.map Token.spelling = spellings source.text.toList := by
    rw [words_eq,Scanner.ahead_spellings]
    rfl
  have halone : ∀ t ∈ source.words, spellings t.text.toList = [t.spelling] := by
    intro t ht
    have hl : t.spelling.Lexes := lexes_of_mem_spellings _ (hwords ▸ List.mem_map_of_mem ht)
    exact hl.alone
  rw [← hwords,List.map_eq_flatMap]
  exact List.flatMap_congr halone

theorem spellings_tokens (source : Source) :
    source.tokens.flatMap (fun t => spellings t.text.toList) = spellings source.text.toList := by
  have htokens : source.tokens = source.words ++ [source.ending] := by
    rw [words_eq,tokens,last_ofSource]
  rw [htokens,List.flatMap_append,spellings_words]
  simp [ending]

end Source

/-- Blanks separate. With blanks in between, the tokens of two texts are those of the first one,
without its end token, and those of the second one, further behind by the bytes that stand before it.
So the tokens of any source can be written one behind the other with any blanks in between, and are
the same tokens then. -/
theorem blanks_separate :
    (∀ a w b file : String, w ≠ "" → (∀ c ∈ w.toList, isBlank c = true) →
      bytes (a ++ w ++ b).toList < 2^32 →
      Source.tokens ⟨a ++ w ++ b,file⟩ = Source.words ⟨a,file⟩ ++
        (Source.tokens ⟨b,file⟩).map (Token.moved (bytes (a ++ w).toList)) ∧
      ∀ t ∈ Source.tokens ⟨b,file⟩,
        (t.moved (bytes (a ++ w).toList)).span.start.toNat =
          t.span.start.toNat+bytes (a ++ w).toList ∧
        (t.moved (bytes (a ++ w).toList)).span.stop.toNat =
          t.span.stop.toNat+bytes (a ++ w).toList) ∧
    ∀ (source : Source) (text file : String),
      Token.Spaced source.tokens text.toList ∨ Token.Spaced source.words text.toList →
      (Source.tokens ⟨text,file⟩).map Token.spelling = source.tokens.map Token.spelling := by
  refine ⟨fun a w b file hne hw hlen => ⟨?_,fun t ht => ?_⟩,fun source text file h => ?_⟩
  · have hahead := @Scanner.ahead_separated (.ofSource ⟨a,file⟩) w.toList
      (fun h => hne (String.toList_eq_nil_iff.mp h)) hw b.toList
    have hmoved := Scanner.ahead_moved (bytes (a ++ w).toList) (.ofSource ⟨b,file⟩)
    rw [Source.words_eq,Source.tokens,Source.tokens,Scanner.last_of_append,List.map_append,← hmoved,
      ← List.append_assoc]
    congr 1
    simpa [Scanner.ofSource,String.toList_append] using hahead
  · have hb : bytes b.toList < 2^32 := by
      simp only [String.toList_append,bytes_append] at hlen
      omega
    obtain ⟨before,behind,hs,-⟩ := Source.token_stands hb ht
    refine hs.moved ?_
    simp only [String.toList_append,bytes_append,Scanner.ofSource] at hlen ⊢
    omega
  · rw [Source.tokens_spelling,Source.tokens_spelling]
    rcases h with h | h
    · rw [h.spellings_eq,source.spellings_tokens]
    · rw [h.spellings_eq,source.spellings_words]

/-- Symbols that would run together without a line feed in between, and a text written anew with a tab
and a line feed where it had no blanks. -/
theorem blanks_separate_symbols :
    ("\n" ≠ "" ∧ (∀ c ∈ "\n".toList, isBlank c = true) ∧
      bytes ("é=" ++ "\n" ++ "=1").toList < 2^32 ∧
      Source.tokens ⟨"é=" ++ "\n" ++ "=1","f"⟩ = Source.words ⟨"é=","f"⟩ ++
        (Source.tokens ⟨"=1","f"⟩).map (Token.moved 4)) ∧
    Token.Spaced (Source.tokens ⟨"x==","f"⟩) "x\t==\n".toList ∧
      (Source.tokens ⟨"x\t==\n","g"⟩).map Token.spelling =
        (Source.tokens ⟨"x==","f"⟩).map Token.spelling := by
  have hw : ∀ c ∈ "\n".toList, isBlank c = true := List.all_eq_true.mp (by decide)
  have hlen : bytes ("é=" ++ "\n" ++ "=1").toList < 2^32 := by decide
  have hspaced : Token.Spaced (Source.tokens ⟨"x==","f"⟩) "x\t==\n".toList := by
    have htokens : Source.tokens ⟨"x==","f"⟩ = [⟨.identifier,"x",⟨"f",0,1⟩⟩,
      ⟨.equal,"==",⟨"f",1,3⟩⟩,⟨.endOfInput,"",⟨"f",3,3⟩⟩] := by decide +kernel
    rw [htokens]
    exact .more _ (w := ['\t']) (by simp) (List.all_eq_true.mp (by decide))
      (.more _ (w := ['\n']) (by simp) (List.all_eq_true.mp (by decide)) (.last _))
  exact ⟨⟨by decide,hw,hlen,(blanks_separate.1 "é=" "\n" "=1" "f" (by decide) hw hlen).1⟩,hspaced,
    blanks_separate.2 _ _ _ (.inl hspaced)⟩

end Precedence
