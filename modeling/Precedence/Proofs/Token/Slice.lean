import Precedence.Proofs.Token.Longest

/-! Pieces of a source. A piece that goes from one token to another has the tokens in between and no
others, each as far behind its start as it is in the source. -/
namespace Precedence
open Text

/-- A piece of a source, from one byte up to another. -/
def Source.Slice (source : Source) (start stop : Nat) (text : String) : Prop :=
  ∃ before behind, source.text.toList = before ++ (text.toList ++ behind) ∧
    start = bytes before ∧ stop = start+bytes text.toList

theorem Kind.Longest.cut {k : Kind} {text xs ys : List Char} (h : k.Longest text (xs ++ ys)) :
    k.Longest text xs := by
  have hhead : ∀ d ∈ xs.head?, d ∈ (xs ++ ys).head? := by
    cases xs with
    | nil => simp
    | cons x xs => exact fun d hd => hd
  cases h with
  | keyword h hb => exact .keyword h fun d hd => hb d (hhead d hd)
  | identifier hc hcs h hb => exact .identifier hc hcs h fun d hd => hb d (hhead d hd)
  | integer hc hcs hb => exact .integer hc hcs fun d hd => hb d (hhead d hd)
  | equal => exact .equal
  | notEqual => exact .notEqual
  | assign hb => exact .assign fun hd => hb (hhead _ hd)
  | bang hb => exact .bang fun hd => hb (hhead _ hd)
  | single h => exact .single h
  | illegal hb hw hd hs he hx => exact .illegal hb hw hd hs he hx

namespace Scanner
variable {s : Scanner} {c : Char} {cs : List Char} {t : Token} {ts more : List Token}

theorem skipBlanks_of_lexeme (h : s.rest.dropWhile isBlank = c :: cs) :
    s.skipBlanks.skipBlanks = s.skipBlanks := by
  simp [skipBlanks,h,not_blank_of_lexeme h]

theorem ahead_from (s : Scanner) (used : List Token) (h : s.ahead = used ++ t :: ts) :
    ∃ before cs, s.rest = before ++ cs ∧ t.span.start = (s.offset+bytes before).toUInt32 ∧
      ({ s with rest := cs, offset := s.offset+bytes before } : Scanner).ahead = t :: ts := by
  induction s using scan_induction generalizing used with
  | blanks s hs => simp [ahead_of_blanks hs] at h
  | lexeme s c cs hs ih =>
    cases used with
    | nil =>
      have hsplit := List.takeWhile_append_dropWhile (p := isBlank) (l := s.rest)
      refine ⟨s.rest.takeWhile isBlank,s.rest.dropWhile isBlank,hsplit.symm,?_,?_⟩
      · rw [ahead_of_lexeme hs] at h
        obtain ⟨rfl,-⟩ := List.cons.inj h
        rfl
      · rw [← List.nil_append (t :: ts),← h]
        exact ahead_congr (skipBlanks_of_lexeme hs)
    | cons u used =>
      rw [ahead_of_lexeme hs] at h
      obtain ⟨before,cs',hrest,hstart,hahead⟩ := ih used (List.cons.inj h).2
      rw [behind_offset,Nat.add_assoc,← bytes_append] at hstart hahead
      refine ⟨s.front c cs ++ before,cs',?_,hstart,hahead⟩
      rw [List.append_assoc,← hrest]
      exact front_append hs

theorem ahead_front {text more : List Char} (h : s.rest.dropWhile isBlank = c :: cs)
    (hr : (s.behind c cs).rest = text ++ more) :
    ({ s with rest := s.front c cs ++ text } : Scanner).ahead =
      s.skipBlanks.tokenHere (lexemeAt c cs).kind (lexemeAt c cs).text ::
        ({ s.behind c cs with rest := text } : Scanner).ahead := by
  have hc := not_blank_of_lexeme h
  have hblanks : ∀ d ∈ s.rest.takeWhile isBlank, isBlank d = true :=
    List.all_eq_true.mp List.all_takeWhile
  have hlong := lexemeAt_longest cs hc
  obtain ⟨tl,htl,-⟩ := lexemeAt_text c cs
  rw [show (lexemeAt c cs).rest = text ++ more from hr,htl] at hlong
  have hlex := hlong.cut.lexemeAt
  have hfront : s.front c cs ++ text = s.rest.takeWhile isBlank ++ c :: (tl ++ text) := by
    rw [front,htl,List.append_assoc,List.cons_append]
  obtain ⟨htake,hdrop⟩ := @takeWhile_append_exact isBlank _ (c :: (tl ++ text)) hblanks
    (by simpa using hc)
  rw [← hfront] at htake hdrop
  rw [ahead_of_lexeme (s := { s with rest := s.front c cs ++ text }) hdrop]
  simp [skipBlanks,behind,tokenHere,htake,hlex,htl]

/-- A text that ends behind some of its tokens has those tokens. -/
theorem ahead_upto (s : Scanner) (h : s.ahead = ts ++ more) (hb : s.offset+bytes s.rest < 2^32) :
    ∃ text behind, s.rest = text ++ behind ∧ ({ s with rest := text } : Scanner).ahead = ts ∧
      (ts = [] → text = []) ∧ ∀ t ∈ ts.getLast?, t.span.stop.toNat = s.offset+bytes text := by
  induction s using scan_induction generalizing ts with
  | blanks s hs =>
    obtain ⟨rfl,-⟩ := List.append_eq_nil_iff.mp ((ahead_of_blanks hs).symm.trans h).symm
    exact ⟨[],s.rest,rfl,ahead_of_blanks rfl,fun _ => rfl,by simp⟩
  | lexeme s c cs hs ih =>
    cases ts with
    | nil => exact ⟨[],s.rest,rfl,ahead_of_blanks rfl,fun _ => rfl,by simp⟩
    | cons t ts =>
      rw [ahead_of_lexeme hs] at h
      obtain ⟨rfl,hts⟩ := List.cons.inj h
      obtain ⟨text,behind,hrest,hahead,hnil,hstop⟩ := ih hts (by rwa [bytes_behind hs])
      refine ⟨s.front c cs ++ text,behind,?_,?_,by simp,fun u hu => ?_⟩
      · rw [List.append_assoc,← hrest]
        exact front_append hs
      · rw [ahead_front hs hrest,hahead]
      · rw [bytes_append,← Nat.add_assoc,← behind_offset]
        cases ts with
        | nil =>
          obtain rfl : _ = u := by simpa using hu
          rw [hnil rfl,tokenHere_stop hs hb]
          rfl
        | cons v ts => exact hstop u (by rwa [List.getLast?_cons_cons] at hu)

theorem last_stop (s : Scanner) (hb : s.offset+bytes s.rest < 2^32) :
    s.last.span.stop.toNat = s.offset+bytes s.rest := by
  simp only [last,tokenHere,bytes_nil,Nat.add_zero,Nat.toUInt32_eq,UInt32.toNat_ofNat']
  omega

end Scanner

theorem Source.ahead_from {source : Source} {used ts : List Token} {t : Token}
    (h : (Scanner.ofSource source).ahead = used ++ t :: ts)
    (hb : bytes source.text.toList < 2^32) : ∃ before cs, source.text.toList = before ++ cs ∧
      t.span.start.toNat = bytes before ∧
      (⟨cs,bytes before,source.file⟩ : Scanner).ahead = t :: ts ∧
      (⟨cs,bytes before,source.file⟩ : Scanner).last = (Scanner.ofSource source).last := by
  obtain ⟨before,cs,hrest,hstart,hahead⟩ := (Scanner.ofSource source).ahead_from used h
  have htext : source.text.toList = before ++ cs := hrest
  have hoffset : (Scanner.ofSource source).offset = 0 := rfl
  rw [hoffset,Nat.zero_add] at hstart hahead
  refine ⟨before,cs,htext,?_,hahead,?_⟩
  · rw [htext,bytes_append] at hb
    rw [hstart,Nat.toUInt32_eq,UInt32.toNat_ofNat']
    omega
  · simp [Scanner.last,Scanner.ofSource,htext,bytes_append]

end Precedence
