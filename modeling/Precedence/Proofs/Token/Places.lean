import Mathlib.Algebra.Group.Nat.Defs
import Precedence.Proofs.Token.Spelling

/-! Where the tokens of a source stand: in its file, at offsets inside of its text. A source that
starts further behind, or goes on behind its last token, has the same tokens. -/
namespace Precedence
open Text

/-- A token that stands `n` bytes further behind. -/
def Token.moved (n : Nat) (t : Token) : Token :=
  { t with span := ⟨t.span.file,t.span.start+n.toUInt32,t.span.stop+n.toUInt32⟩ }

/-- The byte of the source at which a token starts. -/
def Token.place (t : Token) : Nat := t.position.offset.toNat

theorem Text.bytes_pos {cs : List Char} (h : cs ≠ []) : 0 < bytes cs := by
  cases cs with
  | nil => exact absurd rfl h
  | cons c cs =>
    have hc := Char.utf8Size_pos c
    rw [bytes_cons]
    omega

namespace Scanner
variable {s : Scanner} {c : Char} {cs : List Char}

/-- The scanner behind the first token, given the text from that token on. -/
def behind (s : Scanner) (c : Char) (cs : List Char) : Scanner :=
  ⟨(lexemeAt c cs).rest,s.skipBlanks.offset+bytes (lexemeAt c cs).text,s.file⟩

theorem next_of_blanks (h : s.rest.dropWhile isBlank = []) :
    s.next = (s.skipBlanks.tokenHere .endOfInput [],s.skipBlanks) := by
  have hr : s.skipBlanks.rest = [] := h
  rw [next,hr]

theorem next_of_lexeme (h : s.rest.dropWhile isBlank = c :: cs) :
    s.next = (s.skipBlanks.tokenHere (lexemeAt c cs).kind (lexemeAt c cs).text,
      s.behind c cs) := by
  have hr : s.skipBlanks.rest = c :: cs := h
  rw [next,hr]
  rfl

theorem ahead_of_blanks (h : s.rest.dropWhile isBlank = []) : s.ahead = [] := by
  rw [ahead,next_of_blanks h]
  exact dif_pos rfl

theorem ahead_of_lexeme (h : s.rest.dropWhile isBlank = c :: cs) :
    s.ahead = s.skipBlanks.tokenHere (lexemeAt c cs).kind (lexemeAt c cs).text ::
      (s.behind c cs).ahead := by
  rw [ahead,next_of_lexeme h]
  exact dif_neg (lexemeAt_kind_ne_end c cs)

/-- Scanning goes token by token until only blanks are left. -/
theorem scan_induction {P : Scanner → Prop} (blanks : ∀ s, s.rest.dropWhile isBlank = [] → P s)
    (lexeme : ∀ s c cs, s.rest.dropWhile isBlank = c :: cs → P (s.behind c cs) → P s)
    (s : Scanner) : P s := by
  cases h : s.rest.dropWhile isBlank with
  | nil => exact blanks s h
  | cons c cs => exact lexeme s c cs h (scan_induction blanks lexeme (s.behind c cs))
termination_by s.rest.length
decreasing_by
  have hs := s.skipBlanks_rest_le
  rw [show s.skipBlanks.rest = c :: cs from h] at hs
  exact Nat.lt_of_lt_of_le (lexemeAt_rest_lt c cs) hs

theorem bytes_behind (h : s.rest.dropWhile isBlank = c :: cs) :
    (s.behind c cs).offset+bytes (s.behind c cs).rest = s.offset+bytes s.rest := by
  have hs := congrArg bytes (List.takeWhile_append_dropWhile (p := isBlank) (l := s.rest))
  have hl := congrArg bytes (lexemeAt_append c cs)
  rw [h] at hs
  simp only [bytes_append] at hs hl
  simp only [behind,skipBlanks]
  omega

theorem ahead_file (s : Scanner) : ∀ t ∈ s.ahead, t.span.file = s.file := by
  induction s using scan_induction with
  | blanks s h => simp [ahead_of_blanks h]
  | lexeme s c cs h ih =>
    rw [ahead_of_lexeme h]
    intro t ht
    rcases List.mem_cons.mp ht with rfl | ht
    · rfl
    · exact ih t ht

theorem ahead_start (s : Scanner) :
    ∀ t ∈ s.ahead, ∃ n, n ≤ s.offset+bytes s.rest ∧ t.span.start = n.toUInt32 := by
  induction s using scan_induction with
  | blanks s h => simp [ahead_of_blanks h]
  | lexeme s c cs h ih =>
    rw [ahead_of_lexeme h]
    intro t ht
    rcases List.mem_cons.mp ht with rfl | ht
    · refine ⟨s.skipBlanks.offset,?_,rfl⟩
      have hb := bytes_behind h
      simp only [behind] at hb
      omega
    · rw [← bytes_behind h]
      exact ih t ht

theorem last_behind (h : s.rest.dropWhile isBlank = c :: cs) : (s.behind c cs).last = s.last := by
  rw [last,last,bytes_behind h]
  rfl

theorem place_tokenHere (h : s.offset < 2^32) (kind : Kind) (text : List Char) :
    (s.tokenHere kind text).place = s.offset := by
  simp only [tokenHere,Token.place,Token.position,Span.position,Nat.toUInt32_eq,UInt32.toNat_ofNat']
  omega

theorem offset_le_place (s : Scanner) (h : s.offset+bytes s.rest < 2^32) :
    ∀ t ∈ s.ahead ++ [s.last], s.offset ≤ t.place := by
  induction s using scan_induction with
  | blanks s hs =>
    rw [ahead_of_blanks hs,List.nil_append]
    intro t ht
    rw [List.mem_singleton.mp ht,last,place_tokenHere h]
    exact Nat.le_add_right _ _
  | lexeme s c cs hs ih =>
    have hb := bytes_behind hs
    have hbehind : (s.behind c cs).offset = s.skipBlanks.offset+bytes (lexemeAt c cs).text := rfl
    have hskip : s.offset ≤ s.skipBlanks.offset := Nat.le_add_right _ _
    rw [ahead_of_lexeme hs,List.cons_append,← last_behind hs]
    intro t ht
    rcases List.mem_cons.mp ht with rfl | ht
    · rw [place_tokenHere (by omega)]
      exact hskip
    · have hle := ih (by omega) t ht
      omega

/-- In a text that is not too long no offset wraps around, so that tokens start one behind the
other. -/
theorem ahead_ascending (s : Scanner) (h : s.offset+bytes s.rest < 2^32) :
    (s.ahead ++ [s.last]).Pairwise fun t u => t.place < u.place := by
  induction s using scan_induction with
  | blanks s hs => simp [ahead_of_blanks hs]
  | lexeme s c cs hs ih =>
    have hb := bytes_behind hs
    have hbehind : (s.behind c cs).offset = s.skipBlanks.offset+bytes (lexemeAt c cs).text := rfl
    have htext := bytes_pos (lexemeAt_text_ne_nil c cs)
    rw [ahead_of_lexeme hs,List.cons_append,← last_behind hs,List.pairwise_cons]
    refine ⟨fun t ht => ?_,ih (by omega)⟩
    have hle := (s.behind c cs).offset_le_place (by omega) t ht
    rw [place_tokenHere (by omega)]
    omega

theorem ahead_moved (n : Nat) (s : Scanner) :
    ({ s with offset := s.offset+n } : Scanner).ahead = s.ahead.map (Token.moved n) := by
  induction s using scan_induction with
  | blanks s h => rw [ahead_of_blanks h,ahead_of_blanks (by exact h),List.map_nil]
  | lexeme s c cs h ih =>
    rw [ahead_of_lexeme h,ahead_of_lexeme (by exact h),List.map_cons,← ih]
    have hswap : ∀ a b : Nat, a+n+b = a+b+n := by omega
    simp [tokenHere,behind,skipBlanks,Token.moved,hswap]

end Scanner

theorem lexemeAt_semicolon {c : Char} {cs : List Char} (h : (lexemeAt c cs).kind = .semicolon) :
    c = ';' := by
  have hword : ∀ w, Kind.ofWord w ≠ .semicolon := by
    intro w
    unfold Kind.ofWord Kind.reserved
    simp only [List.lookup_cons,List.lookup_nil]
    repeat' split
    all_goals simp
  unfold lexemeAt symbolAt at h
  split at h
  · exact absurd h (hword _)
  split at h
  · simp at h
  · split at h
    · simp at h
    · simp at h
    · dsimp only at h
      unfold Kind.ofSymbol at h
      split at h <;> simp at h
      rfl

theorem takeWhile_extend {p : Char → Bool} {cs : List Char} (ys : List Char)
    (h : cs.dropWhile p ≠ []) :
    (cs ++ ys).takeWhile p = cs.takeWhile p ∧ (cs ++ ys).dropWhile p = cs.dropWhile p ++ ys := by
  obtain ⟨d,ds,hd⟩ := List.exists_cons_of_ne_nil h
  have hn : p d = false := by simpa [hd] using List.head?_dropWhile_not p cs
  have hcs := List.takeWhile_append_dropWhile (p := p) (l := cs)
  rw [hd] at hcs ⊢
  have hx := @takeWhile_append_exact p (cs.takeWhile p) (d :: ds ++ ys)
    (List.all_eq_true.mp List.all_takeWhile) (by simp [hn])
  rwa [← List.append_assoc,hcs] at hx

theorem symbolAt_extend {c : Char} {cs : List Char} (ys : List Char)
    (h : (symbolAt c cs).rest ≠ []) :
    symbolAt c (cs ++ ys) =
      ⟨(symbolAt c cs).kind,(symbolAt c cs).text,(symbolAt c cs).rest ++ ys⟩ := by
  cases cs with
  | nil => simp [symbolAt] at h
  | cons d ds =>
    rw [List.cons_append]
    unfold symbolAt
    split <;> simp_all

/-- A token that does not end its text, or is a semicolon, is the same where the text goes on. -/
theorem lexemeAt_extend {c : Char} {cs : List Char} (ys : List Char)
    (h : (lexemeAt c cs).rest ≠ [] ∨ (lexemeAt c cs).kind = .semicolon) :
    lexemeAt c (cs ++ ys) =
      ⟨(lexemeAt c cs).kind,(lexemeAt c cs).text,(lexemeAt c cs).rest ++ ys⟩ := by
  rcases h with h | h
  · unfold lexemeAt at h ⊢
    by_cases hw : isWordStart c = true
    · simp only [hw,if_true] at h ⊢
      rw [(takeWhile_extend ys h).1,(takeWhile_extend ys h).2]
    · simp only [hw] at h ⊢
      by_cases hd : c.isDigit = true
      · simp only [hd,if_true] at h ⊢
        simp [takeWhile_extend ys h]
      · simp only [hd] at h ⊢
        exact symbolAt_extend ys h
  · obtain rfl := lexemeAt_semicolon h
    rfl

namespace Scanner

/-- Blanks in front of a token do not matter, except to where it stands. -/
theorem ahead_congr {s t : Scanner} (h : s.skipBlanks = t.skipBlanks) : s.ahead = t.ahead := by
  have hf : s.file = t.file := congrArg (fun s => s.file) h
  have hr : s.rest.dropWhile isBlank = t.rest.dropWhile isBlank := congrArg (fun s => s.rest) h
  cases ht : t.rest.dropWhile isBlank with
  | nil => rw [ahead_of_blanks ht,ahead_of_blanks (hr.trans ht)]
  | cons c cs => rw [ahead_of_lexeme ht,ahead_of_lexeme (hr.trans ht),behind,h,hf,behind]

theorem ahead_append_blanks (ys : List Char) {s : Scanner} (h : s.rest.dropWhile isBlank = []) :
    ({ s with rest := s.rest ++ ys } : Scanner).ahead =
      ({ s with rest := ys, offset := s.offset+bytes s.rest } : Scanner).ahead := by
  have hall := @all_of_takeWhile isBlank s.rest (by
    simpa [h] using @List.takeWhile_append_dropWhile _ isBlank s.rest)
  apply ahead_congr
  simp only [skipBlanks,List.dropWhile_append_of_pos hall,List.takeWhile_append_of_pos hall,
    bytes_append,Nat.add_assoc]

theorem ahead_append_lexeme (ys : List Char) {s : Scanner} {c : Char} {cs : List Char}
    (h : s.rest.dropWhile isBlank = c :: cs)
    (hext : lexemeAt c (cs ++ ys) =
      ⟨(lexemeAt c cs).kind,(lexemeAt c cs).text,(lexemeAt c cs).rest ++ ys⟩) :
    ({ s with rest := s.rest ++ ys } : Scanner).ahead =
      s.skipBlanks.tokenHere (lexemeAt c cs).kind (lexemeAt c cs).text ::
        ({ s.behind c cs with rest := (s.behind c cs).rest ++ ys } : Scanner).ahead := by
  obtain ⟨ht,hd⟩ := @takeWhile_extend isBlank s.rest ys (by simp [h])
  rw [h] at hd
  rw [@ahead_of_lexeme _ c (cs ++ ys) hd]
  simp [skipBlanks,tokenHere,behind,hext,ht]

/-- Behind a semicolon a text can go on with any other, which is then scanned from its own
start. -/
theorem ahead_append (ys : List Char) (s : Scanner)
    (h : ∀ t ∈ s.ahead.getLast?, t.kind = .semicolon) :
    ({ s with rest := s.rest ++ ys } : Scanner).ahead =
      s.ahead ++ ({ s with rest := ys, offset := s.offset+bytes s.rest } : Scanner).ahead := by
  induction s using scan_induction with
  | blanks s hs => rw [ahead_of_blanks hs,List.nil_append,ahead_append_blanks ys hs]
  | lexeme s c cs hs ih =>
    rw [ahead_of_lexeme hs] at h
    have hbehind : ∀ t ∈ (s.behind c cs).ahead.getLast?, t.kind = .semicolon := by
      intro t ht
      exact h t (by rw [List.getLast?_cons,ht]; rfl)
    have hext := @lexemeAt_extend c cs ys (by
      by_cases hr : (lexemeAt c cs).rest = []
      · rw [ahead_of_blanks (s := s.behind c cs) (by simp [behind,hr])] at h
        exact .inr (h _ rfl)
      · exact .inl hr)
    rw [ahead_append_lexeme ys hs hext,ahead_of_lexeme hs,ih hbehind,bytes_behind hs]
    rfl

theorem last_of_append (s b file : String) :
    (ofSource ⟨s ++ b,file⟩).last = (ofSource ⟨b,file⟩).last.moved (bytes s.toList) := by
  simp [last,ofSource,tokenHere,Token.moved,String.toList_append,Nat.add_comm (bytes s.toList)]

end Scanner
end Precedence
