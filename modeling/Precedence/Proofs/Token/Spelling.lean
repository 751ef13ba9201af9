import Precedence.Token.Scanner

/-! Texts put together from pieces. A piece is a token's text or a blank, and a text is cut back
into its pieces as long as no token runs together with what comes next. -/
namespace Precedence

theorem isBlank_of_isWordStart {c : Char} (h : isWordStart c = true) : isBlank c = false := by
  by_cases hb : isBlank c = true
  · simp only [isBlank,Bool.or_eq_true,beq_iff_eq] at hb
    rcases hb with ((rfl | rfl) | rfl) | rfl <;> simp [isWordStart] at h
  · simpa using hb

theorem isBlank_of_isDigit {c : Char} (h : c.isDigit = true) : isBlank c = false := by
  by_cases hb : isBlank c = true
  · simp only [isBlank,Bool.or_eq_true,beq_iff_eq] at hb
    rcases hb with ((rfl | rfl) | rfl) | rfl <;> simp at h
  · simpa using hb

theorem isWordStart_of_isDigit {c : Char} (h : c.isDigit = true) : isWordStart c = false := by
  have hc : c ≠ '_' := by
    rintro rfl
    simp at h
  have halpha : c.isAlpha = false := by
    rw [Char.isDigit_iff_toNat] at h
    change (decide ('A'.val ≤ c.val ∧ c.val ≤ 'Z'.val) ||
      (decide ('a'.val ≤ c.val) && decide (c.val ≤ 'z'.val))) = false
    simp only [Bool.or_eq_false_iff,Bool.and_eq_false_iff,decide_eq_false_iff_not,
      UInt32.le_iff_toNat_le]
    simp at h ⊢
    omega
  simp [isWordStart,halpha,hc]

theorem isWordPart_of_isDigit {c : Char} (h : c.isDigit = true) : isWordPart c = true := by
  simp [isWordPart,Char.isAlphanum,h]

theorem isWordPart_of_isWordStart {c : Char} (h : isWordStart c = true) : isWordPart c = true := by
  simp only [isWordStart,isWordPart,Char.isAlphanum,Bool.or_eq_true] at h ⊢
  exact h.imp_left .inl

/-- A token wherever it stands. -/
structure Spelling where
  kind : Kind
  text : String
  deriving DecidableEq

def Token.spelling (t : Token) : Spelling := ⟨t.kind,t.text⟩

/-- The spellings of the tokens in a text. -/
def spellings (cs : List Char) : List Spelling :=
  match cs with
  | [] => []
  | c :: cs =>
    if isBlank c then spellings cs
    else ⟨(lexemeAt c cs).kind,String.ofList (lexemeAt c cs).text⟩ :: spellings (lexemeAt c cs).rest
termination_by cs.length
decreasing_by
  · simp
  · exact lexemeAt_rest_lt c cs

@[simp] theorem spellings_nil : spellings [] = [] := by rw [spellings]

theorem spellings_blank {c : Char} {cs : List Char} (h : isBlank c = true) :
    spellings (c :: cs) = spellings cs := by
  rw [spellings,if_pos h]

theorem spellings_dropBlanks (cs : List Char) :
    spellings (cs.dropWhile isBlank) = spellings cs := by
  induction cs with
  | nil => rfl
  | cons c cs ih =>
    by_cases h : isBlank c = true
    · rw [List.dropWhile_cons_of_pos h,ih,spellings_blank h]
    · rw [List.dropWhile_cons_of_neg h]

theorem Kind.ofWord_ne_end (w : String) : ofWord w ≠ .endOfInput := by
  unfold ofWord reserved
  simp only [List.lookup_cons,List.lookup_nil]
  repeat' split
  all_goals simp

theorem Kind.ofSymbol_ne_end (c : Char) : ofSymbol c ≠ .endOfInput := by
  unfold ofSymbol
  split <;> simp

theorem lexemeAt_kind_ne_end (c : Char) (cs : List Char) : (lexemeAt c cs).kind ≠ .endOfInput := by
  unfold lexemeAt
  split
  · exact Kind.ofWord_ne_end _
  split
  · simp
  · unfold symbolAt
    split
    · simp
    · simp
    · exact Kind.ofSymbol_ne_end _

theorem Scanner.ahead_spellings (s : Scanner) :
    s.ahead.map Token.spelling = spellings s.rest := by
  have hdrop : s.skipBlanks.rest = s.rest.dropWhile isBlank := rfl
  fun_induction Scanner.ahead s with
  | case1 s h =>
    unfold Scanner.next at h
    rw [← spellings_dropBlanks,← hdrop]
    split at h
    · rename_i hnil
      simp [hnil]
    · exact absurd h (lexemeAt_kind_ne_end _ _)
  | case2 s h ih =>
    rw [List.map_cons,ih rfl,← spellings_dropBlanks s.rest,← hdrop]
    unfold Scanner.next at h ⊢
    split at h
    · exact absurd rfl h
    · rename_i c cs hcs
      have hc : isBlank c = false := by
        have hd := List.head?_dropWhile_not isBlank s.rest
        rw [← hdrop,hcs] at hd
        simpa using hd
      rw [hcs,spellings,if_neg (by simp [hc])]
      rfl

namespace Spelling

/-- The spelling is the text of one token. -/
def Lexes (w : Spelling) : Prop :=
  ∃ c cs, w.text.toList = c :: cs ∧ isBlank c = false ∧ lexemeAt c cs = ⟨w.kind,c :: cs,[]⟩

/-- A character right behind that would be taken for a part of the token. -/
def glues (w : Spelling) (d : Char) : Bool :=
  match w.text.toList with
  | [] => false
  | c :: _ =>
    if isWordStart c then isWordPart d
    else if c.isDigit then d.isDigit
    else (w.kind == .assign || w.kind == .bang) && d == '='

end Spelling

theorem takeWhile_append_exact {p : Char → Bool} {cs rest : List Char} (h : ∀ c ∈ cs, p c = true)
    (hd : ∀ d ∈ rest.head?, p d = false) :
    (cs ++ rest).takeWhile p = cs ∧ (cs ++ rest).dropWhile p = rest := by
  have hrest : rest.takeWhile p = [] ∧ rest.dropWhile p = rest := by
    cases rest with
    | nil => simp
    | cons d ds => simp [hd d rfl]
  rw [List.takeWhile_append_of_pos h,List.dropWhile_append_of_pos h,hrest.1,hrest.2]
  simp

theorem takeWhile_all {p : Char → Bool} {cs : List Char} (h : ∀ c ∈ cs, p c = true) :
    cs.takeWhile p = cs ∧ cs.dropWhile p = [] := by
  have ht := @takeWhile_append_exact p cs [] h (by simp)
  rwa [List.append_nil] at ht

theorem all_of_takeWhile {p : Char → Bool} {cs : List Char} (h : cs.takeWhile p = cs) :
    ∀ c ∈ cs, p c = true := by
  rw [← h]
  exact List.all_eq_true.mp List.all_takeWhile

theorem symbolAt_text (c : Char) (cs : List Char) : ∃ tl, (symbolAt c cs).text = c :: tl ∧
    symbolAt c tl = ⟨(symbolAt c cs).kind,c :: tl,[]⟩ := by
  rw [symbolAt.eq_def c cs]
  split
  · exact ⟨['='],rfl,rfl⟩
  · exact ⟨['='],rfl,rfl⟩
  · exact ⟨[],rfl,by simp [symbolAt]⟩

theorem lexemeAt_text (c : Char) (cs : List Char) : ∃ tl, (lexemeAt c cs).text = c :: tl ∧
    lexemeAt c tl = ⟨(lexemeAt c cs).kind,c :: tl,[]⟩ := by
  unfold lexemeAt
  by_cases hw : isWordStart c = true
  · obtain ⟨ht,hd⟩ := takeWhile_all (List.all_eq_true.mp (@List.all_takeWhile _ isWordPart cs))
    exact ⟨cs.takeWhile isWordPart,by simp [hw],by simp [hw,ht,hd]⟩
  · by_cases hn : c.isDigit = true
    · obtain ⟨ht,hd⟩ := takeWhile_all (List.all_eq_true.mp (@List.all_takeWhile _ Char.isDigit cs))
      exact ⟨cs.takeWhile Char.isDigit,by simp [hw,hn],by simp [hw,hn,ht,hd]⟩
    · simpa [hw,hn] using symbolAt_text c cs

theorem lexes_of_mem_spellings {cs : List Char} : ∀ w ∈ spellings cs, w.Lexes := by
  fun_induction spellings cs with
  | case1 => simp
  | case2 c cs hb ih => exact ih
  | case3 c cs hb ih =>
    obtain ⟨tl,htext,hl⟩ := lexemeAt_text c cs
    have hfirst : Spelling.Lexes ⟨(lexemeAt c cs).kind,String.ofList (lexemeAt c cs).text⟩ :=
      ⟨c,tl,by rw [String.toList_ofList,htext],by simpa using hb,hl⟩
    simpa using ⟨hfirst,ih⟩

theorem symbolAt_append_rest {c : Char} {cs rest : List Char} {k : Kind}
    (h : symbolAt c cs = ⟨k,c :: cs,[]⟩)
    (hd : ∀ d ∈ rest.head?, ((k == .assign || k == .bang) && d == '=') = false) :
    symbolAt c (cs ++ rest) = ⟨k,c :: cs,rest⟩ := by
  unfold symbolAt at h
  split at h
  · obtain ⟨rfl,hcs,rfl⟩ := Lexeme.mk.inj h
    rfl
  · obtain ⟨rfl,hcs,rfl⟩ := Lexeme.mk.inj h
    rfl
  · obtain ⟨rfl,hcs,rfl⟩ := Lexeme.mk.inj h
    rw [List.nil_append]
    cases rest with
    | nil => simp [symbolAt]
    | cons d ds =>
      have hd := hd d rfl
      unfold symbolAt
      split
      · simp_all [Kind.ofSymbol]
      · simp_all [Kind.ofSymbol]
      · rfl

theorem lexemeAt_append_rest {c : Char} {cs rest : List Char} {k : Kind}
    (h : lexemeAt c cs = ⟨k,c :: cs,[]⟩)
    (hd : ∀ d ∈ rest.head?, (if isWordStart c then isWordPart d else if c.isDigit then d.isDigit
      else (k == .assign || k == .bang) && d == '=') = false) :
    lexemeAt c (cs ++ rest) = ⟨k,c :: cs,rest⟩ := by
  unfold lexemeAt at h ⊢
  by_cases hw : isWordStart c = true
  · simp only [hw,if_true] at h hd ⊢
    obtain ⟨rfl,hcs,-⟩ := Lexeme.mk.inj h
    have hcs := (List.cons.inj hcs).2
    obtain ⟨ht,hr⟩ := takeWhile_append_exact (all_of_takeWhile hcs) hd
    rw [ht,hr,hcs]
  · simp only [hw] at h hd ⊢
    by_cases hn : c.isDigit = true
    · simp only [hn,if_true] at h hd ⊢
      obtain ⟨rfl,hcs,-⟩ := Lexeme.mk.inj h
      have hcs := (List.cons.inj hcs).2
      obtain ⟨ht,hr⟩ := takeWhile_append_exact (all_of_takeWhile hcs) hd
      simp [ht,hr]
    · simp only [hn] at h hd ⊢
      exact symbolAt_append_rest h hd

theorem spellings_cons {w : Spelling} {rest : List Char} (h : w.Lexes)
    (hd : ∀ d ∈ rest.head?, w.glues d = false) :
    spellings (w.text.toList ++ rest) = w :: spellings rest := by
  obtain ⟨c,cs,hw,hc,hl⟩ := h
  have htext : String.ofList (c :: cs) = w.text := by rw [← hw,String.ofList_toList]
  have hd' : ∀ d ∈ rest.head?, (if isWordStart c then isWordPart d else if c.isDigit then d.isDigit
      else (w.kind == .assign || w.kind == .bang) && d == '=') = false := by
    intro d hd'
    have := hd d hd'
    rwa [Spelling.glues,hw] at this
  rw [hw,List.cons_append,spellings,if_neg (by simp [hc]),lexemeAt_append_rest hl hd']
  simp [htext]

/-- A part of a text: a blank, or the text of a token. -/
inductive Piece where
  | blank
  | token (w : Spelling)

namespace Piece

def text : Piece → List Char
  | blank => [' ']
  | token w => w.text.toList

end Piece

def textOf (ps : List Piece) : List Char := ps.flatMap Piece.text

def tokensOf : List Piece → List Spelling
  | [] => []
  | .blank :: ps => tokensOf ps
  | .token w :: ps => w :: tokensOf ps

@[simp] theorem textOf_nil : textOf [] = [] := rfl

@[simp] theorem textOf_cons (p : Piece) (ps : List Piece) :
    textOf (p :: ps) = p.text ++ textOf ps := rfl

@[simp] theorem textOf_append (ps qs : List Piece) :
    textOf (ps ++ qs) = textOf ps ++ textOf qs := List.flatMap_append

@[simp] theorem tokensOf_nil : tokensOf [] = [] := rfl

@[simp] theorem tokensOf_blank (ps : List Piece) : tokensOf (.blank :: ps) = tokensOf ps := rfl

@[simp] theorem tokensOf_token (w : Spelling) (ps : List Piece) :
    tokensOf (.token w :: ps) = w :: tokensOf ps := rfl

@[simp] theorem tokensOf_append (ps qs : List Piece) :
    tokensOf (ps ++ qs) = tokensOf ps ++ tokensOf qs := by
  induction ps with
  | nil => rfl
  | cons p ps ih => cases p <;> simp [ih]

/-- No token runs together with what comes right behind it. -/
def Separate : List Piece → Prop
  | [] => True
  | .blank :: ps => Separate ps
  | .token w :: ps => (∀ d ∈ (textOf ps).head?, w.glues d = false) ∧ Separate ps

/-- A text is cut into the pieces it was made of. -/
theorem spellings_textOf {ps : List Piece} (h : ∀ w ∈ tokensOf ps, w.Lexes) (hs : Separate ps) :
    spellings (textOf ps) = tokensOf ps := by
  induction ps with
  | nil => simp
  | cons p ps ih =>
    cases p with
    | blank =>
      rw [textOf_cons,tokensOf_blank,← ih h hs]
      exact spellings_blank rfl
    | token w =>
      have hw : w.Lexes := h w (by simp)
      rw [textOf_cons,tokensOf_token,← ih (fun v hv => h v (by simp [hv])) hs.2]
      exact spellings_cons hw hs.1

end Precedence
