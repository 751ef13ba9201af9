import Precedence.Proofs.Syntax.Derivation
import Precedence.Proofs.Tree.Formed

/-! The trees of the language are formed: a scanner's tokens of a kind have the texts that the kind
stands for, and a derivation puts each where it belongs. -/
namespace Precedence

open Spelling in
/-- A word is an identifier or the one text of its kind. -/
theorem Kind.ofWord_text (s : String) :
    ofWord s = .identifier ∨ hasOneText (ofWord s) = true ∧ s = (ofWord s).text := by
  unfold ofWord reserved
  simp only [List.lookup_cons,List.lookup_nil]
  repeat' split
  all_goals first
    | exact .inl rfl
    | right; simp_all [Kind.text,hasOneText]

open Spelling in
theorem symbolAt_kind (c : Char) (cs : List Char) : (symbolAt c cs).kind = .illegal ∨
    hasOneText (symbolAt c cs).kind = true ∧
      String.ofList (symbolAt c cs).text = (symbolAt c cs).kind.text := by
  unfold symbolAt
  split
  · exact .inr ⟨rfl,by dsimp only; decide⟩
  · exact .inr ⟨rfl,by dsimp only; decide⟩
  · dsimp only
    unfold Kind.ofSymbol
    split <;> first
      | exact .inl rfl
      | exact .inr ⟨rfl,by decide⟩

namespace Spelling.Lexes
variable {w : Spelling}

/-- A token is illegal, a number, a name, or the one text of its kind. -/
theorem cases (h : w.Lexes) : w.kind = .illegal ∨ w.kind = .integer ∨
    w.kind = .identifier ∧ isName w.text = true ∨ hasOneText w.kind = true ∧ w = .of w.kind := by
  obtain ⟨k,s⟩ := w
  obtain ⟨c,cs,hs,-,hl⟩ := h
  have hs : s.toList = c :: cs := hs
  have hword : String.ofList (c :: cs) = s := by rw [← hs,String.ofList_toList]
  unfold lexemeAt at hl
  by_cases hw : isWordStart c = true
  · rw [if_pos hw] at hl
    obtain ⟨hk,htext,-⟩ := Lexeme.mk.inj hl
    have htake := (List.cons.inj htext).2
    rw [htake,hword] at hk
    obtain rfl : Kind.ofWord s = k := hk
    rcases Kind.ofWord_text s with hi | ⟨ho,ht⟩
    · have hall := List.all_eq_true.mpr (all_of_takeWhile htake)
      have hname : isName s = true := by simp [isName,hs,hw,hall,hi]
      exact .inr (.inr (.inl ⟨hi,hname⟩))
    · exact .inr (.inr (.inr ⟨ho,congrArg (Spelling.mk _) ht⟩))
  · rw [if_neg hw] at hl
    split at hl
    · exact .inr (.inl (congrArg Lexeme.kind hl).symm)
    · have hk : (symbolAt c cs).kind = k := congrArg Lexeme.kind hl
      have htext : (symbolAt c cs).text = c :: cs := congrArg Lexeme.text hl
      have hsym := symbolAt_kind c cs
      rw [hk,htext,hword] at hsym
      rcases hsym with hi | ⟨ho,ht⟩
      · exact .inl hi
      · exact .inr (.inr (.inr ⟨ho,congrArg (Spelling.mk _) ht⟩))

theorem isName (h : w.Lexes) (hk : w.kind = .identifier) : isName w.text = true := by
  rcases h.cases with hc | hc | ⟨-,hc⟩ | ⟨hc,-⟩
  · simp [hk] at hc
  · simp [hk] at hc
  · exact hc
  · simp [hk,hasOneText] at hc

theorem digits (h : w.Lexes) (hk : w.kind = .integer) :
    w.text ≠ "" ∧ w.text.toList.all Char.isDigit = true := by
  obtain ⟨c,cs,hs,-,hl⟩ := h
  have hkind : (lexemeAt c cs).kind = .integer := (congrArg Lexeme.kind hl).trans hk
  have hn : isWordStart c = false ∧ c.isDigit = true := by
    unfold lexemeAt at hkind
    split at hkind
    · rcases Kind.ofWord_text (String.ofList (c :: cs.takeWhile isWordPart)) with hi | ⟨ho,-⟩
      · rw [show Kind.ofWord _ = _ from hkind] at hi
        simp at hi
      · rw [show Kind.ofWord _ = _ from hkind] at ho
        simp [hasOneText] at ho
    · rename_i hw
      split at hkind
      · rename_i hd
        exact ⟨by simpa using hw,hd⟩
      · rcases symbolAt_kind c cs with hi | ⟨ho,-⟩
        · simp [hi] at hkind
        · rw [hkind] at ho
          simp [hasOneText] at ho
  rw [lexemeAt,if_neg (by simp [hn.1]),if_pos hn.2] at hl
  have hall := all_of_takeWhile (List.cons.inj (congrArg Lexeme.text hl)).2
  refine ⟨fun he => by simp [he] at hs,?_⟩
  rw [hs]
  simpa [hn.2] using hall

theorem eq_of (h : w.Lexes) (ho : hasOneText w.kind = true) : w = .of w.kind := by
  rcases h.cases with hc | hc | ⟨hc,-⟩ | ⟨-,hc⟩
  · simp [hc,hasOneText] at ho
  · simp [hc,hasOneText] at ho
  · simp [hc,hasOneText] at ho
  · exact hc

theorem of_kind {t : Token} {k : Kind} (h : t.spelling.Lexes) (hk : t.kind = k)
    (ho : hasOneText k = true) : t.spelling = .of k := by
  subst hk
  exact h.eq_of ho

end Spelling.Lexes

theorem Name.ofToken_formed {t : Token} (h : t.spelling.Lexes) (hk : t.kind = .identifier) :
    (Name.ofToken t).Formed := by
  have hname : isName t.text = true := h.isName hk
  refine ⟨?_,hname⟩
  rw [← hk]
  rfl

/-- Tokens as the scanner cuts them. -/
def Lexed (ts : List Token) : Prop := ∀ t ∈ ts, t.spelling.Lexes

theorem Scanner.ahead_lexed (s : Scanner) : Lexed s.ahead := by
  intro t ht
  have hmem : t.spelling ∈ s.ahead.map Token.spelling := List.mem_map_of_mem ht
  rw [s.ahead_spellings] at hmem
  exact lexes_of_mem_spellings _ hmem

namespace Lexed
variable {t : Token} {ts input rest : List Token}

@[simp] theorem cons : Lexed (t :: ts) ↔ t.spelling.Lexes ∧ Lexed ts := by simp [Lexed]

theorem terminated (h : Lexed input) (ht : Terminator input rest) : Lexed rest := by
  cases ht with
  | semicolon => exact (cons.mp h).2
  | omitted => exact h

theorem names {ns : List Name} (h : Lexed input) (hn : Names ns input rest) :
    (∀ n ∈ ns, n.Formed) ∧ Lexed rest := by
  induction hn with
  | last hk =>
    obtain ⟨ht,hr⟩ := cons.mp h
    exact ⟨by simpa using Name.ofToken_formed ht hk,hr⟩
  | more hk hc _ ih =>
    simp only [cons] at h
    obtain ⟨ht,-,hi⟩ := h
    obtain ⟨hns,hr⟩ := ih hi
    exact ⟨by simpa using ⟨Name.ofToken_formed ht hk,hns⟩,hr⟩

theorem parameters {ns : List Name} (h : Lexed input) (hn : Parameters ns input rest) :
    (∀ n ∈ ns, n.Formed) ∧ Lexed rest := by
  cases hn with
  | none hc => exact ⟨by simp,(cons.mp h).2⟩
  | some hc hn =>
    obtain ⟨hns,hr⟩ := h.names hn
    exact ⟨hns,(cons.mp hr).2⟩

end Lexed

def Phrase.Formed : Phrase → Prop
  | .atom e | .expr _ e => e.Formed
  | .items es | .arguments es => FormedEach es
  | .alternative none => True
  | .alternative (some b) | .block b => b.Formed
  | .statement s => s.Formed
  | .statements ss => FormedAll ss

/-- What is derived from a scanner's tokens is formed. -/
theorem Derivation.formed {gaps : Prop} {φ : Phrase} {input rest : List Token}
    (D : Derivation gaps φ input rest) (h : Lexed input) : φ.Formed ∧ Lexed rest := by
  induction D with
  | name hk =>
    obtain ⟨ht,hr⟩ := Lexed.cons.mp h
    exact ⟨Name.ofToken_formed ht hk,hr⟩
  | integer hk hn => exact ⟨⟨hk,hn⟩,(Lexed.cons.mp h).2⟩
  | truth hk | falsity hk =>
    obtain ⟨ht,hr⟩ := Lexed.cons.mp h
    exact ⟨ht.of_kind hk rfl,hr⟩
  | group ho hc _ ih =>
    obtain ⟨he,hr⟩ := ih (Lexed.cons.mp h).2
    exact ⟨he,(Lexed.cons.mp hr).2⟩
  | @conditional _ _ _ _ _ b _ _ _ _ hw ho hc _ _ _ ih ihc iha =>
    simp only [Lexed.cons] at h
    obtain ⟨ht,-,hi⟩ := h
    obtain ⟨he,hr⟩ := ih hi
    obtain ⟨ha,hr⟩ := ihc (Lexed.cons.mp hr).2
    obtain ⟨hb,hr⟩ := iha hr
    have hword := ht.of_kind hw rfl
    cases b with
    | none => exact ⟨⟨hword,he,ha⟩,hr⟩
    | some b => exact ⟨⟨hword,he,ha,hb⟩,hr⟩
  | noElse => exact ⟨trivial,h⟩
  | elseBlock hw _ ih => exact ih (Lexed.cons.mp h).2
  | function hw ho hn _ ih =>
    simp only [Lexed.cons] at h
    obtain ⟨ht,-,hi⟩ := h
    obtain ⟨hns,hr⟩ := hi.parameters hn
    obtain ⟨hb,hr⟩ := ih hr
    exact ⟨⟨ht.of_kind hw rfl,hns,hb⟩,hr⟩
  | ofAtom _ ih | loosen _ _ ih => exact ih h
  | call ho _ _ ihf iha =>
    obtain ⟨hf,hr⟩ := ihf h
    obtain ⟨ht,hr⟩ := Lexed.cons.mp hr
    obtain ⟨ha,hr⟩ := iha hr
    exact ⟨⟨ht.of_kind ho rfl,hf,ha⟩,hr⟩
  | unary hk _ ih =>
    obtain ⟨ht,hr⟩ := Lexed.cons.mp h
    obtain ⟨he,hr⟩ := ih hr
    exact ⟨⟨hk.imp (fun hk => ht.of_kind hk rfl) (fun hk => ht.of_kind hk rfl),rfl,he⟩,hr⟩
  | binary hk _ _ _ ihl ihr =>
    obtain ⟨hl,hr⟩ := ihl h
    obtain ⟨ht,hr⟩ := Lexed.cons.mp hr
    obtain ⟨he,hr⟩ := ihr hr
    exact ⟨⟨⟨_,hk⟩,ht.of_kind rfl (Kind.hasOneText_of_operator hk),rfl,hl,he⟩,hr⟩
  | lastItem _ ih =>
    obtain ⟨he,hr⟩ := ih h
    exact ⟨⟨he,trivial⟩,hr⟩
  | moreItems hc _ _ ih ihs =>
    obtain ⟨he,hr⟩ := ih h
    obtain ⟨hes,hr⟩ := ihs (Lexed.cons.mp hr).2
    exact ⟨⟨he,hes⟩,hr⟩
  | noArguments hc => exact ⟨trivial,(Lexed.cons.mp h).2⟩
  | someArguments hc _ ih =>
    obtain ⟨hes,hr⟩ := ih h
    exact ⟨hes,(Lexed.cons.mp hr).2⟩
  | closedBlock ho hc _ ih =>
    obtain ⟨ht,hi⟩ := Lexed.cons.mp h
    obtain ⟨hss,hr⟩ := ih hi
    exact ⟨⟨ht.of_kind ho rfl,hss⟩,(Lexed.cons.mp hr).2⟩
  | openBlock ho _ ih =>
    obtain ⟨ht,hi⟩ := Lexed.cons.mp h
    obtain ⟨hss,hr⟩ := ih hi
    exact ⟨⟨ht.of_kind ho rfl,hss⟩,hr⟩
  | binding hw hn ha _ ht ih =>
    simp only [Lexed.cons] at h
    obtain ⟨hword,hname,-,hi⟩ := h
    obtain ⟨he,hr⟩ := ih hi
    exact ⟨⟨hword.of_kind hw rfl,Name.ofToken_formed hname hn,he⟩,hr.terminated ht⟩
  | bareResult hw hs =>
    simp only [Lexed.cons] at h
    exact ⟨h.1.of_kind hw rfl,h.2.2⟩
  | result hw _ ht ih =>
    obtain ⟨hword,hi⟩ := Lexed.cons.mp h
    obtain ⟨he,hr⟩ := ih hi
    exact ⟨⟨hword.of_kind hw rfl,he⟩,hr.terminated ht⟩
  | expression _ ht ih =>
    obtain ⟨he,hr⟩ := ih h
    exact ⟨he,hr.terminated ht⟩
  | nil => exact ⟨trivial,h⟩
  | cons _ _ ihf ihs =>
    obtain ⟨hs,hr⟩ := ihf h
    obtain ⟨hss,hr⟩ := ihs hr
    exact ⟨⟨hs,hss⟩,hr⟩
  | skip hg _ ih => exact ih (Lexed.cons.mp h).2

end Precedence
