import Precedence.Proofs.Syntax.Derivation

/-! Braces in what is derived. A block that is closed has as many closing braces as opening ones;
where input ends inside of a block there are fewer. No phrase but a statement ends with a
semicolon. -/
namespace Precedence

def opens (ts : List Token) : Nat := ts.countP (·.kind == .openBrace)

def closes (ts : List Token) : Nat := ts.countP (·.kind == .closeBrace)

def Kind.plain (k : Kind) : Bool := k != .openBrace && k != .closeBrace

theorem Kind.plain_of_operator {layer : Power} {k : Kind} (h : k ∈ layer.operators) :
    k.plain = true := by
  cases layer <;> simp [Power.operators] at h <;> rcases h with rfl | rfl <;> rfl

/-- The input ends inside of a block. -/
def Unclosed (input rest : List Token) : Prop := rest = [] ∧ closes input < opens input

/-- In front of `rest` all braces of `input` are closed, unless the input ends inside of a block. -/
structure Braced (input rest : List Token) : Prop where
  suffix : rest <:+ input
  count : Unclosed input rest ∨ opens input+closes rest = closes input+opens rest

/-- The last token in front of `rest` ends no statement, unless the input ends inside of a block. -/
structure Marked (input rest : List Token) : Prop extends Braced input rest where
  mark : Unclosed input rest ∨ ∃ used t, input = used ++ t :: rest ∧ t.kind ≠ .semicolon

@[simp] theorem opens_cons (t : Token) (ts : List Token) :
    opens (t :: ts) = opens ts + if t.kind = .openBrace then 1 else 0 := by
  simp [opens,List.countP_cons]

@[simp] theorem closes_cons (t : Token) (ts : List Token) :
    closes (t :: ts) = closes ts + if t.kind = .closeBrace then 1 else 0 := by
  simp [closes,List.countP_cons]

@[simp] theorem opens_nil : opens [] = 0 := rfl

@[simp] theorem closes_nil : closes [] = 0 := rfl

theorem not_unclosed {input rest : List Token} {t : Token} : ¬ Unclosed input (t :: rest) :=
  fun h => nomatch h.1

namespace Braced
variable {a b c input rest : List Token} {t : Token} {k : Kind}

theorem refl : Braced rest rest := ⟨List.suffix_rfl,.inr (Nat.add_comm _ _)⟩

theorem balanced (h : Braced input (t :: rest)) :
    opens input+closes (t :: rest) = closes input+opens (t :: rest) :=
  h.count.resolve_left not_unclosed

theorem unclosed (h : Braced a b) (hb : Unclosed b c) : Unclosed a c := by
  obtain ⟨rfl,hb⟩ := hb
  rcases h.count with ⟨rfl,-⟩ | hc
  · simp at hb
  · exact ⟨rfl,by omega⟩

theorem trans (h : Braced a b) (hb : Braced b c) : Braced a c := by
  refine ⟨hb.suffix.trans h.suffix,?_⟩
  rcases hb.count with hc | hc
  · exact .inl (h.unclosed hc)
  · rcases h.count with ⟨rfl,hlt⟩ | hc'
    · obtain rfl := List.suffix_nil.mp hb.suffix
      exact .inl ⟨rfl,hlt⟩
    · exact .inr (by omega)

theorem token (hk : t.kind = k) (hp : k.plain = true) : Braced (t :: rest) rest := by
  subst hk
  simp only [Kind.plain,bne_iff_ne,ne_eq,Bool.and_eq_true] at hp
  exact ⟨List.suffix_cons _ _,.inr (by simp [hp,Nat.add_comm])⟩

theorem cons (h : Braced input rest) (hk : t.kind = k) (hp : k.plain = true) :
    Braced (t :: input) rest :=
  (token hk hp).trans h

theorem terminated (h : Braced input b) (ht : Terminator b rest) : Braced input rest := by
  cases ht with
  | semicolon hs => exact h.trans (token hs rfl)
  | omitted => exact h

theorem names {ns : List Name} (h : Names ns input rest) : Braced input rest := by
  induction h with
  | last hk => exact token hk rfl
  | more hk hc _ ih => exact (ih.cons hc rfl).cons hk rfl

theorem parameters {ns : List Name} (h : Parameters ns input rest) : Braced input rest := by
  cases h with
  | none hc => exact token hc rfl
  | some hc hn => exact (names hn).trans (token hc rfl)

theorem close (h : Braced input (t :: rest)) (hk : t.kind = k) (hp : k.plain = true)
    (hs : k ≠ .semicolon) : Marked input rest := by
  refine ⟨h.trans (token hk hp),.inr ?_⟩
  obtain ⟨used,hu⟩ := h.suffix
  exact ⟨used,t,hu.symm,by rwa [hk]⟩

end Braced

namespace Marked
variable {a b c input inner rest : List Token} {t o : Token} {k : Kind}

theorem after (h : Marked b c) (ha : Braced a b) : Marked a c := by
  refine ⟨ha.trans h.toBraced,?_⟩
  rcases h.mark with hb | ⟨used,t,rfl,ht⟩
  · exact .inl (ha.unclosed hb)
  · obtain ⟨more,rfl⟩ := ha.suffix
    exact .inr ⟨more ++ used,t,by simp,ht⟩

theorem cons (h : Marked input rest) (hk : t.kind = k) (hp : k.plain = true) :
    Marked (t :: input) rest :=
  h.after (.token hk hp)

theorem token (hk : t.kind = k) (hp : k.plain = true) (hs : k ≠ .semicolon) :
    Marked (t :: rest) rest :=
  Braced.refl.close hk hp hs

theorem closedBlock (h : Braced inner (t :: rest)) (ho : o.kind = .openBrace)
    (hc : t.kind = .closeBrace) : Marked (o :: inner) rest := by
  obtain ⟨used,hu⟩ := h.suffix
  have hb := h.balanced
  refine ⟨⟨?_,.inr ?_⟩,.inr ⟨o :: used,t,?_,by simp [hc]⟩⟩
  · exact ((List.suffix_cons _ _).trans h.suffix).trans (List.suffix_cons _ _)
  · simp only [opens_cons,closes_cons,ho,hc,if_true,reduceCtorEq,if_false] at hb ⊢
    omega
  · rw [List.cons_append,hu]

theorem openBlock (h : Braced inner []) (ho : o.kind = .openBrace) : Marked (o :: inner) [] := by
  have hu : Unclosed (o :: inner) [] := by
    refine ⟨rfl,?_⟩
    simp only [opens_cons,closes_cons,ho,if_true,reduceCtorEq,if_false]
    rcases h.count with ⟨-,hlt⟩ | hc
    · omega
    · simp only [opens_nil,closes_nil] at hc
      omega
  exact ⟨⟨List.nil_suffix,.inl hu⟩,.inl hu⟩

end Marked

/-- Braces and the last token of a phrase. An alternative may be nothing at all. -/
def Phrase.Closes : Phrase → List Token → List Token → Prop
  | .atom _ | .expr _ _ | .items _ | .arguments _ | .block _ => Marked
  | .alternative _ => fun input rest => input = rest ∨ Marked input rest
  | .statement _ | .statements _ => Braced

/-- The braces of what is derived are closed, unless the input ends inside of a block, and phrases
that are parts of statements do not end with a semicolon. -/
theorem Derivation.closes {φ : Phrase} {input rest : List Token}
    (D : Derivation False φ input rest) : φ.Closes input rest := by
  induction D with
  | name h => exact .token h rfl (by decide)
  | integer h _ | truth h | falsity h => exact .token h rfl (by decide)
  | group ho hc _ ih => exact (ih.close hc rfl (by decide)).cons ho rfl
  | conditional hw ho hc _ _ _ ih ihc iha =>
    have hb := ((ih.close hc rfl (by decide)).cons ho rfl).cons hw rfl
    rcases iha with rfl | iha
    · exact ihc.after hb.toBraced
    · exact iha.after (hb.toBraced.trans ihc.toBraced)
  | noElse => exact .inl rfl
  | elseBlock hw _ ih => exact .inr (ih.cons hw rfl)
  | function hw ho hn _ ih =>
    exact ((ih.after (.parameters hn)).cons ho rfl).cons hw rfl
  | ofAtom _ ih | loosen _ _ ih | lastItem _ ih => exact ih
  | call ho _ _ ihf iha => exact (iha.cons ho rfl).after ihf.toBraced
  | unary ht _ ih =>
    rcases ht with ht | ht
    · exact ih.cons ht rfl
    · exact ih.cons ht rfl
  | binary ht _ _ _ ihl ihr =>
    exact (ihr.cons rfl (Kind.plain_of_operator ht)).after ihl.toBraced
  | moreItems hc _ _ ih ihs => exact (ihs.cons hc rfl).after ih.toBraced
  | noArguments hc => exact .token hc rfl (by decide)
  | someArguments hc _ ih => exact ih.close hc rfl (by decide)
  | closedBlock ho hc _ ih => exact .closedBlock ih ho hc
  | openBlock ho _ ih => exact .openBlock ih ho
  | binding hw hn ha _ ht ih =>
    exact (((ih.toBraced.terminated ht).cons ha rfl).cons hn rfl).cons hw rfl
  | bareResult hw hs => exact (Braced.token hs rfl).cons hw rfl
  | result hw _ ht ih => exact (ih.toBraced.terminated ht).cons hw rfl
  | expression _ ht ih => exact ih.toBraced.terminated ht
  | nil => exact .refl
  | cons _ _ ihf ihs => exact ihf.trans ihs
  | skip hg => exact hg.elim

end Precedence
