import Precedence.Proofs.Syntax.Acceptance
import Precedence.Proofs.Tree.Tokens

/-! What trees keep of their source: tokens in the order of the source, each at most once, where
without faults only marks are left out that the tree itself stands for. -/
namespace Precedence

def Phrase.tokens : Phrase → List Token
  | .atom e | .expr _ e => e.tokens
  | .items es | .arguments es => tokensEach es
  | .alternative none => []
  | .alternative (some b) | .block b => b.tokens
  | .statement s => s.tokens
  | .statements ss => tokensAll ss

/-- `Keeps gaps ts input rest` keeps the tokens `ts` of those that `input` has in front of
`rest`, and all that are of a kind to be kept unless there are gaps. -/
structure Keeps (gaps : Prop) (ts input rest : List Token) : Prop where
  sublist : (ts ++ rest).Sublist input
  exact : gaps ∨ withoutParens ts ++ keptOnly rest = keptOnly input

namespace Keeps
variable {gaps : Prop} {ts us input inner rest : List Token} {t : Token} {k : Kind}

theorem refl : Keeps gaps [] rest rest := ⟨.refl _,.inr rfl⟩

theorem append (h : Keeps gaps ts input inner) (hu : Keeps gaps us inner rest) :
    Keeps gaps (ts ++ us) input rest where
  sublist := by
    have hs := hu.sublist.append_left ts
    rw [← List.append_assoc] at hs
    exact hs.trans h.sublist
  exact := by
    rcases h.exact with hg | hts
    · exact .inl hg
    rcases hu.exact with hg | hus
    · exact .inl hg
    right
    rw [← hts,← hus,withoutParens_append,List.append_assoc]

theorem token (h : t.kind = k) (hk : k.kept = true) : Keeps gaps [t] (t :: rest) rest where
  sublist := .refl _
  exact := by
    have hp : k ≠ .openParen := by
      rintro rfl
      simp [Kind.kept] at hk
    simp [withoutParens,keptOnly,h,hk,hp]

theorem paren (h : t.kind = .openParen) : Keeps gaps [t] (t :: rest) rest where
  sublist := .refl _
  exact := by simp [withoutParens,keptOnly,h,Kind.kept]

theorem mark (h : t.kind = k) (hk : k.kept = false) : Keeps gaps [] (t :: rest) rest where
  sublist := .cons t (.refl _)
  exact := by simp [withoutParens,keptOnly,h,hk]

theorem skip (hg : gaps) : Keeps gaps [] (t :: rest) rest where
  sublist := .cons t (.refl _)
  exact := .inl hg

theorem cons (hts : Keeps gaps ts input rest) (h : t.kind = k) (hk : k.kept = true) :
    Keeps gaps (t :: ts) (t :: input) rest :=
  (token h hk).append hts

theorem drop (hts : Keeps gaps ts input rest) (h : t.kind = k) (hk : k.kept = false) :
    Keeps gaps ts (t :: input) rest :=
  (mark h hk).append hts

theorem close (hts : Keeps gaps ts input (t :: rest)) (h : t.kind = k) (hk : k.kept = false) :
    Keeps gaps ts input rest := by
  have hm := hts.append (mark h hk)
  rwa [List.append_nil] at hm

theorem terminated (hts : Keeps gaps ts input inner) (h : Terminator inner rest) :
    Keeps gaps ts input rest := by
  cases h with
  | semicolon hs => exact hts.close hs rfl
  | omitted => exact hts

theorem names {ns : List Name} (h : Names ns input rest) :
    Keeps gaps (ns.map Name.token) input rest := by
  induction h with
  | last ht => exact token ht rfl
  | more ht hc _ ih => exact (ih.drop hc rfl).cons ht rfl

theorem parameters {ns : List Name} (h : Parameters ns input rest) :
    Keeps gaps (ns.map Name.token) input rest := by
  cases h with
  | none hc => exact mark hc rfl
  | some hc h => exact (names h).close hc rfl

end Keeps

/-- A derivation keeps the tokens of its tree. -/
theorem Derivation.keeps {gaps : Prop} {φ : Phrase} {input rest : List Token}
    (D : Derivation gaps φ input rest) : Keeps gaps φ.tokens input rest := by
  induction D with
  | name h => exact .token h rfl
  | integer h _ | truth h | falsity h => exact .token h rfl
  | group ho hc _ ih => exact (ih.close hc rfl).drop ho rfl
  | @conditional _ _ _ _ _ b _ _ _ _ hw ho hc _ _ _ ih ihc iha =>
    have h := ((ih.close hc rfl).append (ihc.append iha)).drop ho rfl
    cases b with
    | none => simpa [Phrase.tokens,Expr.tokens] using h.cons hw rfl
    | some b => exact h.cons hw rfl
  | noElse => exact .refl
  | elseBlock hw _ ih => exact ih.drop hw rfl
  | function hw ho hn _ ih =>
    exact (((Keeps.parameters hn).append ih).drop ho rfl).cons hw rfl
  | ofAtom _ ih | loosen _ _ ih => exact ih
  | call ho _ _ ihf iha => exact ihf.append ((Keeps.paren ho).append iha)
  | unary ht _ ih =>
    rcases ht with ht | ht
    · exact ih.cons ht rfl
    · exact ih.cons ht rfl
  | @binary layer _ t _ _ _ _ _ ht _ _ _ ihl ihr =>
    have hk : t.kind.kept = true := by
      cases layer <;> simp [Power.operators] at ht <;> rcases ht with ht | ht <;> rw [ht] <;> rfl
    exact ihl.append (ihr.cons rfl hk)
  | lastItem _ ih =>
    have h := ih.append .refl
    exact h
  | moreItems hc _ _ ih ihs => exact (ih.close hc rfl).append ihs
  | noArguments hc => exact .mark hc rfl
  | someArguments hc _ ih => exact ih.close hc rfl
  | closedBlock ho hc _ ih => exact (ih.close hc rfl).cons ho rfl
  | openBlock ho _ ih => exact ih.cons ho rfl
  | binding hw hn ha _ ht ih =>
    have hv := (ih.terminated ht).drop ha rfl
    exact (hv.cons hn rfl).cons hw rfl
  | bareResult hw hs => exact (Keeps.token hw rfl).close hs rfl
  | result hw _ ht ih => exact (ih.terminated ht).cons hw rfl
  | expression _ ht ih => exact ih.terminated ht
  | nil => exact .refl
  | cons _ _ ihf ihs => exact ihf.append ihs
  | skip hg _ ih => exact (Keeps.skip hg).append ih

/-- The tokens of a program are tokens of its source, in their order and each at most once. If
there are no faults, all tokens of the kinds that trees keep are among them, where opening
parentheses are left out of account. -/
theorem parse_tokens_kept (source : Source) :
    (parse source).program.tokens.Sublist source.tokens ∧
      ((parse source).faults = [] →
        withoutParens (parse source).program.tokens = keptOnly source.tokens) := by
  have htokens : source.tokens = (Scanner.ofSource source).ahead ++ [(Scanner.ofSource source).last] :=
    rfl
  constructor
  · obtain ⟨D,-⟩ := (Scanner.ofSource source).parse_derivable True (.inl trivial)
    have hs := D.keeps.sublist
    rw [List.append_nil] at hs
    rw [htokens]
    exact hs.trans (List.sublist_append_left _ _)
  · intro h
    obtain ⟨D,-⟩ := (Scanner.ofSource source).parse_derivable False (.inr h)
    have he := D.keeps.exact.resolve_left id
    have hlast : keptOnly [(Scanner.ofSource source).last] = [] := rfl
    rw [htokens,keptOnly_append,hlast,← he,List.append_nil]
    exact (List.append_nil _).symm

theorem parse_tokens_kept_binding :
    (parse ⟨"let a = f(1, -2);","shell"⟩).faults = [] ∧
      withoutParens (parse ⟨"let a = f(1, -2);","shell"⟩).program.tokens =
        keptOnly (Source.tokens ⟨"let a = f(1, -2);","shell"⟩) := by
  have h : (parse ⟨"let a = f(1, -2);","shell"⟩).faults = [] := by decide +kernel
  exact ⟨h,(parse_tokens_kept _).2 h⟩

end Precedence
