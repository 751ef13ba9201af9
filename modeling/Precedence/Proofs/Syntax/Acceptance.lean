import Precedence.Parsed
import Precedence.Proofs.Syntax.Complete
import Precedence.Proofs.Syntax.Sound

/-! Which sources are read without a fault: those whose tokens can be derived as statements with
no more levels than there are. The derived statements are the program. -/
namespace Precedence
open Parse Cursor

/-- The tokens of a source in front of the end token. -/
def Source.words (source : Source) : List Token := source.tokens.dropLast

@[simp] theorem Source.words_eq (source : Source) :
    source.words = (Scanner.ofSource source).ahead := by
  simp [words,tokens]

namespace Scanner

theorem proper (s : Scanner) : (Cursor.ofScanner s).Proper := ⟨rfl,s.ahead_ne_end⟩

end Scanner

namespace Descent
variable {g : Grammar} {d : Descent} {stop : Kind → Bool}

theorem statements_done (hd : d.Steady .standard) (hs : stop .endOfInput = true) {c : Cursor}
    (hc : c.Proper) : ∃ ss c', statements .standard d stop c = .done ss c' := by
  have h := statements_steady hd hs c hc.last
  cases ho : statements .standard d stop c with
  | done ss c' => exact ⟨ss,c',rfl⟩
  | failed f c' => exact absurd ho (loop_moreStatements_ne_failed _ _ _ _)
  | endless =>
    rw [ho] at h
    exact absurd Grammar.standard_terminating h

end Descent
open Descent

namespace Scanner
variable {s : Scanner} {ss : List Stmt}

theorem statements_done (s : Scanner) : ∃ ss c,
    statements .standard (levels nestingLimit) (· == .endOfInput) (.ofScanner s) = .done ss c :=
  Descent.statements_done (levels_steady nestingLimit) rfl s.proper

theorem parse_of_statements {c : Cursor}
    (h : statements .standard (levels nestingLimit) (· == .endOfInput) (.ofScanner s) = .done ss c) :
    s.parse = ⟨⟨ss⟩,c.faults.toList⟩ := by
  have hp : Grammar.standard.program (.ofScanner s) = .done ⟨ss⟩ c := bind_of_done h
  rw [parse,hp]
  rfl

/-- What is read can be derived, with gaps where there were faults. -/
theorem parse_derivable (s : Scanner) (gaps : Prop) (h : gaps ∨ s.parse.faults = []) :
    Derivable gaps nestingLimit (.statements s.parse.program.statements) s.ahead [] := by
  obtain ⟨ss,c,hss⟩ := s.statements_done
  rw [parse_of_statements hss] at h ⊢
  have hf : gaps ∨ c.faults = #[] := h.imp_right Array.toList_eq_nil_iff.mp
  obtain ⟨hend,hD⟩ := statements_sound (within_sound gaps nestingLimit) rfl s.proper hss hf
  have hc := (statements_steady (levels_steady nestingLimit) rfl).proper s.proper hss
  rw [hc.ahead_eq_nil (eq_of_beq hend)] at hD
  exact hD

theorem parse_meets (D : Derivation False (.statements ss) s.ahead []) :
    (statements .standard (levels nestingLimit) (· == .endOfInput) (.ofScanner s)).Meets
      (.ofScanner s) (D.exceeds nestingLimit) (pure ss) (Before []) := by
  have hstart : ∀ k : Kind, k.startsStatement = true → (k == .endOfInput) = false := by
    intro k
    cases k <;> decide
  exact D.reads nestingLimit _ (· == .endOfInput) [] s.proper rfl rfl hstart (by simp)
    (by simp [Parts])

/-- What can be derived with the levels there are is read. -/
theorem parse_of_derivation (D : Derivation False (.statements ss) s.ahead [])
    (h : D.levels ≤ nestingLimit) : s.parse = ⟨⟨ss⟩,[]⟩ := by
  have hm := parse_meets D
  rw [(D.exceeds_eq_none _).mpr h] at hm
  obtain ⟨c,hc,hr⟩ := hm
  rw [parse_of_statements hc,hr.faults]
  rfl

/-- A derivation with more levels is at fault first where it opens the first one too many. -/
theorem fault_of_derivation {t : Token} (D : Derivation False (.statements ss) s.ahead [])
    (h : D.exceeds nestingLimit = some t) :
    s.parse.faults.head? = some ⟨.tooDeep nestingLimit,t.position⟩ := by
  have hm := parse_meets D
  rw [h] at hm
  obtain ⟨ss',c,hc⟩ := s.statements_done
  rw [hc] at hm
  rw [parse_of_statements hc]
  obtain ⟨fs,hfs⟩ : [(⟨.tooDeep nestingLimit,t.position⟩ : Fault)] <+: c.faults.toList := hm
  rw [← hfs]
  rfl

theorem levels_of_derivation (D : Derivation False (.statements ss) s.ahead [])
    (h : s.parse.faults = []) : D.levels ≤ nestingLimit := by
  cases hx : D.exceeds nestingLimit with
  | none => exact (D.exceeds_eq_none _).mp hx
  | some t =>
    have hfault := fault_of_derivation D hx
    simp [h] at hfault

end Scanner

/-- A source is free of faults exactly if its tokens can be derived with no more levels open at
once than the limit, and its program then is whatever can be derived. -/
theorem parse_accepts_iff (source : Source) :
    ((parse source).faults = [] ↔
      ∃ p : Program, Derivable False nestingLimit (.statements p.statements) source.words []) ∧
    ∀ p : Program, parse source = ⟨p,[]⟩ ↔
      Derivable False nestingLimit (.statements p.statements) source.words [] := by
  have key (p : Program) : parse source = ⟨p,[]⟩ ↔
      Derivable False nestingLimit (.statements p.statements) source.words [] := by
    rw [Source.words_eq]
    constructor
    · intro h
      have hD := (Scanner.ofSource source).parse_derivable False (.inr (congrArg Parsed.faults h))
      rwa [show (Scanner.ofSource source).parse = _ from h] at hD
    · rintro ⟨D,hD⟩
      exact Scanner.parse_of_derivation D hD
  refine ⟨⟨fun h => ⟨(parse source).program,(key _).mp ?_⟩,fun ⟨p,hp⟩ => ?_⟩,key⟩
  · rw [← h]
  · rw [(key p).mpr hp]

end Precedence
