import Precedence.Proofs.Descent.Budget
import Precedence.Proofs.Syntax.Acceptance

/-! Reading ends on every source, and what comes of it is bounded by the tokens there are: each
statement and each fault is paid for by a token of its own. -/
namespace Precedence
open Parse Descent

theorem Grammar.program_eq_done {g : Grammar} {c e : Cursor} {ss : List Stmt} (hd : c.depth = 0)
    (h : statements g (within g nestingLimit) (· == .endOfInput) c = .done ss e) :
    g.program c = .done ⟨ss⟩ e := by
  refine bind_of_done (e := e) ?_
  rw [here,hd]
  exact h

namespace Scanner
variable {g : Grammar}

theorem program_done (hg : g.Terminating) (s : Scanner) : ∃ p c,
    g.program (.ofScanner s) = .done p c ∧ c.current.kind = .endOfInput ∧
      c.faults.size+p.statementCount ≤ s.ahead.length := by
  have hs := @statements_steady g _ (within_steady g nestingLimit) (· == .endOfInput) rfl
    (.ofScanner s) rfl
  cases h : statements g (within g nestingLimit) (· == .endOfInput) (.ofScanner s) with
  | done ss c =>
    refine ⟨⟨ss⟩,c,Grammar.program_eq_done rfl h,eq_of_beq (statements_stop h),?_⟩
    have hc := statements_costs (within_pays g nestingLimit) h
    have hleft : (Cursor.ofScanner s).left = s.ahead.length := rfl
    have hfaults : (Cursor.ofScanner s).faults.size = 0 := rfl
    simp only [statementCountAll] at hc
    simp only [Program.statementCount]
    omega
  | failed f c => exact absurd h (loop_moreStatements_ne_failed _ _ _ _)
  | endless =>
    rw [h] at hs
    exact absurd hg hs

end Scanner

/-- Whatever the rules of the grammar, if nothing goes on behind the end of input and no rule asks
the grammar again, reading comes to the end of every source. The faults found and the statements
kept, those inside blocks among them, are no more than the tokens in front of the end token. -/
theorem program_ends (source : Source) :
    (∀ g : Grammar, g.Terminating → ∃ p c,
      g.program (.ofScanner (.ofSource source)) = .done p c ∧ c.current.kind = .endOfInput ∧
        c.faults.size+p.statementCount ≤ source.words.length) ∧
    (parse source).faults.length+(parse source).program.statementCount ≤ source.words.length := by
  rw [Source.words_eq]
  refine ⟨fun g hg => (Scanner.ofSource source).program_done hg,?_⟩
  obtain ⟨p,c,hp,-,hc⟩ := (Scanner.ofSource source).program_done Grammar.standard_terminating
  have hparse : parse source = ⟨p,c.faults.toList⟩ := by
    rw [parse,Scanner.parse,hp]
    rfl
  rw [hparse]
  exact hc

/-- A grammar with blocks as statements and with statements behind semicolons. -/
theorem program_ends_blocks :
    ((Grammar.standard.withStatement .openBrace .block).withHead .semicolon .group).Terminating ∧
      ∃ p c, ((Grammar.standard.withStatement .openBrace .block).withHead .semicolon .group).program
          (.ofScanner (.ofSource ⟨"let a = ; \x7b b ( ; \x7d fn","shell"⟩)) = .done p c ∧
        c.current.kind = .endOfInput ∧
        c.faults.size+p.statementCount ≤
          (Source.words ⟨"let a = ; \x7b b ( ; \x7d fn","shell"⟩).length := by
  have hg : ((Grammar.standard.withStatement .openBrace .block).withHead
      .semicolon .group).Terminating :=
    ⟨rfl,fun k => by cases k <;> decide⟩
  exact ⟨hg,(program_ends _).1 _ hg⟩

end Precedence
