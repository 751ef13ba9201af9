import Precedence.Proofs.Descent.Closing
import Precedence.Proofs.Syntax.Acceptance

/-! A block ends at its own closing brace, whichever of its statements fail, as long as none fails
with a brace as its current token. -/
namespace Precedence
open Parse Descent

namespace Grammar

theorem block_eq {c : Cursor} (h : c.depth < nestingLimit) :
    standard.block c = nested (body standard (within standard (nestingLimit-c.depth-1))) c := by
  obtain ⟨n,hn⟩ : ∃ n, nestingLimit-c.depth = n+1 := ⟨nestingLimit-c.depth-1,by omega⟩
  simp only [block,here,hn]
  rfl

theorem block_done {c : Cursor} (hc : c.Proper) (h : c.depth < nestingLimit) :
    ∃ b c', body standard (within standard (nestingLimit-c.depth-1)) c.deeper = .done b c' ∧
      standard.block c = .done b c'.leave := by
  obtain ⟨ss,e,hss⟩ : ∃ ss e, statements standard (within standard (nestingLimit-c.depth-1))
      endsBlock c.deeper.advance = .done ss e :=
    Descent.statements_done (levels_steady _) rfl hc.deeper.advance
  have hb : body standard (within standard (nestingLimit-c.depth-1)) c.deeper =
      .done (.mk c.deeper.current ss) e := by
    rw [body,advance_bind]
    exact bind_of_done hss
  refine ⟨_,e,hb,?_⟩
  rw [block_eq h,nested,hb]

end Grammar

/-- A block is read from every opening brace at which a level is free. It ends at a closing brace or
at the end of input, and where none of the faults found in it skips a brace, that is the closing
brace which counting finds, or the end of input where counting finds none. -/
theorem block_ends_at_own_brace (c : Cursor) (proper : c.Proper)
    (brace : c.current.kind = .openBrace) (level : c.depth < nestingLimit) :
    ∃ b c' found, Grammar.standard.block c = .done b c' ∧
      c'.faults.toList = c.faults.toList ++ found ∧ endsBlock c'.current.kind = true ∧
      ((∀ f ∈ found, ¬ f.SkipsBrace c.ahead) → c'.ahead = closer 0 c.rest) := by
  obtain ⟨b,e,hb,hdone⟩ := Grammar.block_done proper level
  have hf := (body_steady (levels_steady _)).follows proper.deeper hb
  obtain ⟨found,hfound⟩ := hf.faults
  refine ⟨b,e.leave,found,hdone,hfound.symm,?_,fun hskip => ?_⟩
  · simp only [body,advance_bind,bind_eq_done] at hb
    obtain ⟨ss,e',hss,he⟩ := hb
    obtain ⟨-,rfl⟩ := Outcome.done.inj he
    have hend := statements_stop hss
    exact hend
  · rcases body_matched (within_matches c.ahead _) proper.deeper (List.Subset.refl _) brace hb with
      h | ⟨fs,f,hfs,hmem,hf⟩
    · exact h.1
    · have hsub : fs <+: found := by
        rw [← hfound] at hfs
        exact (List.prefix_append_right_inj _).mp hfs
      exact absurd hf (hskip f (hsub.subset hmem))

/-- A block with a statement that fails in it, and a block in it with another. -/
theorem block_ends_at_own_brace_faults : ∃ c : Cursor,
    c = .ofScanner (.ofSource ⟨"\x7b let 1; fn() \x7b ) \x7d b \x7d z","f"⟩) ∧
      (c.Proper ∧ c.current.kind = .openBrace ∧ c.depth < nestingLimit) ∧
      ∃ b c', Grammar.standard.block c = .done b c' ∧ c'.faults.size = 2 ∧
        c'.ahead = closer 0 c.rest ∧ c'.ahead.map Token.text = ["\x7d","z"] := by
  refine ⟨_,rfl,⟨Scanner.proper _,by decide +kernel⟩,?_⟩
  generalize hc : Cursor.ofScanner (.ofSource ⟨_,_⟩) = c
  have hstart : c.Proper ∧ c.current.kind = .openBrace ∧ c.depth < nestingLimit := by
    subst hc
    exact ⟨Scanner.proper _,by decide +kernel⟩
  have hrun : (Grammar.standard.block c).result?.any (fun r => decide (r.2.faults.size = 2 ∧
      (∀ f ∈ r.2.faults.toList, ¬ f.SkipsBrace c.ahead) ∧
      r.2.ahead.map Token.text = ["\x7d","z"])) = true := by
    subst hc
    decide +kernel
  obtain ⟨b,c',found,hdone,hfound,-,hown⟩ :=
    block_ends_at_own_brace c hstart.1 hstart.2.1 hstart.2.2
  rw [hdone] at hrun
  obtain ⟨hsize,hskip,htext⟩ := of_decide_eq_true hrun
  refine ⟨b,c',hdone,hsize,hown fun f hf => hskip f ?_,htext⟩
  rw [hfound]
  exact List.mem_append_right _ hf

/-- Where a brace is skipped, a block may pass the brace that counting finds, as where a statement
fails at it, or end at another one, as where one fails in front of an opening brace. -/
theorem block_end_differs :
    (∃ c : Cursor, c.Proper ∧ c.current.kind = .openBrace ∧ c.depth < nestingLimit ∧
      ∃ b c', Grammar.standard.block c = .done b c' ∧ c'.ahead = [] ∧
        (closer 0 c.rest).map Token.text = ["\x7d","x"]) ∧
    ∃ c : Cursor, c.Proper ∧ c.current.kind = .openBrace ∧ c.depth < nestingLimit ∧
      ∃ b c', Grammar.standard.block c = .done b c' ∧
        c'.ahead.map Token.text = ["\x7d","y","\x7d"] ∧
        (closer 0 c.rest).map Token.text = ["\x7d"] := by
  constructor
  · refine ⟨.ofScanner (.ofSource ⟨"\x7b return \x7d x","f"⟩),Scanner.proper _,by decide +kernel,
      by decide +kernel,?_⟩
    have hrun :
      (Grammar.standard.block (.ofScanner (.ofSource ⟨"\x7b return \x7d x","f"⟩))).result?.any
        (fun r => decide (r.2.ahead = [])) = true := by decide +kernel
    obtain ⟨b,c',hdone,hend⟩ := Outcome.done_of_result? hrun
    exact ⟨b,c',hdone,of_decide_eq_true hend,by decide +kernel⟩
  · refine ⟨.ofScanner (.ofSource ⟨"\x7b fn(1) \x7b x \x7d y \x7d","f"⟩),Scanner.proper _,
      by decide +kernel,by decide +kernel,?_⟩
    have hrun : (Grammar.standard.block
        (.ofScanner (.ofSource ⟨"\x7b fn(1) \x7b x \x7d y \x7d","f"⟩))).result?.any
        (fun r => decide (r.2.ahead.map Token.text = ["\x7d","y","\x7d"])) = true := by
      decide +kernel
    obtain ⟨b,c',hdone,hend⟩ := Outcome.done_of_result? hrun
    exact ⟨b,c',hdone,of_decide_eq_true hend,by decide +kernel⟩

end Precedence
