import Precedence.Proofs.Syntax.Acceptance
import Precedence.Proofs.Syntax.Readback

/-! Reading undoes printing. The text of a formed program is read back as that program, as long as
no two of its tokens run together, no parenthesis follows an expression statement, and there are
levels enough. -/
namespace Precedence

namespace Program
variable {p : Program} {file : String}

def source (p : Program) (file : String) : Source := ⟨p.render,file⟩

theorem source_spelled (hf : p.Formed) (hs : Separate p.pieces) :
    Spelled (tokensOf p.pieces) (Scanner.ofSource (p.source file)).ahead [] := by
  have hlex : ∀ w ∈ tokensOf p.pieces, w.Lexes := FormedAll.lexical p.statements hf
  have htext : (Scanner.ofSource (p.source file)).rest = textOf p.pieces := p.render_toList
  refine ⟨_,?_,(List.append_nil _).symm⟩
  rw [Scanner.ahead_spellings,htext,spellings_textOf hlex hs]

/-- The text of a program can be derived as the program, with its own number of levels. -/
theorem source_derivation (hf : p.Formed) (hs : Separate p.pieces) (ha : p.Apart) :
    ∃ q : Program, q.alike p.opened = true ∧
      ∃ D : Derivation False (.statements q.statements) (Scanner.ofSource (p.source file)).ahead [],
        D.levels = p.levels := by
  obtain ⟨ss,hss,D,hD⟩ := derivation_of_spelled hf (source_spelled hf hs)
  rw [Program.joined_of_apart ha] at hss
  exact ⟨⟨ss⟩,hss,D,hD ha⟩

theorem parse_source (hf : p.Formed) (hs : Separate p.pieces) (ha : p.Apart)
    (hl : p.levels ≤ nestingLimit) :
    (parse (p.source file)).faults = [] ∧ (parse (p.source file)).program.alike p.opened = true := by
  obtain ⟨q,hq,D,hD⟩ := @source_derivation p file hf hs ha
  have hparse : parse (p.source file) = ⟨q,[]⟩ := Scanner.parse_of_derivation D (by rwa [hD])
  rw [hparse]
  exact ⟨rfl,hq⟩

theorem parse_source_faults (hf : p.Formed) (hs : Separate p.pieces) (ha : p.Apart)
    (hl : nestingLimit < p.levels) : (parse (p.source file)).faults ≠ [] := by
  obtain ⟨q,hq,D,hD⟩ := @source_derivation p file hf hs ha
  intro hnil
  have hle := Scanner.levels_of_derivation D hnil
  omega

end Program

/-- A formed program in which each expression statement is the last of its block is read back from
its own text, if that opens no more levels than there are. Only the tokens of expression statements
are read anew: they are the tokens that the statements' texts start with. -/
theorem parse_render (p : Program) (file : String) (formed : p.Formed) (final : p.Final)
    (levels : p.levels ≤ nestingLimit) :
    (parse ⟨p.render,file⟩).faults = [] ∧
      (parse ⟨p.render,file⟩).program.alike p.opened = true :=
  Program.parse_source formed (final.separate formed) (FinalAll.apart p.statements final) levels

/-- The program `let x = (!true);x`. -/
def Program.negation : Program :=
  ⟨[.binding (.mark .letWord) ⟨⟨.identifier,"x",⟨"",0,0⟩⟩,"x"⟩
      (.unary (.mark .bang) "!" (.boolean (.mark .trueWord) true)),
    .expression (.mark .semicolon) (.name ⟨⟨.identifier,"x",⟨"",0,0⟩⟩,"x"⟩)]⟩

theorem parse_render_negation :
    Program.negation.Formed ∧ Program.negation.Final ∧ Program.negation.levels ≤ nestingLimit ∧
      (parse ⟨Program.negation.render,"shell"⟩).faults = [] ∧
      (parse ⟨Program.negation.render,"shell"⟩).program.alike Program.negation.opened = true := by
  have hname : isName "x" = true := by decide
  have formed : Program.negation.Formed :=
    ⟨⟨rfl,⟨rfl,hname⟩,.inl rfl,rfl,rfl⟩,⟨rfl,hname⟩,trivial⟩
  have final : Program.negation.Final := ⟨trivial,trivial,rfl⟩
  have levels : Program.negation.levels ≤ nestingLimit := by decide
  exact ⟨formed,final,levels,parse_render Program.negation "shell" formed final levels⟩

end Precedence
