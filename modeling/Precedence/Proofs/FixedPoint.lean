import Precedence.Proofs.RoundTrip
import Precedence.Proofs.Syntax.Formed
import Precedence.Proofs.Syntax.Kept
import Precedence.Proofs.Tree.Fused
import Precedence.Proofs.Tree.Joining

/-! Which texts are printed as they were read. Where tokens run together there are fewer of them,
and where a statement is joined to the one in front of it there are more, so a text is the same
again only if it is that of a program where neither happens. -/
namespace Precedence

namespace Program
variable {p : Program} {file : String}

/-- Programs that are read back from their own texts. -/
structure Stable (p : Program) : Prop where
  formed : p.Formed
  separate : Separate p.pieces
  apart : p.Apart
  levels : p.levels ≤ nestingLimit

theorem Stable.fixed (h : p.Stable) : (parse (p.source file)).faults = [] ∧
    (parse (p.source file)).program.render = p.render := by
  obtain ⟨hf,ha⟩ := @parse_source p file h.formed h.separate h.apart h.levels
  refine ⟨hf,?_⟩
  rw [render_of_alike ha,p.render_opened]

/-- A derivation from a program's own text has all its tokens, so none of them ran together. -/
theorem separate_of_derivation (hf : p.Formed)
    (D : Derivation False (.statements p.statements) (Scanner.ofSource (p.source file)).ahead []) :
    Separate p.pieces := by
  have hlex : Lexical p.pieces := FormedAll.lexical p.statements hf
  have hchain := @FormedAll.chained True p.statements hf (.inl trivial) [] .nil trivial
  rw [List.append_nil] at hchain
  have htext : (Scanner.ofSource (p.source file)).rest = textOf p.pieces := p.render_toList
  have hkept : withoutParens p.tokens ++ [] = keptOnly (Scanner.ofSource (p.source file)).ahead :=
    D.keeps.exact.resolve_left id
  have hcount : keptCount (spellings (textOf p.pieces)) = keptCount (tokensOf p.pieces) := by
    have hpieces : keptCount (tokensOf p.pieces) = keptLength p.tokens :=
      keptCount_piecesAll p.statements hf
    rw [← htext,← Scanner.ahead_spellings,keptCount_spelling,← hkept,hpieces,List.append_nil]
    rfl
  exact separate_of_keptCount hlex hchain hcount

/-- Where a program is read back from its own text, no statement is joined to another: the text
would have grown. -/
theorem apart_of_parse (hf : p.Formed) (hs : Separate p.pieces)
    (h : parse (p.source file) = ⟨p,[]⟩) : p.Apart ∧ p.levels ≤ nestingLimit := by
  obtain ⟨ss,hss,D,hD⟩ := derivation_of_spelled hf (@source_spelled p file hf hs)
  have hl := Scanner.levels_of_derivation D (congrArg Parsed.faults h)
  have hparse := Scanner.parse_of_derivation D hl
  rw [show (Scanner.ofSource (p.source file)).parse = ⟨p,[]⟩ from h] at hparse
  obtain rfl : p = ⟨ss⟩ := congrArg Parsed.program hparse
  have ha : Apart ⟨ss⟩ := apartAll_of_tokenCount (by rw [← piecesAll_of_alike _ _ hss])
  exact ⟨ha,by rwa [hD ha] at hl⟩

theorem stable_of_parse (file : String) (h : parse (p.source file) = ⟨p,[]⟩) : p.Stable := by
  have hparse : (Scanner.ofSource (p.source file)).parse = ⟨p,[]⟩ := h
  obtain ⟨D,-⟩ := (Scanner.ofSource (p.source file)).parse_derivable False (.inr (by rw [hparse]))
  rw [hparse] at D
  have hf : p.Formed := (D.formed (Scanner.ahead_lexed _)).1
  have hs := separate_of_derivation hf D
  obtain ⟨ha,hl⟩ := apart_of_parse hf hs h
  exact ⟨hf,hs,ha,hl⟩

end Program

/-- The program of a source without faults is formed, and its text is printed as it is read exactly
if it is the text of a stable program. -/
theorem render_fixed_iff (source : Source) (clean : (parse source).faults = []) (file : String) :
    (parse source).program.Formed ∧
      ((parse ⟨(parse source).program.render,file⟩).faults = [] ∧
          (parse ⟨(parse source).program.render,file⟩).program.render =
            (parse source).program.render ↔
        ∃ p : Program, p.Stable ∧ p.render = (parse source).program.render) := by
  obtain ⟨D,-⟩ := (Scanner.ofSource source).parse_derivable False (.inr clean)
  refine ⟨(D.formed (Scanner.ahead_lexed _)).1,?_⟩
  generalize (parse source).program.render = text
  constructor
  · rintro ⟨hf,hr⟩
    refine ⟨(parse ⟨text,file⟩).program,Program.stable_of_parse file ?_,hr⟩
    rw [Program.source,hr,← hf]
  · rintro ⟨p,hp,rfl⟩
    exact hp.fixed

/-- Operators in parentheses are read again as they were printed. -/
theorem render_fixed_product :
    (parse ⟨"-a * b","shell"⟩).faults = [] ∧ (parse ⟨"-a * b","shell"⟩).program.Formed ∧
      ∃ p : Program, p.Stable ∧ p.render = (parse ⟨"-a * b","shell"⟩).program.render := by
  have clean : (parse ⟨"-a * b","shell"⟩).faults = [] := by decide +kernel
  obtain ⟨formed,fixed⟩ := render_fixed_iff ⟨"-a * b","shell"⟩ clean "shell"
  exact ⟨clean,formed,fixed.mp (by decide +kernel)⟩

/-- An operator behind a statement is printed in parentheses, and those call the statement. -/
theorem render_not_fixed : ¬ ∀ source : Source, (parse source).faults = [] →
    (parse ⟨(parse source).program.render,source.file⟩).faults = [] ∧
      (parse ⟨(parse source).program.render,source.file⟩).program.render =
        (parse source).program.render := by
  intro h
  have hfixed := h ⟨"a; -b","shell"⟩ (by decide +kernel)
  have hgrown : (parse ⟨(parse ⟨"a; -b","shell"⟩).program.render,"shell"⟩).program.render ≠
      (parse ⟨"a; -b","shell"⟩).program.render := by decide +kernel
  exact hgrown hfixed.2

end Precedence
