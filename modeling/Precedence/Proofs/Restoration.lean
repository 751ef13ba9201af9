import Precedence.Proofs.Descent.Counter
import Precedence.Proofs.Standalone

/-! Readings give back what they borrow: the levels they open, the rules they look up and the faults
found before, however they end. So each statement of a source is read as if it were the first. -/
namespace Precedence
open Parse Descent

def Operation.isReading : Operation → Bool
  | .expr _ | .exprByHead _ | .exprByTail .. | .block | .stmtBy _ | .program => true
  | _ => false

namespace Grammar
variable {α : Type} {g : Grammar}

theorem here_restores {action : Descent → Parse α}
    (h : ∀ d : Descent, (∀ power, Restores Expr (d.expr power)) → Restores Block d.block →
      Restores α (action d)) : Restores α (g.here action) := by
  intro c
  obtain ⟨he,hb⟩ := (Restores.inherited g).within (nestingLimit-c.depth)
  exact h _ he hb c

theorem stmt_restores : Restores Stmt g.stmt :=
  here_restores fun _ he hb => (Restores.inherited g).statement he hb

theorem stmtBy_restores (rule : StatementRule) : Restores Stmt (g.stmtBy rule) := by
  -- A grammar that has one rule for all kinds of tokens reads every statement by it.
  have hone : Restores Stmt (g.here fun d => d.statementBy rule) := here_restores fun _ he hb =>
    (Restores.inherited { g with statement := fun _ => some rule }).statement he hb
  cases rule with
  | any => exact stmt_restores
  | binding | result | expression | block => exact hone

theorem program_restores : Restores Program g.program :=
  (Restores.inherited g).bind
    (here_restores fun _ he hb => (Restores.inherited g).statements he hb _) fun _ c => .refl c

theorem stmt_oblivious : Oblivious Stmt g.stmt := by
  intro fs c
  obtain ⟨he,hb⟩ := (Oblivious.inherited g).within (nestingLimit-c.depth)
  exact (Oblivious.inherited g).statement he hb fs c

end Grammar

namespace Parser
variable {α : Type} {p q : Parser}

theorem does_restores {action : Parse α} (hr : Restores α action) (h : p.does action = some q) :
    q.cursor.Follows p.cursor ∧ q.grammar = p.grammar := by
  have hc := hr p.cursor
  unfold Parser.does Parser.run at h
  cases ho : action p.cursor with
  | done a c | failed a c =>
    rw [ho] at h hc
    obtain rfl := Option.some.inj h
    exact ⟨hc,rfl⟩
  | endless =>
    rw [ho] at h
    simp at h

theorem perform_restores {op : Operation} (hop : op.isReading = true)
    (h : p.perform op = some q) : q.cursor.Follows p.cursor ∧ q.grammar = p.grammar := by
  have hP := Restores.inherited p.grammar
  cases op with
  | expr power => exact does_restores (Grammar.here_restores fun _ he _ => he power) h
  | exprByHead rule =>
    exact does_restores (Grammar.here_restores fun _ he hb =>
      Restores.head (fun _ hr => hP.head he hb hr) rule) h
  | exprByTail rule left power =>
    exact does_restores (Grammar.here_restores fun _ he _ => hP.tail he rule left power) h
  | block => exact does_restores (Grammar.here_restores fun _ _ hb => hb) h
  | stmtBy rule => exact does_restores (Grammar.stmtBy_restores rule) h
  | program => exact does_restores Grammar.program_restores h
  | _ => simp [Operation.isReading] at hop

end Parser

/-- A cursor that starts at the tokens where another one stands. -/
def Cursor.fresh (c : Cursor) : Cursor := { ahead := c.ahead, last := c.last }

theorem Cursor.holding_fresh {c : Cursor} (h : c.depth = 0) : c.fresh.holding c.faults = c :=
  Cursor.eq_of_ahead rfl rfl h.symm (by simp [holding,fresh])

/-- Whatever state a parser is in and by whatever rule it reads, successfully or not, no level is
open behind the reading that was not open before, the rules are the same, and the faults found
before are still in front. Since it is the counter of open levels that decides whether an expression
or a block may open another one, no level is lost to what was read before: each statement of a source
starts with none open, has all levels to spend, and is read as if nothing stood in front of it,
whichever statements have failed there. -/
theorem readings_restore :
    (∀ (p q : Parser) (op : Operation), op.isReading = true → p.perform op = some q →
      q.cursor.depth = p.cursor.depth ∧ q.grammar = p.grammar ∧
      p.cursor.faults.toList <+: q.cursor.faults.toList) ∧
    (∀ g : Grammar, (∀ power, g.expr power = counted (expression g g.descent power)) ∧
      g.block = counted (body g g.descent)) ∧
    ∀ (source : Source) (k : Nat) (read : List Stmt) (c : Cursor),
      source.after k = some (read,c) → c.depth = 0 ∧
      Grammar.standard.stmt c = statement .standard (.within .standard nestingLimit) c ∧
      Grammar.standard.stmt c = (Grammar.standard.stmt c.fresh).holding c.faults := by
  refine ⟨fun p q op hop h => ?_,fun g => ⟨g.expr_eq_counted,g.block_eq_counted⟩,
    fun source k read c hk => ?_⟩
  · obtain ⟨hf,hg⟩ := Parser.perform_restores hop h
    exact ⟨hf.depth,hg,hf.faults⟩
  · have hdepth : c.depth = 0 := (Source.after_follows hk).depth
    refine ⟨hdepth,?_,?_⟩
    · rw [Grammar.stmt,Grammar.here,hdepth]
      rfl
    · rw [← Grammar.stmt_oblivious,Cursor.holding_fresh hdepth]

/-- Two levels below the limit, a block with two faults in it, one of them for want of a level, in
front of an operator that lacks its other operand: the reading fails and leaves two levels free. And a
statement behind another one that failed. -/
theorem readings_restore_fault :
    (∃ p q : Parser, p.cursor.depth = 126 ∧ p.perform (.expr .lowest) = some q ∧
      q.cursor.current.kind = .endOfInput ∧ q.cursor.faults.size = 2 ∧
      q.cursor.depth = 126 ∧ q.grammar = p.grammar) ∧
    ∃ read c, Source.after ⟨"fn() \x7b let 1 \x7d +; a","f"⟩ 1 = some (read,c) ∧
      c.faults.size = 2 ∧ c.depth = 0 ∧
      Grammar.standard.stmt c = (Grammar.standard.stmt c.fresh).holding c.faults := by
  constructor
  · let p : Parser := { cursor :=
      { Cursor.ofScanner (.ofSource ⟨"fn() \x7b a let \x7d +","f"⟩) with depth := 126 } }
    have hrun : (p.perform (.expr .lowest)).any (fun q => decide
        (q.cursor.current.kind = .endOfInput ∧ q.cursor.faults.size = 2)) = true := by
      decide +kernel
    obtain ⟨q,hq,hend⟩ := (Option.any_eq_true _ _).mp hrun
    obtain ⟨hkind,hsize⟩ := of_decide_eq_true hend
    obtain ⟨hdepth,hgrammar,-⟩ := readings_restore.1 p q (.expr .lowest) rfl hq
    exact ⟨p,q,rfl,hq,hkind,hsize,hdepth,hgrammar⟩
  · have hafter : (Source.after ⟨"fn() \x7b let 1 \x7d +; a","f"⟩ 1).any
        (fun r => decide (r.2.faults.size = 2)) = true := by decide +kernel
    obtain ⟨⟨read,c⟩,hk,hc⟩ := (Option.any_eq_true _ _).mp hafter
    obtain ⟨hdepth,-,hstmt⟩ := readings_restore.2.2 _ 1 read c hk
    exact ⟨read,c,hk,of_decide_eq_true hc,hdepth,hstmt⟩

end Precedence
