import Mathlib.Data.List.GetD
import Mathlib.Logic.Function.Iterate
import Precedence.Proofs.Descent.Frame
import Precedence.Proofs.Token.Places

/-! A parser can be asked for anything at any time: to move on, to open or close levels, to keep a
fault, to take new rules, or to read by any of its rules. Whatever it is asked for, and whether or
not that fails, it stays in step with the tokens of its source, within the nesting limit, and with
a rule for every operator. -/
namespace Precedence
open Parse Descent

namespace Scanner

theorem next_eq (s : Scanner) :
    s.next.1 = s.ahead.headD s.last ∧ s.next.2.ahead = s.ahead.tail ∧ s.next.2.last = s.last := by
  cases h : s.rest.dropWhile isBlank with
  | nil =>
    have hb := congrArg Text.bytes (List.takeWhile_append_dropWhile (p := isBlank) (l := s.rest))
    rw [h,List.append_nil] at hb
    have hlast : s.skipBlanks.last = s.last := by simp [last,tokenHere,skipBlanks,h,hb]
    rw [next_of_blanks h,ahead_of_blanks h]
    refine ⟨?_,ahead_of_blanks ?_,hlast⟩
    · rw [← hlast]
      simp [last,tokenHere,skipBlanks,h]
    · simp [skipBlanks,h]
  | cons c cs =>
    rw [next_of_lexeme h,ahead_of_lexeme h]
    exact ⟨rfl,rfl,last_behind h⟩

def pulled (n : Nat) (s : Scanner) : Scanner := (fun s => s.next.2)^[n] s

theorem cursor_next (s : Scanner) : Cursor.ofScanner s.next.2 = (Cursor.ofScanner s).advance :=
  Cursor.eq_of_ahead s.next_eq.2.1 s.next_eq.2.2 rfl rfl

theorem cursor_pulled (s : Scanner) (n : Nat) :
    Cursor.ofScanner (s.pulled n) = Cursor.advance^[n] (Cursor.ofScanner s) :=
  Function.Semiconj.iterate_right cursor_next n s

end Scanner

/-- The tokens of a source by their numbers, with the end token again and again behind them. -/
def Source.token (source : Source) (i : Nat) : Token :=
  source.tokens.getD i (Scanner.ofSource source).last

theorem Source.token_eq (source : Source) (i : Nat) :
    source.token i = (Scanner.ofSource source).ahead.getD i (Scanner.ofSource source).last := by
  rw [token,tokens]
  rcases Nat.lt_or_ge i (Scanner.ofSource source).ahead.length with h | h
  · rw [List.getD_append _ _ _ _ h]
  · rw [List.getD_append_right _ _ _ _ h,List.getD_eq_default _ _ h]
    cases i-(Scanner.ofSource source).ahead.length <;> rfl

namespace Cursor

theorem current_iterate (c : Cursor) (i : Nat) :
    (advance^[i] c).current = c.ahead.getD i c.last := by
  induction i generalizing c with
  | zero => cases h : c.ahead <;> simp [current,h]
  | succ i ih =>
    rw [Function.iterate_succ_apply,ih]
    cases h : c.ahead <;> simp [advance,h]

end Cursor

/-- What a parser can be asked for. -/
inductive Operation where
  | advance
  | expect (kind : Kind)
  | enter
  | leave
  | record (f : Fault)
  | withHead (kind : Kind) (rule : HeadRule)
  | withTail (kind : Kind) (power : Power) (rule : TailRule)
  | withStatement (kind : Kind) (rule : StatementRule)
  | expr (power : Power)
  | exprByHead (rule : HeadRule)
  | exprByTail (rule : TailRule) (left : Expr) (power : Power)
  | block
  | stmtBy (rule : StatementRule)
  | program

namespace Parser
variable {α : Type} {p q r : Parser} {source : Source}

/-- The parser behind an action, whether that ends with a value or with a fault. -/
def does (p : Parser) (action : Parse α) : Option Parser := (p.run action).map Prod.snd

/-- The parser behind an operation. There is none if the operation is endless. -/
def perform (p : Parser) : Operation → Option Parser
  | .advance => p.does Parse.advance
  | .expect kind => p.does (Parse.expect kind)
  | .enter => p.does Parse.enter
  | .leave => some { p with cursor := p.cursor.leave }
  | .record f => some { p with cursor := p.cursor.record f }
  | .withHead kind rule => some { p with grammar := p.grammar.withHead kind rule }
  | .withTail kind power rule => some { p with grammar := p.grammar.withTail kind power rule }
  | .withStatement kind rule => some { p with grammar := p.grammar.withStatement kind rule }
  | .expr power => p.does (p.grammar.expr power)
  | .exprByHead rule => p.does (p.grammar.exprByHead rule)
  | .exprByTail rule left power => p.does (p.grammar.exprByTail rule left power)
  | .block => p.does p.grammar.block
  | .stmtBy rule => p.does (p.grammar.stmtBy rule)
  | .program => p.does p.grammar.program

/-- The parser behind operations, one after the other. -/
def after (p : Parser) : List Operation → Option Parser
  | [] => some p
  | op :: ops => (p.perform op).bind fun q => q.after ops

end Parser

/-- Every kind that binds as an operator has a rule to go on with. -/
def Grammar.Tailed (g : Grammar) : Prop := ∀ kind, g.power kind ≠ .lowest → g.tail kind ≠ none

namespace Grammar
variable {g : Grammar} {α : Type}

theorem standard_tailed : standard.Tailed := by
  intro kind
  cases kind <;> simp [standard]

theorem Tailed.withTail (h : g.Tailed) (kind : Kind) (power : Power) (rule : TailRule) :
    (g.withTail kind power rule).Tailed := by
  intro k hk
  simp only [Grammar.withTail] at hk ⊢
  split
  · simp
  · rename_i hne
    rw [if_neg hne] at hk
    exact h k hk

theorem Tailed.operator (h : g.Tailed) (d : Descent) {power : Power} (left : Expr) {c : Cursor}
    (hs : c.peek.kind ≠ .semicolon) (hp : power < g.power c.peek.kind) :
    ∃ rule, g.tail c.peek.kind = some rule ∧
      Descent.operator g d power left c =
        (do let e ← d.tail rule left (g.power c.peek.kind)
            return .again e : Parse _) c.advance := by
  have hne : g.power c.peek.kind ≠ .lowest := by
    intro he
    rw [he] at hp
    exact Nat.not_lt_zero _ hp
  obtain ⟨rule,hr⟩ := Option.ne_none_iff_exists'.mp (h _ hne)
  refine ⟨rule,hr,?_⟩
  simp only [Descent.operator,Parse.peek_bind,if_pos (And.intro hs hp),hr,Parse.advance_bind]

theorem here_steady {action : Descent → Parse α}
    (h : ∀ d : Descent, d.Steady g → Parse.Steady g (action d)) : Parse.Steady g (g.here action) :=
  fun c => h _ (within_steady g _) c

theorem stmtBy_steady (rule : StatementRule) : Parse.Steady g (g.stmtBy rule) := by
  cases rule with
  | any => exact here_steady fun _ hd => statement_steady hd
  | binding => exact here_steady fun _ hd => bindingStatement_steady hd
  | result => exact here_steady fun _ hd => resultStatement_steady hd
  | expression => exact here_steady fun _ hd => expressionStatement_steady hd
  | block =>
    have h (d : Descent) (hd : d.Steady g) : Parse.Steady g d.blockStatement :=
      Parse.Steady.bind hd.block fun _ => Parse.Steady.pure _
    exact here_steady h

theorem program_steady : Parse.Steady g g.program :=
  Parse.Steady.bind (here_steady fun _ hd => statements_steady hd rfl) fun _ => Parse.Steady.pure _

end Grammar

/-- One parser comes from another by reading on. Levels may stay open, and rules may change. -/
structure Parser.Follows (q p : Parser) : Prop where
  ahead : q.cursor.ahead <:+ p.cursor.ahead
  last : q.cursor.last = p.cursor.last
  faults : p.cursor.faults.toList <+: q.cursor.faults.toList
  depth : p.cursor.depth ≤ nestingLimit → q.cursor.depth ≤ nestingLimit
  tailed : p.grammar.Tailed → q.grammar.Tailed

namespace Parser.Follows
variable {α : Type} {p q r : Parser}

theorem refl (p : Parser) : p.Follows p :=
  ⟨List.suffix_rfl,rfl,List.prefix_rfl,id,id⟩

theorem trans (h : r.Follows q) (k : q.Follows p) : r.Follows p :=
  ⟨h.ahead.trans k.ahead,h.last.trans k.last,k.faults.trans h.faults,h.depth ∘ k.depth,
    h.tailed ∘ k.tailed⟩

theorem grammar {g : Grammar} (h : p.grammar.Tailed → g.Tailed) :
    ({ p with grammar := g } : Parser).Follows p :=
  ⟨List.suffix_rfl,rfl,List.prefix_rfl,id,h⟩

theorem cursor {c : Cursor} (h : c.Follows p.cursor) : ({ p with cursor := c } : Parser).Follows p :=
  ⟨h.ahead,h.last,h.faults,fun hd => Nat.le_trans (Nat.le_of_eq h.depth) hd,id⟩

theorem does {action : Parse α} (hl : p.cursor.last.kind = .endOfInput)
    (hs : Parse.Steady p.grammar action) (h : p.does action = some q) : q.Follows p := by
  have hf := hs p.cursor hl
  unfold Parser.does Parser.run at h
  cases ho : action p.cursor with
  | done a c =>
    rw [ho] at h hf
    obtain rfl := Option.some.inj h
    exact cursor hf
  | failed f c =>
    rw [ho] at h hf
    obtain rfl := Option.some.inj h
    exact cursor hf
  | endless =>
    rw [ho] at h
    simp at h

theorem enter (h : p.does Parse.enter = some q) : q.Follows p := by
  unfold Parser.does Parser.run Parse.enter at h
  by_cases hd : p.cursor.depth < nestingLimit
  · rw [if_pos hd] at h
    obtain rfl := Option.some.inj h
    exact ⟨List.suffix_rfl,rfl,List.prefix_rfl,fun _ => hd,id⟩
  · rw [if_neg hd] at h
    obtain rfl := Option.some.inj h
    exact refl p

end Parser.Follows

namespace Parser
variable {p q : Parser} {source : Source}

theorem perform_follows {op : Operation} (hl : p.cursor.last.kind = .endOfInput)
    (h : p.perform op = some q) : q.Follows p := by
  cases op with
  | advance => exact Follows.does hl Parse.Steady.advance h
  | expect kind => exact Follows.does hl (Parse.Steady.expect kind) h
  | enter => exact Follows.enter h
  | leave =>
    obtain rfl := Option.some.inj h
    exact ⟨List.suffix_rfl,rfl,List.prefix_rfl,fun hd => Nat.le_trans (Nat.sub_le _ _) hd,id⟩
  | record f =>
    obtain rfl := Option.some.inj h
    exact Follows.cursor (.record _ f)
  | withHead kind rule | withStatement kind rule =>
    obtain rfl := Option.some.inj h
    exact Follows.grammar id
  | withTail kind power rule =>
    obtain rfl := Option.some.inj h
    exact Follows.grammar fun ht => ht.withTail kind power rule
  | expr power => exact Follows.does hl (Grammar.here_steady fun _ hd => hd.expr power) h
  | exprByHead rule => exact Follows.does hl (Grammar.here_steady fun _ hd => head_steady hd rule) h
  | exprByTail rule left power =>
    exact Follows.does hl (Grammar.here_steady fun _ hd => tail_steady hd rule left power) h
  | block => exact Follows.does hl (Grammar.here_steady fun _ hd => hd.block) h
  | stmtBy rule => exact Follows.does hl (Grammar.stmtBy_steady rule) h
  | program => exact Follows.does hl Grammar.program_steady h

theorem after_follows {ops : List Operation} (hl : p.cursor.last.kind = .endOfInput)
    (h : p.after ops = some q) : q.Follows p := by
  induction ops generalizing p with
  | nil =>
    obtain rfl := Option.some.inj h
    exact .refl p
  | cons op ops ih =>
    obtain ⟨r,hr,h⟩ := Option.bind_eq_some_iff.mp h
    have hf := perform_follows hl hr
    exact (ih ((congrArg Token.kind hf.last).trans hl) h).trans hf

/-- Tokens from some number on are what the cursor shows, now and whenever it moves on, and what
the source gives when they are pulled one by one. -/
theorem Follows.window (h : p.Follows (.ofSource source)) :
    ∃ k, ∀ i, (Cursor.advance^[i] p.cursor).current = source.token (k+i) ∧
      (Cursor.advance^[i] p.cursor).peek = source.token (k+(i+1)) ∧
      ((Scanner.ofSource source).pulled (k+i)).next.1 = source.token (k+i) := by
  obtain ⟨used,hused⟩ := h.ahead
  have hlast : p.cursor.last = (Scanner.ofSource source).last := h.last
  have hshown (i : Nat) :
      (Cursor.advance^[i] p.cursor).current = source.token (used.length+i) := by
    rw [Cursor.current_iterate,source.token_eq,hlast]
    have ha : (Scanner.ofSource source).ahead = used ++ p.cursor.ahead := hused.symm
    rw [ha,List.getD_append_right _ _ _ _ (Nat.le_add_right _ _),Nat.add_sub_cancel_left]
  refine ⟨used.length,fun i => ⟨hshown i,?_,?_⟩⟩
  · rw [← hshown,Function.iterate_succ_apply']
    rfl
  · have hpulled := congrArg Cursor.current
      ((Scanner.ofSource source).cursor_pulled (used.length+i))
    rw [Cursor.current_iterate] at hpulled
    rw [(Scanner.next_eq _).1,source.token_eq]
    exact hpulled

/-- A parser of a source, after any operations that come to an end, successful or not. What it
shows and has still to come are the tokens of the source from some number on, as pulling them one
by one gives them, with the end token again and again. No more levels are open than the limit
allows. Every kind that binds as an operator has a rule, by which it is taken wherever it binds
tightly enough. Faults are only added behind those found before. -/
theorem operations_keep (source : Source) (ops : List Operation) (p : Parser)
    (h : (Parser.ofSource source).after ops = some p) :
    (∃ k, ∀ i, (Cursor.advance^[i] p.cursor).current = source.token (k+i) ∧
      (Cursor.advance^[i] p.cursor).peek = source.token (k+(i+1)) ∧
      ((Scanner.ofSource source).pulled (k+i)).next.1 = source.token (k+i)) ∧
    p.cursor.depth ≤ nestingLimit ∧
    (∀ kind, p.grammar.power kind ≠ .lowest → p.grammar.tail kind ≠ none) ∧
    (∀ (d : Descent) (power : Power) (left : Expr) (c : Cursor), c.peek.kind ≠ .semicolon →
      power < p.grammar.power c.peek.kind → ∃ rule, p.grammar.tail c.peek.kind = some rule ∧
        Descent.operator p.grammar d power left c =
          (do let e ← d.tail rule left (p.grammar.power c.peek.kind)
              return .again e : Parse (Round Expr Expr)) c.advance) ∧
    ∀ more q, p.after more = some q → p.cursor.faults.toList <+: q.cursor.faults.toList := by
  have hf := after_follows rfl h
  have ht : p.grammar.Tailed := hf.tailed Grammar.standard_tailed
  have hl : p.cursor.last.kind = .endOfInput := congrArg Token.kind hf.last
  exact ⟨hf.window,hf.depth (Nat.zero_le _),ht,fun d _ left _ hs hp => ht.operator d left hs hp,
    fun _ _ hq => (after_follows hl hq).faults⟩

/-- Levels left open, a comma made an operator, and readings of which two fail. -/
theorem operations_keep_comma :
    ∃ p, (Parser.ofSource ⟨"let a b, c; (","f"⟩).after
        [.enter,.stmtBy .any,.expect .identifier,.advance,.withTail .comma .sum .binary,
          .exprByHead .group,.expr .lowest,.enter,.program] = some p ∧
      (∃ k, p.cursor.current = Source.token ⟨"let a b, c; (","f"⟩ k) ∧
      p.cursor.depth ≤ nestingLimit ∧ p.grammar.tail .comma ≠ none := by
  have hsome : ((Parser.ofSource ⟨"let a b, c; (","f"⟩).after
      [.enter,.stmtBy .any,.expect .identifier,.advance,.withTail .comma .sum .binary,
        .exprByHead .group,.expr .lowest,.enter,.program]).any
          (fun p => p.grammar.power .comma == .sum) = true := by decide +kernel
  obtain ⟨p,hp,hpower⟩ := (Option.any_eq_true _ _).mp hsome
  obtain ⟨⟨k,hk⟩,hdepth,htail,-,-⟩ := operations_keep _ _ p hp
  exact ⟨p,hp,⟨k,(hk 0).1⟩,hdepth,htail .comma (by simp [eq_of_beq hpower])⟩

end Parser
end Precedence
