import Precedence.Proofs.Descent.Pairing
import Precedence.Proofs.Descent.Repetition

/-! The rules of the language stay in step on tokens that are alike: none of them asks for more of
a token than its kind and its text, nor for a token behind the lookahead. -/
namespace Precedence
open Parse Likeness Pairing

structure Descent.Lockstep (R : Pairing) (d : Descent) : Prop where
  expr (p : Power) : Paired R Anywhere Inside (d.expr p) (d.expr p)
  block : Paired R AtBrace Inside d.block d.block

namespace Parse.Paired
variable {α β : Type} [Likeness α] [Likeness β] {R : Pairing} {pre post : Kind → Prop}
  {p p' : Parse α}

/-- Where nothing was asked of the current token, more may be known of it. -/
theorem inside (h : Paired R Anywhere post p p') : Paired R pre post p p' :=
  h.mono (fun _ _ => trivial) fun _ hk => hk

theorem mark {k : Kind} (hk : k ≠ .semicolon) :
    Paired R Inside Inside (Parse.expect k) (Parse.expect k) :=
  expect hk

theorem brace : Paired R Inside AtBrace (Parse.expect .openBrace) (Parse.expect .openBrace) :=
  expect rfl

end Parse.Paired

namespace Descent
variable {α : Type} [Likeness α] {R : Pairing} {d : Descent} {item : Parse α}
open Parse.Paired

theorem moreItems_paired (h : Paired R Inside Inside item item) {as bs : List α}
    (hab : Alike as bs) : Paired R Inside Inside (moreItems item as) (moreItems item bs) :=
  lookahead (by decide)
    (fun _ _ _ => bind h fun _ _ hx => pure (.again (.cons hx hab)))
    (pure (.stop (List.forall₂_reverse_iff.mpr hab)))

theorem listed_paired (h : Paired R Inside Inside item item) :
    Paired R Inside Inside (listed item) (listed item) := by
  refine lookahead (by decide) (fun _ _ _ => pure .nil) (bind h fun _ _ hx => ?_)
  refine bind (loop (fun _ _ has => moreItems_paired h has) (.cons hx .nil)) fun _ _ has => ?_
  exact bind (mark (by decide)) fun _ _ _ => pure has

theorem name_paired : Paired R Inside Inside name name :=
  bind current fun _ _ ht => pure (Name.alike_ofToken ht)

theorem boolean_paired : Paired R Inside Inside boolean boolean :=
  bind current fun t u ht => pure (by
    have hk := ((t.alike_iff u).mp ht).1
    simpa [Alike,Expr.alike,hk] using ht)

theorem integer_paired : Paired R Inside Inside integer integer where
  gone c hg := by
    simp only [integer,current_bind]
    cases Text.numeral? c.current.text with
    | some n => exact hg
    | none => exact hg
  step c d hc hg hk := by
    have hs := hc.current hg
    have ht := ((Token.alike_iff _ _).mp (R.alike hs)).2
    simp only [integer,current_bind,← ht]
    cases Text.numeral? c.current.text with
    | some n => exact .done (by simpa [Alike,Expr.alike] using R.alike hs) hc hk
    | none => exact .failed ⟨rfl,_,_,hs,rfl,rfl⟩ hc

variable (h : d.Lockstep R)
include h

theorem unary_paired : Paired R Inside Inside d.unary d.unary := by
  refine bind advance fun t u ht => bind (h.expr _) fun _ _ he => pure ?_
  simpa [Alike,Expr.alike,((t.alike_iff u).mp ht).2] using ⟨ht,he⟩

theorem group_paired : Paired R Inside Inside d.group d.group :=
  bind advance fun _ _ _ => bind (h.expr _) fun _ _ he =>
    bind (mark (by decide)) fun _ _ _ => pure he

theorem alternative_paired : Paired R Inside Inside d.alternative d.alternative := by
  refine lookahead (by decide) (fun _ _ _ => ?_) (pure .none)
  exact bind brace fun _ _ _ => bind h.block fun _ _ hb => pure (.some hb)

theorem conditional_paired : Paired R Inside Inside d.conditional d.conditional := by
  refine bind current fun _ _ ht => bind (mark (by decide)) fun _ _ _ => bind advance fun _ _ _ => ?_
  refine bind (h.expr _) fun _ _ he => bind (mark (by decide)) fun _ _ _ => bind brace fun _ _ _ => ?_
  refine bind h.block fun _ _ ha => bind (alternative_paired h) fun _ _ hb => pure ?_
  cases hb with
  | none => simpa [Alike,Expr.alike] using ⟨⟨ht,he⟩,ha⟩
  | some hb => simpa [Alike,Expr.alike] using ⟨⟨⟨ht,he⟩,ha⟩,hb⟩

omit h in
theorem parameter_paired : Paired R Inside Inside parameter parameter :=
  bind (mark (by decide)) fun _ _ ht => pure (Name.alike_ofToken ht)

theorem function_paired : Paired R Inside Inside d.function d.function := by
  refine bind current fun _ _ ht => bind (mark (by decide)) fun _ _ _ => ?_
  refine bind (listed_paired parameter_paired) fun _ _ hn => bind brace fun _ _ _ => ?_
  refine bind h.block fun _ _ hb => pure ?_
  simpa [Alike,Expr.alike] using ⟨⟨ht,isEqv_alike_iff.mpr hn⟩,hb⟩

theorem head_paired (r : HeadRule) : Paired R Inside Inside (d.head r) (d.head r) := by
  cases r with
  | name => exact name_paired
  | integer => exact integer_paired
  | boolean => exact boolean_paired
  | unary => exact unary_paired h
  | group => exact group_paired h
  | conditional => exact conditional_paired h
  | function => exact function_paired h

theorem argument_paired : Paired R Inside Inside d.argument d.argument :=
  bind advance fun _ _ _ => h.expr _

theorem tail_paired (r : TailRule) {e e' : Expr} (he : Alike e e') (p : Power) :
    Paired R Inside Inside (d.tail r e p) (d.tail r e' p) := by
  cases r with
  | binary =>
    refine bind advance fun t u ht => bind (h.expr _) fun _ _ hr => pure ?_
    simpa [Alike,Expr.alike,((t.alike_iff u).mp ht).2] using ⟨⟨ht,he⟩,hr⟩
  | call =>
    refine bind current fun _ _ ht => bind (listed_paired (argument_paired h)) fun _ _ ha => pure ?_
    simpa [Alike,Expr.alike] using ⟨⟨ht,he⟩,exprsAlike_iff.mpr ha⟩

theorem operated_paired (r : TailRule) {e e' : Expr} (he : Alike e e') (p : Power) :
    Paired R Inside Inside (d.tail r e p >>= fun e => Pure.pure (Round.again e : Round Expr Expr))
      (d.tail r e' p >>= fun e => Pure.pure (Round.again e)) :=
  bind (tail_paired h r he p) fun _ _ ha => pure (.again ha)

theorem operator_paired (p : Power) {e e' : Expr} (he : Alike e e') :
    Paired R Inside Inside (operator .standard d p e) (operator .standard d p e') where
  gone c hg := by
    simp only [operator,peek_bind]
    split
    · cases Grammar.standard.tail c.peek.kind with
      | none => exact hg
      | some rule =>
        exact (operated_paired h rule (refl e) _).gone c.advance (R.goneTail hg)
    · exact hg
  step c d' hc hg hi := by
    simp only [operator,peek_bind,← hc.peekKind hg hi]
    split
    · rename_i hp
      cases Grammar.standard.tail c.peek.kind with
      | none => exact .done (.stop he) hc hi
      | some rule =>
        exact (operated_paired h rule he _).resume (hc.advance hg hi) hp.1
    · exact .done (.stop he) hc hi

theorem firstOperand_paired :
    Paired R Anywhere Inside (firstOperand .standard d) (firstOperand .standard d) where
  gone c hg := by
    simp only [firstOperand,current_bind]
    cases Grammar.standard.head c.current.kind with
    | none => exact hg
    | some rule => exact (head_paired h rule).gone c hg
  step c d' hc hg _ := by
    simp only [firstOperand,current_bind,← hc.kind hg]
    cases hr : Grammar.standard.head c.current.kind with
    | none => exact .failed ⟨rfl,_,_,hc.current hg,rfl,rfl⟩ hc
    | some rule =>
      refine (head_paired h rule).resume hc ?_
      intro hk
      simp [hk,Grammar.standard] at hr

theorem expression_paired (p : Power) :
    Paired R Anywhere Inside (expression .standard d p) (expression .standard d p) :=
  bind (firstOperand_paired h) fun _ _ he => loop (fun _ _ he => operator_paired h p he) he

theorem expressionStatement_paired :
    Paired R Anywhere Anywhere d.expressionStatement d.expressionStatement := by
  refine bind current fun _ _ ht => bind (h.expr _) fun _ _ he => bind (skip _) fun _ _ _ => pure ?_
  simpa [Alike,Stmt.alike] using ⟨ht,he⟩

theorem bindingStatement_paired :
    Paired R Inside Anywhere d.bindingStatement d.bindingStatement := by
  refine bind current fun _ _ ht => bind (mark (by decide)) fun _ _ hn => ?_
  refine bind (mark (by decide)) fun _ _ _ => bind advance fun _ _ _ => ?_
  refine bind (h.expr _) fun _ _ he => bind (skip _) fun _ _ _ => pure ?_
  simpa [Alike,Stmt.alike] using ⟨⟨ht,Name.alike_ofToken hn⟩,he⟩

theorem resultStatement_paired :
    Paired R Inside Anywhere d.resultStatement d.resultStatement := by
  refine bind advance fun _ _ ht => bind current fun t u hn => ?_
  rw [((t.alike_iff u).mp hn).1]
  refine ite (pure (by simpa [Alike,Stmt.alike] using ht)) ?_
  refine bind (h.expr _) fun _ _ he => bind (skip _) fun _ _ _ => pure ?_
  simpa [Alike,Stmt.alike] using ⟨ht,he⟩

theorem statement_paired :
    Paired R Anywhere Anywhere (statement .standard d) (statement .standard d) where
  gone c hg := by
    simp only [statement,current_bind]
    cases hr : Grammar.standard.statement c.current.kind with
    | none => exact (expressionStatement_paired h).gone c hg
    | some rule =>
      cases rule with
      | any => trivial
      | binding => exact (bindingStatement_paired h).gone c hg
      | result => exact (resultStatement_paired h).gone c hg
      | expression => exact (expressionStatement_paired h).gone c hg
      | block => exact absurd hr (by cases c.current.kind <;> decide)
  step c d' hc hg _ := by
    simp only [statement,current_bind,← hc.kind hg]
    cases hr : Grammar.standard.statement c.current.kind with
    | none => exact (expressionStatement_paired h).resume hc trivial
    | some rule =>
      have hi : Inside c.current.kind := by
        intro hk
        simp [hk,Grammar.standard] at hr
      cases rule with
      | any => exact .gone trivial
      | binding => exact (bindingStatement_paired h).resume hc hi
      | result => exact (resultStatement_paired h).resume hc hi
      | expression => exact (expressionStatement_paired h).resume hc trivial
      | block => exact absurd hr (by cases c.current.kind <;> decide)

omit h in
theorem advance_paired (hR : R.Crosses) :
    Paired R Anywhere Anywhere Parse.advance Parse.advance where
  gone _ hg := R.goneTail hg
  step _ _ hc hg _ := .done (R.alike (hc.current hg))
    ⟨hR _ _ hc.near hg,hc.last,hc.last',hc.depth,hc.faults⟩ trivial

theorem moreStatements_paired (hR : R.Crosses) (stop : Kind → Bool) {ss ss' : List Stmt}
    (hs : Alike ss ss') : Paired R Anywhere Anywhere (moreStatements .standard d stop ss)
      (moreStatements .standard d stop ss') := by
  refine bind current fun t u ht => ?_
  rw [((t.alike_iff u).mp ht).1]
  refine ite (pure (.stop (List.forall₂_reverse_iff.mpr hs))) ?_
  refine bind (attempt (statement_paired h)) fun _ _ ho => ?_
  refine bind (advance_paired hR) fun _ _ _ => pure (.again ?_)
  cases ho with
  | none => exact hs
  | some ho => exact .cons ho hs

theorem body_paired : Paired R AtBrace Inside (body .standard d) (body .standard d) := by
  rcases R.blocks with hR | ⟨hgone,hbrace⟩
  · have hb : Paired R AtBrace Anywhere (body .standard d) (body .standard d) := by
      refine bind (advance_paired hR).inside fun t u ht => ?_
      refine bind (loop (fun _ _ hs => moreStatements_paired h hR _ hs) .nil) fun _ _ hs => pure ?_
      simpa [Alike,Block.alike] using ⟨ht,stmtsAlike_iff.mpr hs⟩
    refine hb.ensure fun c b c' hbody hk => ?_
    simp only [body,advance_bind,bind_eq_done] at hbody
    obtain ⟨ss,_,hss,he⟩ := hbody
    obtain ⟨-,rfl⟩ := Outcome.done.inj he
    have hstop := statements_stop hss
    simp [hk,endsBlock] at hstop
  · -- No block begins where readings are in step only inside of statements.
    refine ⟨fun c hg => absurd hg (hgone _),fun c c' hc _ hk => ?_⟩
    refine absurd ?_ (hbrace _ _ hc.near)
    rwa [← hc.last]

omit h in
theorem within_lockstep (n : Nat) : (within .standard n).Lockstep R := by
  induction n with
  | zero => exact ⟨fun _ => tooDeep,tooDeep⟩
  | succ n ih => exact ⟨fun p => nested (expression_paired ih p),nested (body_paired ih)⟩

end Descent
end Precedence
