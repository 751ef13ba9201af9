import Precedence.Proofs.Containment

/-! Reading with a looser bound goes on where reading with a tighter one ends: it reads the same first
operand and takes the same operators, and then takes those that only the looser bound lets in. -/
namespace Precedence
open Parse Descent

/-- A repetition can be done in two goes: first with rounds that are its own but for some that stop
where they start, and then with its own. -/
theorem Parse.loop_split {α : Type} {round round' : α → Parse (Round α α)}
    (hstop : ∀ a c b d, round a c = .done (.stop b) d → b = a ∧ d = c)
    (hround : ∀ a c, round' a c = round a c ∨ round a c = .done (.stop a) c) (a : α) :
    loop round' a = loop round a >>= loop round' := by
  funext c
  rw [bind_apply]
  fun_induction loop round a c with
  | case1 a c b d hd =>
    obtain ⟨rfl,rfl⟩ := hstop _ _ _ _ hd
    rfl
  | case2 a c b d hd hl ih =>
    have hr := ((hround a c).resolve_right (by simp [hd])).trans hd
    rw [loop_again hr hl]
    exact ih
  | case3 a c b d hd hl =>
    have hr := ((hround a c).resolve_right (by simp [hd])).trans hd
    rw [loop,hr]
    exact if_neg hl
  | case4 a c f d hd =>
    have hr := ((hround a c).resolve_right (by simp [hd])).trans hd
    exact loop_failed hr
  | case5 a c hd =>
    have hr := ((hround a c).resolve_right (by simp [hd])).trans hd
    rw [loop,hr]

/-- The second expression begins with the first one: it is that expression, or its left operand or its
callee begins with it in turn. -/
inductive Expr.Leads (e : Expr) : Expr → Prop where
  | refl : e.Leads e
  | binary {t : Token} {left right : Expr} {operator : String} (h : e.Leads left) :
      e.Leads (.binary t left operator right)
  | call {t : Token} {callee : Expr} {arguments : List Expr} (h : e.Leads callee) :
      e.Leads (.call t callee arguments)

theorem Expr.Leads.trans {e₁ e₂ e₃ : Expr} (h : e₁.Leads e₂) (k : e₂.Leads e₃) : e₁.Leads e₃ := by
  induction k with
  | refl => exact h
  | binary _ ih => exact .binary ih
  | call _ ih => exact .call ih

namespace Descent
variable {g : Grammar} {d : Descent} {p q power : Power} {left e : Expr} {c c' : Cursor}

theorem operator_stop (h : operator g d power left c = .done (.stop e) c') : e = left ∧ c' = c := by
  simp only [operator,peek_bind] at h
  split at h
  · cases hr : g.tail c.peek.kind with
    | none =>
      rw [hr] at h
      obtain ⟨he,rfl⟩ := Outcome.done.inj h
      exact ⟨(Round.stop.inj he).symm,rfl⟩
    | some rule => simp [hr,bind_eq_done] at h
  · obtain ⟨he,rfl⟩ := Outcome.done.inj h
    exact ⟨(Round.stop.inj he).symm,rfl⟩

theorem operator_looser (h : p.rank ≤ q.rank) (left : Expr) (c : Cursor) :
    operator g d p left c = operator g d q left c ∨
      operator g d q left c = .done (.stop left) c := by
  by_cases hk : c.peek.kind ≠ .semicolon ∧ q < g.power c.peek.kind
  · have hp : p < g.power c.peek.kind := Nat.lt_of_le_of_lt h hk.2
    left
    simp only [operator,peek_bind,if_pos hk,if_pos (And.intro hk.1 hp)]
  · right
    simp only [operator,peek_bind,if_neg hk,pure_apply]

theorem tail_leads {rule : TailRule} (h : d.tail rule left power c = .done e c') :
    left.Leads e := by
  cases rule with
  | binary =>
    simp only [tail,binary,advance_bind,bind_eq_done] at h
    obtain ⟨right,_,-,h⟩ := h
    obtain ⟨rfl,-⟩ := Outcome.done.inj h
    exact .binary .refl
  | call =>
    simp only [tail,call,current_bind,bind_eq_done] at h
    obtain ⟨arguments,_,-,h⟩ := h
    obtain ⟨rfl,-⟩ := Outcome.done.inj h
    exact .call .refl

theorem operator_leads (h : operator g d power left c = .done (.again e) c') : left.Leads e := by
  simp only [operator,peek_bind] at h
  split at h
  · cases hr : g.tail c.peek.kind with
    | none => simp [hr] at h
    | some rule =>
      simp only [hr,advance_bind,bind_eq_done] at h
      obtain ⟨next,_,hnext,h⟩ := h
      obtain ⟨he,-⟩ := Outcome.done.inj h
      exact Round.again.inj he ▸ tail_leads hnext
  · simp at h

theorem operators_leads (h : operators g d power left c = .done e c') : left.Leads e := by
  refine loop_done_induction (P := fun left _ => left.Leads e) ?_ ?_ left c h
  · intro left c hr
    obtain ⟨rfl,-⟩ := operator_stop hr
    exact .refl
  · intro left c next c₁ hr _ ih
    exact (operator_leads hr).trans ih

theorem operators_bound (hg : g.Tailed) (h : operators g d power left c = .done e c') :
    c'.peek.kind = .semicolon ∨ (g.power c'.peek.kind).rank ≤ power.rank := by
  refine loop_done_induction (P := fun _ _ =>
    c'.peek.kind = .semicolon ∨ (g.power c'.peek.kind).rank ≤ power.rank) ?_ ?_ left c h
  · intro left c hr
    obtain ⟨-,rfl⟩ := operator_stop hr
    by_contra hn
    obtain ⟨hs,hp⟩ := not_or.mp hn
    obtain ⟨rule,-,ho⟩ := hg.operator d left hs (Nat.not_le.mp hp)
    rw [ho] at hr
    simp [bind_eq_done] at hr
  · intro _ _ _ _ _ _ ih
    exact ih

/-- A looser bound lets in more operators behind those that a tighter one lets in. -/
theorem operators_split (h : p.rank ≤ q.rank) (left : Expr) :
    operators g d p left = operators g d q left >>= operators g d p :=
  loop_split (fun _ _ _ _ => operator_stop) (operator_looser h) left

theorem expression_split (h : p.rank ≤ q.rank) :
    expression g d p = expression g d q >>= operators g d p := by
  rw [expression,expression,bind_assoc]
  exact congrArg _ (funext (operators_split h))

end Descent

inductive Registration where
  | head (kind : Kind) (rule : HeadRule)
  | tail (kind : Kind) (power : Power) (rule : TailRule)
  | statement (kind : Kind) (rule : StatementRule)

namespace Grammar
variable {g : Grammar} {p q : Power} {e : Expr} {c d : Cursor}

/-- The grammar without rules. -/
def empty : Grammar := ⟨fun _ => none,fun _ => none,fun _ => .lowest,fun _ => none⟩

def register (g : Grammar) : Registration → Grammar
  | .head kind rule => g.withHead kind rule
  | .tail kind power rule => g.withTail kind power rule
  | .statement kind rule => g.withStatement kind rule

/-- All rules of the grammar have been registered, of which later ones take the place of earlier ones. -/
def Registered (g : Grammar) : Prop := ∃ rules : List Registration, rules.foldl register empty = g

theorem Registered.register (h : g.Registered) (r : Registration) : (g.register r).Registered := by
  obtain ⟨rules,rfl⟩ := h
  exact ⟨rules ++ [r],by rw [List.foldl_append]; rfl⟩

theorem Registered.tailed (h : g.Registered) : g.Tailed := by
  obtain ⟨rules,rfl⟩ := h
  have hempty : empty.Tailed := fun _ hk => absurd rfl hk
  generalize empty = g at hempty
  induction rules generalizing g with
  | nil => exact hempty
  | cons r rules ih =>
    refine ih (g.register r) ?_
    cases r with
    | head | statement => exact hempty
    | tail kind power rule => exact hempty.withTail kind power rule

theorem standard_registered : standard.Registered := by
  refine ⟨[.head .identifier .name,.head .integer .integer,.head .trueWord .boolean,
    .head .falseWord .boolean,.head .bang .unary,.head .minus .unary,.head .openParen .group,
    .head .ifWord .conditional,.head .fnWord .function,.tail .equal .equality .binary,
    .tail .notEqual .equality .binary,.tail .less .comparison .binary,
    .tail .greater .comparison .binary,.tail .plus .sum .binary,.tail .minus .sum .binary,
    .tail .star .product .binary,.tail .slash .product .binary,.tail .openParen .call .call,
    .statement .letWord .binding,.statement .returnWord .result],?_⟩
  rw [standard,mk.injEq]
  refine ⟨?_,?_,?_,?_⟩ <;> (funext k; cases k <;> rfl)

/-- The level that an expression took is open again while more operators are taken behind it. -/
theorem expr_split (h : p.rank ≤ q.rank) :
    g.expr p = g.expr q >>= fun e => nested (operators g g.descent p e) := by
  funext c
  rw [bind_apply,expr_eq_counted,expr_eq_counted,counted,counted]
  split
  · have hrestores : Restores Expr (expression g g.descent q) := (Restores.inherited g).expression
      (fun power => here_restores fun _ he _ => he power) (here_restores fun _ _ hb => hb) q
    have hf := hrestores c.deeper
    rw [nested,nested,expression_split h,bind_apply]
    cases he : expression g g.descent q c.deeper with
    | done e c₁ =>
      rw [he] at hf
      have hopen : c₁.leave.deeper = c₁ := Cursor.deeper_leave (hf.depth ▸ Nat.succ_ne_zero c.depth)
      simp only [nested,hopen]
    | failed f c₁ => rfl
    | endless => rfl
  · rfl

theorem expr_bound (hg : g.Tailed) (h : g.expr q c = .done e d) :
    d.peek.kind = .semicolon ∨ (g.power d.peek.kind).rank ≤ q.rank := by
  rw [expr_eq_counted,counted] at h
  split at h
  · obtain ⟨c₁,he,rfl⟩ := nested_eq_done.mp h
    obtain ⟨left,c₂,-,ho⟩ := bind_eq_done.mp he
    have hbound := operators_bound hg ho
    exact hbound
  · simp [tooDeep] at h

end Grammar

/-- An expression that is read with a bound, in a parser with any registered rules and wherever it
stands, compared with the same reading with a looser bound or the same. Where the first fails, so does
the second, with the same fault at the same place. Where the first gives an expression, a semicolon
comes next or something that binds no tighter than the bound, and the second does what taking more
operators by the looser bound does, from there on and behind that expression, with its level open. So
whatever the second gives begins with what the first gave. -/
theorem looser_bound_resumes (g : Grammar) (hg : g.Registered) (p q : Power) (hpq : p.rank ≤ q.rank)
    (c : Cursor) :
    (∀ f d, g.expr q c = .failed f d → g.expr p c = .failed f d) ∧
    ∀ l d, g.expr q c = .done l d →
      (d.peek.kind = .semicolon ∨ (g.power d.peek.kind).rank ≤ q.rank) ∧
      g.expr p c = nested (operators g g.descent p l) d ∧
      ∀ e d', g.expr p c = .done e d' → l.Leads e := by
  rw [Grammar.expr_split hpq]
  refine ⟨fun f d h => bind_of_failed h,fun l d h => ?_⟩
  have hresumed := bind_of_done (q := fun e => nested (operators g g.descent p e)) h
  refine ⟨Grammar.expr_bound hg.tailed h,hresumed,fun e d' he => ?_⟩
  obtain ⟨_,ho,-⟩ := nested_eq_done.mp (hresumed.symm.trans he)
  exact operators_leads ho

/-- With a comma as an operator that binds as sums do: a product in front of one, and what the whole
line is read as. And a product for whose second operand no level is free. -/
theorem looser_bound_resumes_comma :
    ∃ (g : Grammar) (c c' : Cursor), g.Registered ∧
      (∃ l d e d', g.expr .sum c = .done l d ∧ d.peek.kind = .comma ∧
        g.expr .lowest c = .done e d' ∧ d'.peek.kind = .semicolon ∧
        nested (operators g g.descent .lowest l) d = .done e d' ∧ l.Leads e) ∧
      ∃ d, g.expr .sum c' = .failed ⟨.tooDeep 128,⟨4,"f"⟩⟩ d ∧
        g.expr .lowest c' = .failed ⟨.tooDeep 128,⟨4,"f"⟩⟩ d := by
  let g := Grammar.standard.withTail .comma .sum .binary
  let c : Cursor := .ofScanner (.ofSource ⟨"a * b, c(d, e) < 1;","f"⟩)
  let c' : Cursor := { c with depth := 127 }
  have hg : g.Registered := Grammar.standard_registered.register (.tail .comma .sum .binary)
  have hproduct : (g.expr .sum c).result?.any (fun r => r.2.peek.kind == .comma) = true := by
    decide +kernel
  have hline : (g.expr .lowest c).result?.any (fun r => r.2.peek.kind == .semicolon) = true := by
    decide +kernel
  have hfault : (match g.expr .sum c' with
    | .failed f _ => decide (f = ⟨.tooDeep 128,⟨4,"f"⟩⟩)
    | _ => false) = true := by decide +kernel
  obtain ⟨l,d,hl,hd⟩ := Outcome.done_of_result? hproduct
  obtain ⟨e,d',he,hd'⟩ := Outcome.done_of_result? hline
  obtain ⟨-,hdone⟩ := looser_bound_resumes g hg .lowest .sum (by decide) c
  obtain ⟨-,hresumed,hleads⟩ := hdone l d hl
  obtain ⟨hfailed,-⟩ := looser_bound_resumes g hg .lowest .sum (by decide) c'
  refine ⟨g,c,c',hg,⟨l,d,e,d',hl,eq_of_beq hd,he,eq_of_beq hd',hresumed.symm.trans he,
    hleads e d' he⟩,?_⟩
  cases hc : g.expr .sum c' with
  | failed f d₁ =>
    rw [hc] at hfault
    obtain rfl := of_decide_eq_true hfault
    exact ⟨d₁,rfl,hfailed _ d₁ hc⟩
  | done _ _ | endless => simp [hc] at hfault

end Precedence
