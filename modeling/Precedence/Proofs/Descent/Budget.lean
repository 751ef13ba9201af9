import Precedence.Proofs.Descent.Repetition
import Precedence.Proofs.Tree.Count

/-! What reading costs: the tokens that a reading moves past pay for the statements in what it
gives and for the faults that it adds. Each round of a repetition over statements keeps a
statement or a fault, and pays for it with the token at which it starts. -/
namespace Precedence
open Parse Cursor

/-- The faults found, the value and the tokens behind the current one come to no more than
`funds`. A fault that is not kept yet is not among them. -/
def Outcome.Costs {α : Type} (worth : α → Nat) (funds : Nat) : Outcome α → Prop
  | .done a d => d.faults.size+worth a+d.rest.length ≤ funds
  | .failed _ d => d.faults.size+d.rest.length ≤ funds
  | .endless => True

/-- The value of an action is paid for by the tokens moved past and by the parts read before,
which are worth `credit`. -/
def Parse.Pays {α : Type} (credit : Nat) (worth : α → Nat) (p : Parse α) : Prop :=
  ∀ c : Cursor, (p c).Costs worth (c.faults.size+credit+c.rest.length)

def Round.worth {α β : Type} (going : α → Nat) (ended : β → Nat) : Round α β → Nat
  | .again a => going a
  | .stop b => ended b

@[simp] theorem Cursor.faults_advance (c : Cursor) : c.advance.faults = c.faults := rfl

@[simp] theorem Cursor.rest_record (c : Cursor) (f : Fault) : (c.record f).rest = c.rest := rfl

theorem Cursor.size_faults_record (c : Cursor) (f : Fault) :
    (c.record f).faults.size = c.faults.size+1 := Array.size_push f

theorem Cursor.rest_advance_le (c : Cursor) : c.advance.rest.length ≤ c.rest.length :=
  (List.tail_suffix c.rest).length_le

namespace Parse.Pays
variable {α β : Type} {k : Nat} {worth : α → Nat} {p : Parse α}

theorem pure {a : α} (h : worth a ≤ k) : Pays k worth (pure a) := by
  intro c
  simp only [pure_apply,Outcome.Costs]
  omega

/-- Parts read in a row: each is credit for the next. -/
theorem bind {ended : β → Nat} {q : α → Parse β} (hp : Pays k worth p)
    (hq : ∀ a, Pays (worth a) ended (q a)) : Pays k ended (p >>= q) := by
  intro c
  have h := hp c
  rw [bind_apply]
  cases hc : p c with
  | done a d =>
    rw [hc] at h
    have hd := hq a d
    simp only [Outcome.Costs] at h
    show (q a d).Costs ended _
    cases hqa : q a d with
    | done b e => rw [hqa] at hd; exact Nat.le_trans hd h
    | failed f e => rw [hqa] at hd; exact Nat.le_trans hd h
    | endless => trivial
  | failed f d => rw [hc] at h; exact h
  | endless => trivial

/-- Credit that an action does not touch stays for what follows. -/
theorem beside (j : Nat) (h : Pays 0 worth p) : Pays j (fun a => j+worth a) p := by
  intro c
  have hc := h c
  cases hp : p c with
  | done a d => rw [hp] at hc; simp only [Outcome.Costs] at hc ⊢; omega
  | failed f d => rw [hp] at hc; simp only [Outcome.Costs] at hc ⊢; omega
  | endless => trivial

theorem cheaper {less : α → Nat} (h : Pays k worth p) (hw : ∀ a, less a ≤ worth a) :
    Pays k less p := by
  intro c
  have hc := h c
  cases hp : p c with
  | done a d =>
    have ha := hw a
    rw [hp] at hc
    simp only [Outcome.Costs] at hc ⊢
    omega
  | failed f d => rw [hp] at hc; exact hc
  | endless => trivial

theorem current : Pays k (fun _ => k) Parse.current := fun _ => Nat.le_refl _

theorem peek : Pays k (fun _ => k) Parse.peek := fun _ => Nat.le_refl _

theorem peekIs (kind : Kind) : Pays k (fun _ => k) (Parse.peekIs kind) := fun _ => Nat.le_refl _

theorem advance : Pays k (fun _ => k) Parse.advance :=
  fun c => Nat.add_le_add_left c.rest_advance_le _

theorem expect (kind : Kind) : Pays k (fun _ => k) (Parse.expect kind) := by
  intro c
  unfold Parse.expect
  split
  · exact Nat.add_le_add_left c.rest_advance_le _
  · exact Nat.add_le_add_right (Nat.le_add_right _ _) _

theorem skip (kind : Kind) : Pays k (fun _ => k) (Parse.skip kind) := by
  intro c
  rw [skip_apply]
  simp only [Outcome.Costs]
  split
  · exact Nat.add_le_add_left c.rest_advance_le _
  · exact Nat.le_refl _

theorem fail (e : Cause) (place : Position) : Pays k worth (Parse.fail e place) :=
  fun _ => Nat.add_le_add_right (Nat.le_add_right _ _) _

theorem tooDeep : Pays k worth Parse.tooDeep :=
  fun _ => Nat.add_le_add_right (Nat.le_add_right _ _) _

theorem diverge : Pays k worth Parse.diverge := fun _ => trivial

theorem ite {t : Prop} [Decidable t] {q : Parse α} (hp : Pays k worth p) (hq : Pays k worth q) :
    Pays k worth (if t then p else q) := by
  split
  · exact hp
  · exact hq

theorem nested (h : Pays k worth p) : Pays k worth (Parse.nested p) := by
  intro c
  have hc := h c.deeper
  unfold Parse.nested
  cases hp : p c.deeper with
  | done a d => rw [hp] at hc; exact hc
  | failed f d => rw [hp] at hc; exact hc
  | endless => trivial

theorem loop (going : α → Nat) {ended : β → Nat} {round : α → Parse (Round α β)}
    (h : ∀ a, Pays (going a) (Round.worth going ended) (round a)) (a : α) :
    Pays (going a) ended (Parse.loop round a) := by
  intro c
  have hround := h a c
  fun_induction Parse.loop round a c with
  | case1 a c b d hd => rw [hd] at hround; exact hround
  | case2 a c b d hd _ ih =>
    rw [hd] at hround
    have hb := ih (h b d)
    cases hl : Parse.loop round b d with
    | done r e => rw [hl] at hb; exact Nat.le_trans hb hround
    | failed f e => rw [hl] at hb; exact Nat.le_trans hb hround
    | endless => trivial
  | case3 => trivial
  | case4 a c f d hd => rw [hd] at hround; exact hround
  | case5 => trivial

end Parse.Pays

structure Descent.Pays (d : Descent) : Prop where
  expr : ∀ p, Parse.Pays 0 Expr.statementCount (d.expr p)
  block : Parse.Pays 0 Block.statementCount d.block

namespace Descent
variable {α : Type} {g : Grammar} {d : Descent}
open Parse.Pays

theorem moreItems_pays {item : Parse α} {worth : α → Nat} (h : Parse.Pays 0 worth item)
    (xs : List α) :
    Parse.Pays (total worth xs) (Round.worth (total worth) (total worth)) (moreItems item xs) := by
  refine bind (peekIs _) fun b => ite ?_ (pure (by simp [Round.worth]))
  refine bind advance fun _ => bind (h.beside _) fun x => pure ?_
  simp [Round.worth,Nat.add_comm]

theorem listed_pays {item : Parse α} {worth : α → Nat} (h : Parse.Pays 0 worth item) :
    Parse.Pays 0 (total worth) (listed item) := by
  refine bind (peekIs _) fun b => ite (bind advance fun _ => pure (by simp)) ?_
  refine bind h fun x => bind (loop _ (moreItems_pays h) [x]) fun xs => ?_
  exact bind (expect _) fun _ => pure (Nat.le_refl _)

theorem alternative_pays (h : d.Pays) : Parse.Pays 0 alternativeCount d.alternative := by
  refine bind (peekIs _) fun b => ite ?_ (pure (Nat.le_refl _))
  exact bind advance fun _ => bind (expect _) fun _ => bind h.block fun _ => pure (Nat.le_refl _)

theorem conditional_pays (h : d.Pays) : Parse.Pays 0 Expr.statementCount d.conditional := by
  refine bind current fun _ => bind (expect _) fun _ => bind advance fun _ => ?_
  refine bind (h.expr _) fun e => bind (expect _) fun _ => bind (expect _) fun _ => ?_
  refine bind (h.block.beside _) fun a => bind ((alternative_pays h).beside _) fun b => pure ?_
  exact Nat.le_of_eq (Expr.statementCount_conditional _ e a b)

theorem parameter_pays : Parse.Pays 0 (fun _ => 0) parameter :=
  bind (expect _) fun _ => pure (Nat.le_refl _)

theorem function_pays (h : d.Pays) : Parse.Pays 0 Expr.statementCount d.function := by
  refine bind current fun _ => bind (expect _) fun _ => ?_
  refine bind ((listed_pays parameter_pays).cheaper fun _ => Nat.zero_le _) fun _ => ?_
  exact bind (expect _) fun _ => bind h.block fun _ => pure (Nat.le_refl _)

theorem integer_pays : Parse.Pays 0 Expr.statementCount integer := by
  refine bind current fun t => ?_
  split
  · exact pure (Nat.le_refl _)
  · exact fail _ _

theorem head_pays (h : d.Pays) (r : HeadRule) : Parse.Pays 0 Expr.statementCount (d.head r) := by
  cases r with
  | name => exact bind current fun _ => pure (Nat.le_refl _)
  | integer => exact integer_pays
  | boolean => exact bind current fun _ => pure (Nat.le_refl _)
  | unary => exact bind advance fun _ => bind (h.expr _) fun _ => pure (Nat.le_refl _)
  | group =>
    exact bind advance fun _ => bind (h.expr _) fun _ => bind (expect _) fun _ => pure (Nat.le_refl _)
  | conditional => exact conditional_pays h
  | function => exact function_pays h

theorem argument_pays (h : d.Pays) : Parse.Pays 0 Expr.statementCount d.argument :=
  bind advance fun _ => h.expr _

/-- The operand in front is credit for what it becomes a part of. -/
theorem tail_pays (h : d.Pays) (r : TailRule) (left : Expr) (p : Power) :
    Parse.Pays left.statementCount Expr.statementCount (d.tail r left p) := by
  cases r with
  | binary => exact bind advance fun _ => bind ((h.expr _).beside _) fun _ => pure (Nat.le_refl _)
  | call =>
    refine bind current fun _ => bind ((listed_pays (argument_pays h)).beside _) fun es => ?_
    refine pure (Nat.le_of_eq ?_)
    rw [Expr.statementCount,statementCountEach_eq]

theorem operators_pays (h : d.Pays) (p : Power) (left : Expr) :
    Parse.Pays left.statementCount Expr.statementCount (operators g d p left) := by
  refine loop Expr.statementCount (fun left => ?_) left
  refine bind peek fun t => ite ?_ (pure (Nat.le_refl _))
  split
  · exact pure (Nat.le_refl _)
  · exact bind advance fun _ => bind (tail_pays h _ _ _) fun _ => pure (Nat.le_refl _)

theorem expression_pays (h : d.Pays) (p : Power) :
    Parse.Pays 0 Expr.statementCount (expression g d p) := by
  refine bind (bind current fun t => ?_) fun left => operators_pays h p left
  split
  · exact fail _ _
  · exact head_pays h _

/-- The statements inside a statement are paid for, the statement itself is not yet. -/
theorem statement_pays (h : d.Pays) :
    Parse.Pays 0 (fun s => s.statementCount-1) (statement g d) := by
  have value (f : Expr → Stmt) (hf : ∀ e, (f e).statementCount = 1+e.statementCount) :
      Parse.Pays 0 (fun s => s.statementCount-1)
        (d.expr .lowest >>= fun e => Parse.skip .semicolon >>= fun _ => Pure.pure (f e)) :=
    bind (h.expr _) fun e => bind (skip _) fun _ => pure (by simp [hf])
  have expression : Parse.Pays 0 (fun s => s.statementCount-1) d.expressionStatement :=
    bind current fun _ => value _ fun _ => rfl
  refine bind current fun t => ?_
  split
  · exact expression
  · rename_i rule _
    cases rule with
    | any => exact diverge
    | binding =>
      refine bind current fun _ => bind (expect _) fun _ => bind (expect _) fun _ => ?_
      exact bind advance fun _ => value _ fun _ => rfl
    | result =>
      refine bind advance fun _ => bind current fun _ => ite (pure (Nat.le_refl _)) ?_
      exact value _ fun _ => rfl
    | expression => exact expression
    | block => exact bind h.block fun b => pure (by simp [Stmt.statementCount])

/-- Whether a round keeps a statement or a fault, the token at which it starts pays for that. -/
theorem moreStatements_costs (h : d.Pays) {stop : Kind → Bool} {read : List Stmt} {c e : Cursor}
    {ss : List Stmt} (hr : moreStatements g d stop read c = .done (.again ss) e) (hl : 0 < c.left) :
    e.faults.size+statementCountAll ss+e.left ≤
      c.faults.size+statementCountAll read+c.left := by
  have hrest : c.rest.length+1 = c.left := by
    rw [c.left_eq] at hl ⊢
    simp only [rest,List.length_tail]
    omega
  obtain ⟨-,o,e',ho,rfl,rfl⟩ := moreStatements_again hr
  have hc := statement_pays (g := g) h c
  have he : e'.advance.left = e'.rest.length := e'.advance.left_eq
  rw [he,faults_advance]
  rcases attempt_eq_done.mp ho with ⟨s,hs,rfl⟩ | ⟨f,e'',hf,rfl,rfl⟩
  · rw [hs] at hc
    simp only [Outcome.Costs] at hc
    simp only [Option.toList_some,List.singleton_append,statementCountAll]
    omega
  · rw [hf] at hc
    simp only [Outcome.Costs] at hc
    simp only [Option.toList_none,List.nil_append,rest_record,size_faults_record]
    omega

theorem statements_costs (h : d.Pays) {stop : Kind → Bool} {read : List Stmt} {c e : Cursor}
    {ss : List Stmt} (hr : loop (moreStatements g d stop) read c = .done ss e) :
    e.faults.size+statementCountAll ss+e.left ≤
      c.faults.size+statementCountAll read+c.left := by
  fun_induction loop (moreStatements g d stop) read c with
  | case1 read c b e' he =>
    obtain ⟨rfl,rfl⟩ := Outcome.done.inj hr
    obtain ⟨-,rfl,rfl⟩ := moreStatements_stop he
    simp [statementCountAll_eq]
  | case2 read c b e' he hl ih =>
    exact Nat.le_trans (ih hr) (moreStatements_costs h he (Nat.zero_lt_of_lt hl))
  | case3 => simp at hr
  | case4 => simp at hr
  | case5 => simp at hr

theorem body_pays (h : d.Pays) : Parse.Pays 0 Block.statementCount (body g d) := by
  intro c
  have hne : ∀ f e, statements g d endsBlock c.advance ≠ .failed f e :=
    loop_moreStatements_ne_failed [] c.advance
  rw [body,advance_bind,bind_apply]
  cases hs : statements g d endsBlock c.advance with
  | done ss e =>
    have hc := statements_costs h hs
    have hleft : c.advance.left = c.rest.length := c.advance.left_eq
    have hrest : e.rest.length ≤ e.left := by
      rw [e.left_eq]
      exact (List.tail_suffix _).length_le
    simp only [Outcome.Costs,pure_apply,Block.statementCount]
    simp only [statementCountAll] at hc
    rw [faults_advance] at hc
    omega
  | failed f e => exact absurd hs (hne f e)
  | endless => trivial

theorem within_pays (g : Grammar) (n : Nat) : (within g n).Pays := by
  induction n with
  | zero => exact ⟨fun _ => tooDeep,tooDeep⟩
  | succ n ih => exact ⟨fun p => nested (expression_pays ih p),nested (body_pays ih)⟩

end Descent
end Precedence
