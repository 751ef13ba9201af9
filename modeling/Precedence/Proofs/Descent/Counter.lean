import Precedence.Proofs.Descent.Restoring

/-! The levels that a descent has to spend are those that the cursor counts as free. So the counter
alone decides: an expression or a block is refused where it stands at the limit, and is otherwise
read one level deeper, with all that nests inside counted on from there. -/
namespace Precedence
open Parse

/-- Opens one level by the cursor's counter, runs an action there and closes the level again. -/
def Parse.counted {α : Type} (p : Parse α) : Parse α := fun c =>
  if c.depth < nestingLimit then nested p c else tooDeep c

/-- The descent that asks the cursor how many levels are free. -/
def Grammar.descent (g : Grammar) : Descent := ⟨g.expr,g.block⟩

/-- Actions that do the same wherever `k` levels are open, which is where the first one ends too. -/
structure Parse.AgreesAt {α : Type} (k : Nat) (p q : Parse α) : Prop where
  restores : Restores α p
  eq : ∀ c, c.depth = k → p c = q c

structure Descent.AgreesAt (k : Nat) (d d' : Descent) : Prop where
  expr (power : Power) : Parse.AgreesAt k (d.expr power) (d'.expr power)
  block : Parse.AgreesAt k d.block d'.block

namespace Parse.AgreesAt
variable {α β : Type} {k : Nat} {p p' : Parse α}

theorem refl (h : Restores α p) : AgreesAt k p p := ⟨h,fun _ _ => rfl⟩

theorem pure (a : α) : AgreesAt k (pure a) (pure a) := refl fun c => .refl c

theorem current : AgreesAt k Parse.current Parse.current := refl fun c => .refl c

theorem peek : AgreesAt k Parse.peek Parse.peek := refl fun c => .refl c

theorem peekIs (kind : Kind) : AgreesAt k (Parse.peekIs kind) (Parse.peekIs kind) :=
  refl fun c => .refl c

theorem advance : AgreesAt k Parse.advance Parse.advance := refl fun c => .advance c

theorem expect (kind : Kind) : AgreesAt k (Parse.expect kind) (Parse.expect kind) :=
  refl (Restores.expect kind)

theorem skip (kind : Kind) : AgreesAt k (Parse.skip kind) (Parse.skip kind) :=
  refl (Restores.skip kind)

theorem ite {t : Prop} [Decidable t] {q q' : Parse α} (hp : AgreesAt k p p')
    (hq : AgreesAt k q q') : AgreesAt k (if t then p else q) (if t then p' else q') := by
  split
  · exact hp
  · exact hq

theorem bind {q q' : α → Parse β} (hp : AgreesAt k p p') (hq : ∀ a, AgreesAt k (q a) (q' a)) :
    AgreesAt k (p >>= q) (p' >>= q') where
  restores := Restores.bind hp.restores fun a => (hq a).restores
  eq c hc := by
    have h := hp.restores c
    rw [bind_apply,bind_apply,← hp.eq c hc]
    cases hpc : p c with
    | done a e =>
      rw [hpc] at h
      exact (hq a).eq e (h.depth.trans hc)
    | failed f e => rfl
    | endless => rfl

theorem attempt (h : AgreesAt k p p') : AgreesAt k (Parse.attempt p) (Parse.attempt p') where
  restores := Restores.attempt h.restores
  eq c hc := by rw [Parse.attempt,Parse.attempt,h.eq c hc]

theorem loop {round round' : α → Parse (Round α β)} (h : ∀ a, AgreesAt k (round a) (round' a))
    (a : α) : AgreesAt k (Parse.loop round a) (Parse.loop round' a) where
  restores := Restores.loop (fun a => (h a).restores) a
  eq c hc := by
    have hround := (h a).restores c
    have heq := (h a).eq c hc
    fun_induction Parse.loop round a c with
    | case1 a c b e he =>
      rw [he] at heq
      exact (loop_stop heq.symm).symm
    | case2 a c b e he hl ih =>
      rw [he] at heq hround
      have hk := hround.depth.trans hc
      rw [loop_again heq.symm hl]
      exact ih hk ((h b).restores e) ((h b).eq e hk)
    | case3 a c b e he hl =>
      rw [Parse.loop,← heq,he]
      simp [hl]
    | case4 a c f e he =>
      rw [he] at heq
      exact (loop_failed heq.symm).symm
    | case5 a c he => rw [Parse.loop,← heq,he]

end Parse.AgreesAt

namespace Descent
variable {α : Type} {g : Grammar} {k : Nat} {d d' : Descent}
open Parse.AgreesAt

theorem listed_agrees {item item' : Parse α} (h : Parse.AgreesAt k item item') :
    Parse.AgreesAt k (listed item) (listed item') := by
  refine bind (peekIs _) fun _ => ite (bind advance fun _ => pure _) (bind h fun _ => ?_)
  refine bind (loop (fun xs => ?_) _) fun _ => bind (expect _) fun _ => pure _
  refine bind (peekIs _) fun _ => ite ?_ (pure _)
  exact bind advance fun _ => bind h fun _ => pure _

section Rules
variable (h : d.AgreesAt k d')
include h

theorem alternative_agrees : Parse.AgreesAt k d.alternative d'.alternative := by
  refine bind (peekIs _) fun _ => ite ?_ (pure _)
  exact bind advance fun _ => bind (expect _) fun _ => bind h.block fun _ => pure _

theorem conditional_agrees : Parse.AgreesAt k d.conditional d'.conditional := by
  refine bind current fun _ => bind (expect _) fun _ => bind advance fun _ => ?_
  refine bind (h.expr _) fun _ => bind (expect _) fun _ => bind (expect _) fun _ => ?_
  exact bind h.block fun _ => bind (alternative_agrees h) fun _ => pure _

theorem function_agrees : Parse.AgreesAt k d.function d'.function := by
  refine bind current fun _ => bind (expect _) fun _ => bind (listed_agrees ?_) fun _ => ?_
  · exact bind (expect _) fun _ => pure _
  · exact bind (expect _) fun _ => bind h.block fun _ => pure _

theorem head_agrees (rule : HeadRule) : Parse.AgreesAt k (d.head rule) (d'.head rule) := by
  cases rule with
  | name | boolean => exact bind current fun _ => pure _
  | integer => exact refl Parse.Restores.integer
  | unary => exact bind advance fun _ => bind (h.expr _) fun _ => pure _
  | group => exact bind advance fun _ => bind (h.expr _) fun _ => bind (expect _) fun _ => pure _
  | conditional => exact conditional_agrees h
  | function => exact function_agrees h

theorem tail_agrees (rule : TailRule) (left : Expr) (power : Power) :
    Parse.AgreesAt k (d.tail rule left power) (d'.tail rule left power) := by
  cases rule with
  | binary => exact bind advance fun _ => bind (h.expr _) fun _ => pure _
  | call =>
    refine bind current fun _ => bind (listed_agrees ?_) fun _ => pure _
    exact bind advance fun _ => h.expr _

theorem expression_agrees (power : Power) :
    Parse.AgreesAt k (expression g d power) (expression g d' power) := by
  refine bind (bind current fun t => ?_) fun left => loop (fun left => bind peek fun t => ?_) left
  · split
    · exact refl fun c => .refl c
    · exact head_agrees h _
  · refine ite ?_ (pure _)
    split
    · exact pure _
    · exact bind advance fun _ => bind (tail_agrees h _ _ _) fun _ => pure _

theorem statement_agrees : Parse.AgreesAt k (statement g d) (statement g d') := by
  have hvalue : Parse.AgreesAt k d.expressionStatement d'.expressionStatement :=
    bind current fun _ => bind (h.expr _) fun _ => bind (skip _) fun _ => pure _
  refine bind current fun t => ?_
  split
  · exact hvalue
  · rename_i rule _
    cases rule with
    | any => exact refl fun _ => trivial
    | binding =>
      refine bind current fun _ => bind (expect _) fun _ => bind (expect _) fun _ => ?_
      exact bind advance fun _ => bind (h.expr _) fun _ => bind (skip _) fun _ => pure _
    | result =>
      refine bind advance fun _ => bind current fun _ => ite (pure _) ?_
      exact bind (h.expr _) fun _ => bind (skip _) fun _ => pure _
    | expression => exact hvalue
    | block => exact bind h.block fun _ => pure _

theorem statements_agrees (stop : Kind → Bool) :
    Parse.AgreesAt k (statements g d stop) (statements g d' stop) := by
  refine loop (fun read => bind current fun _ => ite (pure _) ?_) _
  exact bind (attempt (statement_agrees h)) fun _ => bind advance fun _ => pure _

theorem body_agrees : Parse.AgreesAt k (body g d) (body g d') :=
  bind advance fun _ => bind (statements_agrees h _) fun _ => pure _

end Rules

/-- The levels that are free where `k` are open are those that the cursor counts there. -/
theorem within_agrees (g : Grammar) (k : Nat) :
    (within g (nestingLimit-k)).AgreesAt k g.descent where
  expr power := by
    refine ⟨((Parse.Restores.inherited g).within _).1 power,fun c hc => ?_⟩
    rw [← hc]
    rfl
  block := by
    refine ⟨((Parse.Restores.inherited g).within _).2,fun c hc => ?_⟩
    rw [← hc]
    rfl

end Descent

namespace Grammar
variable {α : Type} (g : Grammar)

theorem here_eq {action : Descent → Parse α}
    (h : ∀ k d d', Descent.AgreesAt k d d' → (action d).AgreesAt k (action d')) :
    g.here action = action g.descent := by
  funext c
  exact (h _ _ _ (Descent.within_agrees g c.depth)).eq c rfl

theorem here_nested {action : Descent → Parse α} {part : Descent → Parse α}
    (hnone : action (.within g 0) = tooDeep)
    (hsome : ∀ n, action (.within g (n+1)) = nested (part (.within g n)))
    (h : ∀ k d d', Descent.AgreesAt k d d' → (part d).AgreesAt k (part d')) :
    g.here action = counted (part g.descent) := by
  funext c
  rw [here,counted]
  split
  · rename_i hlevel
    obtain ⟨n,hn⟩ : ∃ n, nestingLimit-c.depth = n+1 := ⟨nestingLimit-c.depth-1,by omega⟩
    have hfree : nestingLimit-c.deeper.depth = n := by
      change nestingLimit-(c.depth+1) = n
      omega
    have ha := Descent.within_agrees g c.deeper.depth
    rw [hfree] at ha
    rw [hn,hsome,nested,nested,(h _ _ _ ha).eq c.deeper rfl]
  · rename_i hlevel
    rw [Nat.sub_eq_zero_of_le (Nat.not_lt.mp hlevel),hnone]

/-- An expression takes a level by the counter, and what nests in it does so in turn. -/
theorem expr_eq_counted (power : Power) :
    g.expr power = counted (Descent.expression g g.descent power) :=
  g.here_nested rfl (fun _ => rfl) fun _ _ _ h => Descent.expression_agrees h power

theorem block_eq_counted : g.block = counted (Descent.body g g.descent) :=
  g.here_nested rfl (fun _ => rfl) fun _ _ _ h => Descent.body_agrees h

theorem stmt_eq : g.stmt = Descent.statement g g.descent :=
  g.here_eq fun _ _ _ h => Descent.statement_agrees h

end Grammar
end Precedence
