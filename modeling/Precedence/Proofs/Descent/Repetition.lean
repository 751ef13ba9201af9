import Precedence.Proofs.Descent.Place

/-! Repetitions as runs: what a repetition gives is put together from the rounds it goes through,
and a list in parentheses from its items. -/
namespace Precedence
open Parse

namespace Parse
variable {α β : Type} {round : α → Parse (Round α β)} {r : β} {d : Cursor}

/-- What holds where a repetition ends, and before a round if after it, holds at the start. -/
theorem loop_done_induction {P : α → Cursor → Prop}
    (stop : ∀ a c, round a c = .done (.stop r) d → P a c)
    (again : ∀ a c b e, round a c = .done (.again b) e → loop round b e = .done r d →
      P b e → P a c) (a : α) (c : Cursor) (h : loop round a c = .done r d) : P a c := by
  fun_induction loop round a c with
  | case1 a c b e he =>
    obtain ⟨rfl,rfl⟩ := Outcome.done.inj h
    exact stop a c he
  | case2 a c b e he _ ih => exact again a c b e he h (ih h)
  | case3 => simp at h
  | case4 => simp at h
  | case5 => simp at h

end Parse

namespace Descent
variable {α : Type} {item : Parse α}

/-- Items that a reading finds one after the other, with commas in between. -/
inductive Items (item : Parse α) : List α → Cursor → Cursor → Prop where
  | last {a : α} {c c' : Cursor} (h : item c = .done a c') : Items item [a] c c'
  | more {a : α} {as : List α} {c c₁ c' : Cursor} (h : item c = .done a c₁)
      (hk : c₁.peek.kind = .comma) (more : Items item as c₁.advance c') : Items item (a :: as) c c'

theorem Items.follows {g : Grammar} (hi : Parse.Steady g item) {as : List α} {c c' : Cursor}
    (h : Items item as c c') (hl : c.last.kind = .endOfInput) : c'.Follows c := by
  induction h with
  | last h => exact hi.done hl h
  | @more a as c c₁ c' h hk _ ih =>
    have h₁ := hi.done hl h
    have hl₁ := (congrArg Token.kind h₁.last).trans hl
    exact (ih hl₁).trans ((Cursor.Follows.advance c₁).trans h₁)

/-- The items behind the last one held are those that the repetition adds. -/
theorem items_of_loop {ys xs : List α} {e c' : Cursor}
    (h : loop (moreItems item) ys e = .done xs c') :
    ∀ y zs c, ys = y :: zs → item c = .done y e → ∃ ws, xs = zs.reverse ++ ws ∧ Items item ws c c' := by
  refine loop_done_induction (P := fun ys e => ∀ y zs c, ys = y :: zs → item c = .done y e →
    ∃ ws, xs = zs.reverse ++ ws ∧ Items item ws c c') ?_ ?_ ys e h
  · rintro _ e hr y zs c rfl hc
    simp only [moreItems,peekIs_bind] at hr
    split at hr
    · simp [bind_eq_done] at hr
    · obtain ⟨hx,rfl⟩ := Outcome.done.inj hr
      obtain rfl := Round.stop.inj hx
      exact ⟨[y],by simp,.last hc⟩
  · rintro _ e ws e' hr - ih y zs c rfl hc
    simp only [moreItems,peekIs_bind] at hr
    split at hr
    · rename_i hk
      simp only [advance_bind,bind_eq_done] at hr
      obtain ⟨w,e₁,hw,hr⟩ := hr
      obtain ⟨hx,rfl⟩ := Outcome.done.inj hr
      obtain rfl := Round.again.inj hx
      obtain ⟨vs,rfl,hv⟩ := ih w (y :: zs) _ rfl hw
      exact ⟨y :: vs,by simp,.more hc (eq_of_beq hk) hv⟩
    · simp at hr

theorem items_of_listed {as : List α} {c c' : Cursor} (h : listed item c = .done as c') :
    (as = [] ∧ c.peek.kind = .closeParen ∧ c' = c.advance) ∨
      ∃ c₁, Items item as c c₁ ∧ c₁.peek.kind = .closeParen ∧ c' = c₁.advance := by
  simp only [listed,peekIs_bind] at h
  split at h
  · rename_i hk
    obtain ⟨rfl,rfl⟩ := Outcome.done.inj h
    exact .inl ⟨rfl,eq_of_beq hk,rfl⟩
  · simp only [bind_eq_done,expect_eq_done] at h
    obtain ⟨a,c₁,ha,xs,c₂,hl,_,_,⟨hk,rfl,rfl⟩,h⟩ := h
    obtain ⟨rfl,rfl⟩ := Outcome.done.inj h
    obtain ⟨ws,rfl,hw⟩ := items_of_loop hl a [] c rfl ha
    exact .inr ⟨c₂,hw,hk,rfl⟩

section Statements
variable {g : Grammar} {d : Descent} {stop : Kind → Bool} {read : List Stmt} {c e : Cursor}

theorem moreStatements_eq_done {r : Round (List Stmt) (List Stmt)} :
    moreStatements g d stop read c = .done r e ↔
      (stop c.current.kind = true ∧ r = .stop read.reverse ∧ e = c) ∨
        (stop c.current.kind = false ∧ ∃ o e', attempt (statement g d) c = .done o e' ∧
          r = .again (o.toList ++ read) ∧ e = e'.advance) := by
  simp only [moreStatements,current_bind]
  split
  · rename_i hk
    simp [hk,@eq_comm _ r,@eq_comm _ e]
  · rename_i hk
    simp [hk,bind_eq_done,@eq_comm _ r,@eq_comm _ e]

theorem moreStatements_stop {ss : List Stmt} (h : moreStatements g d stop read c = .done (.stop ss) e) :
    stop c.current.kind = true ∧ ss = read.reverse ∧ e = c := by
  rcases moreStatements_eq_done.mp h with ⟨hk,hr,he⟩ | ⟨-,_,_,-,hr,-⟩
  · exact ⟨hk,Round.stop.inj hr,he⟩
  · exact nomatch hr

theorem moreStatements_again {next : List Stmt}
    (h : moreStatements g d stop read c = .done (.again next) e) :
    stop c.current.kind = false ∧ ∃ o e', attempt (statement g d) c = .done o e' ∧
      next = o.toList ++ read ∧ e = e'.advance := by
  rcases moreStatements_eq_done.mp h with ⟨-,hr,-⟩ | ⟨hk,o,e',ho,hr,he⟩
  · exact nomatch hr
  · exact ⟨hk,o,e',ho,Round.again.inj hr,he⟩

theorem statements_stop {ss : List Stmt} (h : statements g d stop c = .done ss e) :
    stop e.current.kind = true := by
  refine loop_done_induction (P := fun _ _ => stop e.current.kind = true) ?_ ?_ [] c h
  · intro read c hr
    obtain ⟨hk,-,rfl⟩ := moreStatements_stop hr
    exact hk
  · intro _ _ _ _ _ _ ih
    exact ih

theorem loop_moreStatements_onto {ss : List Stmt}
    (h : loop (moreStatements g d stop) read c = .done ss e) (before : List Stmt) :
    loop (moreStatements g d stop) (read ++ before) c = .done (before.reverse ++ ss) e := by
  fun_induction loop (moreStatements g d stop) read c with
  | case1 read c r e' he =>
    obtain ⟨rfl,rfl⟩ := Outcome.done.inj h
    obtain ⟨hk,rfl,rfl⟩ := moreStatements_stop he
    exact loop_stop (moreStatements_eq_done.mpr (.inl ⟨hk,by simp,rfl⟩))
  | case2 read c read' e' he hl ih =>
    obtain ⟨hk,o,e₁,ho,rfl,rfl⟩ := moreStatements_again he
    rw [loop_again (moreStatements_eq_done.mpr (.inr ⟨hk,o,e₁,ho,rfl,rfl⟩)) hl,← List.append_assoc]
    exact ih h
  | case3 => simp at h
  | case4 => simp at h
  | case5 => simp at h

end Statements

theorem loop_moreStatements_ne_failed {g : Grammar} {d : Descent} {stop : Kind → Bool}
    (read : List Stmt) (c : Cursor) (f : Fault) (c' : Cursor) :
    loop (moreStatements g d stop) read c ≠ .failed f c' := by
  have hround : ∀ read (c : Cursor) f c', moreStatements g d stop read c ≠ .failed f c' := by
    intro read c f c'
    simp only [moreStatements,current_bind]
    split
    · simp
    · rw [bind_apply]
      unfold attempt
      cases statement g d c <;> simp
  fun_induction loop (moreStatements g d stop) read c with
  | case1 => simp
  | case2 _ _ _ _ _ _ ih => exact ih
  | case3 => simp
  | case4 _ _ _ _ he => exact absurd he (hround _ _ _ _)
  | case5 => simp

end Descent
end Precedence
