import Precedence.Proofs.Descent.Place
import Precedence.Proofs.Tree.Likeness

/-! Two readings in step. They go over different tokens, but as long as what they show is the same
they do the same. A pairing tells which tokens ahead of the one go with which tokens ahead of the
other, and when the first has gone on to where nothing is known of the second. -/
namespace Precedence
open Parse Likeness

structure Pairing where
  /-- Tokens at the same place. -/
  Same : Token → Token → Prop
  /-- The end tokens. -/
  last : Token
  last' : Token
  /-- Faults that the second reading has found before the two are in step. -/
  held : List Fault
  /-- What lies ahead of the two readings where they are in step. -/
  Near : List Token → List Token → Prop
  /-- What lies ahead of the first reading once it has gone too far. -/
  Gone : List Token → Prop
  alike {t u : Token} : Same t u → t.alike u = true
  current {xs ys : List Token} : Near xs ys → ¬ Gone xs → Same (xs.headD last) (ys.headD last')
  /-- Behind the end of a statement nothing need be known. -/
  peek {xs ys : List Token} : Near xs ys → ¬ Gone xs → (xs.headD last).kind ≠ .semicolon →
    Same (xs.tail.headD last) (ys.tail.headD last')
  advance {xs ys : List Token} : Near xs ys → ¬ Gone xs → (xs.headD last).kind ≠ .semicolon →
    Near xs.tail ys.tail
  /-- Readings in step move on in step. -/
  shorter {xs ys zs ws : List Token} : Near xs ys → Near zs ws → ¬ Gone xs → ¬ Gone zs →
    (zs.length < xs.length ↔ ws.length < ys.length)
  goneTail {xs : List Token} : Gone xs → Gone xs.tail
  /-- Blocks go on behind a semicolon: the readings stay in step there, or there are none. -/
  blocks : (∀ xs ys, Near xs ys → ¬ Gone xs → Near xs.tail ys.tail) ∨
    (∀ xs, ¬ Gone xs) ∧ ∀ xs ys, Near xs ys → (xs.headD last).kind ≠ .openBrace

namespace Pairing
variable (R : Pairing)

/-- The readings stay in step behind a statement too. -/
def Crosses : Prop := ∀ xs ys, R.Near xs ys → ¬ R.Gone xs → R.Near xs.tail ys.tail

def SameFault (f g : Fault) : Prop :=
  f.cause = g.cause ∧ ∃ t u, R.Same t u ∧ f.position = t.position ∧ g.position = u.position

/-- The cursors of two readings in step. -/
structure Cursors (c d : Cursor) : Prop where
  near : R.Near c.ahead d.ahead
  last : c.last = R.last
  last' : d.last = R.last'
  depth : c.depth = d.depth
  faults : ∃ gs, d.faults.toList = R.held ++ gs ∧ List.Forall₂ R.SameFault c.faults.toList gs

namespace Cursors
variable {R} {c d : Cursor} (h : R.Cursors c d) (hg : ¬ R.Gone c.ahead)
include h hg

theorem current : R.Same c.current d.current := by
  have hs := R.current h.near hg
  rwa [← h.last,← h.last'] at hs

theorem kind : c.current.kind = d.current.kind :=
  ((Token.alike_iff _ _).mp (R.alike (h.current hg))).1

theorem peek (hk : c.current.kind ≠ .semicolon) : R.Same c.peek d.peek := by
  have hs := R.peek h.near hg (by rwa [← h.last])
  rwa [← h.last,← h.last'] at hs

theorem peekKind (hk : c.current.kind ≠ .semicolon) : c.peek.kind = d.peek.kind :=
  ((Token.alike_iff _ _).mp (R.alike (h.peek hg hk))).1

theorem advance (hk : c.current.kind ≠ .semicolon) : R.Cursors c.advance d.advance :=
  ⟨R.advance h.near hg (by rwa [← h.last]),h.last,h.last',h.depth,h.faults⟩

omit hg in
theorem deeper : R.Cursors c.deeper d.deeper :=
  ⟨h.near,h.last,h.last',congrArg (·+1) h.depth,h.faults⟩

omit hg in
theorem leave : R.Cursors c.leave d.leave :=
  ⟨h.near,h.last,h.last',congrArg (·-1) h.depth,h.faults⟩

omit hg in
theorem record {f g : Fault} (hf : R.SameFault f g) : R.Cursors (c.record f) (d.record g) := by
  obtain ⟨gs,hd,hs⟩ := h.faults
  refine ⟨h.near,h.last,h.last',h.depth,gs ++ [g],?_,?_⟩
  · rw [Cursor.faults_record,hd,List.append_assoc]
  · rw [Cursor.faults_record]
    exact List.rel_append hs (.cons hf .nil)

end Cursors
end Pairing

/-- The reading has gone too far, unless it never ends. -/
def Outcome.Gone {α : Type} (R : Pairing) : Outcome α → Prop
  | .done _ c | .failed _ c => R.Gone c.ahead
  | .endless => True

/-- Two readings in step end alike, unless the first has gone too far by then. The kind of token
that is current at the end meets `post`. -/
inductive Outcome.Paired {α : Type} [Likeness α] (R : Pairing) (post : Kind → Prop) :
    Outcome α → Outcome α → Prop where
  | done {a b : α} {c d : Cursor} (value : Alike a b) (cursors : R.Cursors c d)
      (place : post c.current.kind) : Outcome.Paired R post (.done a c) (.done b d)
  | failed {f g : Fault} {c d : Cursor} (fault : R.SameFault f g) (cursors : R.Cursors c d) :
      Outcome.Paired R post (.failed f c) (.failed g d)
  | gone {o o' : Outcome α} (h : o.Gone R) : Outcome.Paired R post o o'

/-- Two actions that stay in step, where the kind of the current token meets `pre`. -/
structure Parse.Paired {α : Type} [Likeness α] (R : Pairing) (pre post : Kind → Prop)
    (p q : Parse α) : Prop where
  gone : ∀ c, R.Gone c.ahead → (p c).Gone R
  step : ∀ c d, R.Cursors c d → ¬ R.Gone c.ahead → pre c.current.kind →
    (p c).Paired R post (q d)

namespace Pairing

def Anywhere (_ : Kind) : Prop := True

def Inside (k : Kind) : Prop := k ≠ .semicolon

def AtBrace (k : Kind) : Prop := k = .openBrace

end Pairing
open Pairing

namespace Parse.Paired
variable {α β : Type} [Likeness α] [Likeness β] {R : Pairing} {pre mid post : Kind → Prop}
  {p p' : Parse α}

theorem resume (h : Paired R pre post p p') {c d : Cursor} (hc : R.Cursors c d)
    (hk : pre c.current.kind) : (p c).Paired R post (p' d) := by
  by_cases hg : R.Gone c.ahead
  · exact .gone (h.gone c hg)
  · exact h.step c d hc hg hk

theorem mono {pre' post' : Kind → Prop} (h : Paired R pre post p p') (hpre : ∀ k, pre' k → pre k)
    (hpost : ∀ k, post k → post' k) : Paired R pre' post' p p' where
  gone := h.gone
  step c d hc hg hk := by
    have ho := h.step c d hc hg (hpre _ hk)
    generalize p c = o at ho ⊢
    generalize p' d = o' at ho ⊢
    cases ho with
    | done ha hcd hp => exact .done ha hcd (hpost _ hp)
    | failed hf hcd => exact .failed hf hcd
    | gone hg => exact .gone hg

theorem ensure {post' : Kind → Prop} (h : Paired R pre post p p')
    (hp : ∀ c a c', p c = .done a c' → post' c'.current.kind) : Paired R pre post' p p' where
  gone := h.gone
  step c d hc hg hk := by
    have ho := h.step c d hc hg hk
    generalize hpc : p c = o at ho ⊢
    generalize p' d = o' at ho ⊢
    cases ho with
    | done ha hcd _ => exact .done ha hcd (hp _ _ _ hpc)
    | failed hf hcd => exact .failed hf hcd
    | gone hg => exact .gone hg

theorem pure {a b : α} (h : Alike a b) : Paired R pre pre (pure a) (pure b) where
  gone _ hg := hg
  step _ _ hc _ hk := .done h hc hk

theorem bind {q q' : α → Parse β} (hp : Paired R pre mid p p')
    (hq : ∀ a b, Alike a b → Paired R mid post (q a) (q' b)) :
    Paired R pre post (p >>= q) (p' >>= q') where
  gone c hg := by
    have h := hp.gone c hg
    rw [bind_apply]
    cases hpc : p c with
    | done a d => rw [hpc] at h; exact (hq a a (refl a)).gone d h
    | failed f d => rw [hpc] at h; exact h
    | endless => trivial
  step c d hc hg hk := by
    have h := hp.step c d hc hg hk
    rw [bind_apply,bind_apply]
    generalize p c = o at h
    generalize p' d = o' at h
    cases h with
    | done ha hcd hm => exact (hq _ _ ha).resume hcd hm
    | failed hf hcd => exact .failed hf hcd
    | gone h =>
      cases o with
      | done a e => exact .gone ((hq a a (refl a)).gone e h)
      | failed f e => exact .gone h
      | endless => exact .gone trivial

theorem ite {t : Prop} [Decidable t] {q q' : Parse α} (hp : Paired R pre post p p')
    (hq : Paired R pre post q q') :
    Paired R pre post (if t then p else q) (if t then p' else q') := by
  split
  · exact hp
  · exact hq

theorem current : Paired R pre pre Parse.current Parse.current where
  gone _ hg := hg
  step _ _ hc hg hk := .done (R.alike (hc.current hg)) hc hk

theorem advance : Paired R Inside Anywhere Parse.advance Parse.advance where
  gone _ hg := R.goneTail hg
  step _ _ hc hg hk := .done (R.alike (hc.current hg)) (hc.advance hg hk) trivial

theorem expect {k : Kind} (hk : post k) : Paired R Inside post (Parse.expect k) (Parse.expect k) where
  gone c hg := by
    unfold Parse.expect
    split
    · exact R.goneTail hg
    · exact hg
  step c d hc hg hi := by
    have hp := hc.peek hg hi
    have hkind := hc.peekKind hg hi
    unfold Parse.expect
    by_cases h : c.peek.kind = k
    · rw [if_pos h,if_pos (hkind ▸ h)]
      exact .done (R.alike hp) (hc.advance hg hi) (by rwa [Cursor.current_advance,h])
    · rw [if_neg h,if_neg (hkind ▸ h),hkind]
      exact .failed ⟨rfl,_,_,hp,rfl,rfl⟩ hc

theorem skip (k : Kind) : Paired R Inside Anywhere (Parse.skip k) (Parse.skip k) where
  gone c hg := by
    rw [skip_apply]
    split
    · exact R.goneTail hg
    · exact hg
  step c d hc hg hi := by
    rw [skip_apply,skip_apply,← hc.peekKind hg hi]
    split
    · exact .done rfl (hc.advance hg hi) trivial
    · exact .done rfl hc trivial

theorem lookahead {k : Kind} (hk : k ≠ .semicolon) {q q' : Token → Parse α}
    (hq : ∀ t u, Alike t u → Paired R Inside post (q t) (q' u)) (hp : Paired R Inside post p p') :
    Paired R Inside post (Parse.peekIs k >>= fun b => if b then Parse.advance >>= q else p)
      (Parse.peekIs k >>= fun b => if b then Parse.advance >>= q' else p') where
  gone c hg := by
    rw [peekIs_bind]
    split
    · exact (hq _ _ (refl _)).gone _ (R.goneTail hg)
    · exact hp.gone c hg
  step c d hc hg hi := by
    rw [peekIs_bind,peekIs_bind,← hc.peekKind hg hi]
    split
    · rename_i h
      refine (hq _ _ (R.alike (hc.current hg))).resume (hc.advance hg hi) ?_
      rwa [Cursor.current_advance,eq_of_beq h]
    · exact hp.step c d hc hg hi

theorem tooDeep : Paired R pre post (Parse.tooDeep : Parse α) Parse.tooDeep where
  gone _ hg := hg
  step _ _ hc hg _ := .failed ⟨rfl,_,_,hc.current hg,rfl,rfl⟩ hc

theorem nested (hp : Paired R pre post p p') :
    Paired R pre post (Parse.nested p) (Parse.nested p') where
  gone c hg := by
    have h := hp.gone c.deeper hg
    unfold Parse.nested
    cases hpc : p c.deeper with
    | done a d => rw [hpc] at h; exact h
    | failed f d => rw [hpc] at h; exact h
    | endless => trivial
  step c d hc hg hk := by
    have h := hp.step c.deeper d.deeper hc.deeper hg hk
    unfold Parse.nested
    generalize p c.deeper = o at h
    generalize p' d.deeper = o' at h
    cases h with
    | done ha hcd hm => exact .done ha hcd.leave hm
    | failed hf hcd => exact .failed hf hcd.leave
    | gone h => cases o <;> exact .gone h

theorem attempt (hp : Paired R pre post p p') :
    Paired R pre Anywhere (Parse.attempt p) (Parse.attempt p') where
  gone c hg := by
    have h := hp.gone c hg
    unfold Parse.attempt
    cases hpc : p c with
    | done a d => rw [hpc] at h; exact h
    | failed f d => rw [hpc] at h; exact h
    | endless => trivial
  step c d hc hg hk := by
    have h := hp.step c d hc hg hk
    unfold Parse.attempt
    generalize p c = o at h
    generalize p' d = o' at h
    cases h with
    | done ha hcd hm => exact .done (.some ha) hcd trivial
    | failed hf hcd => exact .done .none (hcd.record hf) trivial
    | gone h => cases o <;> exact .gone h

theorem loop {round round' : α → Parse (Round α β)}
    (h : ∀ a b, Alike a b → Paired R pre pre (round a) (round' b)) {a b : α} (hab : Alike a b) :
    Paired R pre pre (Parse.loop round a) (Parse.loop round' b) := by
  -- A reading that is gone stays gone in every later round.
  have hgone : ∀ a c, R.Gone c.ahead → (Parse.loop round a c).Gone R := by
    intro a c hg
    have hr := (h a a (refl a)).gone c hg
    fun_induction Parse.loop round a c with
    | case1 a c r d hd => rw [hd] at hr; exact hr
    | case2 a c a' d hd _ ih =>
      rw [hd] at hr
      exact ih hr ((h a' a' (refl a')).gone d hr)
    | case3 => trivial
    | case4 a c f d hd => rw [hd] at hr; exact hr
    | case5 => trivial
  refine ⟨hgone a,fun c d hc hg hk => ?_⟩
  have hr := (h a b hab).step c d hc hg hk
  fun_induction Parse.loop round a c generalizing b d with
  | case1 a c r e he =>
    rw [he] at hr
    generalize hd : round' b d = o at hr
    cases hr with
    | done hv hcd hm =>
      cases hv with
      | stop hv =>
        rw [loop_stop hd]
        exact .done hv hcd hm
    | gone hg => exact .gone hg
  | case2 a c a' e he hl ih =>
    rw [he] at hr
    by_cases hge : R.Gone e.ahead
    · exact .gone (hgone a' e hge)
    -- The second repetition goes on where the first does: both have used up tokens or neither has.
    generalize hd : round' b d = o at hr
    cases hr with
    | done hv hcd hm =>
      cases hv with
      | again hv =>
        rename_i e' b'
        have hl' : e'.left < d.left := by
          rw [e.left_eq,c.left_eq] at hl
          rw [e'.left_eq,d.left_eq]
          exact (R.shorter hc.near hcd.near hg hge).mp hl
        rw [loop_again hd hl']
        exact ih hv e' hcd hge hm ((h _ _ hv).step e e' hcd hge hm)
    | gone hg => exact absurd hg hge
  | case3 => exact .gone trivial
  | case4 a c f e he =>
    rw [he] at hr
    generalize hd : round' b d = o at hr
    cases hr with
    | failed hf hcd =>
      rw [loop_failed hd]
      exact .failed hf hcd
    | gone hg => exact .gone hg
  | case5 => exact .gone trivial

end Parse.Paired
end Precedence
