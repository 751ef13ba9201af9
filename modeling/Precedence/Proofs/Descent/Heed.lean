import Precedence.Proofs.Descent.Order
import Precedence.Proofs.Descent.Repetition

/-! An illegal token is not passed unheeded. No rule has a use for it, so that a reading that comes to
it as its current token fails there; and where a reading fails at the lookahead, the lookahead is still
to come when reading goes on. -/
namespace Precedence
open Parse Cursor

/-- The fault tells what is wrong with the token itself, and not that another one was asked for. -/
def Fault.TellsOf (f : Fault) (t : Token) : Prop :=
  f.cause.isUnexpected = false ∧ f.position = t.position

/-- The token is among those to come, or a fault has been found that tells of it. -/
def Cursor.Heeds (t : Token) (coming : List Token) (c : Cursor) : Prop :=
  t ∈ coming ∨ ∃ f ∈ c.faults.toList, f.TellsOf t

/-- Where a reading ends well, the tokens to come are those that `stop` tells. Where it fails they are
those behind the current one, with which its fault may be concerned. -/
def Outcome.Heeds {α : Type} (t : Token) (stop : Cursor → List Token) : Outcome α → Prop
  | .done _ d => d.Heeds t (stop d)
  | .failed f d => d.Heeds t d.rest ∨ f.TellsOf t
  | .endless => True

/-- An action that heeds a token, if the token is heeded where it starts. -/
def Parse.Heeds {α : Type} (t : Token) (start stop : Cursor → List Token) (p : Parse α) : Prop :=
  ∀ c, c.Heeds t (start c) → (p c).Heeds t stop

namespace Cursor.Heeds
variable {t : Token} {c : Cursor} {ts : List Token}

theorem pass (h : c.Heeds t c.ahead) (ht : t.kind = .illegal) (hk : c.current.kind ≠ .illegal) :
    c.Heeds t c.rest := by
  refine h.imp_left fun hm => ?_
  cases ha : c.ahead with
  | nil => simp [ha] at hm
  | cons u us =>
    rw [current_of_ahead ha] at hk
    rw [ha] at hm
    rw [rest_of_ahead ha]
    rcases List.mem_cons.mp hm with rfl | hm
    · exact absurd ht hk
    · exact hm

theorem step (h : c.Heeds t c.rest) (ht : t.kind = .illegal) (hk : c.peek.kind ≠ .illegal) :
    c.advance.Heeds t c.advance.rest :=
  pass (c := c.advance) h ht hk

theorem record {f : Fault} (h : c.Heeds t ts ∨ f.TellsOf t) : (c.record f).Heeds t ts := by
  rcases h with (h | ⟨g,hg,hgt⟩) | h
  · exact .inl h
  · exact .inr ⟨g,by simp [hg],hgt⟩
  · exact .inr ⟨f,by simp,h⟩

theorem fails (h : c.Heeds t c.ahead) {e : Cause} (he : e.isUnexpected = false) :
    c.Heeds t c.rest ∨ Fault.TellsOf ⟨e,c.current.position⟩ t := by
  rcases h with hm | hf
  · cases ha : c.ahead with
    | nil => simp [ha] at hm
    | cons u us =>
      rw [ha] at hm
      rw [current_of_ahead ha,rest_of_ahead ha]
      rcases List.mem_cons.mp hm with rfl | hm
      · exact .inr ⟨he,rfl⟩
      · exact .inl (.inl hm)
  · exact .inl (.inr hf)

end Cursor.Heeds

namespace Parse.Heeds
variable {α β : Type} {t : Token} {start mid stop : Cursor → List Token} {p : Parse α} {k : Kind}

theorem pure (a : α) : Heeds t start start (pure a : Parse α) := fun _ h => h

theorem bind {q : α → Parse β} (hp : Heeds t start mid p) (hq : ∀ a, Heeds t mid stop (q a)) :
    Heeds t start stop (p >>= q) := by
  intro c hc
  have h := hp c hc
  rw [bind_apply]
  cases hpc : p c with
  | done a d => rw [hpc] at h; exact hq a d h
  | failed f d => rw [hpc] at h; exact h
  | endless => trivial

theorem current : Heeds t start start Parse.current := fun _ h => h

theorem peekIs (k : Kind) : Heeds t start start (Parse.peekIs k) := fun _ h => h

theorem advance : Heeds t rest ahead Parse.advance := fun _ h => h

theorem ite {r : Prop} [Decidable r] {q : Parse α} (hp : Heeds t start stop p)
    (hq : Heeds t start stop q) : Heeds t start stop (if r then p else q) := by
  split
  · exact hp
  · exact hq

theorem tooDeep : Heeds t ahead stop (Parse.tooDeep : Parse α) := fun _ h => h.fails rfl

theorem nested (hp : Heeds t start rest p) (hs : ∀ c : Cursor, start c.deeper = start c) :
    Heeds t start rest (Parse.nested p) := by
  intro c hc
  have h := hp c.deeper (by rw [hs]; exact hc)
  unfold Parse.nested
  cases hpc : p c.deeper with
  | done a d => rw [hpc] at h; exact h
  | failed f d => rw [hpc] at h; exact h
  | endless => trivial

theorem loop {round : α → Parse (Round α β)} (h : ∀ a, Heeds t start start (round a)) (a : α) :
    Heeds t start start (Parse.loop round a) := by
  intro c hc
  have hround := h a c hc
  fun_induction Parse.loop round a c with
  | case1 a c b d hd => rw [hd] at hround; exact hround
  | case2 a c b d hd _ ih => rw [hd] at hround; exact ih hround (h b d hround)
  | case3 => trivial
  | case4 a c f d hd => rw [hd] at hround; exact hround
  | case5 => trivial

/-- Behind a statement that was tried comes the token to go on with, also where it failed. -/
theorem attempt {q : Option α → Parse β} (hp : Heeds t ahead rest p)
    (hq : ∀ o, Heeds t ahead stop (q o)) :
    Heeds t ahead stop (Parse.attempt p >>= fun o => Parse.advance >>= fun _ => q o) := by
  intro c hc
  have h := hp c hc
  rw [bind_apply]
  unfold Parse.attempt
  cases hpc : p c with
  | done a d => rw [hpc] at h; exact hq (some a) d.advance h
  | failed f d => rw [hpc] at h; exact hq none (d.record f).advance (Cursor.Heeds.record h)
  | endless => trivial

section Legal
variable (ht : t.kind = .illegal)
include ht

theorem expect (hk : k ≠ .illegal) : Heeds t rest rest (Parse.expect k) := by
  intro c hc
  unfold Parse.expect
  split
  · rename_i h
    exact hc.step ht (h ▸ hk)
  · exact .inl hc

theorem skip (hk : k ≠ .illegal) : Heeds t rest rest (Parse.skip k) := by
  intro c hc
  rw [skip_apply]
  split
  · rename_i h
    exact hc.step ht (h ▸ hk)
  · exact hc

theorem lookahead {q : Token → Parse α} (hk : k ≠ .illegal) (hq : ∀ u, Heeds t rest stop (q u))
    (hp : Heeds t rest stop p) :
    Heeds t rest stop (Parse.peekIs k >>= fun b => if b then Parse.advance >>= q else p) := by
  intro c hc
  rw [peekIs_bind]
  split
  · rename_i h
    exact hq c.current c.advance (hc.step ht (eq_of_beq h ▸ hk))
  · exact hp c hc

theorem passed (hp : Heeds t rest stop p) {c : Cursor} (hc : c.Heeds t c.ahead)
    (hk : c.current.kind ≠ .illegal) : (p c).Heeds t stop :=
  hp c (hc.pass ht hk)

end Legal

end Parse.Heeds

/-- A descent that heeds a token. The brace of a block is passed before the block is asked for. -/
structure Descent.Heeds (t : Token) (d : Descent) : Prop where
  expr : ∀ p, Parse.Heeds t ahead rest (d.expr p)
  block : Parse.Heeds t rest rest d.block

namespace Descent
variable {α : Type} {t : Token} {d : Descent} (ht : t.kind = .illegal)
open Parse.Heeds
include ht

theorem listed_heeds {item : Parse α} (h : Parse.Heeds t rest rest item) :
    Parse.Heeds t rest rest (listed item) := by
  refine lookahead ht (by decide) (fun _ => pure _) (bind h fun _ => ?_)
  refine bind (loop (fun xs => ?_) _) fun _ => bind (expect ht (by decide)) fun _ => pure _
  exact lookahead ht (by decide) (fun _ => bind h fun _ => pure _) (pure _)

section Rules
variable (h : d.Heeds t)
include h

theorem alternative_heeds : Parse.Heeds t rest rest d.alternative := by
  refine lookahead ht (by decide) (fun _ => ?_) (pure _)
  exact bind (expect ht (by decide)) fun _ => bind h.block fun _ => pure _

theorem conditional_heeds : Parse.Heeds t rest rest d.conditional := by
  refine bind current fun _ => bind (expect ht (by decide)) fun _ => bind advance fun _ => ?_
  refine bind (h.expr _) fun _ => bind (expect ht (by decide)) fun _ => ?_
  refine bind (expect ht (by decide)) fun _ => bind h.block fun _ => ?_
  exact bind (alternative_heeds ht h) fun _ => pure _

theorem function_heeds : Parse.Heeds t rest rest d.function := by
  refine bind current fun _ => bind (expect ht (by decide)) fun _ => bind (listed_heeds ht ?_)
    fun _ => bind (expect ht (by decide)) fun _ => bind h.block fun _ => pure _
  exact bind (expect ht (by decide)) fun _ => pure _

omit ht h in
theorem integer_heeds : Parse.Heeds t rest rest integer := by
  intro c hc
  simp only [integer,current_bind]
  cases Text.numeral? c.current.text with
  | none => exact .inl hc
  | some n => exact hc

theorem head_heeds (r : HeadRule) : Parse.Heeds t rest rest (d.head r) := by
  cases r with
  | name => exact bind current fun _ => pure _
  | integer => exact integer_heeds
  | boolean => exact bind current fun _ => pure _
  | unary => exact bind advance fun _ => bind (h.expr _) fun _ => pure _
  | group =>
    exact bind advance fun _ => bind (h.expr _) fun _ => bind (expect ht (by decide)) fun _ => pure _
  | conditional => exact conditional_heeds ht h
  | function => exact function_heeds ht h

theorem tail_heeds (r : TailRule) (left : Expr) (p : Power) :
    Parse.Heeds t rest rest (d.tail r left p) := by
  cases r with
  | binary => exact bind advance fun _ => bind (h.expr _) fun _ => pure _
  | call =>
    refine bind current fun _ => bind (listed_heeds ht ?_) fun _ => pure _
    exact bind advance fun _ => h.expr _

theorem firstOperand_heeds : Parse.Heeds t ahead rest (firstOperand .standard d) := by
  intro c hc
  simp only [firstOperand,current_bind]
  cases hr : Grammar.standard.head c.current.kind with
  | none => exact hc.fails rfl
  | some rule =>
    refine passed ht (head_heeds ht h rule) hc fun hk => ?_
    simp [hk,Grammar.standard] at hr

theorem operator_heeds (p : Power) (left : Expr) :
    Parse.Heeds t rest rest (operator .standard d p left) := by
  intro c hc
  simp only [operator,peek_bind]
  split
  · cases hr : Grammar.standard.tail c.peek.kind with
    | none => exact hc
    | some rule =>
      refine bind (tail_heeds ht h rule left _) (fun e => pure _) c.advance (hc.step ht fun hk => ?_)
      simp [hk,Grammar.standard] at hr
  · exact hc

theorem expression_heeds (p : Power) : Parse.Heeds t ahead rest (expression .standard d p) :=
  bind (firstOperand_heeds ht h) fun _ => loop (operator_heeds ht h p) _

theorem value_heeds (f : Expr → Stmt) : Parse.Heeds t ahead rest
    (d.expr .lowest >>= fun e => Parse.skip .semicolon >>= fun _ => Pure.pure (f e)) :=
  bind (h.expr _) fun _ => bind (skip ht (by decide)) fun _ => pure _

theorem bindingStatement_heeds : Parse.Heeds t rest rest d.bindingStatement := by
  refine bind current fun u => bind (expect ht (by decide)) fun n => ?_
  exact bind (expect ht (by decide)) fun _ => bind advance fun _ =>
    value_heeds ht h (.binding u (.ofToken n))

theorem resultStatement_heeds : Parse.Heeds t rest rest d.resultStatement := by
  refine bind advance fun u c hc => ?_
  rw [current_bind]
  split
  · rename_i hk
    exact passed ht (pure _) hc (by rw [hk]; decide)
  · exact value_heeds ht h (fun e => .result u (some e)) c hc

theorem statement_heeds : Parse.Heeds t ahead rest (statement .standard d) := by
  intro c hc
  simp only [statement,current_bind]
  cases hk : c.current.kind
  case letWord => exact passed ht (bindingStatement_heeds ht h) hc (by rw [hk]; decide)
  case returnWord => exact passed ht (resultStatement_heeds ht h) hc (by rw [hk]; decide)
  all_goals exact value_heeds ht h (.expression c.current) c hc

theorem statements_heed (stop : Kind → Bool) :
    Parse.Heeds t ahead ahead (statements .standard d stop) :=
  loop (fun _ => bind current fun _ => ite (pure _) (attempt (statement_heeds ht h) fun _ => pure _)) _

theorem body_heeds : Parse.Heeds t rest rest (body .standard d) := by
  intro c hc
  have hs := statements_heed ht h endsBlock c.advance hc
  rw [body,advance_bind,bind_apply]
  cases hss : statements .standard d endsBlock c.advance with
  | done ss e =>
    rw [hss] at hs
    have hend := statements_stop hss
    refine Cursor.Heeds.pass hs ht fun hk => ?_
    rw [hk] at hend
    exact absurd hend (by decide)
  | failed f e => exact absurd hss (loop_moreStatements_ne_failed _ _ _ _)
  | endless => trivial

end Rules

theorem within_heeds (n : Nat) : (within .standard n).Heeds t := by
  induction n with
  | zero => exact ⟨fun _ => tooDeep,fun _ hc => .inl hc⟩
  | succ n ih =>
    exact ⟨fun p => nested (expression_heeds ht ih p) fun _ => rfl,
      nested (body_heeds ht ih) fun _ => rfl⟩

end Descent
end Precedence
