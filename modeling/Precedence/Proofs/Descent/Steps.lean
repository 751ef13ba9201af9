import Precedence.Descent.Parse

/-! Single steps of a reading: what each elementary action does to the cursor, how actions follow
each other, and how a repetition unrolls by one round. -/
namespace Precedence

namespace Outcome
variable {α : Type}

/-- What an action gives that is done, and the cursor as it leaves it. -/
def result? : Outcome α → Option (α × Cursor)
  | done a c => some (a,c)
  | _ => none

theorem done_of_result? {o : Outcome α} {test : α × Cursor → Bool}
    (h : o.result?.any test = true) : ∃ a c, o = .done a c ∧ test (a,c) = true := by
  cases o with
  | done a c => exact ⟨a,c,rfl,h⟩
  | failed f c => simp [result?] at h
  | endless => simp [result?] at h

end Outcome

namespace Parse
variable {α β : Type}

@[simp] theorem current_apply (c : Cursor) : current c = .done c.current c := rfl

@[simp] theorem peek_apply (c : Cursor) : peek c = .done c.peek c := rfl

@[simp] theorem peekIs_apply (k : Kind) (c : Cursor) :
    peekIs k c = .done (c.peek.kind == k) c := rfl

@[simp] theorem advance_apply (c : Cursor) : advance c = .done c.current c.advance := rfl

@[simp] theorem fail_apply (e : Cause) (p : Position) (c : Cursor) :
    (fail e p : Parse α) c = .failed ⟨e,p⟩ c := rfl

@[simp] theorem skip_apply (k : Kind) (c : Cursor) :
    skip k c = .done () (if c.peek.kind = k then c.advance else c) := rfl

attribute [simp] pure_apply

theorem bind_eq_done {p : Parse α} {q : α → Parse β} {c d : Cursor} {b : β} :
    (p >>= q) c = .done b d ↔ ∃ a e, p c = .done a e ∧ q a e = .done b d := by
  rw [bind_apply]
  cases p c <;> simp [and_assoc]

theorem bind_of_done {p : Parse α} {q : α → Parse β} {c e : Cursor} {a : α}
    (h : p c = .done a e) : (p >>= q) c = q a e := by
  rw [bind_apply,h]

theorem bind_assoc {γ : Type} (p : Parse α) (q : α → Parse β) (r : β → Parse γ) :
    (p >>= q) >>= r = p >>= fun a => q a >>= r := by
  funext c
  simp only [bind_apply]
  cases p c <;> rfl

theorem bind_of_failed {p : Parse α} {q : α → Parse β} {c e : Cursor} {f : Fault}
    (h : p c = .failed f e) : (p >>= q) c = .failed f e := by
  rw [bind_apply,h]

@[simp] theorem current_bind (q : Token → Parse β) (c : Cursor) :
    (current >>= q) c = q c.current c := rfl

@[simp] theorem peek_bind (q : Token → Parse β) (c : Cursor) : (peek >>= q) c = q c.peek c := rfl

@[simp] theorem peekIs_bind (k : Kind) (q : Bool → Parse β) (c : Cursor) :
    (peekIs k >>= q) c = q (c.peek.kind == k) c := rfl

@[simp] theorem advance_bind (q : Token → Parse β) (c : Cursor) :
    (advance >>= q) c = q c.current c.advance := rfl

@[simp] theorem skip_bind (k : Kind) (q : Unit → Parse β) (c : Cursor) :
    (skip k >>= q) c = q () (if c.peek.kind = k then c.advance else c) := rfl

theorem expect_eq_done {k : Kind} {c d : Cursor} {t : Token} :
    expect k c = .done t d ↔ c.peek.kind = k ∧ t = c.peek ∧ d = c.advance := by
  unfold expect
  split <;> simp_all [eq_comm]

theorem expect_of_kind {k : Kind} {c : Cursor} (h : c.peek.kind = k) :
    expect k c = .done c.peek c.advance :=
  expect_eq_done.mpr ⟨h,rfl,rfl⟩

theorem nested_eq_done {p : Parse α} {c d : Cursor} {a : α} :
    nested p c = .done a d ↔ ∃ e, p c.deeper = .done a e ∧ d = e.leave := by
  unfold nested
  cases p c.deeper <;> simp [and_assoc,eq_comm]

theorem attempt_eq_done {p : Parse α} {c d : Cursor} {o : Option α} :
    attempt p c = .done o d ↔
      (∃ a, p c = .done a d ∧ o = some a) ∨ ∃ f e, p c = .failed f e ∧ o = none ∧ d = e.record f := by
  unfold attempt
  cases p c <;> simp [and_assoc,and_comm,eq_comm]

variable {round : α → Parse (Round α β)} {a b : α} {r : β} {c d : Cursor}

theorem loop_stop (h : round a c = .done (.stop r) d) : loop round a c = .done r d := by
  rw [loop,h]

theorem loop_again (h : round a c = .done (.again b) d) (hl : d.left < c.left) :
    loop round a c = loop round b d := by
  rw [loop,h]
  simp [hl]

theorem loop_failed {f : Fault} (h : round a c = .failed f d) :
    loop round a c = .failed f d := by
  rw [loop,h]

end Parse
end Precedence
