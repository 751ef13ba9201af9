import Precedence.Proofs.Descent.Frame

/-! Where a cursor stands among the tokens of a source. After a phrase has been read, all that
matters is what lies behind the current token. -/
namespace Precedence

namespace Cursor

/-- The tokens behind the current one. -/
def rest (c : Cursor) : List Token := c.ahead.tail

@[simp] theorem ahead_advance (c : Cursor) : c.advance.ahead = c.rest := rfl

@[simp] theorem rest_deeper (c : Cursor) : c.deeper.rest = c.rest := rfl

@[simp] theorem rest_leave (c : Cursor) : c.leave.rest = c.rest := rfl

@[simp] theorem ahead_deeper (c : Cursor) : c.deeper.ahead = c.ahead := rfl

@[simp] theorem peek_leave (c : Cursor) : c.leave.peek = c.peek := rfl

@[simp] theorem faults_leave (c : Cursor) : c.leave.faults = c.faults := rfl

@[simp] theorem faults_deeper (c : Cursor) : c.deeper.faults = c.faults := rfl

theorem peek_eq (c : Cursor) : c.peek = c.rest.headD c.last := rfl

theorem rest_of_ahead {c : Cursor} {t : Token} {ts : List Token} (h : c.ahead = t :: ts) :
    c.rest = ts := by
  simp [rest,h]

theorem current_of_ahead {c : Cursor} {t : Token} {ts : List Token} (h : c.ahead = t :: ts) :
    c.current = t := by
  simp [current,h]

theorem peek_of_rest {c : Cursor} {t : Token} {ts : List Token} (h : c.rest = t :: ts) :
    c.peek = t := by
  simp [peek_eq,h]

/-- A cursor as a source gives it: only the end token is of the kind that ends the input. -/
structure Proper (c : Cursor) : Prop where
  last : c.last.kind = .endOfInput
  ahead : ∀ t ∈ c.ahead, t.kind ≠ .endOfInput

theorem Follows.proper {c d : Cursor} (h : d.Follows c) (hc : c.Proper) : d.Proper where
  last := (congrArg Token.kind h.last).trans hc.last
  ahead t ht := hc.ahead t (h.ahead.subset ht)

theorem Follows.clean {c d : Cursor} (h : d.Follows c) {gaps : Prop}
    (hd : gaps ∨ d.faults = #[]) : gaps ∨ c.faults = #[] := by
  refine hd.imp_right fun hd => ?_
  have hf := h.faults
  rw [hd] at hf
  exact Array.toList_eq_nil_iff.mp (List.prefix_nil.mp hf)

namespace Proper
variable {c : Cursor} {k : Kind}

theorem advance (h : c.Proper) : c.advance.Proper := (Follows.advance c).proper h

theorem deeper (h : c.Proper) : c.deeper.Proper := ⟨h.last,h.ahead⟩

theorem ahead_eq (h : c.Proper) (hk : c.current.kind ≠ .endOfInput) :
    c.ahead = c.current :: c.rest := by
  cases ha : c.ahead with
  | nil => exact absurd ha (ahead_ne_nil h.last hk)
  | cons t ts => simp [current,rest,ha]

theorem rest_eq (h : c.Proper) (hk : c.peek.kind ≠ .endOfInput) :
    c.rest = c.peek :: c.advance.rest := by
  cases hr : c.rest with
  | nil => exact absurd hr (tail_ne_nil h.last hk)
  | cons t ts => rw [peek_of_rest hr,rest_of_ahead (c := c.advance) hr]

theorem ahead_eq_nil (h : c.Proper) (hk : c.current.kind = .endOfInput) : c.ahead = [] := by
  cases ha : c.ahead with
  | nil => rfl
  | cons t ts =>
    rw [current_of_ahead ha] at hk
    exact absurd hk (h.ahead t (by simp [ha]))

end Proper
end Cursor

namespace Parse.Steady
variable {α : Type} {g : Grammar} {p : Parse α} {c d : Cursor} {a : α}

theorem follows (hp : Steady g p) (hc : c.Proper) (h : p c = .done a d) : d.Follows c :=
  hp.done hc.last h

theorem proper (hp : Steady g p) (hc : c.Proper) (h : p c = .done a d) : d.Proper :=
  (hp.follows hc h).proper hc

end Parse.Steady

end Precedence
