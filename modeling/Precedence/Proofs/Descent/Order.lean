import Precedence.Proofs.Descent.Inheritance
import Precedence.Proofs.Descent.Place
import Precedence.Proofs.Token.Places

/-! In which order faults are found: a fault lies at the current token or at the lookahead, and the
token where reading stopped is left before reading goes on. -/
namespace Precedence
open Parse Cursor

def Cause.isUnexpected : Cause → Bool
  | unexpected _ _ => true
  | _ => false

/-- The byte of the source at which a fault lies. -/
def Fault.place (f : Fault) : Nat := f.position.offset.toNat

/-- One fault comes before another: it lies in front of it, or at the same token, which was not the
one asked for and then itself at fault. Where the input ends, at `last`, there is no order. -/
def Fault.Before (last : Nat) (f g : Fault) : Prop :=
  f.place < g.place ∨ f.place = g.place ∧
    (f.place = last ∨ f.cause.isUnexpected = true ∧ g.cause.isUnexpected = false)

/-- The fault was found before the current token was read. -/
def Cursor.Passed (c : Cursor) (f : Fault) : Prop :=
  f.place < c.current.place ∨ f.place = c.current.place ∧
    (f.place = c.last.place ∨ f.cause.isUnexpected = true)

/-- The token at which a reading that stops here finds its fault. -/
def Cursor.culprit (c : Cursor) (f : Fault) : Token :=
  if f.cause.isUnexpected then c.peek else c.current

/-- Tokens start one behind the other, and so do the faults, which all were found before. -/
structure Cursor.Orderly (c : Cursor) : Prop where
  ascending : (c.ahead ++ [c.last]).Pairwise fun t u => t.place < u.place
  before : c.faults.toList.Pairwise (Fault.Before c.last.place)
  passed : ∀ f ∈ c.faults.toList, c.Passed f

namespace Cursor.Orderly
variable {c : Cursor} {f : Fault}

theorem current_peek (h : c.Orderly) :
    c.current.place < c.peek.place ∨ c.current = c.last ∧ c.peek = c.last := by
  have ha := h.ascending
  unfold current peek
  cases hc : c.ahead with
  | nil => exact .inr ⟨rfl,rfl⟩
  | cons t ts =>
    rw [hc,List.cons_append,List.pairwise_cons] at ha
    refine .inl (ha.1 _ ?_)
    cases ts <;> simp

theorem advance (h : c.Orderly) : c.advance.Orderly where
  ascending := h.ascending.sublist ((List.tail_sublist _).append_right _)
  before := h.before
  passed f hf := by
    have hcp := h.current_peek
    have hp := h.passed f hf
    simp only [Passed,current_advance,last_advance] at hp ⊢
    rcases hcp with hlt | ⟨hcur,hpeek⟩
    · exact .inl (by omega)
    · rw [hpeek]
      rwa [hcur] at hp

/-- A fault found where reading stops comes behind those found before it, and is passed with the
next step. -/
theorem record (h : c.Orderly) (hf : f.place = (c.culprit f).place) :
    (c.record f).advance.Orderly where
  ascending := h.advance.ascending
  before := by
    have hlast : (c.record f).advance.last = c.last := rfl
    have hfaults : (c.record f).advance.faults.toList = c.faults.toList ++ [f] := c.faults_record f
    rw [hlast,hfaults,List.pairwise_append]
    refine ⟨h.before,List.pairwise_singleton _ _,fun g hg f' hf' => ?_⟩
    obtain rfl := List.mem_singleton.mp hf'
    have hcp := h.current_peek
    have hp := h.passed g hg
    unfold culprit at hf
    unfold Passed at hp
    unfold Fault.Before
    -- An unexpected token is the one that comes next; every other fault is at the current one.
    cases hk : f'.cause.isUnexpected with
    | false =>
      rw [hk] at hf
      simp only [Bool.false_eq_true,if_false] at hf
      rcases hp with hp | ⟨hp,hl⟩
      · exact .inl (by omega)
      · exact .inr ⟨by omega,hl.imp_right fun hu => ⟨hu,rfl⟩⟩
    | true =>
      rw [hk,if_pos rfl] at hf
      rcases hcp with hlt | ⟨hcur,hpeek⟩
      · exact .inl (by omega)
      · rw [hpeek] at hf
        rw [hcur] at hp
        omega
  passed g hg := by
    have hfaults : (c.record f).advance.faults.toList = c.faults.toList ++ [f] := c.faults_record f
    rw [hfaults,List.mem_append,List.mem_singleton] at hg
    rcases hg with hg | rfl
    · exact h.advance.passed g hg
    · have hcp := h.current_peek
      show g.place < c.peek.place ∨ g.place = c.peek.place ∧
        (g.place = c.last.place ∨ g.cause.isUnexpected = true)
      unfold culprit at hf
      split at hf
      · rename_i hk
        exact .inr ⟨hf,.inr hk⟩
      · rcases hcp with hlt | ⟨hcur,hpeek⟩
        · exact .inl (by omega)
        · rw [hcur] at hf
          rw [hpeek]
          exact .inr ⟨hf,.inl hf⟩

theorem ofScanner {s : Scanner} (h : s.offset+Text.bytes s.rest < 2^32) :
    (Cursor.ofScanner s).Orderly where
  ascending := s.ahead_ascending h
  before := .nil
  passed f hf := by simp [Cursor.ofScanner] at hf

end Cursor.Orderly

/-- What is found on the way is in order, and a reading that fails stops where its fault lies. -/
def Outcome.Orderly {α : Type} : Outcome α → Prop
  | .done _ d => d.Orderly
  | .failed f d => d.Orderly ∧ f.place = (d.culprit f).place
  | .endless => True

def Parse.Orderly (α : Type) (p : Parse α) : Prop := ∀ c : Cursor, c.Orderly → (p c).Orderly

namespace Parse.Orderly
variable {α β : Type} {p : Parse α}

theorem bind {q : α → Parse β} (hp : Orderly α p) (hq : ∀ a, Orderly β (q a)) :
    Orderly β (p >>= q) := by
  intro c hc
  have h := hp c hc
  rw [bind_apply]
  cases hpc : p c with
  | done a d => rw [hpc] at h; exact hq a d h
  | failed f d => rw [hpc] at h; exact h
  | endless => trivial

theorem fail_current {c : Cursor} (hc : c.Orderly) {e : Cause} (he : e.isUnexpected = false) :
    (Outcome.failed ⟨e,c.current.position⟩ c : Outcome α).Orderly := by
  refine ⟨hc,?_⟩
  simp only [culprit,he]
  rfl

theorem expect (k : Kind) : Orderly Token (Parse.expect k) := by
  intro c hc
  unfold Parse.expect
  split
  · exact hc.advance
  · exact ⟨hc,rfl⟩

theorem skip (k : Kind) : Orderly Unit (Parse.skip k) := by
  intro c hc
  rw [skip_apply]
  split
  · exact hc.advance
  · exact hc

theorem nested (hp : Orderly α p) : Orderly α (Parse.nested p) := by
  intro c hc
  have h := hp c.deeper ⟨hc.ascending,hc.before,hc.passed⟩
  unfold Parse.nested
  cases hpc : p c.deeper with
  | done a d => rw [hpc] at h; exact ⟨h.ascending,h.before,h.passed⟩
  | failed f d =>
    rw [hpc] at h
    exact ⟨⟨h.1.ascending,h.1.before,h.1.passed⟩,h.2⟩
  | endless => trivial

theorem attempt {q : Option α → Parse β} (hp : Orderly α p) (hq : ∀ o, Orderly β (q o)) :
    Orderly β (Parse.attempt p >>= fun o => Parse.advance >>= fun _ => q o) := by
  intro c hc
  have h := hp c hc
  rw [bind_apply]
  unfold Parse.attempt
  cases hpc : p c with
  | done a d => rw [hpc] at h; exact hq _ _ h.advance
  | failed f d => rw [hpc] at h; exact hq _ _ (h.1.record h.2)
  | endless => trivial

theorem loop {round : α → Parse (Round α β)} (h : ∀ a, Orderly (Round α β) (round a)) (a : α) :
    Orderly β (Parse.loop round a) := by
  intro c hc
  have hround := h a c hc
  fun_induction Parse.loop round a c with
  | case1 a c b d hd => rw [hd] at hround; exact hround
  | case2 a c b d hd _ ih => rw [hd] at hround; exact ih hround (h b d hround)
  | case3 => trivial
  | case4 a c f d hd => rw [hd] at hround; exact hround
  | case5 => trivial

theorem integer : Orderly Expr Descent.integer := by
  intro c hc
  simp only [Descent.integer,current_bind]
  cases Text.numeral? c.current.text with
  | some v => exact hc
  | none => exact fail_current hc rfl

theorem firstOperand {g : Grammar} {d : Descent}
    (h : ∀ rule, rule ≠ .integer → Orderly Expr (d.head rule)) :
    Orderly Expr (Descent.firstOperand g d) := by
  intro c hc
  simp only [Descent.firstOperand,current_bind]
  cases g.head c.current.kind with
  | none => exact fail_current hc rfl
  | some rule =>
    by_cases hi : rule = .integer
    · subst hi
      exact integer c hc
    · exact h rule hi c hc

theorem inherited (g : Grammar) : Parse.Inherited g Parse.Orderly where
  pure _ := fun _ hc => hc
  bind := bind
  current := fun _ hc => hc
  peek := fun _ hc => hc
  peekIs _ := fun _ hc => hc
  advance := fun _ hc => hc.advance
  expect _ := expect _
  skip := skip
  tooDeep := fun _ hc => fail_current hc rfl
  diverge := fun _ _ => trivial
  nested := nested
  attempt := attempt
  loop := loop
  firstOperand := firstOperand

end Parse.Orderly

end Precedence
