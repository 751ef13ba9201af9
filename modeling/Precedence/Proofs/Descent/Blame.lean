import Precedence.Proofs.Descent.Frame
import Precedence.Proofs.Descent.Inheritance
import Precedence.Proofs.Syntax.Formed

/-! Which token a fault lies at: one of those that lie ahead where reading starts, of the kind that
the fault tells of, and one that no rule of the language has a use for there. -/
namespace Precedence
open Parse Cursor

/-- The token is one that a fault of this cause lies at. -/
def Cause.Blames (t : Token) : Cause → Prop
  | unexpected expected received =>
    t.kind = received ∧ received ≠ expected ∧
      expected ∈ [Kind.identifier,.assign,.openParen,.closeParen,.openBrace]
  | noHead kind => t.kind = kind ∧ Grammar.standard.head kind = none
  | badInteger literal =>
    t.kind = .integer ∧ t.text = literal ∧ Text.integerLimit < Nat.ofDigitChars 10 literal.toList 0
  | tooDeep limit => limit = 128

structure Fault.LiesAt (f : Fault) (t : Token) : Prop where
  position : f.position = t.position
  blames : f.cause.Blames t

/-- The fault lies at a token that is ahead, or at the end token. -/
def Cursor.Bears (c : Cursor) (f : Fault) : Prop := ∃ t ∈ c.ahead ++ [c.last], f.LiesAt t

/-- All faults that one cursor has and the other had not lie at a token that was ahead. -/
def Cursor.Accounts (d c : Cursor) : Prop :=
  ∀ f ∈ d.faults.toList, f ∈ c.faults.toList ∨ c.Bears f

/-- Reading only goes on, and finds faults only in what it comes to. -/
def Outcome.Blames {α : Type} (o : Outcome α) (c : Cursor) : Prop :=
  match o with
  | .done _ d => d.Follows c ∧ d.Accounts c
  | .failed f d => d.Follows c ∧ d.Accounts c ∧ c.Bears f
  | .endless => True

/-- An action finds faults only where they are, given tokens as the scanner cuts them. -/
def Parse.Blames (α : Type) (p : Parse α) : Prop :=
  ∀ c, Lexed c.ahead → c.last.kind = .endOfInput → (p c).Blames c

namespace Cursor
variable {c d e : Cursor} {f : Fault}

theorem current_mem (c : Cursor) : c.current ∈ c.ahead ++ [c.last] := by
  unfold current
  cases c.ahead <;> simp

theorem current_mem_ahead (c : Cursor) (h : c.ahead ≠ []) : c.current ∈ c.ahead := by
  unfold current
  cases ha : c.ahead with
  | nil => exact absurd ha h
  | cons t ts => simp

theorem peek_mem (c : Cursor) : c.peek ∈ c.ahead ++ [c.last] := by
  unfold peek
  rcases c.ahead with _ | ⟨t,_ | ⟨u,ts⟩⟩ <;> simp

theorem Bears.before (h : d.Bears f) (hd : d.Follows c) : c.Bears f := by
  obtain ⟨t,ht,hf⟩ := h
  refine ⟨t,?_,hf⟩
  rw [List.mem_append,hd.last] at ht
  exact List.mem_append.mpr (ht.imp_left fun h => hd.ahead.subset h)

namespace Accounts

theorem refl (c : Cursor) : c.Accounts c := fun _ hf => .inl hf

theorem trans (he : e.Accounts d) (hf : d.Follows c) (hd : d.Accounts c) : e.Accounts c := by
  intro f hm
  rcases he f hm with h | h
  · exact hd f h
  · exact .inr (h.before hf)

theorem record (h : d.Accounts c) (hf : c.Bears f) : (d.record f).Accounts c := by
  intro g hg
  rw [faults_record,List.mem_append,List.mem_singleton] at hg
  rcases hg with hg | rfl
  · exact h g hg
  · exact .inr hf

end Accounts

theorem Follows.lexed (h : d.Follows c) (hc : Lexed c.ahead) : Lexed d.ahead :=
  fun t ht => hc t (h.ahead.subset ht)

end Cursor

namespace Outcome.Blames
variable {α : Type} {c d : Cursor}

theorem still (a : α) (c : Cursor) : (Outcome.done a c).Blames c := ⟨.refl c,.refl c⟩

theorem moved (a : α) (c : Cursor) : (Outcome.done a c.advance).Blames c :=
  ⟨.advance c,fun _ hf => .inl hf⟩

theorem fails {e : Cause} {t : Token} (ht : t ∈ c.ahead ++ [c.last]) (he : e.Blames t) :
    (Outcome.failed ⟨e,t.position⟩ c : Outcome α).Blames c :=
  ⟨.refl c,.refl c,t,ht,rfl,he⟩

theorem trans {o : Outcome α} (h : o.Blames d) (hf : d.Follows c) (hd : d.Accounts c) :
    o.Blames c := by
  cases o with
  | done a e =>
    obtain ⟨he,ha⟩ := h
    exact ⟨he.trans hf,ha.trans hf hd⟩
  | failed f e =>
    obtain ⟨he,ha,hb⟩ := h
    exact ⟨he.trans hf,ha.trans hf hd,hb.before hf⟩
  | endless => trivial

end Outcome.Blames

namespace Parse.Blames
variable {α β : Type} {p : Parse α}
open Outcome.Blames

theorem bind {q : α → Parse β} (hp : Blames α p) (hq : ∀ a, Blames β (q a)) :
    Blames β (p >>= q) := by
  intro c hc hl
  have h := hp c hc hl
  rw [bind_apply]
  cases hpc : p c with
  | done a d =>
    rw [hpc] at h
    obtain ⟨hf,hd⟩ := h
    exact (hq a d (hf.lexed hc) ((congrArg Token.kind hf.last).trans hl)).trans hf hd
  | failed f d => rw [hpc] at h; exact h
  | endless => trivial

theorem expect {k : Kind} (hk : k.asked = true) : Blames Token (Parse.expect k) := by
  intro c _ _
  unfold Parse.expect
  split
  · exact moved _ c
  · rename_i hne
    refine fails c.peek_mem ⟨rfl,hne,?_⟩
    cases k <;> simp_all [Kind.asked]

theorem skip (k : Kind) : Blames Unit (Parse.skip k) := by
  intro c _ _
  rw [skip_apply]
  split
  · exact moved _ c
  · exact still _ c

theorem tooDeep : Blames α Parse.tooDeep := fun c _ _ => fails c.current_mem rfl

theorem nested (hp : Blames α p) : Blames α (Parse.nested p) := by
  intro c hc hl
  have h := hp c.deeper hc hl
  unfold Parse.nested
  cases hpc : p c.deeper with
  | done a d =>
    rw [hpc] at h
    exact ⟨h.1.leave,h.2⟩
  | failed f d =>
    rw [hpc] at h
    exact ⟨h.1.leave,h.2⟩
  | endless => trivial

theorem attempt (hp : Blames α p) : Blames (Option α) (Parse.attempt p) := by
  intro c hc hl
  have h := hp c hc hl
  unfold Parse.attempt
  cases hpc : p c with
  | done a d => rw [hpc] at h; exact h
  | failed f d =>
    rw [hpc] at h
    obtain ⟨hf,hd,hb⟩ := h
    exact ⟨(Follows.record d f).trans hf,hd.record hb⟩
  | endless => trivial

theorem loop {round : α → Parse (Round α β)} (h : ∀ a, Blames (Round α β) (round a)) (a : α) :
    Blames β (Parse.loop round a) := by
  intro c hc hl
  have hround := h a c hc hl
  fun_induction Parse.loop round a c with
  | case1 a c b d hd => rw [hd] at hround; exact hround
  | case2 a c b d hd _ ih =>
    rw [hd] at hround
    obtain ⟨hf,ha⟩ := hround
    have hld := (congrArg Token.kind hf.last).trans hl
    exact (ih (hf.lexed hc) hld (h b d (hf.lexed hc) hld)).trans hf ha
  | case3 => trivial
  | case4 a c f d hd => rw [hd] at hround; exact hround
  | case5 => trivial

/-- A literal that is read as an integer is a run of digits, so that only its value can be at
fault. -/
theorem integer {c : Cursor} (hc : Lexed c.ahead) (hl : c.last.kind = .endOfInput)
    (hk : c.current.kind = .integer) : (Descent.integer c).Blames c := by
  simp only [Descent.integer,current_bind]
  cases hn : Text.numeral? c.current.text with
  | some v => exact still _ c
  | none =>
    refine fails c.current_mem ⟨hk,rfl,?_⟩
    have hmem : c.current ∈ c.ahead := c.current_mem_ahead (ahead_ne_nil hl (by simp [hk]))
    obtain ⟨he,hd⟩ := (hc _ hmem).digits hk
    have he : c.current.text ≠ "" := he
    have hd : c.current.text.toList.all Char.isDigit = true := hd
    simpa [Text.numeral?,he,hd] using hn

theorem firstOperand {d : Descent} (h : ∀ rule, rule ≠ .integer → Blames Expr (d.head rule)) :
    Blames Expr (Descent.firstOperand .standard d) := by
  intro c hc hl
  simp only [Descent.firstOperand,current_bind]
  cases hr : Grammar.standard.head c.current.kind with
  | none => exact fails c.current_mem ⟨rfl,hr⟩
  | some rule =>
    by_cases hi : rule = .integer
    · subst hi
      have hk : c.current.kind = .integer := by
        cases hk : c.current.kind <;> simp [hk,Grammar.standard] at hr ⊢
      exact integer hc hl hk
    · exact h rule hi c hc hl

theorem inherited : Parse.Inherited .standard Parse.Blames where
  pure a := fun c _ _ => still a c
  bind := bind
  current := fun c _ _ => still _ c
  peek := fun c _ _ => still _ c
  peekIs _ := fun c _ _ => still _ c
  advance := fun c _ _ => moved _ c
  expect := expect
  skip := skip
  tooDeep := tooDeep
  diverge := fun _ _ _ => trivial
  nested := nested
  attempt hp hq := bind (attempt hp) fun o => bind (fun c _ _ => moved _ c) fun _ => hq o
  loop := loop
  firstOperand := firstOperand

end Parse.Blames

end Precedence
