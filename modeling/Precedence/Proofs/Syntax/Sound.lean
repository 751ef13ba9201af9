import Precedence.Proofs.Descent.Repetition
import Precedence.Proofs.Syntax.Derivation

/-! Whatever is read can be derived: the tokens that a reading has used up spell the tree it
gives, and it has not opened more levels than it had. Where faults were kept on the way, the
derivation has gaps. -/
namespace Precedence
open Parse

/-- What a descent reads can be derived with the levels it has. -/
structure Descent.Sound (gaps : Prop) (n : Nat) (d : Descent) : Prop where
  steady : d.Steady .standard
  expr : ∀ {power : Power} {c c' : Cursor} {e : Expr}, c.Proper → power < .call →
    d.expr power c = .done e c' → gaps ∨ c'.faults = #[] →
    ∃ layer, power.Admits layer ∧ ¬ power < Grammar.standard.power c'.peek.kind ∧
      ∃ m < n, Derivable gaps m (.expr layer e) c.ahead c'.rest
  block : ∀ {c c' : Cursor} {b : Block}, c.Proper → c.current.kind = .openBrace →
    d.block c = .done b c' → gaps ∨ c'.faults = #[] →
    Derivable gaps n (.block b) c.ahead c'.rest

namespace Descent
variable {gaps : Prop} {n : Nat} {d : Descent} {c c' : Cursor} {e : Expr}

theorem Sound.lowest (hd : d.Sound gaps n) (hc : c.Proper) (h : d.expr .lowest c = .done e c')
    (hf : gaps ∨ c'.faults = #[]) :
    c'.peek.kind.continues = false ∧
      ∃ m < n, Derivable gaps m (.expr .lowest e) c.ahead c'.rest := by
  obtain ⟨layer,-,hp,m,hm,he⟩ := hd.expr hc (by decide) h hf
  exact ⟨Grammar.continues_eq_false.mpr hp,m,hm,he.loosen layer.not_lt_lowest⟩

theorem Sound.lowest_behind (hd : d.Sound gaps n) (hc : c.Proper)
    (h : d.expr .lowest c.advance = .done e c') (hf : gaps ∨ c'.faults = #[]) :
    c'.peek.kind.continues = false ∧ c'.Proper ∧
      ∃ m < n, Derivable gaps m (.expr .lowest e) c.rest c'.rest := by
  obtain ⟨hk,hD⟩ := hd.lowest hc.advance h hf
  exact ⟨hk,(hd.steady.expr _).proper hc.advance h,hD⟩

theorem name_sound (hc : c.Proper) (hk : c.current.kind = .identifier)
    (h : name c = .done e c') : Derivable gaps n (.atom e) c.ahead c'.rest := by
  obtain ⟨rfl,rfl⟩ := Outcome.done.inj h
  rw [hc.ahead_eq (by simp [hk])]
  exact ⟨.name hk,Nat.zero_le n⟩

theorem integer_sound (hc : c.Proper) (hk : c.current.kind = .integer)
    (h : integer c = .done e c') : Derivable gaps n (.atom e) c.ahead c'.rest := by
  simp only [integer,current_bind] at h
  cases hn : Text.numeral? c.current.text with
  | none => simp [hn] at h
  | some v =>
    simp only [hn] at h
    obtain ⟨rfl,rfl⟩ := Outcome.done.inj h
    rw [hc.ahead_eq (by simp [hk])]
    exact ⟨.integer hk hn,Nat.zero_le n⟩

theorem boolean_sound (hc : c.Proper) (hk : c.current.kind = .trueWord ∨ c.current.kind = .falseWord)
    (h : boolean c = .done e c') : Derivable gaps n (.atom e) c.ahead c'.rest := by
  obtain ⟨rfl,rfl⟩ := Outcome.done.inj h
  rcases hk with hk | hk <;> rw [hc.ahead_eq (by simp [hk])] <;> simp only [hk]
  · exact ⟨.truth hk,Nat.zero_le n⟩
  · exact ⟨.falsity hk,Nat.zero_le n⟩

theorem group_sound (hd : d.Sound gaps n) (hc : c.Proper) (hk : c.current.kind = .openParen)
    (h : d.group c = .done e c') (hf : gaps ∨ c'.faults = #[]) :
    Derivable gaps n (.atom e) c.ahead c'.rest := by
  simp only [group,advance_bind,bind_eq_done,expect_eq_done] at h
  obtain ⟨e',c₁,he,_,_,⟨hclose,rfl,rfl⟩,h⟩ := h
  obtain ⟨rfl,rfl⟩ := Outcome.done.inj h
  obtain ⟨-,hc₁,m,hm,hD⟩ := hd.lowest_behind hc he ((Cursor.Follows.advance c₁).clean hf)
  rw [hc₁.rest_eq (by simp [hclose])] at hD
  obtain ⟨D,hD⟩ := hD
  rw [hc.ahead_eq (by simp [hk])]
  exact ⟨.group hk hclose D,by simp only [Derivation.levels]; omega⟩

theorem names_sound {ns : List Name} (hc : c.Proper) (h : Items parameter ns c c') :
    c'.Proper ∧ Names ns c.rest c'.rest := by
  induction h with
  | last h =>
    simp only [parameter,bind_eq_done,expect_eq_done] at h
    obtain ⟨_,_,⟨hk,rfl,rfl⟩,h⟩ := h
    obtain ⟨rfl,rfl⟩ := Outcome.done.inj h
    rw [hc.rest_eq (by simp [hk])]
    exact ⟨hc.advance,.last hk⟩
  | more h hcomma _ ih =>
    simp only [parameter,bind_eq_done,expect_eq_done] at h
    obtain ⟨_,_,⟨hk,rfl,rfl⟩,h⟩ := h
    obtain ⟨rfl,rfl⟩ := Outcome.done.inj h
    obtain ⟨hc',hn⟩ := ih hc.advance.advance
    rw [hc.rest_eq (by simp [hk]),hc.advance.rest_eq (by simp [hcomma])]
    exact ⟨hc',.more hk hcomma hn⟩

theorem parameters_sound {ns : List Name} (hc : c.Proper)
    (h : listed parameter c = .done ns c') : c'.Proper ∧ Parameters ns c.rest c'.rest := by
  rcases items_of_listed h with ⟨rfl,hk,rfl⟩ | ⟨c₁,hi,hk,rfl⟩
  · rw [hc.rest_eq (by simp [hk])]
    exact ⟨hc.advance,.none hk⟩
  · obtain ⟨hc₁,hn⟩ := names_sound hc hi
    rw [hc₁.rest_eq (by simp [hk])] at hn
    exact ⟨hc₁.advance,.some hk hn⟩

theorem items_sound {es : List Expr} (hd : d.Sound gaps n) (hc : c.Proper)
    (h : Items d.argument es c c') (hf : gaps ∨ c'.faults = #[]) :
    Derivable gaps n (.items es) c.rest c'.rest := by
  induction h with
  | last h =>
    obtain ⟨-,-,m,hm,D,hD⟩ := hd.lowest_behind hc h hf
    exact ⟨.lastItem D,by simp only [Derivation.levels]; omega⟩
  | @more e es c c₁ c' h hcomma hi ih =>
    have hl₁ := (argument_steady hd.steady).proper hc h
    have hf₁ := ((hi.follows (argument_steady hd.steady) hl₁.advance.last).trans (.advance c₁)).clean hf
    obtain ⟨-,hc₁,m,hm,hD⟩ := hd.lowest_behind hc h hf₁
    rw [hc₁.rest_eq (by simp [hcomma])] at hD
    obtain ⟨D,hD⟩ := hD
    obtain ⟨Ds,hDs⟩ := ih hc₁.advance hf
    exact ⟨.moreItems hcomma D Ds,by simp only [Derivation.levels]; omega⟩

theorem arguments_sound {es : List Expr} (hd : d.Sound gaps n) (hc : c.Proper)
    (h : listed d.argument c = .done es c') (hf : gaps ∨ c'.faults = #[]) :
    Derivable gaps n (.arguments es) c.rest c'.rest := by
  rcases items_of_listed h with ⟨rfl,hk,rfl⟩ | ⟨c₁,hi,hk,rfl⟩
  · rw [hc.rest_eq (by simp [hk])]
    exact ⟨.noArguments hk,Nat.zero_le n⟩
  · have hc₁ := (hi.follows (argument_steady hd.steady) hc.last).proper hc
    have hDs := items_sound hd hc hi ((Cursor.Follows.advance c₁).clean hf)
    rw [hc₁.rest_eq (by simp [hk])] at hDs
    exact hDs.elim fun Ds hDs => ⟨.someArguments hk Ds,hDs⟩

theorem Sound.block_behind {b : Block} (hd : d.Sound gaps n) (hc : c.Proper)
    (hk : c.peek.kind = .openBrace) (h : d.block c.advance = .done b c')
    (hf : gaps ∨ c'.faults = #[]) :
    c'.Proper ∧ Derivable gaps n (.block b) c.rest c'.rest :=
  ⟨hd.steady.block.proper hc.advance h,hd.block hc.advance hk h hf⟩

theorem alternative_sound {b : Option Block} (hd : d.Sound gaps n) (hc : c.Proper)
    (h : d.alternative c = .done b c') (hf : gaps ∨ c'.faults = #[]) :
    Derivable gaps n (.alternative b) c.rest c'.rest := by
  simp only [alternative,peekIs_bind] at h
  split at h
  · rename_i hk
    have hk := eq_of_beq hk
    simp only [advance_bind,bind_eq_done,expect_eq_done] at h
    obtain ⟨_,_,⟨hbrace,rfl,rfl⟩,b',c₁,hb,h⟩ := h
    obtain ⟨rfl,rfl⟩ := Outcome.done.inj h
    obtain ⟨-,D,hD⟩ := hd.block_behind hc.advance hbrace hb hf
    rw [hc.rest_eq (by simp [hk])]
    exact ⟨.elseBlock hk D,hD⟩
  · obtain ⟨rfl,rfl⟩ := Outcome.done.inj h
    exact ⟨.noElse,Nat.zero_le n⟩

theorem conditional_sound (hd : d.Sound gaps n) (hc : c.Proper) (hk : c.current.kind = .ifWord)
    (h : d.conditional c = .done e c') (hf : gaps ∨ c'.faults = #[]) :
    Derivable gaps n (.atom e) c.ahead c'.rest := by
  simp only [conditional,current_bind,advance_bind,bind_eq_done,expect_eq_done] at h
  obtain ⟨_,_,⟨hopen,rfl,rfl⟩,e',c₁,he,_,_,⟨hclose,rfl,rfl⟩,_,_,⟨hbrace,rfl,rfl⟩,a,c₂,ha,b,c₃,hb,h⟩ := h
  obtain ⟨rfl,rfl⟩ := Outcome.done.inj h
  have hc₁ := (hd.steady.expr _).proper hc.advance.advance he
  have hc₂ := hd.steady.block.proper hc₁.advance.advance ha
  have hf₂ := ((alternative_steady hd.steady).follows hc₂ hb).clean hf
  have hf₁ := ((hd.steady.block.follows hc₁.advance.advance ha).trans (.advance _)).clean hf₂
  obtain ⟨-,-,m,hm,hDe⟩ := hd.lowest_behind hc.advance he ((Cursor.Follows.advance c₁).clean hf₁)
  obtain ⟨-,Da,hDa⟩ := hd.block_behind hc₁.advance hbrace ha hf₂
  obtain ⟨Db,hDb⟩ := alternative_sound hd hc₂ hb hf
  rw [hc₁.rest_eq (by simp [hclose])] at hDe
  obtain ⟨De,hDe⟩ := hDe
  rw [hc.ahead_eq (by simp [hk]),hc.rest_eq (by simp [hopen])]
  exact ⟨.conditional hk hopen hclose De Da Db,by simp only [Derivation.levels]; omega⟩

theorem function_sound (hd : d.Sound gaps n) (hc : c.Proper) (hk : c.current.kind = .fnWord)
    (h : d.function c = .done e c') (hf : gaps ∨ c'.faults = #[]) :
    Derivable gaps n (.atom e) c.ahead c'.rest := by
  simp only [function,current_bind,bind_eq_done,expect_eq_done] at h
  obtain ⟨_,_,⟨hopen,rfl,rfl⟩,ns,c₁,hn,_,_,⟨hbrace,rfl,rfl⟩,b,c₂,hb,h⟩ := h
  obtain ⟨rfl,rfl⟩ := Outcome.done.inj h
  obtain ⟨hc₁,hN⟩ := parameters_sound hc.advance hn
  obtain ⟨-,D,hD⟩ := hd.block_behind hc₁ hbrace hb hf
  rw [hc.ahead_eq (by simp [hk]),hc.rest_eq (by simp [hopen])]
  exact ⟨.function hk hopen hN D,hD⟩

/-- A prefix operator takes all that binds more tightly than it, so that nothing that follows
does. -/
theorem unary_sound (hd : d.Sound gaps n) (hc : c.Proper)
    (hk : c.current.kind = .bang ∨ c.current.kind = .minus) (h : d.unary c = .done e c')
    (hf : gaps ∨ c'.faults = #[]) :
    ¬ Power.unary < Grammar.standard.power c'.peek.kind ∧
      Derivable gaps n (.expr .unary e) c.ahead c'.rest := by
  simp only [unary,advance_bind,bind_eq_done] at h
  obtain ⟨e',c₁,he,h⟩ := h
  obtain ⟨rfl,rfl⟩ := Outcome.done.inj h
  obtain ⟨layer,hl,hp,m,hm,hD⟩ := hd.expr hc.advance (by decide) he hf
  have hle : ¬ layer < .unary := by
    rcases hl with hl | rfl
    · exact Nat.lt_asymm hl
    · exact Nat.lt_irrefl _
  obtain ⟨D,hD⟩ := hD.loosen hle
  rw [hc.ahead_eq (by rcases hk with hk | hk <;> simp [hk])]
  exact ⟨hp,.unary hk D,by simp only [Derivation.levels]; exact Nat.le_trans (Nat.succ_le_succ hD) hm⟩

theorem firstOperand_sound (hd : d.Sound gaps n) (hc : c.Proper)
    (h : firstOperand .standard d c = .done e c') (hf : gaps ∨ c'.faults = #[]) :
    ∃ layer, (layer = .unary ∨ layer = .call) ∧
      ¬ layer < Grammar.standard.power c'.peek.kind ∧
      Derivable gaps n (.expr layer e) c.ahead c'.rest := by
  simp only [firstOperand,current_bind] at h
  have atom (hD : Derivable gaps n (.atom e) c.ahead c'.rest) :
      ∃ layer, (layer = .unary ∨ layer = .call) ∧
        ¬ layer < Grammar.standard.power c'.peek.kind ∧
        Derivable gaps n (.expr layer e) c.ahead c'.rest :=
    ⟨.call,.inr rfl,Power.not_call_lt _,hD.elim fun D hD => ⟨.ofAtom D,hD⟩⟩
  cases hk : c.current.kind <;> simp only [hk,Grammar.standard] at h
  case identifier => exact atom (name_sound hc hk h)
  case integer => exact atom (integer_sound hc hk h)
  case trueWord => exact atom (boolean_sound hc (.inl hk) h)
  case falseWord => exact atom (boolean_sound hc (.inr hk) h)
  case openParen => exact atom (group_sound hd hc hk h hf)
  case ifWord => exact atom (conditional_sound hd hc hk h hf)
  case fnWord => exact atom (function_sound hd hc hk h hf)
  case bang => exact ⟨.unary,.inl rfl,unary_sound hd hc (.inl hk) h hf⟩
  case minus => exact ⟨.unary,.inl rfl,unary_sound hd hc (.inr hk) h hf⟩
  all_goals simp at h

/-- An operator that binds no tighter than the operand before it takes that operand as a whole. -/
theorem tail_sound {rule : TailRule} {left : Expr} {input : List Token} {layer : Power}
    (hd : d.Sound gaps n) (hc : c.Proper) (hr : Grammar.standard.tail c.peek.kind = some rule)
    (hl : ¬ layer < Grammar.standard.power c.peek.kind)
    (hleft : Derivable gaps n (.expr layer left) input c.rest)
    (h : d.tail rule left (Grammar.standard.power c.peek.kind) c.advance = .done e c')
    (hf : gaps ∨ c'.faults = #[]) :
    ¬ Grammar.standard.power c.peek.kind < Grammar.standard.power c'.peek.kind ∧
      Derivable gaps n (.expr (Grammar.standard.power c.peek.kind) e) input c'.rest := by
  have hk : c.peek.kind ≠ .endOfInput := by
    intro hk
    rw [hk] at hr
    simp [Grammar.standard] at hr
  have hleft := hleft.loosen hl
  rw [hc.rest_eq hk] at hleft
  cases rule with
  | binary =>
    obtain ⟨L,hL⟩ := hleft
    obtain ⟨ho,hu⟩ := Grammar.standard_tail_binary hr
    simp only [tail,binary,advance_bind,bind_eq_done] at h
    obtain ⟨right,c₁,hright,h⟩ := h
    obtain ⟨rfl,rfl⟩ := Outcome.done.inj h
    obtain ⟨tighter,ht,hp,m,hm,R,hR⟩ := hd.expr hc.advance.advance (Nat.lt_trans hu (by decide)) hright hf
    have ht : Grammar.standard.power c.peek.kind < tighter := by
      rcases ht with ht | rfl
      · exact ht
      · exact hu
    exact ⟨hp,.binary ho ht L R,Nat.max_le.mpr ⟨hL,Nat.le_trans (Nat.succ_le_succ hR) hm⟩⟩
  | call =>
    have ho := Grammar.standard_tail_call hr
    simp only [tail,call,current_bind,bind_eq_done] at h
    obtain ⟨es,c₁,hes,h⟩ := h
    obtain ⟨rfl,rfl⟩ := Outcome.done.inj h
    obtain ⟨A,hA⟩ := arguments_sound hd hc.advance hes hf
    rw [show Grammar.standard.power c.peek.kind = .call by rw [ho]; rfl] at hleft ⊢
    obtain ⟨L,hL⟩ := hleft
    exact ⟨Power.not_call_lt _,.call ho L A,Nat.max_le.mpr ⟨hL,hA⟩⟩

/-- The repetition over operators keeps a derivation of the operand it holds, in a layer that
the next operator does not bind tighter than. -/
theorem operators_sound {power layer : Power} {left : Expr} {input : List Token}
    (hd : d.Sound gaps n) (hc : c.Proper) (ha : power.Admits layer)
    (hl : ¬ layer < Grammar.standard.power c.peek.kind)
    (hleft : Derivable gaps n (.expr layer left) input c.rest)
    (h : operators .standard d power left c = .done e c') (hf : gaps ∨ c'.faults = #[]) :
    ∃ layer, power.Admits layer ∧ ¬ power < Grammar.standard.power c'.peek.kind ∧
      Derivable gaps n (.expr layer e) input c'.rest := by
  -- The layer of the held operand changes with each operator, so the induction is for all layers.
  refine loop_done_induction (P := fun left c => ∀ layer, c.Proper → power.Admits layer →
    ¬ layer < Grammar.standard.power c.peek.kind → Derivable gaps n (.expr layer left) input c.rest →
    ∃ layer, power.Admits layer ∧ ¬ power < Grammar.standard.power c'.peek.kind ∧
      Derivable gaps n (.expr layer e) input c'.rest) ?_ ?_ left c h layer hc ha hl hleft
  · intro left c hr layer hc ha hl hleft
    simp only [operator,peek_bind] at hr
    split at hr
    · rename_i hk
      cases hrule : Grammar.standard.tail c.peek.kind with
      | none =>
        rw [Grammar.standard_tail_none hrule] at hk
        exact absurd hk.2 power.not_lt_lowest
      | some rule => simp [hrule,bind_eq_done] at hr
    · rename_i hk
      obtain ⟨hx,rfl⟩ := Outcome.done.inj hr
      obtain rfl := Round.stop.inj hx
      refine ⟨layer,ha,fun hp => hk ⟨fun hs => ?_,hp⟩,hleft⟩
      rw [hs] at hp
      exact power.not_lt_lowest hp
  · intro left c left' c₁ hr hloop ih layer hc ha hl hleft
    have hf₁ := ((operators_steady hd.steady _ _).follows
      ((operator_steady hd.steady _ _).proper hc hr) hloop).clean hf
    simp only [operator,peek_bind] at hr
    split at hr
    · rename_i hk
      cases hrule : Grammar.standard.tail c.peek.kind with
      | none => simp [hrule] at hr
      | some rule =>
        simp only [hrule,advance_bind,bind_eq_done] at hr
        obtain ⟨x,c₂,hx,hr⟩ := hr
        obtain ⟨hx',rfl⟩ := Outcome.done.inj hr
        obtain rfl := Round.again.inj hx'
        have hc₂ := (tail_steady hd.steady _ _ _).proper hc.advance hx
        obtain ⟨hp,hD⟩ := tail_sound hd hc hrule hl hleft hx hf₁
        exact ih _ hc₂ (.inl hk.2) hp hD
    · simp at hr

theorem expression_sound {power : Power} (hd : d.Sound gaps n) (hc : c.Proper)
    (hp : power < .call) (h : expression .standard d power c = .done e c')
    (hf : gaps ∨ c'.faults = #[]) :
    ∃ layer, power.Admits layer ∧ ¬ power < Grammar.standard.power c'.peek.kind ∧
      Derivable gaps n (.expr layer e) c.ahead c'.rest := by
  simp only [expression,bind_eq_done] at h
  obtain ⟨left,c₁,hleft,h⟩ := h
  have hc₁ := (firstOperand_steady hd.steady).proper hc hleft
  have hf₁ := ((operators_steady hd.steady _ _).follows hc₁ h).clean hf
  obtain ⟨layer,ha,hl,hD⟩ := firstOperand_sound hd hc hleft hf₁
  refine operators_sound hd hc₁ ?_ hl hD h hf
  rcases ha with rfl | rfl
  · exact .inr rfl
  · exact .inl hp

theorem skip_sound (hc : c.Proper) (hk : c.peek.kind.continues = false) :
    Terminator c.rest (if c.peek.kind = .semicolon then c.advance else c).rest := by
  split
  · rename_i hs
    rw [hc.rest_eq (by simp [hs])]
    exact .semicolon hs
  · refine .omitted fun t ht => ?_
    obtain ⟨ts,hr⟩ := List.head?_eq_some_iff.mp ht
    rw [← Cursor.peek_of_rest hr]
    exact hk

theorem follows_skip (c : Cursor) :
    (if c.peek.kind = .semicolon then c.advance else c).Follows c := by
  split
  · exact .advance c
  · exact .refl c

theorem expressionStatement_sound {s : Stmt} (hd : d.Sound gaps n) (hc : c.Proper)
    (h : d.expressionStatement c = .done s c') (hf : gaps ∨ c'.faults = #[]) :
    Derivable gaps n (.statement s) c.ahead c'.rest := by
  simp only [expressionStatement,current_bind,bind_eq_done,skip_apply] at h
  obtain ⟨e,c₁,he,_,_,hs,h⟩ := h
  obtain ⟨-,rfl⟩ := Outcome.done.inj hs
  obtain ⟨rfl,rfl⟩ := Outcome.done.inj h
  have hc₁ := (hd.steady.expr _).proper hc he
  obtain ⟨hk,m,hm,hD⟩ := hd.lowest hc he ((follows_skip c₁).clean hf)
  obtain ⟨t,ts,ha⟩ : ∃ t ts, c.ahead = t :: ts := by
    obtain ⟨D,-⟩ := hD
    obtain ⟨t,ht,-⟩ := D.starts
    exact ⟨t,List.head?_eq_some_iff.mp ht⟩
  rw [Cursor.current_of_ahead ha]
  rw [ha] at hD ⊢
  obtain ⟨D,hD⟩ := hD
  exact ⟨.expression D (skip_sound hc₁ hk),by simp only [Derivation.levels]; omega⟩

theorem bindingStatement_sound {s : Stmt} (hd : d.Sound gaps n) (hc : c.Proper)
    (hk : c.current.kind = .letWord) (h : d.bindingStatement c = .done s c')
    (hf : gaps ∨ c'.faults = #[]) : Derivable gaps n (.statement s) c.ahead c'.rest := by
  simp only [bindingStatement,current_bind,advance_bind,bind_eq_done,expect_eq_done,skip_apply] at h
  obtain ⟨_,_,⟨hname,rfl,rfl⟩,_,_,⟨hassign,rfl,rfl⟩,e,c₁,he,_,_,hs,h⟩ := h
  obtain ⟨-,rfl⟩ := Outcome.done.inj hs
  obtain ⟨rfl,rfl⟩ := Outcome.done.inj h
  obtain ⟨hp,hc₁,m,hm,D,hD⟩ := hd.lowest_behind hc.advance.advance he ((follows_skip c₁).clean hf)
  rw [hc.ahead_eq (by simp [hk]),hc.rest_eq (by simp [hname]),hc.advance.rest_eq (by simp [hassign])]
  exact ⟨.binding hk hname hassign D (skip_sound hc₁ hp),by simp only [Derivation.levels]; omega⟩

theorem resultStatement_sound {s : Stmt} (hd : d.Sound gaps n) (hc : c.Proper)
    (hk : c.current.kind = .returnWord) (h : d.resultStatement c = .done s c')
    (hf : gaps ∨ c'.faults = #[]) : Derivable gaps n (.statement s) c.ahead c'.rest := by
  simp only [resultStatement,advance_bind,current_bind] at h
  rw [hc.ahead_eq (by simp [hk])]
  split at h
  · rename_i hs
    obtain ⟨rfl,rfl⟩ := Outcome.done.inj h
    have hs : c.peek.kind = .semicolon := hs
    rw [hc.rest_eq (by simp [hs])]
    exact ⟨.bareResult hk hs,Nat.zero_le n⟩
  · simp only [bind_eq_done,skip_apply] at h
    obtain ⟨e,c₁,he,_,_,hs,h⟩ := h
    obtain ⟨-,rfl⟩ := Outcome.done.inj hs
    obtain ⟨rfl,rfl⟩ := Outcome.done.inj h
    obtain ⟨hp,hc₁,m,hm,D,hD⟩ := hd.lowest_behind hc he ((follows_skip c₁).clean hf)
    exact ⟨.result hk D (skip_sound hc₁ hp),by simp only [Derivation.levels]; omega⟩

theorem statement_sound {s : Stmt} (hd : d.Sound gaps n) (hc : c.Proper)
    (h : statement .standard d c = .done s c') (hf : gaps ∨ c'.faults = #[]) :
    Derivable gaps n (.statement s) c.ahead c'.rest := by
  simp only [statement,current_bind] at h
  cases hk : c.current.kind <;> simp only [hk,Grammar.standard,statementBy] at h
  case letWord => exact bindingStatement_sound hd hc hk h hf
  case returnWord => exact resultStatement_sound hd hc hk h hf
  all_goals exact expressionStatement_sound hd hc h hf

/-- The repetition over statements adds what can be derived, and where a statement fails its
tokens are left out. -/
theorem statements_sound {stop : Kind → Bool} {ss : List Stmt} (hd : d.Sound gaps n)
    (hs : stop .endOfInput = true) (hc : c.Proper)
    (h : statements .standard d stop c = .done ss c') (hf : gaps ∨ c'.faults = #[]) :
    stop c'.current.kind = true ∧ Derivable gaps n (.statements ss) c.ahead c'.ahead := by
  suffices key : ∃ zs, ss = [].reverse ++ zs ∧ stop c'.current.kind = true ∧
      Derivable gaps n (.statements zs) c.ahead c'.ahead by
    obtain ⟨zs,rfl,hk,hD⟩ := key
    exact ⟨hk,hD⟩
  refine loop_done_induction (P := fun read c => c.Proper → ∃ zs, ss = read.reverse ++ zs ∧
    stop c'.current.kind = true ∧ Derivable gaps n (.statements zs) c.ahead c'.ahead) ?_ ?_ [] c h hc
  · intro read c hr hc
    simp only [moreStatements,current_bind] at hr
    split at hr
    · rename_i hk
      obtain ⟨hx,rfl⟩ := Outcome.done.inj hr
      obtain rfl := Round.stop.inj hx
      exact ⟨[],by simp,hk,.nil,Nat.zero_le n⟩
    · simp [bind_eq_done] at hr
  · intro read c read' c₁ hr hloop ih hc
    have hc₁ := (moreStatements_steady hd.steady _ _).proper hc hr
    have hf₁ := ((Steady.loop (moreStatements_steady hd.steady _)
      (moreStatements_progresses hd.steady hs) _).follows hc₁ hloop).clean hf
    obtain ⟨zs,rfl,hk,hzs⟩ := ih hc₁
    simp only [moreStatements,current_bind] at hr
    split at hr
    · simp at hr
    · simp only [advance_bind,bind_eq_done] at hr
      obtain ⟨o,c₂,ho,hr⟩ := hr
      obtain ⟨hx,rfl⟩ := Outcome.done.inj hr
      obtain rfl := Round.again.inj hx
      have hf₂ := (Cursor.Follows.advance c₂).clean hf₁
      rw [Cursor.ahead_advance] at hzs
      rcases attempt_eq_done.mp ho with ⟨s,hs',rfl⟩ | ⟨f,e,he,rfl,rfl⟩
      · obtain ⟨D,hD⟩ := hzs
        obtain ⟨S,hS⟩ := statement_sound hd hc hs' hf₂
        exact ⟨s :: zs,by simp,hk,.cons S D,Nat.max_le.mpr ⟨hS,hD⟩⟩
      -- A statement that failed left a fault, so its tokens may be a gap.
      · have hg : gaps := hf₂.resolve_right (by simp [Cursor.record])
        have hsuffix : e.rest <:+ c.ahead := by
          have hfollows := statement_steady hd.steady c hc.last
          rw [he] at hfollows
          exact (List.tail_suffix _).trans hfollows.ahead
        obtain ⟨skipped,hskip⟩ := hsuffix
        obtain ⟨D,hD⟩ : Derivable gaps n (.statements zs) e.rest c'.ahead := hzs
        rw [← hskip]
        exact ⟨zs,by simp,hk,D.skipAll hg skipped,by simpa using hD⟩

theorem body_sound {b : Block} (hd : d.Sound gaps n) (hc : c.Proper)
    (hk : c.current.kind = .openBrace) (h : body .standard d c = .done b c')
    (hf : gaps ∨ c'.faults = #[]) : Derivable gaps (n+1) (.block b) c.ahead c'.rest := by
  simp only [body,advance_bind,bind_eq_done] at h
  obtain ⟨ss,c₁,hss,h⟩ := h
  obtain ⟨rfl,rfl⟩ := Outcome.done.inj h
  have hc₁ := (statements_steady hd.steady rfl).proper hc.advance hss
  obtain ⟨hend,hD⟩ := statements_sound hd rfl hc.advance hss hf
  simp only [endsBlock,Bool.or_eq_true,beq_iff_eq] at hend
  rw [Cursor.ahead_advance] at hD
  rw [hc.ahead_eq (by simp [hk])]
  rcases hend with hclose | hlast
  · rw [hc₁.ahead_eq (by simp [hclose])] at hD
    exact hD.elim fun D hD => ⟨.closedBlock hk hclose D,Nat.succ_le_succ hD⟩
  · have hnil := hc₁.ahead_eq_nil hlast
    have hrest : c₁.rest = [] := by rw [Cursor.rest,hnil]; rfl
    rw [hnil] at hD
    rw [hrest]
    exact hD.elim fun D hD => ⟨.openBlock hk D,Nat.succ_le_succ hD⟩

theorem within_sound (gaps : Prop) (n : Nat) : (within .standard n).Sound gaps n := by
  induction n with
  | zero => exact ⟨within_steady _ 0,fun _ _ h => by simp [within,tooDeep] at h,
      fun _ _ h => by simp [within,tooDeep] at h⟩
  | succ n ih =>
    refine ⟨within_steady _ _,?_,?_⟩
    · intro power c c' e hc hp h hf
      obtain ⟨c₁,he,rfl⟩ := nested_eq_done.mp h
      obtain ⟨layer,ha,hk,hD⟩ := expression_sound ih hc.deeper hp he hf
      exact ⟨layer,ha,hk,n,Nat.lt_succ_self n,hD⟩
    · intro c c' b hc hk h hf
      obtain ⟨c₁,hb,rfl⟩ := nested_eq_done.mp h
      exact @body_sound gaps n _ c.deeper c₁ b ih hc.deeper hk hb hf

end Descent
end Precedence
