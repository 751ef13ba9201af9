import Precedence.Proofs.Descent.Edge
import Precedence.Proofs.Syntax.Complete
import Precedence.Proofs.Syntax.Parentheses

/-! Precedence and parentheses. An expression is read as the tree that it was written from, however
many parentheses were added to those that its operators need. -/
namespace Precedence
open Parse Cursor Descent

theorem Cursor.Proper.exists_longer {c : Cursor} {x : Token} (hc : c.Proper) (hne : c.ahead ≠ [])
    (hx : x.kind ≠ .endOfInput) :
    ∃ d : Cursor, d.ahead = c.ahead ++ [x] ∧ d.Proper ∧ d.Trimmed [x] c := by
  refine ⟨{ ahead := c.ahead ++ [x], last := c.last, depth := c.depth, faults := c.faults },rfl,
    ⟨hc.last,fun t ht => ?_⟩,⟨rfl,hne,hc.last,hc.last,rfl,rfl⟩⟩
  rcases List.mem_append.mp ht with ht | ht
  · exact hc.ahead t ht
  · rwa [List.mem_singleton.mp ht]

/-- What is derived in front of a semicolon is read where the tokens end instead, up to its last
token. -/
theorem Descent.expr_at_end {n : Nat} {e : Expr} {input rest : List Token} {x : Token} {c : Cursor}
    (D : Derivation False (.expr .lowest e) (input ++ [x]) (rest ++ [x])) (hx : x.kind = .semicolon)
    (hlevels : D.levels < n) (hc : c.Proper) (ha : c.ahead = input)
    (hrest : ∀ t ∈ rest.head?, t.kind ≠ .elseWord ∧ t.kind.continues = false) :
    ∃ c' last, (levels n).expr .lowest c = .done e c' ∧ c'.ahead = last :: rest ∧
      c'.faults = c.faults := by
  obtain ⟨t,ht,hstarts⟩ := D.starts
  have hne : input ≠ [] := by
    rintro rfl
    obtain rfl : x = t := Option.some.inj ht
    simp [hx,Kind.starts] at hstarts
  obtain ⟨d,hd,hproper,hdc⟩ := hc.exists_longer (ha ▸ hne)
    (show x.kind ≠ .endOfInput by simp [hx])
  rw [ha] at hd
  have hstops : Power.lowest.Stops (rest ++ [x]) := by
    cases rest with
    | nil => exact .of_kind (by rw [hx]; rfl) (by simp [hx])
    | cons t ts => exact .of_kind (hrest t rfl).2 (hrest t rfl).1
  have hm := D.reads.opened (n := n) ⟨by decide,by decide⟩ (by decide) hstops ht hproper hd
  have hnone : Derivation.opening (input ++ [x]).head? D.exceeds n = none :=
    (Derivation.opening_eq_none D.first_ne_none D.exceeds_eq_none).mpr hlevels
  rw [hnone] at hm
  obtain ⟨d',hdone,hreached⟩ := hm
  obtain ⟨last,hlast⟩ : ∃ last, d'.ahead = last :: (rest ++ [x]) := by
    have hplace : d'.ahead.tail = rest ++ [x] := hreached.place
    cases h : d'.ahead with
    | nil => simp [h] at hplace
    | cons u us => exact ⟨u,by rw [← hplace,h]; rfl⟩
  -- In front of the semicolon nothing depends on it.
  have hr := ((within_trims [x] n).expr .lowest).run d c hdc
  rw [show (within .standard n).expr .lowest d = _ from hdone] at hr
  obtain ⟨c',hdone',hcut⟩ := hr.resolve_left (by simp [Past,hlast])
  have hahead : c'.ahead ++ [x] = last :: rest ++ [x] := hcut.ahead.symm.trans hlast
  exact ⟨c',last,hdone',List.append_cancel_right hahead,
    hcut.faults.trans (hreached.faults.trans hdc.faults.symm)⟩

/-- An expression that is written with any number of parentheses around each of its parts, and those
that its operators need among them, is read as the tree that it was written from, up to its last
token and without a fault, if the token behind it does not go on with it and there are enough levels
left. The expression itself takes one level more than its parts. What is read keeps for an
expression statement the token that this is written with, so it is the same tree where the tree
keeps that one, and elsewhere it is the same but for those tokens. -/
theorem parentheses_transparent {keep : Token → Token} {k : Nat} {e : Expr}
    {input rest : List Token} (w : Writing keep (.expr k e) input rest) (formed : e.Formed)
    (c : Cursor) (proper : c.Proper) (here : c.ahead = input)
    (behind : ∀ t ∈ rest.head?, t.kind ≠ .elseWord ∧ t.kind.continues = false)
    (free : c.depth+(w.levels+1) ≤ nestingLimit) :
    ∃ e' c' used last, Grammar.standard.expr .lowest c = .done e' c' ∧
      (e'.keeping keep).alike (e.keeping keep) = true ∧ (keep = id → e'.alike e = true) ∧
      c'.faults = c.faults ∧ input = used ++ last :: rest ∧ c'.ahead = last :: rest := by
  -- The source may end behind the expression, where a derivation asks for one more token.
  obtain ⟨e',he,D,hD⟩ := (w.derived [.mark .semicolon] formed).lowest
  have hid : keep = id → e'.alike e = true := by
    rintro rfl
    simpa using he
  obtain ⟨c',last,hdone,hahead,hfaults⟩ := expr_at_end (n := nestingLimit-c.depth) D rfl (by omega)
    proper here behind
  obtain ⟨used,hused⟩ := (((levels_steady _).expr .lowest).follows proper hdone).ahead
  rw [hahead,here] at hused
  exact ⟨e',c',used,last,hdone,he,hid,hfaults,hused.symm,hahead⟩

/-- A product of a sum with needless parentheses and of a negated sum, in front of a semicolon. -/
theorem parentheses_transparent_product : ∃ (c : Cursor) (e : Expr),
    (c.Proper ∧ e.Formed ∧ c.ahead.map Token.text =
      ["(","a","+","(","b",")",")","*","-","(","a","+","b",")",";"]) ∧
    ∃ e' c', Grammar.standard.expr .lowest c = .done e' c' ∧ e'.alike e = true ∧
      e.render = "((a + b) * (-(a + b)))" ∧ c'.faults = #[] ∧
      c'.ahead.map Token.text = [")",";"] := by
  let a : Token := ⟨.identifier,"a",⟨"",0,0⟩⟩
  let b : Token := ⟨.identifier,"b",⟨"",0,0⟩⟩
  let sum : Expr := .binary (.mark .plus) (.name (.ofToken a)) "+" (.name (.ofToken b))
  let product : Expr := .binary (.mark .star) sum "*" (.unary (.mark .minus) "-" sum)
  let input : List Token := [.mark .openParen,a,.mark .plus,.mark .openParen,b,.mark .closeParen,
    .mark .closeParen,.mark .star,.mark .minus,.mark .openParen,a,.mark .plus,b,.mark .closeParen,
    .mark .semicolon]
  have hsum : sum.Formed := ⟨⟨.sum,by decide⟩,rfl,rfl,⟨rfl,by decide⟩,⟨rfl,by decide⟩⟩
  have hproduct : product.Formed := ⟨⟨.product,by decide⟩,rfl,rfl,hsum,.inr rfl,rfl,hsum⟩
  let w : Writing id (.expr 0 product) input [.mark .semicolon] :=
    .binary rfl (by decide) (by decide)
      (.group rfl rfl (.binary rfl (by decide) (by decide) (.name rfl)
        (.group rfl rfl (.name rfl))))
      (.unary rfl (by decide)
        (.group rfl rfl (.binary rfl (by decide) (by decide) (.name rfl) (.name rfl))))
  let c : Cursor := { ahead := input, last := .mark .endOfInput }
  have hc : c.Proper := ⟨rfl,by decide⟩
  obtain ⟨e',c',used,last,hdone,-,he,hfaults,hinput,hahead⟩ :=
    parentheses_transparent w hproduct c hc rfl (by decide) (by decide)
  have hlast : last = .mark .closeParen := by
    have hrev := congrArg List.reverse hinput
    rw [List.reverse_append,List.reverse_cons] at hrev
    exact (List.cons.inj (List.cons.inj hrev).2).1.symm
  exact ⟨c,product,⟨hc,hproduct,by decide⟩,e',c',hdone,he rfl,by decide,hfaults,
    by rw [hahead,hlast]; rfl⟩

/-- Where nothing is asked of the token that an expression statement keeps, another tree may be
read: a parenthesis in front of the statement shows in it. -/
theorem parentheses_show : ¬ ∀ (k : Nat) (e : Expr) (input rest : List Token)
    (w : Writing (fun _ => .mark .semicolon) (.expr k e) input rest), e.Formed →
      ∀ c : Cursor, c.Proper → c.ahead = input →
      (∀ t ∈ rest.head?, t.kind ≠ .elseWord ∧ t.kind.continues = false) →
      c.depth+(w.levels+1) ≤ nestingLimit →
      ∃ e' c', Grammar.standard.expr .lowest c = .done e' c' ∧ e'.alike e = true := by
  intro h
  let x : Token := ⟨.identifier,"x",⟨"",0,0⟩⟩
  let body : Block := .mk (.mark .openBrace) [.expression x (.name (.ofToken x))]
  let input : List Token := [.mark .fnWord,.mark .openParen,.mark .closeParen,.mark .openBrace,
    .mark .openParen,x,.mark .closeParen,.mark .semicolon,.mark .closeBrace]
  let w : Writing (fun _ => .mark .semicolon) (.expr 0 (.function (.mark .fnWord) [] body))
      input [] :=
    .function rfl rfl rfl (.none rfl) (.closedBlock rfl rfl
      (.cons (.expression rfl rfl (.group rfl rfl (.name rfl))) .nil))
  let c : Cursor := { ahead := input, last := .mark .endOfInput }
  have hrun : (Grammar.standard.expr .lowest c).result?.any
      (fun r => !r.1.alike (.function (.mark .fnWord) [] body)) = true := by decide +kernel
  obtain ⟨e',c',hdone,he⟩ := h _ _ _ _ w ⟨rfl,by simp,rfl,⟨rfl,by decide⟩,trivial⟩ c
    ⟨rfl,by decide⟩ rfl (by decide) (by decide)
  rw [hdone] at hrun
  exact Bool.false_ne_true ((congrArg not he).symm.trans hrun)

end Precedence
