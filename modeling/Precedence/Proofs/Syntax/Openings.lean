import Precedence.Proofs.Syntax.Kept

/-! The levels that a derivation opens, one after the other, and the token at which each is opened.
Tokens that can be derived are read without a fault exactly if no level beyond the limit is among
them, and the first one that is tells the first fault. -/
namespace Precedence

/-- A level where it is opened: how many are open then, itself included, and the token that comes
next. -/
structure Opening where
  level : Nat
  token : Token

namespace Derivation
variable {gaps : Prop} {φ : Phrase} {input rest : List Token}

/-- What opens a level itself opens it at its first token, and then those inside. -/
def opened (first : Option Token) (inside : Nat → List Opening) (n : Nat) : List Opening :=
  first.toList.map (Opening.mk (n+1)) ++ inside (n+1)

/-- The levels opened where `n` of them are open already, in the order in which they are opened. -/
def openings {φ : Phrase} {input rest : List Token} :
    Derivation gaps φ input rest → Nat → List Opening
  | name _ | integer _ _ | truth _ | falsity _ => fun _ => []
  | group _ _ content => opened content.first content.openings
  | conditional _ _ _ condition consequence alternative => fun n =>
    opened condition.first condition.openings n ++
      (consequence.openings n ++ alternative.openings n)
  | noElse => fun _ => []
  | elseBlock _ block => block.openings
  | function _ _ _ body => body.openings
  | ofAtom atom => atom.openings
  | call _ callee arguments => fun n => callee.openings n ++ arguments.openings n
  | unary _ operand => opened operand.first operand.openings
  | binary _ _ left right => fun n => left.openings n ++ opened right.first right.openings n
  | loosen _ inner => inner.openings
  | lastItem item => opened item.first item.openings
  | moreItems _ item more => fun n => opened item.first item.openings n ++ more.openings n
  | noArguments _ => fun _ => []
  | someArguments _ items => items.openings
  | @closedBlock _ brace _ _ _ _ _ _ body => opened (some brace) body.openings
  | @openBlock _ brace _ _ _ body => opened (some brace) body.openings
  | binding _ _ _ value _ => opened value.first value.openings
  | bareResult _ _ => fun _ => []
  | result _ value _ => opened value.first value.openings
  | expression value _ => opened value.first value.openings
  | nil => fun _ => []
  | cons first more => fun n => first.openings n ++ more.openings n
  | skip _ more => more.openings

/-- The first level beyond `n` is the one that is missing where only `n` can be open. -/
def Finds (n : Nat) (found : Nat → List Opening) (missing : Nat → Option Token) : Prop :=
  ∀ m, m ≤ n → (found m).find? (fun o => n < o.level) = (missing (n-m)).map (Opening.mk (n+1))

namespace Finds
variable {n : Nat} {found more : Nat → List Opening} {missing later : Nat → Option Token}

theorem nothing : Finds n (fun _ => []) (fun _ => none) := fun _ _ => rfl

theorem opened {first : Option Token} (hf : first ≠ none) (h : Finds n found missing) :
    Finds n (opened first found) (opening first missing) := by
  intro m hm
  obtain ⟨t,rfl⟩ := Option.ne_none_iff_exists'.mp hf
  simp only [Derivation.opened,Option.toList_some,List.map_singleton,List.singleton_append,
    List.find?_cons]
  rcases Nat.eq_or_lt_of_le hm with rfl | hlt
  · simp [opening]
  · obtain ⟨k,hk⟩ : ∃ k, n-m = k+1 := ⟨n-m-1,by omega⟩
    have hle : ¬ n < m+1 := by omega
    have hin := h (m+1) hlt
    rw [show n-(m+1) = k by omega] at hin
    simp only [hle,decide_false,hin,hk,opening]

theorem append (h : Finds n found missing) (hm : Finds n more later) :
    Finds n (fun m => found m ++ more m) (fun m => missing m <|> later m) := by
  intro m hle
  simp only [List.find?_append,h m hle,hm m hle]
  cases missing (n-m) <;> rfl

end Finds

theorem finds {φ : Phrase} {input rest : List Token} (D : Derivation gaps φ input rest) (n : Nat) :
    Finds n D.openings D.exceeds := by
  induction D with
  | group _ _ D ih | unary _ D ih | lastItem D ih | binding _ _ _ D _ ih | result _ D _ ih
  | expression D _ ih => exact ih.opened D.first_ne_none
  | closedBlock _ _ _ ih | openBlock _ _ ih => exact ih.opened (by simp)
  | conditional _ _ _ D _ _ ih ihc iha => exact (ih.opened D.first_ne_none).append (ihc.append iha)
  | binary _ _ _ D ihl ih => exact ihl.append (ih.opened D.first_ne_none)
  | moreItems _ D _ ih ihs => exact (ih.opened D.first_ne_none).append ihs
  | call _ _ _ ihf ihs | cons _ _ ihf ihs => exact ihf.append ihs
  | elseBlock _ _ ih | function _ _ _ _ ih | ofAtom _ ih | loosen _ _ ih | someArguments _ _ ih
  | skip _ _ ih => exact ih
  | name | integer | truth | falsity | noElse | noArguments | bareResult | nil => exact .nothing

end Derivation

/-- The tokens at which a phrase can open levels: not the first one of an expression, where whatever
holds the expression opens one. -/
def Phrase.inside : Phrase → List Token → List Token
  | .atom _, input | .expr _ _, input => input.tail
  | _, input => input

namespace Keeps
variable {ts input inner rest : List Token} {t : Token}

theorem forget (h : Keeps True ts input rest) : Keeps True [] input rest :=
  ⟨(List.sublist_append_right _ _).trans h.sublist,.inl trivial⟩

theorem behind (h : Keeps True ts inner rest) : Keeps True ts (t :: inner) rest :=
  (Keeps.skip trivial).append h

theorem upto (h : Keeps True ts input (t :: rest)) : Keeps True ts input rest := by
  have hs := h.append (.skip trivial)
  rwa [List.append_nil] at hs

theorem opened {found : Nat → List Opening} {n : Nat}
    (h : Keeps True ((found (n+1)).map Opening.token) inner rest) :
    Keeps True ((Derivation.opened (some t) found n).map Opening.token) (t :: inner) rest :=
  ⟨h.sublist.cons_cons t,.inl trivial⟩

end Keeps

namespace Derivation
variable {gaps : Prop} {φ : Phrase} {input rest : List Token}

/-- Levels are opened at tokens of the source in their order, at each token one at the most. -/
theorem openings_kept {φ : Phrase} {input rest : List Token} (D : Derivation gaps φ input rest) :
    ∀ n, Keeps True ((D.openings n).map Opening.token) (φ.inside input) rest := by
  -- An expression opens its level at its first token, so those within it are behind that one.
  have inner {layer : Power} {e : Expr} {input rest : List Token}
      (D : Derivation gaps (.expr layer e) input rest)
      (ih : ∀ n, Keeps True ((D.openings n).map Opening.token) input.tail rest) (n : Nat) :
      Keeps True ((opened D.first D.openings n).map Opening.token) input rest := by
    obtain ⟨t,ht,-⟩ := D.starts
    obtain ⟨ts,rfl⟩ := List.head?_eq_some_iff.mp ht
    exact (ih (n+1)).opened
  induction D with
  | name | integer | truth | falsity | noElse | nil => exact fun _ => .refl
  | noArguments => exact fun _ => .skip trivial
  | bareResult => exact fun _ => (Keeps.skip trivial).append (.skip trivial)
  | group _ _ D ih => exact fun n => (inner D ih n).upto
  | conditional _ _ _ D _ _ ih ihc iha =>
    intro n
    simp only [openings,List.map_append]
    exact ((inner D ih n).upto.append ((ihc n).append (iha n))).behind
  | elseBlock _ _ ih => exact fun n => (ih n).behind
  | function _ _ parameters _ ih =>
    exact fun n => ((Keeps.parameters parameters).forget.append (ih n)).behind
  | ofAtom _ ih | loosen _ _ ih => exact ih
  | someArguments _ _ ih => exact fun n => (ih n).upto
  | call _ _ _ ihf ihs =>
    intro n
    simp only [openings,List.map_append]
    exact (ihf n).append (ihs n).behind
  | unary _ D ih => exact inner D ih
  | binary _ _ _ D ihl ih =>
    intro n
    simp only [openings,List.map_append]
    exact (ihl n).append (inner D ih n).behind
  | lastItem D ih => exact inner D ih
  | moreItems _ D _ ih ihs =>
    intro n
    simp only [openings,List.map_append]
    exact (inner D ih n).append (ihs n).behind
  | closedBlock _ _ _ ih => exact fun n => (ih (n+1)).opened.upto
  | openBlock _ _ ih => exact fun n => (ih (n+1)).opened
  | binding _ _ _ D ht ih =>
    exact fun n => ((inner D ih n).terminated ht).behind.behind.behind
  | result _ D ht ih => exact fun n => ((inner D ih n).terminated ht).behind
  | expression D ht ih => exact fun n => (inner D ih n).terminated ht
  | cons _ _ ihf ihs =>
    intro n
    simp only [openings,List.map_append]
    exact (ihf n).append (ihs n)
  | skip _ _ ih => exact fun n => (ih n).behind

end Derivation

/-- The first level beyond the limit, if there is one, is the next after it and is the first fault. -/
theorem Scanner.verdict_of_openings {s : Scanner} {ss : List Stmt} {input : List Token}
    (hi : input = s.ahead) (D : Derivation False (.statements ss) input []) :
    (s.parse.faults = [] ∧ (D.openings 0).find? (fun o => nestingLimit < o.level) = none) ∨
      ∃ o, (D.openings 0).find? (fun o => nestingLimit < o.level) = some o ∧
        o.level = nestingLimit+1 ∧
        s.parse.faults.head? = some ⟨.tooDeep nestingLimit,o.token.position⟩ := by
  subst hi
  have hfound := D.finds nestingLimit 0 (Nat.zero_le _)
  rw [Nat.sub_zero] at hfound
  cases hx : D.exceeds nestingLimit with
  | none =>
    rw [hx] at hfound
    have hparse := Scanner.parse_of_derivation D ((D.exceeds_eq_none _).mp hx)
    exact .inl ⟨congrArg Parsed.faults hparse,hfound⟩
  | some t =>
    rw [hx] at hfound
    exact .inr ⟨⟨nestingLimit+1,t⟩,hfound,rfl,Scanner.fault_of_derivation D hx⟩

/-- Take any derivation of the tokens of a source, whatever number of levels it opens. The levels are
opened at tokens in the order of the source. The source is free of faults exactly if none of them is
beyond the limit. Otherwise the first of them that is beyond it is the one right after the limit, and
the first fault lies at the token at which that one would be opened. -/
theorem nesting_limit_exact (source : Source) (ss : List Stmt)
    (D : Derivation False (.statements ss) source.words []) :
    ((D.openings 0).map Opening.token).Sublist source.words ∧
    ((parse source).faults = [] ↔ ∀ o ∈ D.openings 0, o.level ≤ nestingLimit) ∧
    ((parse source).faults ≠ [] → ∃ before o after, D.openings 0 = before ++ o :: after ∧
      (∀ b ∈ before, b.level ≤ nestingLimit) ∧ o.level = nestingLimit+1 ∧
      (parse source).faults.head? = some ⟨.tooDeep nestingLimit,o.token.position⟩) := by
  have hkept := (D.openings_kept 0).sublist
  rw [List.append_nil] at hkept
  refine ⟨hkept,?_⟩
  rcases Scanner.verdict_of_openings source.words_eq D with ⟨hfaults,hnone⟩ | ⟨o,ho,hlevel,hfault⟩
  · have hfaults : (parse source).faults = [] := hfaults
    refine ⟨iff_of_true hfaults fun o hm => ?_,fun hne => absurd hfaults hne⟩
    simpa using List.find?_eq_none.mp hnone o hm
  · have hfault : (parse source).faults.head? = _ := hfault
    obtain ⟨hbeyond,before,after,hsplit,hbefore⟩ := List.find?_eq_some_iff_append.mp ho
    refine ⟨iff_of_false (fun hnil => ?_) fun hall => ?_,fun _ =>
      ⟨before,o,after,hsplit,fun b hb => ?_,hlevel,hfault⟩⟩
    · simp [hnil] at hfault
    · have hle := hall o (List.mem_of_find?_eq_some ho)
      omega
    · simpa using hbefore b hb

theorem negations_derivable {u : Token} (hu : u.kind = .identifier) (ts : List Token)
    (h : ts.map Token.kind = List.replicate ts.length .bang) :
    ∃ e, Nonempty (Derivation False (.expr .unary e) (ts ++ [u]) []) := by
  induction ts with
  | nil => exact ⟨_,⟨.loosen (by decide : Power.unary < .call) (.ofAtom (.name hu))⟩⟩
  | cons t ts ih =>
    obtain ⟨ht,hts⟩ := List.cons.inj h
    obtain ⟨e,⟨D⟩⟩ := ih hts
    exact ⟨_,⟨.unary (.inl ht) D⟩⟩

/-- With its statement, a name behind 128 negations opens one level too many, at the name itself. -/
theorem nesting_limit_exact_negations :
    ∃ (ss : List Stmt) (D : Derivation False (.statements ss)
        (Source.words ⟨String.ofList (List.replicate 128 '!' ++ ['a']),"f"⟩) []) (o : Opening),
      o ∈ D.openings 0 ∧ o.level = nestingLimit+1 ∧ o.token.position = ⟨128,"f"⟩ := by
  have hkinds : (Source.words ⟨String.ofList (List.replicate 128 '!' ++ ['a']),"f"⟩).map
      Token.kind = List.replicate 128 .bang ++ [.identifier] := by decide +kernel
  have hfaults : (parse ⟨String.ofList (List.replicate 128 '!' ++ ['a']),"f"⟩).faults =
      [⟨.tooDeep nestingLimit,⟨128,"f"⟩⟩] := by decide +kernel
  generalize (⟨String.ofList (List.replicate 128 '!' ++ ['a']),"f"⟩ : Source) = source at *
  obtain ⟨ts,us,hwords,hts,hus⟩ := List.map_eq_append_iff.mp hkinds
  obtain ⟨u,rfl,hu⟩ := List.map_eq_singleton_iff.mp hus
  obtain ⟨e,⟨D⟩⟩ := negations_derivable hu ts (by
    have hlen := congrArg List.length hts
    rw [List.length_map,List.length_replicate] at hlen
    rw [hts,hlen])
  have hD : ∃ ss, Nonempty (Derivation False (.statements ss) (ts ++ [u]) []) := by
    obtain ⟨t,ht,-⟩ := D.starts
    obtain ⟨more,hmore⟩ := List.head?_eq_some_iff.mp ht
    rw [hmore] at D ⊢
    exact ⟨_,⟨.cons (.expression (.loosen (by decide : Power.lowest < .unary) D)
      (.omitted (by simp))) .nil⟩⟩
  rw [← hwords] at hD
  obtain ⟨ss,⟨S⟩⟩ := hD
  obtain ⟨-,-,hfirst⟩ := nesting_limit_exact source ss S
  obtain ⟨before,o,after,hsplit,-,hlevel,hfault⟩ := hfirst (by simp [hfaults])
  rw [hfaults] at hfault
  have hplace := congrArg Fault.position (Option.some.inj hfault)
  exact ⟨ss,S,o,by simp [hsplit],hlevel,hplace.symm⟩

end Precedence
