import Precedence.Proofs.Syntax.Layers
import Precedence.Text.Numeral
import Precedence.Tree.Basic

/-! The language as a grammar over tokens, told without any parser. A derivation shows how a tree
is spelled by the tokens between two places of a source, and how many levels it opens. Binary
operators have one layer for each power and hold to the left; prefix operators, calls and atoms
are the layers above. -/
namespace Precedence

/-- What ends a statement: a semicolon, which may be left out unless the next token would go on
with the expression. -/
inductive Terminator : List Token → List Token → Prop where
  | semicolon {t : Token} {rest : List Token} (h : t.kind = .semicolon) :
      Terminator (t :: rest) rest
  | omitted {rest : List Token} (h : ∀ t ∈ rest.head?, t.kind.continues = false) :
      Terminator rest rest

inductive Names : List Name → List Token → List Token → Prop where
  | last {t : Token} {rest : List Token} (h : t.kind = .identifier) :
      Names [.ofToken t] (t :: rest) rest
  | more {t comma : Token} {ns : List Name} {inner rest : List Token} (h : t.kind = .identifier)
      (hc : comma.kind = .comma) (more : Names ns inner rest) :
      Names (.ofToken t :: ns) (t :: comma :: inner) rest

inductive Parameters : List Name → List Token → List Token → Prop where
  | none {c : Token} {rest : List Token} (h : c.kind = .closeParen) :
      Parameters [] (c :: rest) rest
  | some {c : Token} {ns : List Name} {inner rest : List Token}
      (h : c.kind = .closeParen) (names : Names ns inner (c :: rest)) :
      Parameters ns inner rest

/-- What tokens can spell. An expression comes with its layer: operators that stand in no
brackets bind at least as tightly. -/
inductive Phrase where
  | atom (e : Expr)
  | expr (layer : Power) (e : Expr)
  | items (es : List Expr)
  | arguments (es : List Expr)
  | alternative (b : Option Block)
  | block (b : Block)
  | statement (s : Stmt)
  | statements (ss : List Stmt)

/-- `Derivation gaps φ input rest` spells `φ` by the tokens of `input` in front of `rest`. Where
`gaps` holds, tokens may be left out in front of a statement; the language is what can be derived
without. -/
inductive Derivation (gaps : Prop) : Phrase → List Token → List Token → Type where
  | name {t : Token} {rest : List Token} (h : t.kind = .identifier) :
      Derivation gaps (.atom (.name (.ofToken t))) (t :: rest) rest
  | integer {t : Token} {n : Int} {rest : List Token} (h : t.kind = .integer)
      (hn : Text.numeral? t.text = some n) :
      Derivation gaps (.atom (.integer t n)) (t :: rest) rest
  | truth {t : Token} {rest : List Token} (h : t.kind = .trueWord) :
      Derivation gaps (.atom (.boolean t true)) (t :: rest) rest
  | falsity {t : Token} {rest : List Token} (h : t.kind = .falseWord) :
      Derivation gaps (.atom (.boolean t false)) (t :: rest) rest
  | group {o c : Token} {e : Expr} {inner rest : List Token}
      (ho : o.kind = .openParen) (hc : c.kind = .closeParen)
      (content : Derivation gaps (.expr .lowest e) inner (c :: rest)) :
      Derivation gaps (.atom e) (o :: inner) rest
  | conditional {word o c : Token} {e : Expr} {a : Block} {b : Option Block}
      {inner behind between rest : List Token} (hw : word.kind = .ifWord)
      (ho : o.kind = .openParen) (hc : c.kind = .closeParen)
      (condition : Derivation gaps (.expr .lowest e) inner (c :: behind))
      (consequence : Derivation gaps (.block a) behind between)
      (alternative : Derivation gaps (.alternative b) between rest) :
      Derivation gaps (.atom (.conditional word e a b)) (word :: o :: inner) rest
  | noElse {rest : List Token} : Derivation gaps (.alternative none) rest rest
  | elseBlock {word : Token} {b : Block} {inner rest : List Token} (hw : word.kind = .elseWord)
      (block : Derivation gaps (.block b) inner rest) :
      Derivation gaps (.alternative (some b)) (word :: inner) rest
  | function {word o : Token} {ns : List Name} {b : Block} {inner behind rest : List Token}
      (hw : word.kind = .fnWord) (ho : o.kind = .openParen)
      (parameters : Parameters ns inner behind) (body : Derivation gaps (.block b) behind rest) :
      Derivation gaps (.atom (.function word ns b)) (word :: o :: inner) rest
  | ofAtom {e : Expr} {input rest : List Token} (atom : Derivation gaps (.atom e) input rest) :
      Derivation gaps (.expr .call e) input rest
  | call {o : Token} {f : Expr} {es : List Expr} {input inner rest : List Token}
      (ho : o.kind = .openParen) (callee : Derivation gaps (.expr .call f) input (o :: inner))
      (arguments : Derivation gaps (.arguments es) inner rest) :
      Derivation gaps (.expr .call (.call o f es)) input rest
  | unary {t : Token} {e : Expr} {inner rest : List Token} (ht : t.kind = .bang ∨ t.kind = .minus)
      (operand : Derivation gaps (.expr .unary e) inner rest) :
      Derivation gaps (.expr .unary (.unary t t.text e)) (t :: inner) rest
  | binary {layer tighter : Power} {t : Token} {a b : Expr} {input inner rest : List Token}
      (ht : t.kind ∈ layer.operators) (hl : layer < tighter)
      (left : Derivation gaps (.expr layer a) input (t :: inner))
      (right : Derivation gaps (.expr tighter b) inner rest) :
      Derivation gaps (.expr layer (.binary t a t.text b)) input rest
  | loosen {layer tighter : Power} {e : Expr} {input rest : List Token} (hl : layer < tighter)
      (inner : Derivation gaps (.expr tighter e) input rest) :
      Derivation gaps (.expr layer e) input rest
  | lastItem {e : Expr} {input rest : List Token}
      (item : Derivation gaps (.expr .lowest e) input rest) :
      Derivation gaps (.items [e]) input rest
  | moreItems {comma : Token} {e : Expr} {es : List Expr} {input inner rest : List Token}
      (hc : comma.kind = .comma) (item : Derivation gaps (.expr .lowest e) input (comma :: inner))
      (more : Derivation gaps (.items es) inner rest) :
      Derivation gaps (.items (e :: es)) input rest
  | noArguments {c : Token} {rest : List Token} (hc : c.kind = .closeParen) :
      Derivation gaps (.arguments []) (c :: rest) rest
  | someArguments {c : Token} {es : List Expr} {inner rest : List Token}
      (hc : c.kind = .closeParen)
      (items : Derivation gaps (.items es) inner (c :: rest)) :
      Derivation gaps (.arguments es) inner rest
  | closedBlock {o c : Token} {ss : List Stmt} {inner rest : List Token}
      (ho : o.kind = .openBrace) (hc : c.kind = .closeBrace)
      (body : Derivation gaps (.statements ss) inner (c :: rest)) :
      Derivation gaps (.block (.mk o ss)) (o :: inner) rest
  | openBlock {o : Token} {ss : List Stmt} {inner : List Token}
      (ho : o.kind = .openBrace) (body : Derivation gaps (.statements ss) inner []) :
      Derivation gaps (.block (.mk o ss)) (o :: inner) []
  | binding {word name assign : Token} {e : Expr} {inner behind rest : List Token}
      (hw : word.kind = .letWord) (hn : name.kind = .identifier) (ha : assign.kind = .assign)
      (value : Derivation gaps (.expr .lowest e) inner behind) (ht : Terminator behind rest) :
      Derivation gaps (.statement (.binding word (.ofToken name) e))
        (word :: name :: assign :: inner) rest
  | bareResult {word semicolon : Token} {rest : List Token} (hw : word.kind = .returnWord)
      (hs : semicolon.kind = .semicolon) :
      Derivation gaps (.statement (.result word none)) (word :: semicolon :: rest) rest
  | result {word : Token} {e : Expr} {inner behind rest : List Token}
      (hw : word.kind = .returnWord) (value : Derivation gaps (.expr .lowest e) inner behind)
      (ht : Terminator behind rest) :
      Derivation gaps (.statement (.result word (some e))) (word :: inner) rest
  | expression {t : Token} {e : Expr} {inner behind rest : List Token}
      (value : Derivation gaps (.expr .lowest e) (t :: inner) behind)
      (ht : Terminator behind rest) :
      Derivation gaps (.statement (.expression t e)) (t :: inner) rest
  | nil {rest : List Token} : Derivation gaps (.statements []) rest rest
  | cons {s : Stmt} {ss : List Stmt} {input behind rest : List Token}
      (first : Derivation gaps (.statement s) input behind)
      (more : Derivation gaps (.statements ss) behind rest) :
      Derivation gaps (.statements (s :: ss)) input rest
  | skip {t : Token} {ss : List Stmt} {inner rest : List Token} (hg : gaps)
      (more : Derivation gaps (.statements ss) inner rest) :
      Derivation gaps (.statements ss) (t :: inner) rest

/-- Expressions, blocks and statements are spelled by one token at least, of a kind that they can
start with. -/
def Phrase.Starts : Phrase → List Token → Prop
  | .atom _, input | .expr _ _, input | .items _, input =>
    ∃ t ∈ input.head?, t.kind.starts = true
  | .block _, input => ∃ t ∈ input.head?, t.kind = .openBrace
  | .statement _, input => ∃ t ∈ input.head?, t.kind.startsStatement = true
  | _, _ => True

namespace Derivation
variable {gaps : Prop} {φ : Phrase} {input rest : List Token}

/-- How many levels are open at once at the most. The content of a group, a condition, an
argument, an operand behind its operator, the expression of a statement and a block open one
level each; a left operand and a callee share the level of the expression they start. -/
def levels {φ : Phrase} {input rest : List Token} : Derivation gaps φ input rest → Nat
  | name _ | integer _ _ | truth _ | falsity _ => 0
  | group _ _ content => content.levels+1
  | conditional _ _ _ condition consequence alternative =>
    max (condition.levels+1) (max consequence.levels alternative.levels)
  | noElse => 0
  | elseBlock _ block => block.levels
  | function _ _ _ body => body.levels
  | ofAtom atom => atom.levels
  | call _ callee arguments => max callee.levels arguments.levels
  | unary _ operand => operand.levels+1
  | binary _ _ left right => max left.levels (right.levels+1)
  | loosen _ inner => inner.levels
  | lastItem item => item.levels+1
  | moreItems _ item more => max (item.levels+1) more.levels
  | noArguments _ => 0
  | someArguments _ items => items.levels
  | closedBlock _ _ body => body.levels+1
  | openBlock _ body => body.levels+1
  | binding _ _ _ value _ => value.levels+1
  | bareResult _ _ => 0
  | result _ value _ => value.levels+1
  | expression value _ => value.levels+1
  | nil => 0
  | cons first more => max first.levels more.levels
  | skip _ more => more.levels

theorem starts {φ : Phrase} {input rest : List Token} (D : Derivation gaps φ input rest) :
    φ.Starts input := by
  induction D with
  | name h | integer h _ | truth h | falsity h => exact ⟨_,rfl,by simp [h,Kind.starts]⟩
  | group h => exact ⟨_,rfl,by simp [h,Kind.starts]⟩
  | conditional h | function h => exact ⟨_,rfl,by simp [h,Kind.starts]⟩
  | unary h => exact ⟨_,rfl,by rcases h with h | h <;> simp [h,Kind.starts]⟩
  | ofAtom _ ih | loosen _ _ ih | lastItem _ ih => exact ih
  | call _ _ _ ih | binary _ _ _ _ ih | moreItems _ _ _ ih => exact ih
  | closedBlock h | openBlock h => exact ⟨_,rfl,h⟩
  | binding h | bareResult h | result h => exact ⟨_,rfl,by simp [h,Kind.startsStatement]⟩
  | expression _ _ ih =>
    obtain ⟨t,ht,hs⟩ := ih
    exact ⟨t,ht,by simp [Kind.startsStatement,hs]⟩
  | _ => trivial

def first {φ : Phrase} {input rest : List Token} (_ : Derivation gaps φ input rest) :
    Option Token := input.head?

/-- Where levels are missing for what opens a level itself: at its first token if no level is
left, and otherwise where they are missing inside. -/
def opening (first : Option Token) (inside : Nat → Option Token) : Nat → Option Token
  | 0 => first
  | n+1 => inside n

/-- The first token, in source order, at which a level would be opened with `n` levels open
already. -/
def exceeds {φ : Phrase} {input rest : List Token} :
    Derivation gaps φ input rest → Nat → Option Token
  | name _ | integer _ _ | truth _ | falsity _ => fun _ => none
  | group _ _ content => opening content.first content.exceeds
  | conditional _ _ _ condition consequence alternative => fun n =>
    opening condition.first condition.exceeds n <|> consequence.exceeds n <|> alternative.exceeds n
  | noElse => fun _ => none
  | elseBlock _ block => block.exceeds
  | function _ _ _ body => body.exceeds
  | ofAtom atom => atom.exceeds
  | call _ callee arguments => fun n => callee.exceeds n <|> arguments.exceeds n
  | unary _ operand => opening operand.first operand.exceeds
  | binary _ _ left right => fun n => left.exceeds n <|> opening right.first right.exceeds n
  | loosen _ inner => inner.exceeds
  | lastItem item => opening item.first item.exceeds
  | moreItems _ item more => fun n => opening item.first item.exceeds n <|> more.exceeds n
  | noArguments _ => fun _ => none
  | someArguments _ items => items.exceeds
  | @closedBlock _ brace _ _ _ _ _ _ body => opening (some brace) body.exceeds
  | @openBlock _ brace _ _ _ body => opening (some brace) body.exceeds
  | binding _ _ _ value _ => opening value.first value.exceeds
  | bareResult _ _ => fun _ => none
  | result _ value _ => opening value.first value.exceeds
  | expression value _ => opening value.first value.exceeds
  | nil => fun _ => none
  | cons first more => fun n => first.exceeds n <|> more.exceeds n
  | skip _ more => more.exceeds

theorem opening_eq_none {first : Option Token} {inside : Nat → Option Token} {m n : Nat}
    (hf : first ≠ none) (hi : ∀ n, inside n = none ↔ m ≤ n) :
    opening first inside n = none ↔ m+1 ≤ n := by
  cases n with
  | zero => simp [opening,hf]
  | succ n => simpa [opening] using hi n

theorem orElse_eq_none {x y : Option Token} : (x <|> y) = none ↔ x = none ∧ y = none := by
  cases x <;> simp

theorem first_ne_none {layer : Power} {e : Expr} (D : Derivation gaps (.expr layer e) input rest) :
    D.first ≠ none := by
  obtain ⟨t,ht,-⟩ := D.starts
  exact Option.ne_none_iff_exists'.mpr ⟨t,ht⟩

theorem exceeds_eq_none {φ : Phrase} {input rest : List Token} (D : Derivation gaps φ input rest) :
    ∀ n, D.exceeds n = none ↔ D.levels ≤ n := by
  induction D with
  | group _ _ D ih | unary _ D ih | lastItem D ih | binding _ _ _ D _ ih | result _ D _ ih
  | expression D _ ih => exact fun n => opening_eq_none D.first_ne_none ih
  | closedBlock _ _ D ih | openBlock _ D ih => exact fun n => opening_eq_none (by simp) ih
  | conditional _ _ _ D _ _ ih ihc iha =>
    intro n
    simp only [exceeds,levels,orElse_eq_none,opening_eq_none D.first_ne_none ih,ihc,iha,Nat.max_le]
  | binary _ _ _ D ihl ih | moreItems _ D _ ih ihl =>
    intro n
    simp only [exceeds,levels,orElse_eq_none,opening_eq_none D.first_ne_none ih,ihl,Nat.max_le]
  | call _ _ _ ihf ihs | cons _ _ ihf ihs =>
    intro n
    simp only [exceeds,levels,orElse_eq_none,ihf,ihs,Nat.max_le]
  | elseBlock _ _ ih | function _ _ _ _ ih | ofAtom _ ih | loosen _ _ ih | someArguments _ _ ih
  | skip _ _ ih => exact ih
  | _ => intro n; simp [exceeds,levels]

/-- An expression of one layer is one of every looser layer too, with as many levels. -/
theorem exists_loosen {layer tighter : Power} {e : Expr} (h : ¬ tighter < layer)
    (D : Derivation gaps (.expr tighter e) input rest) :
    ∃ D' : Derivation gaps (.expr layer e) input rest, D'.levels = D.levels := by
  rcases Power.eq_or_lt_of_not_lt h with rfl | hl
  · exact ⟨D,rfl⟩
  · exact ⟨.loosen hl D,rfl⟩

def skipAll {ss : List Stmt} (hg : gaps) (D : Derivation gaps (.statements ss) input rest) :
    (skipped : List Token) → Derivation gaps (.statements ss) (skipped ++ input) rest
  | [] => D
  | _ :: ts => .skip hg (skipAll hg D ts)

@[simp] theorem levels_skipAll {ss : List Stmt} (hg : gaps)
    (D : Derivation gaps (.statements ss) input rest) (skipped : List Token) :
    (skipAll hg D skipped).levels = D.levels := by
  induction skipped with
  | nil => rfl
  | cons t ts ih => simpa [skipAll,levels] using ih

end Derivation

/-- What can be derived with at most `n` levels open at once. -/
def Derivable (gaps : Prop) (n : Nat) (φ : Phrase) (input rest : List Token) : Prop :=
  ∃ D : Derivation gaps φ input rest, D.levels ≤ n

namespace Derivable
variable {gaps : Prop} {n : Nat} {φ : Phrase} {input rest : List Token}

theorem loosen {layer tighter : Power} {e : Expr} (h : ¬ tighter < layer)
    (hd : Derivable gaps n (.expr tighter e) input rest) :
    Derivable gaps n (.expr layer e) input rest := by
  obtain ⟨D,hD⟩ := hd
  obtain ⟨D',hD'⟩ := D.exists_loosen h
  exact ⟨D',Nat.le_trans (Nat.le_of_eq hD') hD⟩

end Derivable
end Precedence
