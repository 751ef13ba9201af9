import Precedence.Proofs.Tree.Pieces
import Precedence.Tree.Alike

/-! What the text of a tree means. Statements follow each other without a mark, so an expression
statement in front of a parenthesis is called with what stands in there. Where that happens
nowhere, only the tokens of the expression statements are told by the text. -/
namespace Precedence

/-- A token that stands in no source. -/
def Token.mark (k : Kind) : Token := ⟨k,k.text,⟨"",0,0⟩⟩

namespace Expr

/-- Induction along callees. -/
theorem spine {motive : Expr → Prop} (name : ∀ n, motive (.name n))
    (integer : ∀ t v, motive (.integer t v)) (boolean : ∀ t v, motive (.boolean t v))
    (unary : ∀ t o right, motive (.unary t o right))
    (binary : ∀ t left o right, motive (.binary t left o right))
    (conditional : ∀ t c a b, motive (.conditional t c a b))
    (function : ∀ t ns b, motive (.function t ns b))
    (call : ∀ t callee es, motive callee → motive (.call t callee es)) : ∀ e, motive e
  | .name n => name n
  | .integer t v => integer t v
  | .boolean t v => boolean t v
  | .unary t o right => unary t o right
  | .binary t left o right => binary t left o right
  | .conditional t c a b => conditional t c a b
  | .function t ns b => function t ns b
  | .call t callee es =>
    call t callee es (spine name integer boolean unary binary conditional function call callee)

/-- The token that the text of an expression starts with. -/
def opening : Expr → Token
  | .unary _ _ _ | .binary _ _ _ _ => .mark .openParen
  | .call _ callee _ => callee.opening
  | e => e.token
termination_by structural e => e

/-- The text of the expression starts with a parenthesis. -/
def parens : Expr → Bool
  | .unary _ _ _ | .binary _ _ _ _ => true
  | .call _ callee _ => callee.parens
  | _ => false
termination_by structural e => e

/-- An expression in parentheses, perhaps called, behind the expression `p`: that is called
first, with the expression in parentheses. -/
def onto (e p : Expr) : Expr :=
  match e with
  | .call t callee arguments => .call t (callee.onto p) arguments
  | e => .call (.mark .openParen) p [e]
termination_by structural e

end Expr

def closed : Option Expr → List Stmt
  | none => []
  | some e => [.expression e.opening e]

mutual

/-- The same tree with the statements of each block joined. -/
def Expr.joined : Expr → Expr
  | .name n => .name n
  | .integer t value => .integer t value
  | .boolean t value => .boolean t value
  | .unary t operator right => .unary t operator right.joined
  | .binary t left operator right => .binary t left.joined operator right.joined
  | .conditional t condition consequence none =>
    .conditional t condition.joined consequence.joined none
  | .conditional t condition consequence (some alternative) =>
    .conditional t condition.joined consequence.joined (some alternative.joined)
  | .function t parameters body => .function t parameters body.joined
  | .call t callee arguments => .call t callee.joined (joinedEach arguments)
termination_by structural e => e

def joinedEach : List Expr → List Expr
  | [] => []
  | e :: es => e.joined :: joinedEach es
termination_by structural es => es

def Block.joined : Block → Block
  | .mk t body => .mk t (joinedAll none body)
termination_by structural b => b

def Stmt.joined : Stmt → Stmt
  | .binding t name value => .binding t name value.joined
  | .result t none => .result t none
  | .result t (some value) => .result t (some value.joined)
  | .expression _ e => .expression e.opening e.joined
  | .block b => .block b.joined
termination_by structural s => s

/-- Statements behind an expression that is held back, since a parenthesis may follow it. -/
def joinedAll (held : Option Expr) : List Stmt → List Stmt
  | [] => closed held
  | .expression _ e :: ss =>
    match held with
    | none => joinedAll (some e.joined) ss
    | some p =>
      if e.parens then joinedAll (some (e.joined.onto p)) ss
      else closed (some p) ++ joinedAll (some e.joined) ss
  | s :: ss => closed held ++ s.joined :: joinedAll none ss
termination_by structural ss => ss

end

mutual

/-- The same tree, where an expression statement has the token that its text starts with. -/
def Expr.opened : Expr → Expr
  | .name n => .name n
  | .integer t value => .integer t value
  | .boolean t value => .boolean t value
  | .unary t operator right => .unary t operator right.opened
  | .binary t left operator right => .binary t left.opened operator right.opened
  | .conditional t condition consequence none =>
    .conditional t condition.opened consequence.opened none
  | .conditional t condition consequence (some alternative) =>
    .conditional t condition.opened consequence.opened (some alternative.opened)
  | .function t parameters body => .function t parameters body.opened
  | .call t callee arguments => .call t callee.opened (openedEach arguments)
termination_by structural e => e

def openedEach : List Expr → List Expr
  | [] => []
  | e :: es => e.opened :: openedEach es
termination_by structural es => es

def Block.opened : Block → Block
  | .mk t body => .mk t (openedAll body)
termination_by structural b => b

def Stmt.opened : Stmt → Stmt
  | .binding t name value => .binding t name value.opened
  | .result t none => .result t none
  | .result t (some value) => .result t (some value.opened)
  | .expression _ e => .expression e.opening e.opened
  | .block b => .block b.opened
termination_by structural s => s

def openedAll : List Stmt → List Stmt
  | [] => []
  | s :: ss => s.opened :: openedAll ss
termination_by structural ss => ss

end

def Program.opened (p : Program) : Program := ⟨openedAll p.statements⟩

def startsParens : List Stmt → Bool
  | .expression _ e :: _ => e.parens
  | _ => false

mutual

/-- No expression statement stands in front of a parenthesis. -/
def Expr.Apart : Expr → Prop
  | .name _ | .integer _ _ | .boolean _ _ => True
  | .unary _ _ right => right.Apart
  | .binary _ left _ right => left.Apart ∧ right.Apart
  | .conditional _ condition consequence none => condition.Apart ∧ consequence.Apart
  | .conditional _ condition consequence (some alternative) =>
    condition.Apart ∧ consequence.Apart ∧ alternative.Apart
  | .function _ _ body => body.Apart
  | .call _ callee arguments => callee.Apart ∧ ApartEach arguments
termination_by structural e => e

def ApartEach : List Expr → Prop
  | [] => True
  | e :: es => e.Apart ∧ ApartEach es
termination_by structural es => es

def Block.Apart : Block → Prop
  | .mk _ body => ApartAll body
termination_by structural b => b

def Stmt.Apart : Stmt → Prop
  | .binding _ _ value => value.Apart
  | .result _ none => True
  | .result _ (some value) => value.Apart
  | .expression _ e => e.Apart
  | .block b => b.Apart
termination_by structural s => s

def ApartAll : List Stmt → Prop
  | [] => True
  | .expression _ e :: ss => e.Apart ∧ startsParens ss = false ∧ ApartAll ss
  | s :: ss => s.Apart ∧ ApartAll ss
termination_by structural ss => ss

end

def Program.Apart (p : Program) : Prop := ApartAll p.statements

mutual

/-- How many levels the text of an expression opens, without the one it stands in. -/
def Expr.levels : Expr → Nat
  | .name _ | .integer _ _ | .boolean _ _ => 0
  | .unary _ _ right => right.levels+1+1
  | .binary _ left _ right => max left.levels (right.levels+1)+1
  | .conditional _ condition consequence none => max (condition.levels+1) (max consequence.levels 0)
  | .conditional _ condition consequence (some alternative) =>
    max (condition.levels+1) (max consequence.levels alternative.levels)
  | .function _ _ body => body.levels
  | .call _ callee arguments => max callee.levels (levelsEach arguments)
termination_by structural e => e

def levelsEach : List Expr → Nat
  | [] => 0
  | e :: es => max (e.levels+1) (levelsEach es)
termination_by structural es => es

def Block.levels : Block → Nat
  | .mk _ body => levelsAll body+1
termination_by structural b => b

def Stmt.levels : Stmt → Nat
  | .binding _ _ value => value.levels+1
  | .result _ none => 0
  | .result _ (some value) => value.levels+1
  | .expression _ e => e.levels+1
  | .block b => b.levels
termination_by structural s => s

def levelsAll : List Stmt → Nat
  | [] => 0
  | s :: ss => max s.levels (levelsAll ss)
termination_by structural ss => ss

end

def Program.levels (p : Program) : Nat := levelsAll p.statements

@[simp] theorem Expr.parens_joined (e : Expr) : e.joined.parens = e.parens := by
  induction e using Expr.spine with
  | call t callee arguments ih => rw [Expr.joined,Expr.parens,ih,Expr.parens]
  | conditional t c a b => cases b <;> rfl
  | _ => rfl

@[simp] theorem Expr.opening_joined (e : Expr) : e.joined.opening = e.opening := by
  induction e using Expr.spine with
  | call t callee arguments ih => rw [Expr.joined,Expr.opening,ih,Expr.opening]
  | conditional t c a b => cases b <;> rfl
  | _ => rfl

theorem joinedAll_cons {held : Option Expr} {s : Stmt} {ss : List Stmt}
    (h : ∀ t e, s ≠ .expression t e) :
    joinedAll held (s :: ss) = closed held ++ s.joined :: joinedAll none ss := by
  cases s with
  | expression t e => exact absurd rfl (h t e)
  | _ => rfl

mutual

theorem Expr.joined_of_apart : (e : Expr) → e.Apart → e.joined = e.opened
  | .name _, _ | .integer _ _, _ | .boolean _ _, _ => rfl
  | .unary _ _ right, h => by
    rw [Expr.Apart] at h
    simp [Expr.joined,Expr.opened,right.joined_of_apart h]
  | .binary _ left _ right, h => by
    rw [Expr.Apart] at h
    simp [Expr.joined,Expr.opened,left.joined_of_apart h.1,right.joined_of_apart h.2]
  | .conditional _ condition consequence none, h => by
    rw [Expr.Apart] at h
    simp [Expr.joined,Expr.opened,condition.joined_of_apart h.1,consequence.joined_of_apart h.2]
  | .conditional _ condition consequence (some alternative), h => by
    rw [Expr.Apart] at h
    simp [Expr.joined,Expr.opened,condition.joined_of_apart h.1,consequence.joined_of_apart h.2.1,
      alternative.joined_of_apart h.2.2]
  | .function _ _ body, h => by
    rw [Expr.Apart] at h
    simp [Expr.joined,Expr.opened,body.joined_of_apart h]
  | .call _ callee arguments, h => by
    rw [Expr.Apart] at h
    simp [Expr.joined,Expr.opened,callee.joined_of_apart h.1,joinedEach_of_apart arguments h.2]

theorem joinedEach_of_apart : (es : List Expr) → ApartEach es → joinedEach es = openedEach es
  | [], _ => rfl
  | e :: es, h => by
    rw [ApartEach] at h
    simp [joinedEach,openedEach,e.joined_of_apart h.1,joinedEach_of_apart es h.2]

theorem Block.joined_of_apart : (b : Block) → b.Apart → b.joined = b.opened
  | .mk _ body, h => by
    rw [Block.Apart] at h
    have hb := joinedAll_of_apart body h none (by simp)
    simpa [Block.joined,Block.opened,closed] using hb

theorem Stmt.joined_of_apart : (s : Stmt) → s.Apart → s.joined = s.opened
  | .binding _ _ value, h => by
    rw [Stmt.Apart] at h
    simp [Stmt.joined,Stmt.opened,value.joined_of_apart h]
  | .result _ none, _ => rfl
  | .result _ (some value), h => by
    rw [Stmt.Apart] at h
    simp [Stmt.joined,Stmt.opened,value.joined_of_apart h]
  | .expression _ e, h => by
    rw [Stmt.Apart] at h
    simp [Stmt.joined,Stmt.opened,e.joined_of_apart h]
  | .block b, h => by
    rw [Stmt.Apart] at h
    simp [Stmt.joined,Stmt.opened,b.joined_of_apart h]

theorem joinedAll_of_apart : (ss : List Stmt) → ApartAll ss → ∀ held : Option Expr,
    (held.isSome = true → startsParens ss = false) → joinedAll held ss = closed held ++ openedAll ss
  | [], _, _, _ => by simp [joinedAll,openedAll]
  | .expression t e :: ss, h, held, hheld => by
    rw [ApartAll] at h
    obtain ⟨he,hs,hss⟩ := h
    have ih := joinedAll_of_apart ss hss (some e.joined) fun _ => hs
    have hc : closed (some e.joined) = [(Stmt.expression t e).opened] := by
      rw [closed,e.opening_joined,e.joined_of_apart he,Stmt.opened]
    rw [hc] at ih
    cases held with
    | none => rw [joinedAll,ih,openedAll,closed]; rfl
    | some p =>
      have hp : e.parens = false := hheld rfl
      simp [joinedAll,hp,ih,openedAll]
  | .binding t name value :: ss, h, held, _ => by
    have ih := joinedAll_of_apart ss h.2 none (by simp)
    have hs := (Stmt.binding t name value).joined_of_apart h.1
    rw [joinedAll_cons (by simp),ih,hs,openedAll]
    rfl
  | .result t value :: ss, h, held, _ => by
    have ih := joinedAll_of_apart ss h.2 none (by simp)
    have hs := (Stmt.result t value).joined_of_apart h.1
    rw [joinedAll_cons (by simp),ih,hs,openedAll]
    rfl
  | .block b :: ss, h, held, _ => by
    have ih := joinedAll_of_apart ss h.2 none (by simp)
    have hs := (Stmt.block b).joined_of_apart h.1
    rw [joinedAll_cons (by simp),ih,hs,openedAll]
    rfl

end

/-- Where nothing runs together, the text tells the tree. -/
theorem Program.joined_of_apart {p : Program} (h : p.Apart) :
    joinedAll none p.statements = p.opened.statements :=
  joinedAll_of_apart p.statements h none (by simp)

end Precedence
