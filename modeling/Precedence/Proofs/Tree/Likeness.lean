import Mathlib.Data.List.Forall2
import Precedence.Descent.Parse
import Precedence.Tree.Alike

/-! Values that are alike wherever they stand in a source, for everything that an action can give:
tokens, trees, and what is put together from them. -/
namespace Precedence

@[simp] theorem Token.alike_refl (t : Token) : t.alike t = true := by simp [Token.alike]

@[simp] theorem Name.alike_refl (n : Name) : n.alike n = true := by simp [Name.alike]

mutual

@[simp] theorem Expr.alike_refl : (e : Expr) → e.alike e = true
  | .name _ | .integer _ _ | .boolean _ _ => by simp [Expr.alike]
  | .unary _ _ right => by simp [Expr.alike,right.alike_refl]
  | .binary _ left _ right => by simp [Expr.alike,left.alike_refl,right.alike_refl]
  | .conditional _ condition consequence none => by
    simp [Expr.alike,condition.alike_refl,consequence.alike_refl]
  | .conditional _ condition consequence (some alternative) => by
    simp [Expr.alike,condition.alike_refl,consequence.alike_refl,alternative.alike_refl]
  | .function _ parameters body => by
    have hp : parameters.isEqv parameters Name.alike = true := by
      induction parameters with
      | nil => rfl
      | cons n ns ih => simp [List.isEqv,ih]
    simp [Expr.alike,hp,body.alike_refl]
  | .call _ callee arguments => by
    simp [Expr.alike,callee.alike_refl,exprsAlike_refl arguments]

@[simp] theorem exprsAlike_refl : (es : List Expr) → exprsAlike es es = true
  | [] => rfl
  | e :: es => by simp [exprsAlike,e.alike_refl,exprsAlike_refl es]

@[simp] theorem Block.alike_refl : (b : Block) → b.alike b = true
  | .mk _ body => by simp [Block.alike,stmtsAlike_refl body]

@[simp] theorem Stmt.alike_refl : (s : Stmt) → s.alike s = true
  | .binding _ _ value => by simp [Stmt.alike,value.alike_refl]
  | .result _ none => by simp [Stmt.alike]
  | .result _ (some value) => by simp [Stmt.alike,value.alike_refl]
  | .expression _ e => by simp [Stmt.alike,e.alike_refl]
  | .block b => by simp [Stmt.alike,b.alike_refl]

@[simp] theorem stmtsAlike_refl : (ss : List Stmt) → stmtsAlike ss ss = true
  | [] => rfl
  | s :: ss => by simp [stmtsAlike,s.alike_refl,stmtsAlike_refl ss]

end

/-- What it means for two values to be the same but for the places they were read at. -/
class Likeness (α : Type) where
  Alike : α → α → Prop
  refl : ∀ a, Alike a a

namespace Likeness
variable {α β : Type}

instance : Likeness Token := ⟨fun t u => t.alike u = true,Token.alike_refl⟩

instance : Likeness Name := ⟨fun a b => a.alike b = true,Name.alike_refl⟩

instance : Likeness Expr := ⟨fun a b => a.alike b = true,Expr.alike_refl⟩

instance : Likeness Block := ⟨fun a b => a.alike b = true,Block.alike_refl⟩

instance : Likeness Stmt := ⟨fun a b => a.alike b = true,Stmt.alike_refl⟩

instance : Likeness Unit := ⟨Eq,Eq.refl⟩

instance [Likeness α] : Likeness (List α) :=
  ⟨List.Forall₂ Alike,fun _ => List.forall₂_same.mpr fun a _ => refl a⟩

instance [Likeness α] : Likeness (Option α) := ⟨Option.Rel Alike,fun o => by
  cases o with
  | none => exact .none
  | some a => exact .some (refl a)⟩

inductive Rounds [Likeness α] [Likeness β] : Round α β → Round α β → Prop where
  | again {a a' : α} (h : Alike a a') : Rounds (.again a) (.again a')
  | stop {b b' : β} (h : Alike b b') : Rounds (.stop b) (.stop b')

instance [Likeness α] [Likeness β] : Likeness (Round α β) := ⟨Rounds,fun r => by
  cases r with
  | again a => exact .again (refl a)
  | stop b => exact .stop (refl b)⟩

end Likeness
open Likeness

theorem exprsAlike_iff {as bs : List Expr} : exprsAlike as bs = true ↔ Alike as bs := by
  induction as generalizing bs with
  | nil => cases bs <;> simp [exprsAlike,Alike]
  | cons a as ih => cases bs <;> simp_all [exprsAlike,Alike]

theorem stmtsAlike_iff {as bs : List Stmt} : stmtsAlike as bs = true ↔ Alike as bs := by
  induction as generalizing bs with
  | nil => cases bs <;> simp [stmtsAlike,Alike]
  | cons a as ih => cases bs <;> simp_all [stmtsAlike,Alike]

theorem isEqv_alike_iff {as bs : List Name} : as.isEqv bs Name.alike = true ↔ Alike as bs := by
  induction as generalizing bs with
  | nil => cases bs <;> simp [List.isEqv,Alike]
  | cons a as ih => cases bs <;> simp_all [List.isEqv,Alike]

theorem Name.alike_ofToken {t u : Token} (h : t.alike u = true) :
    (Name.ofToken t).alike (.ofToken u) = true := by
  simp [Name.alike,Name.ofToken,h,((t.alike_iff u).mp h).2]

end Precedence
