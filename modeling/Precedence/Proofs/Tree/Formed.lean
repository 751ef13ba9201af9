import Precedence.Proofs.Syntax.Layers
import Precedence.Proofs.Tree.Pieces
import Precedence.Text.Numeral

/-! Trees as a reading gives them: their tokens have the kinds and texts that belong to their
places. Only the token of an expression statement, which its text does not show, is free. -/
namespace Precedence

theorem Token.kind_of_spelling {t : Token} {w : Spelling} (h : t.spelling = w) :
    t.kind = w.kind := by
  rw [← h]
  rfl

/-- Letters, digits and underscores that start with no digit and are no reserved word. -/
def isName (s : String) : Bool :=
  match s.toList with
  | [] => false
  | c :: cs => isWordStart c && cs.all isWordPart && Kind.ofWord s == .identifier

def Name.Formed (n : Name) : Prop :=
  n.token.spelling = ⟨.identifier,n.value⟩ ∧ isName n.value = true

mutual

def Expr.Formed : Expr → Prop
  | .name n => n.Formed
  | .integer t value => t.kind = .integer ∧ Text.numeral? t.text = some value
  | .boolean t value => t.spelling = .of (if value then .trueWord else .falseWord)
  | .unary t operator right =>
    (t.spelling = .of .bang ∨ t.spelling = .of .minus) ∧ operator = t.text ∧ right.Formed
  | .binary t left operator right =>
    (∃ layer : Power, t.kind ∈ layer.operators) ∧ t.spelling = .of t.kind ∧ operator = t.text ∧
      left.Formed ∧ right.Formed
  | .conditional t condition consequence none =>
    t.spelling = .of .ifWord ∧ condition.Formed ∧ consequence.Formed
  | .conditional t condition consequence (some alternative) =>
    t.spelling = .of .ifWord ∧ condition.Formed ∧ consequence.Formed ∧ alternative.Formed
  | .function t parameters body =>
    t.spelling = .of .fnWord ∧ (∀ n ∈ parameters, n.Formed) ∧ body.Formed
  | .call t callee arguments =>
    t.spelling = .of .openParen ∧ callee.Formed ∧ FormedEach arguments
termination_by structural e => e

def FormedEach : List Expr → Prop
  | [] => True
  | e :: es => e.Formed ∧ FormedEach es
termination_by structural es => es

def Block.Formed : Block → Prop
  | .mk t body => t.spelling = .of .openBrace ∧ FormedAll body
termination_by structural b => b

/-- No rule of the language gives a block that is a statement by itself. -/
def Stmt.Formed : Stmt → Prop
  | .binding t name value => t.spelling = .of .letWord ∧ name.Formed ∧ value.Formed
  | .result t none => t.spelling = .of .returnWord
  | .result t (some value) => t.spelling = .of .returnWord ∧ value.Formed
  | .expression _ e => e.Formed
  | .block _ => False
termination_by structural s => s

def FormedAll : List Stmt → Prop
  | [] => True
  | s :: ss => s.Formed ∧ FormedAll ss
termination_by structural ss => ss

end

def Program.Formed (p : Program) : Prop := FormedAll p.statements

namespace Spelling

theorem lexes_name {s : String} (h : isName s = true) : (⟨.identifier,s⟩ : Spelling).Lexes := by
  unfold isName at h
  cases hs : s.toList with
  | nil => simp [hs] at h
  | cons c cs =>
    simp only [hs,Bool.and_eq_true,beq_iff_eq] at h
    obtain ⟨⟨hc,hcs⟩,hk⟩ := h
    obtain ⟨ht,hd⟩ := takeWhile_all (List.all_eq_true.mp hcs)
    have hword : String.ofList (c :: cs) = s := by rw [← hs,String.ofList_toList]
    refine ⟨c,cs,hs,isBlank_of_isWordStart hc,?_⟩
    simp [lexemeAt,hc,ht,hd,hword,hk]

theorem lexes_integer {s : String} {v : Int} (h : Text.numeral? s = some v) :
    (⟨.integer,s⟩ : Spelling).Lexes := by
  unfold Text.numeral? at h
  split at h
  · rename_i hs
    obtain ⟨hne,hall,-⟩ := hs
    cases hl : s.toList with
    | nil => exact absurd (String.toList_eq_nil_iff.mp hl) hne
    | cons c cs =>
      simp only [hl,List.all_cons,Bool.and_eq_true] at hall
      obtain ⟨hc,hcs⟩ := hall
      obtain ⟨ht,hd⟩ := takeWhile_all (List.all_eq_true.mp hcs)
      refine ⟨c,cs,hl,isBlank_of_isDigit hc,?_⟩
      simp [lexemeAt,isWordStart_of_isDigit hc,hc,ht,hd]
  · simp at h

def hasOneText (k : Kind) : Bool :=
  k != .endOfInput && k != .illegal && k != .identifier && k != .integer

theorem lexes_of {k : Kind} (h : hasOneText k = true) : (Spelling.of k).Lexes := by
  cases k <;> first
    | exact ⟨_,_,rfl,rfl,rfl⟩
    | simp [hasOneText] at h

@[simp] theorem lexes_marks :
    (of .openParen).Lexes ∧ (of .closeParen).Lexes ∧ (of .openBrace).Lexes ∧
      (of .closeBrace).Lexes ∧ (of .comma).Lexes ∧ (of .semicolon).Lexes ∧ (of .assign).Lexes ∧
      (of .ifWord).Lexes ∧ (of .elseWord).Lexes := by
  refine ⟨?_,?_,?_,?_,?_,?_,?_,?_,?_⟩ <;> exact lexes_of rfl

end Spelling

/-- Each token among the pieces is one by its text. -/
def Lexical (ps : List Piece) : Prop := ∀ w ∈ tokensOf ps, w.Lexes

namespace Lexical

@[simp] theorem nil : Lexical [] := by simp [Lexical]

@[simp] theorem blank {ps : List Piece} : Lexical (.blank :: ps) ↔ Lexical ps := Iff.rfl

@[simp] theorem token {w : Spelling} {ps : List Piece} :
    Lexical (.token w :: ps) ↔ w.Lexes ∧ Lexical ps := by
  simp [Lexical]

@[simp] theorem mark {k : Kind} {ps : List Piece} :
    Lexical (.mark k :: ps) ↔ (Spelling.of k).Lexes ∧ Lexical ps := token

@[simp] theorem append {ps qs : List Piece} : Lexical (ps ++ qs) ↔ Lexical ps ∧ Lexical qs := by
  simp [Lexical,or_imp,forall_and]

theorem separated {pss : List (List Piece)} (h : ∀ ps ∈ pss, Lexical ps) :
    Lexical (separated pss) := by
  fun_induction Precedence.separated pss with
  | case1 => exact nil
  | case2 ps => exact h ps (by simp)
  | case3 ps qs rest ih =>
    have hps := h ps (by simp)
    have hrest := ih fun qs hq => h qs (by simp [hq])
    simp [hps,hrest]

end Lexical

theorem Name.Formed.lexical {n : Name} (h : n.Formed) : Lexical [n.piece] := by
  simp [Name.piece,Spelling.lexes_name h.2]

theorem Token.operator_spelling {t : Token} {operator : String} (h : operator = t.text) :
    (⟨t.kind,operator⟩ : Spelling) = t.spelling := by
  rw [h]
  rfl

theorem Kind.hasOneText_of_operator {layer : Power} {k : Kind} (h : k ∈ layer.operators) :
    Spelling.hasOneText k = true := by
  cases layer <;> simp [Power.operators] at h <;> rcases h with rfl | rfl <;> rfl

mutual

theorem Expr.Formed.lexical : (e : Expr) → e.Formed → Lexical e.pieces
  | .name n, h => by
    rw [Expr.Formed] at h
    exact h.lexical
  | .integer t v, h => by
    rw [Expr.Formed] at h
    have ht : t.spelling = ⟨.integer,t.text⟩ := by rw [← h.1]; rfl
    simp [Expr.pieces,ht,Spelling.lexes_integer h.2]
  | .boolean t v, h => by
    rw [Expr.Formed] at h
    have hw : t.spelling.Lexes := by
      rw [h]
      cases v <;> exact Spelling.lexes_of rfl
    simp [Expr.pieces,hw]
  | .unary t _ right, h => by
    rw [Expr.Formed] at h
    obtain ⟨ht,ho,hr⟩ := h
    have hw : t.spelling.Lexes := by
      rcases ht with ht | ht <;> rw [ht] <;> exact Spelling.lexes_of rfl
    simp [Expr.pieces,Token.operator_spelling ho,hw,hr.lexical]
  | .binary t left _ right, h => by
    rw [Expr.Formed] at h
    obtain ⟨⟨layer,hk⟩,ht,ho,hl,hr⟩ := h
    have hw : t.spelling.Lexes := ht ▸ Spelling.lexes_of (Kind.hasOneText_of_operator hk)
    simp [Expr.pieces,Token.operator_spelling ho,hw,hl.lexical,hr.lexical]
  | .conditional t condition consequence none, h => by
    rw [Expr.Formed] at h
    simp [Expr.pieces,h.2.1.lexical,h.2.2.lexical]
  | .conditional t condition consequence (some alternative), h => by
    rw [Expr.Formed] at h
    simp [Expr.pieces,h.2.1.lexical,h.2.2.1.lexical,h.2.2.2.lexical]
  | .function t parameters body, h => by
    rw [Expr.Formed] at h
    obtain ⟨ht,hp,hb⟩ := h
    have hw : t.spelling.Lexes := ht ▸ Spelling.lexes_of rfl
    have hnames : Lexical (separated (parameters.map fun n => [n.piece])) :=
      .separated (by simpa using fun n hn => (hp n hn).lexical)
    simp [Expr.pieces,hw,hnames,hb.lexical]
  | .call t callee arguments, h => by
    rw [Expr.Formed] at h
    have ha : Lexical (separated (piecesEach arguments)) := .separated (FormedEach.lexical _ h.2.2)
    simp [Expr.pieces,h.2.1.lexical,ha]

theorem FormedEach.lexical : (es : List Expr) → FormedEach es → ∀ ps ∈ piecesEach es, Lexical ps
  | [], _ => by simp [piecesEach]
  | e :: es, h => by
    rw [FormedEach] at h
    simpa [piecesEach] using ⟨h.1.lexical,FormedEach.lexical es h.2⟩

theorem Block.Formed.lexical : (b : Block) → b.Formed → Lexical b.pieces
  | .mk t [], _ => by simp [Block.pieces]
  | .mk t (s :: ss), h => by
    rw [Block.Formed,FormedAll] at h
    simp [Block.pieces,h.2.1.lexical,FormedAll.lexical ss h.2.2]

theorem Stmt.Formed.lexical : (s : Stmt) → s.Formed → Lexical s.pieces
  | .binding t name value, h => by
    rw [Stmt.Formed] at h
    obtain ⟨ht,hn,hv⟩ := h
    have hw : t.spelling.Lexes := ht ▸ Spelling.lexes_of rfl
    simp [Stmt.pieces,hw,Name.piece,Spelling.lexes_name hn.2,hv.lexical]
  | .result t none, h => by
    rw [Stmt.Formed] at h
    have hw : t.spelling.Lexes := h ▸ Spelling.lexes_of rfl
    simp [Stmt.pieces,hw]
  | .result t (some value), h => by
    rw [Stmt.Formed] at h
    have hw : t.spelling.Lexes := h.1 ▸ Spelling.lexes_of rfl
    simp [Stmt.pieces,hw,h.2.lexical]
  | .expression t e, h => by
    rw [Stmt.Formed] at h
    exact h.lexical
  | .block b, h => by
    rw [Stmt.Formed] at h
    exact h.elim

theorem FormedAll.lexical : (ss : List Stmt) → FormedAll ss → Lexical (piecesAll ss)
  | [], _ => Lexical.nil
  | s :: ss, h => by
    rw [FormedAll] at h
    simp [piecesAll,h.1.lexical,FormedAll.lexical ss h.2]

end

end Precedence
