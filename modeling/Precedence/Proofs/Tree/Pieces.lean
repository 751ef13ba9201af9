import Precedence.Proofs.Token.Spelling
import Precedence.Tree.Printer

/-! The pieces of which the text of a tree is made. -/
namespace Precedence

/-- The text of a kind of token that has only one. -/
def Kind.text : Kind → String
  | .fnWord => "fn"
  | .letWord => "let"
  | .returnWord => "return"
  | .trueWord => "true"
  | .falseWord => "false"
  | .ifWord => "if"
  | .elseWord => "else"
  | k => k.label

def Spelling.of (k : Kind) : Spelling := ⟨k,k.text⟩

namespace Piece

def mark (k : Kind) : Piece := .token (.of k)

@[simp] theorem text_blank : blank.text = [' '] := rfl

@[simp] theorem text_token (w : Spelling) : (token w).text = w.text.toList := rfl

@[simp] theorem text_mark (k : Kind) : (mark k).text = k.text.toList := rfl

end Piece

@[simp] theorem tokensOf_mark (k : Kind) (ps : List Piece) :
    tokensOf (.mark k :: ps) = .of k :: tokensOf ps := rfl

def separated : List (List Piece) → List Piece
  | [] => []
  | [ps] => ps
  | ps :: qs :: rest => ps ++ .mark .comma :: .blank :: separated (qs :: rest)

theorem textOf_separated (pss : List (List Piece)) (ss : List String)
    (h : ss.map String.toList = pss.map textOf) :
    (", ".intercalate ss).toList = textOf (separated pss) := by
  induction pss generalizing ss with
  | nil =>
    obtain rfl : ss = [] := by simpa using h
    rfl
  | cons ps pss ih =>
    obtain ⟨s,ss,rfl,hs,hss⟩ := List.map_eq_cons_iff.mp h
    cases pss with
    | nil =>
      obtain rfl : ss = [] := by simpa using hss
      simpa [separated] using hs
    | cons qs pss =>
      obtain ⟨s',ss',rfl,-,-⟩ := List.map_eq_cons_iff.mp hss
      rw [String.intercalate_cons_cons,String.toList_append,ih _ hss]
      simp [separated,hs,Kind.text,Kind.label]

def Name.piece (n : Name) : Piece := .token ⟨.identifier,n.value⟩

mutual

def Expr.pieces : Expr → List Piece
  | .name n => [n.piece]
  | .integer t _ | .boolean t _ => [.token t.spelling]
  | .unary t operator right =>
    .mark .openParen :: .token ⟨t.kind,operator⟩ :: (right.pieces ++ [.mark .closeParen])
  | .binary t left operator right =>
    .mark .openParen :: (left.pieces ++ .blank :: .token ⟨t.kind,operator⟩ :: .blank ::
      (right.pieces ++ [.mark .closeParen]))
  | .conditional _ condition consequence none =>
    .mark .ifWord :: .blank :: .mark .openParen :: (condition.pieces ++ .mark .closeParen ::
      .blank :: consequence.pieces)
  | .conditional _ condition consequence (some alternative) =>
    .mark .ifWord :: .blank :: .mark .openParen :: (condition.pieces ++ .mark .closeParen ::
      .blank :: (consequence.pieces ++ .blank :: .mark .elseWord :: .blank :: alternative.pieces))
  | .function t parameters body =>
    .token t.spelling :: .mark .openParen :: (separated (parameters.map fun n => [n.piece]) ++
      .mark .closeParen :: .blank :: body.pieces)
  | .call _ callee arguments =>
    callee.pieces ++ .mark .openParen :: (separated (piecesEach arguments) ++ [.mark .closeParen])
termination_by structural e => e

def piecesEach : List Expr → List (List Piece)
  | [] => []
  | e :: es => e.pieces :: piecesEach es
termination_by structural es => es

def Block.pieces : Block → List Piece
  | .mk _ [] => [.mark .openBrace,.mark .closeBrace]
  | .mk _ (s :: ss) =>
    .mark .openBrace :: .blank :: (s.pieces ++ (piecesAll ss ++ [.blank,.mark .closeBrace]))
termination_by structural b => b

def Stmt.pieces : Stmt → List Piece
  | .binding t name value =>
    .token t.spelling :: .blank :: name.piece :: .blank :: .mark .assign :: .blank ::
      (value.pieces ++ [.mark .semicolon])
  | .result t none => [.token t.spelling,.mark .semicolon]
  | .result t (some value) => .token t.spelling :: .blank :: (value.pieces ++ [.mark .semicolon])
  | .expression _ e => e.pieces
  | .block (.mk _ body) => piecesAll body
termination_by structural s => s

def piecesAll : List Stmt → List Piece
  | [] => []
  | s :: ss => s.pieces ++ piecesAll ss
termination_by structural ss => ss

end

def Program.pieces (p : Program) : List Piece := piecesAll p.statements

theorem Block.tokensOf_pieces (t : Token) (ss : List Stmt) :
    tokensOf (Block.mk t ss).pieces =
      .of .openBrace :: (tokensOf (piecesAll ss) ++ [.of .closeBrace]) := by
  cases ss <;> simp [Block.pieces,piecesAll]

mutual

theorem Expr.render_toList : (e : Expr) → e.render.toList = textOf e.pieces
  | .name _ => by simp [Expr.render,Expr.pieces,Name.piece]
  | .integer _ _ => by simp [Expr.render,Expr.pieces,Token.spelling]
  | .boolean _ _ => by simp [Expr.render,Expr.pieces,Token.spelling]
  | .unary _ _ right => by
    simp [Expr.render,Expr.pieces,right.render_toList,Kind.text,Kind.label]
  | .binary _ left _ right => by
    simp [Expr.render,Expr.pieces,left.render_toList,right.render_toList,Kind.text,Kind.label]
  | .conditional _ condition consequence none => by
    simp [Expr.render,Expr.pieces,condition.render_toList,consequence.braced_toList,Kind.text,
      Kind.label]
  | .conditional _ condition consequence (some alternative) => by
    simp [Expr.render,Expr.pieces,condition.render_toList,consequence.braced_toList,
      alternative.braced_toList,Kind.text,Kind.label]
  | .function _ parameters body => by
    have hp := textOf_separated (parameters.map fun n => [n.piece]) (parameters.map Name.value)
      (by simp [Name.piece])
    simp [Expr.render,Expr.pieces,hp,body.braced_toList,Token.spelling,Kind.text,Kind.label]
  | .call _ callee arguments => by
    have ha := textOf_separated _ _ (renderEach_toList arguments)
    simp [Expr.render,Expr.pieces,callee.render_toList,ha,Kind.text,Kind.label]

theorem renderEach_toList : (es : List Expr) →
    (renderEach es).map String.toList = (piecesEach es).map textOf
  | [] => rfl
  | e :: es => by simp [renderEach,piecesEach,e.render_toList,renderEach_toList es]

theorem Block.braced_toList : (b : Block) → b.braced.toList = textOf b.pieces
  | .mk _ [] => by simp [Block.braced,Block.pieces,Kind.text,Kind.label]
  | .mk _ (s :: ss) => by
    simp [Block.braced,inBraces,Block.pieces,s.render_toList,renderAll_toList ss,Kind.text,
      Kind.label]

theorem Stmt.render_toList : (s : Stmt) → s.render.toList = textOf s.pieces
  | .binding _ _ value => by
    simp [Stmt.render,Stmt.pieces,value.render_toList,Token.spelling,Name.piece,Kind.text,
      Kind.label]
  | .result _ none => by simp [Stmt.render,Stmt.pieces,Token.spelling,Kind.text,Kind.label]
  | .result _ (some value) => by
    simp [Stmt.render,Stmt.pieces,value.render_toList,Token.spelling,Kind.text,Kind.label]
  | .expression _ e => e.render_toList
  | .block (.mk _ body) => renderAll_toList body

theorem renderAll_toList : (ss : List Stmt) → (renderAll ss).toList = textOf (piecesAll ss)
  | [] => rfl
  | s :: ss => by simp [renderAll,piecesAll,s.render_toList,renderAll_toList ss]

end

/-- The text of a program is made of its pieces. -/
theorem Program.render_toList (p : Program) : p.render.toList = textOf p.pieces :=
  renderAll_toList p.statements

end Precedence
