import Precedence.Proofs.Tree.Joined

/-! Trees that are alike have the same text. -/
namespace Precedence

theorem Token.alike_iff_spelling {t u : Token} : t.alike u = true ↔ t.spelling = u.spelling := by
  simp [Token.alike_iff,Token.spelling]

theorem Token.kind_of_alike {t u : Token} (h : t.alike u = true) : t.kind = u.kind :=
  ((t.alike_iff u).mp h).1

theorem Name.piece_of_alike {a b : Name} (h : a.alike b = true) : a.piece = b.piece := by
  simp only [Name.alike,Bool.and_eq_true,beq_iff_eq] at h
  rw [Name.piece,Name.piece,h.2]

theorem parameters_of_isEqv {as bs : List Name} (h : as.isEqv bs Name.alike = true) :
    (as.map fun n => [n.piece]) = bs.map fun n => [n.piece] := by
  induction as generalizing bs with
  | nil =>
    cases bs with
    | nil => rfl
    | cons b bs => simp [List.isEqv] at h
  | cons a as ih =>
    cases bs with
    | nil => simp [List.isEqv] at h
    | cons b bs =>
      simp only [List.isEqv,Bool.and_eq_true] at h
      rw [List.map_cons,List.map_cons,ih h.2,Name.piece_of_alike h.1]

mutual

theorem Expr.pieces_of_alike : (a b : Expr) → a.alike b = true → a.pieces = b.pieces
  | .name a, b, h => by
    cases b <;> simp only [Expr.alike,Bool.false_eq_true] at h
    rw [Expr.pieces,Expr.pieces,Name.piece_of_alike h]
  | .integer t v, b, h => by
    cases b <;> simp only [Expr.alike,Bool.and_eq_true,Bool.false_eq_true] at h
    rw [Expr.pieces,Expr.pieces,Token.alike_iff_spelling.mp h.1]
  | .boolean t v, b, h => by
    cases b <;> simp only [Expr.alike,Bool.and_eq_true,Bool.false_eq_true] at h
    rw [Expr.pieces,Expr.pieces,Token.alike_iff_spelling.mp h.1]
  | .unary t o right, b, h => by
    cases b <;> simp only [Expr.alike,Bool.and_eq_true,beq_iff_eq,Bool.false_eq_true] at h
    obtain ⟨⟨ht,ho⟩,hr⟩ := h
    rw [Expr.pieces,Expr.pieces,Token.kind_of_alike ht,ho,right.pieces_of_alike _ hr]
  | .binary t left o right, b, h => by
    cases b <;> simp only [Expr.alike,Bool.and_eq_true,beq_iff_eq,Bool.false_eq_true] at h
    obtain ⟨⟨⟨ht,hl⟩,ho⟩,hr⟩ := h
    rw [Expr.pieces,Expr.pieces,Token.kind_of_alike ht,ho,left.pieces_of_alike _ hl,
      right.pieces_of_alike _ hr]
  | .conditional t condition consequence none, b, h => by
    cases b with
    | conditional u c a x =>
      cases x <;> simp only [Expr.alike,Bool.and_eq_true,Bool.false_eq_true] at h
      rw [Expr.pieces,Expr.pieces,condition.pieces_of_alike _ h.1.2,
        consequence.pieces_of_alike _ h.2]
    | _ => simp [Expr.alike] at h
  | .conditional t condition consequence (some alternative), b, h => by
    cases b with
    | conditional u c a x =>
      cases x <;> simp only [Expr.alike,Bool.and_eq_true,Bool.false_eq_true] at h
      rw [Expr.pieces,Expr.pieces,condition.pieces_of_alike _ h.1.1.2,
        consequence.pieces_of_alike _ h.1.2,alternative.pieces_of_alike _ h.2]
    | _ => simp [Expr.alike] at h
  | .function t parameters body, b, h => by
    cases b <;> simp only [Expr.alike,Bool.and_eq_true,Bool.false_eq_true] at h
    obtain ⟨⟨ht,hp⟩,hb⟩ := h
    rw [Expr.pieces,Expr.pieces,Token.alike_iff_spelling.mp ht,parameters_of_isEqv hp,
      body.pieces_of_alike _ hb]
  | .call t callee arguments, b, h => by
    cases b <;> simp only [Expr.alike,Bool.and_eq_true,Bool.false_eq_true] at h
    obtain ⟨⟨ht,hf⟩,ha⟩ := h
    rw [Expr.pieces,Expr.pieces,callee.pieces_of_alike _ hf,piecesEach_of_alike _ _ ha]

theorem piecesEach_of_alike : (as bs : List Expr) → exprsAlike as bs = true →
    piecesEach as = piecesEach bs
  | [], bs, h => by
    cases bs <;> simp only [exprsAlike,Bool.false_eq_true] at h
    rfl
  | a :: as, bs, h => by
    cases bs <;> simp only [exprsAlike,Bool.and_eq_true,Bool.false_eq_true] at h
    rw [piecesEach,piecesEach,a.pieces_of_alike _ h.1,piecesEach_of_alike as _ h.2]

theorem Block.pieces_of_alike : (a b : Block) → a.alike b = true → a.pieces = b.pieces
  | .mk t [], .mk u bs, h => by
    cases bs <;> simp only [Block.alike,stmtsAlike,Bool.and_false,Bool.false_eq_true] at h
    rfl
  | .mk t (a :: as), .mk u bs, h => by
    cases bs <;> simp only [Block.alike,stmtsAlike,Bool.and_false,Bool.and_eq_true,
      Bool.false_eq_true] at h
    rw [Block.pieces,Block.pieces,a.pieces_of_alike _ h.2.1,piecesAll_of_alike as _ h.2.2]

theorem Stmt.pieces_of_alike : (a b : Stmt) → a.alike b = true → a.pieces = b.pieces
  | .binding t n value, b, h => by
    cases b <;> simp only [Stmt.alike,Bool.and_eq_true,Bool.false_eq_true] at h
    rw [Stmt.pieces,Stmt.pieces,Token.alike_iff_spelling.mp h.1.1,Name.piece_of_alike h.1.2,
      value.pieces_of_alike _ h.2]
  | .result t none, b, h => by
    cases b with
    | result u x =>
      cases x <;> simp only [Stmt.alike,Bool.false_eq_true] at h
      rw [Stmt.pieces,Stmt.pieces,Token.alike_iff_spelling.mp h]
    | _ => simp [Stmt.alike] at h
  | .result t (some value), b, h => by
    cases b with
    | result u x =>
      cases x <;> simp only [Stmt.alike,Bool.and_eq_true,Bool.false_eq_true] at h
      rw [Stmt.pieces,Stmt.pieces,Token.alike_iff_spelling.mp h.1,value.pieces_of_alike _ h.2]
    | _ => simp [Stmt.alike] at h
  | .expression t e, b, h => by
    cases b <;> simp only [Stmt.alike,Bool.and_eq_true,Bool.false_eq_true] at h
    exact e.pieces_of_alike _ h.2
  | .block (.mk t as), b, h => by
    cases b with
    | block b =>
      cases b
      simp only [Stmt.alike,Block.alike,Bool.and_eq_true] at h
      exact piecesAll_of_alike as _ h.2
    | _ => simp [Stmt.alike] at h

theorem piecesAll_of_alike : (as bs : List Stmt) → stmtsAlike as bs = true →
    piecesAll as = piecesAll bs
  | [], bs, h => by
    cases bs <;> simp only [stmtsAlike,Bool.false_eq_true] at h
    rfl
  | a :: as, bs, h => by
    cases bs <;> simp only [stmtsAlike,Bool.and_eq_true,Bool.false_eq_true] at h
    rw [piecesAll,piecesAll,a.pieces_of_alike _ h.1,piecesAll_of_alike as _ h.2]

end

theorem Program.render_of_alike {p q : Program} (h : p.alike q = true) : p.render = q.render := by
  apply String.toList_injective
  rw [p.render_toList,q.render_toList,Program.pieces,Program.pieces,piecesAll_of_alike _ _ h]

mutual

theorem Expr.pieces_opened : (e : Expr) → e.opened.pieces = e.pieces
  | .name _ | .integer _ _ | .boolean _ _ => rfl
  | .unary _ _ right => by rw [Expr.opened,Expr.pieces,Expr.pieces,right.pieces_opened]
  | .binary _ left _ right => by
    rw [Expr.opened,Expr.pieces,Expr.pieces,left.pieces_opened,right.pieces_opened]
  | .conditional _ condition consequence none => by
    rw [Expr.opened,Expr.pieces,Expr.pieces,condition.pieces_opened,consequence.pieces_opened]
  | .conditional _ condition consequence (some alternative) => by
    rw [Expr.opened,Expr.pieces,Expr.pieces,condition.pieces_opened,consequence.pieces_opened,
      alternative.pieces_opened]
  | .function _ _ body => by rw [Expr.opened,Expr.pieces,Expr.pieces,body.pieces_opened]
  | .call _ callee arguments => by
    rw [Expr.opened,Expr.pieces,Expr.pieces,callee.pieces_opened,piecesEach_opened arguments]

theorem piecesEach_opened : (es : List Expr) → piecesEach (openedEach es) = piecesEach es
  | [] => rfl
  | e :: es => by
    rw [openedEach,piecesEach,piecesEach,e.pieces_opened,piecesEach_opened es]

theorem Block.pieces_opened : (b : Block) → b.opened.pieces = b.pieces
  | .mk _ [] => rfl
  | .mk _ (s :: ss) => by
    rw [Block.opened,openedAll,Block.pieces,Block.pieces,s.pieces_opened,piecesAll_opened ss]

theorem Stmt.pieces_opened : (s : Stmt) → s.opened.pieces = s.pieces
  | .binding _ _ value => by rw [Stmt.opened,Stmt.pieces,Stmt.pieces,value.pieces_opened]
  | .result _ none => rfl
  | .result _ (some value) => by rw [Stmt.opened,Stmt.pieces,Stmt.pieces,value.pieces_opened]
  | .expression _ e => e.pieces_opened
  | .block (.mk _ body) => piecesAll_opened body

theorem piecesAll_opened : (ss : List Stmt) → piecesAll (openedAll ss) = piecesAll ss
  | [] => rfl
  | s :: ss => by
    rw [openedAll,piecesAll,piecesAll,s.pieces_opened,piecesAll_opened ss]

end

@[simp] theorem Program.pieces_opened (p : Program) : p.opened.pieces = p.pieces :=
  piecesAll_opened p.statements

theorem Program.render_opened (p : Program) : p.opened.render = p.render := by
  apply String.toList_injective
  rw [p.opened.render_toList,p.render_toList,p.pieces_opened]

end Precedence
