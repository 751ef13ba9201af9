import Precedence.Proofs.Tree.Formed
import Precedence.Proofs.Tree.Joined
import Precedence.Proofs.Tree.Tokens

/-! Which tokens of a tree's text could run together. That can happen only to a name, a number or
a truth value that is a statement by itself, with what starts the next statement. -/
namespace Precedence

mutual

/-- Each expression statement is the last statement of its block. -/
def Expr.Final : Expr → Prop
  | .name _ | .integer _ _ | .boolean _ _ => True
  | .unary _ _ right => right.Final
  | .binary _ left _ right => left.Final ∧ right.Final
  | .conditional _ condition consequence none => condition.Final ∧ consequence.Final
  | .conditional _ condition consequence (some alternative) =>
    condition.Final ∧ consequence.Final ∧ alternative.Final
  | .function _ _ body => body.Final
  | .call _ callee arguments => callee.Final ∧ FinalEach arguments
termination_by structural e => e

def FinalEach : List Expr → Prop
  | [] => True
  | e :: es => e.Final ∧ FinalEach es
termination_by structural es => es

def Block.Final : Block → Prop
  | .mk _ body => FinalAll body
termination_by structural b => b

def Stmt.Final : Stmt → Prop
  | .binding _ _ value => value.Final
  | .result _ none => True
  | .result _ (some value) => value.Final
  | .expression _ e => e.Final
  | .block b => b.Final
termination_by structural s => s

def FinalAll : List Stmt → Prop
  | [] => True
  | .expression _ e :: ss => e.Final ∧ ss = []
  | s :: ss => s.Final ∧ FinalAll ss
termination_by structural ss => ss

end

def Program.Final (p : Program) : Prop := FinalAll p.statements

mutual

theorem Expr.Final.apart : (e : Expr) → e.Final → e.Apart
  | .name _, _ | .integer _ _, _ | .boolean _ _, _ => trivial
  | .unary _ _ right, h => Expr.Final.apart right h
  | .binary _ left _ right, h => ⟨Expr.Final.apart left h.1,Expr.Final.apart right h.2⟩
  | .conditional _ condition consequence none, h =>
    ⟨Expr.Final.apart condition h.1,Block.Final.apart consequence h.2⟩
  | .conditional _ condition consequence (some alternative), h =>
    ⟨Expr.Final.apart condition h.1,Block.Final.apart consequence h.2.1,
      Block.Final.apart alternative h.2.2⟩
  | .function _ _ body, h => Block.Final.apart body h
  | .call _ callee arguments, h => ⟨Expr.Final.apart callee h.1,FinalEach.apart arguments h.2⟩

theorem FinalEach.apart : (es : List Expr) → FinalEach es → ApartEach es
  | [], _ => trivial
  | e :: es, h => ⟨Expr.Final.apart e h.1,FinalEach.apart es h.2⟩

theorem Block.Final.apart : (b : Block) → b.Final → b.Apart
  | .mk _ body, h => FinalAll.apart body h

theorem Stmt.Final.apart : (s : Stmt) → s.Final → s.Apart
  | .binding _ _ value, h => Expr.Final.apart value h
  | .result _ none, _ => trivial
  | .result _ (some value), h => Expr.Final.apart value h
  | .expression _ e, h => Expr.Final.apart e h
  | .block b, h => Block.Final.apart b h

theorem FinalAll.apart : (ss : List Stmt) → FinalAll ss → ApartAll ss
  | [], _ => trivial
  | .expression _ e :: ss, h => by
    obtain ⟨he,rfl⟩ := h
    exact ⟨Expr.Final.apart e he,rfl,trivial⟩
  | .binding t n value :: ss, h => ⟨Stmt.Final.apart (.binding t n value) h.1,FinalAll.apart ss h.2⟩
  | .result t value :: ss, h => ⟨Stmt.Final.apart (.result t value) h.1,FinalAll.apart ss h.2⟩
  | .block b :: ss, h => ⟨Stmt.Final.apart (.block b) h.1,FinalAll.apart ss h.2⟩

end

/-- A text that does not run together with any token before it. -/
def Loose (ps : List Piece) : Prop :=
  ∀ d ∈ (textOf ps).head?, isWordPart d = false ∧ d ≠ '='

def BeginsKept (ps : List Piece) : Prop :=
  ∃ v qs, ps = .token v :: qs ∧ v.kind.kept = true

/-- The kinds of the expressions that are one token. -/
def Kind.leaf : Kind → Bool
  | .identifier | .integer | .trueWord | .falseWord => true
  | _ => false

/-- No token runs together with what comes behind it, unless there is freedom to and both are
tokens that trees keep. -/
def Chained (free : Prop) : List Piece → Prop
  | [] => True
  | .blank :: ps => Chained free ps
  | .token w :: ps =>
    ((∀ d ∈ (textOf ps).head?, w.glues d = false) ∨ free ∧ w.kind.leaf = true ∧ BeginsKept ps) ∧
      Chained free ps

theorem separate_iff_chained {ps : List Piece} : Separate ps ↔ Chained False ps := by
  induction ps with
  | nil => exact Iff.rfl
  | cons p ps ih =>
    cases p with
    | blank => exact ih
    | token w => simp [Separate,Chained,ih]

theorem Spelling.glues_eq_false {w : Spelling} {d : Char} (hd : isWordPart d = false)
    (he : d ≠ '=') : w.glues d = false := by
  unfold glues
  split
  · rfl
  · split
    · exact hd
    · split
      · cases hn : d.isDigit with
        | false => rfl
        | true => simp [isWordPart_of_isDigit hn] at hd
      · simp [he]

namespace Loose
variable {ps : List Piece}

theorem nil : Loose [] := by simp [Loose]

theorem blank : Loose (.blank :: ps) := by
  rintro _ ⟨⟩
  decide

theorem mark {k : Kind} (h : k ∈ [Kind.openParen,.closeParen,.comma,.semicolon]) :
    Loose (.mark k :: ps) := by
  simp only [List.mem_cons,List.not_mem_nil,or_false] at h
  rcases h with rfl | rfl | rfl | rfl <;> rintro _ ⟨⟩ <;> decide

end Loose

namespace Chained
variable {free : Prop} {w : Spelling} {k : Kind} {ps : List Piece}

theorem token (hl : Loose ps) (h : Chained free ps) : Chained free (.token w :: ps) :=
  ⟨.inl fun d hd => Spelling.glues_eq_false (hl d hd).1 (hl d hd).2,h⟩

theorem mark (hk : k ∈ [Kind.openParen,.closeParen,.openBrace,.closeBrace,.comma,.semicolon])
    (h : Chained free ps) : Chained free (.mark k :: ps) := by
  refine ⟨.inl fun d _ => ?_,h⟩
  simp only [List.mem_cons,List.not_mem_nil,or_false] at hk
  rcases hk with rfl | rfl | rfl | rfl | rfl | rfl <;> rfl

theorem separated {pss : List (List Piece)}
    (hpss : ∀ qs ∈ pss, ∀ rest, Loose rest → Chained free rest → Chained free (qs ++ rest))
    (hl : Loose ps) (h : Chained free ps) : Chained free (separated pss ++ ps) := by
  fun_induction Precedence.separated pss with
  | case1 => exact h
  | case2 qs => exact hpss qs (by simp) ps hl h
  | case3 qs rs rest ih =>
    have hrest := ih fun qs hq => hpss qs (List.mem_cons_of_mem _ hq)
    rw [List.append_assoc]
    exact hpss qs (by simp) _ (.mark (by simp)) (.mark (by simp) hrest)

end Chained

namespace Expr

theorem pieces_head (e : Expr) (h : e.Formed) : ∃ qs, e.pieces = .token e.opening.spelling :: qs := by
  induction e using spine with
  | name n =>
    have hn : (name n).opening.spelling = ⟨.identifier,n.value⟩ := h.1
    exact ⟨[],by rw [hn]; rfl⟩
  | conditional t c a b =>
    have ht : (conditional t c a b).opening.spelling = .of .ifWord := by cases b <;> exact h.1
    rw [ht]
    cases b <;> exact ⟨_,rfl⟩
  | call t callee arguments ih =>
    obtain ⟨qs,hqs⟩ := ih h.2.1
    exact ⟨_,by rw [pieces,hqs]; rfl⟩
  | _ => exact ⟨_,rfl⟩

theorem opening_of_parens {e : Expr} (h : e.parens = true) : e.opening = .mark .openParen := by
  induction e using spine with
  | unary | binary => rfl
  | call t callee arguments ih => exact ih h
  | _ => simp [parens] at h

theorem opening_kind {e : Expr} (h : e.Formed) (hp : e.parens = false) :
    e.opening.kind ∈ [Kind.identifier,.integer,.trueWord,.falseWord,.ifWord,.fnWord] := by
  induction e using spine with
  | name n =>
    have hk : n.token.kind = .identifier := congrArg Spelling.kind h.1
    simp [opening,token,hk]
  | integer t v =>
    have hk : t.kind = .integer := h.1
    simp [opening,token,hk]
  | boolean t v =>
    have hk : t.kind = if v then .trueWord else .falseWord := congrArg Spelling.kind h
    cases v <;> simp [opening,token,hk]
  | conditional t c a b =>
    have hk : t.kind = .ifWord := by cases b <;> exact congrArg Spelling.kind h.1
    simp [opening,token,hk]
  | function t ns b =>
    have hk : t.kind = .fnWord := congrArg Spelling.kind h.1
    simp [opening,token,hk]
  | unary | binary => simp [parens] at hp
  | call t callee arguments ih => exact ih h.2.1 hp

theorem opening_kept {e : Expr} (h : e.Formed) (hp : e.parens = false) :
    e.opening.kind.kept = true := by
  have hk := opening_kind h hp
  simp only [List.mem_cons,List.not_mem_nil,or_false] at hk
  rcases hk with hk | hk | hk | hk | hk | hk <;> rw [hk] <;> rfl

theorem opening_continues {e : Expr} (h : e.Formed) (hp : e.parens = false) :
    e.opening.kind.continues = false := by
  have hk := opening_kind h hp
  simp only [List.mem_cons,List.not_mem_nil,or_false] at hk
  rcases hk with hk | hk | hk | hk | hk | hk <;> rw [hk] <;> rfl

theorem begins {e : Expr} (h : e.Formed) (ps : List Piece) :
    Loose (e.pieces ++ ps) ∨ BeginsKept (e.pieces ++ ps) := by
  obtain ⟨qs,hqs⟩ := e.pieces_head h
  rw [hqs,List.cons_append]
  by_cases hp : e.parens = true
  · rw [opening_of_parens hp]
    exact .inl (@Loose.mark (qs ++ ps) .openParen (by simp))
  · exact .inr ⟨_,_,rfl,opening_kept h (by simpa using hp)⟩

end Expr

theorem Spelling.Lexes.head_ne {w : Spelling} {ps : List Piece} (h : w.Lexes)
    (ha : w.kind ≠ .assign) (he : w.kind ≠ .equal) :
    ∀ d ∈ (textOf (.token w :: ps)).head?, d ≠ '=' := by
  obtain ⟨c,cs,hw,-,hl⟩ := h
  have hkind : (lexemeAt c cs).kind = w.kind := by rw [hl]
  intro d hd
  obtain rfl : c = d := by simpa [hw] using hd
  rintro rfl
  rw [← hkind] at ha he
  cases cs with
  | nil => exact ha rfl
  | cons d ds =>
    by_cases hd : d = '='
    · subst hd
      exact he rfl
    · have hs : (lexemeAt '=' (d :: ds)).kind = .assign := by
        simp [lexemeAt,isWordStart,symbolAt,hd]
        rfl
      exact ha hs

/-- No expression starts with the character that runs together with a prefix operator. -/
theorem Expr.head_ne {e : Expr} (h : e.Formed) (ps : List Piece) :
    ∀ d ∈ (textOf (e.pieces ++ ps)).head?, d ≠ '=' := by
  obtain ⟨qs,hqs⟩ := e.pieces_head h
  have hlex : e.opening.spelling.Lexes := by
    have hl := Expr.Formed.lexical e h
    rw [hqs,Lexical.token] at hl
    exact hl.1
  have hk : e.opening.kind ≠ .assign ∧ e.opening.kind ≠ .equal := by
    by_cases hp : e.parens = true
    · rw [opening_of_parens hp]
      decide
    · have hk := opening_kind h (by simpa using hp)
      constructor <;> intro he <;> simp [he] at hk
  rw [hqs,List.cons_append]
  exact hlex.head_ne hk.1 hk.2

theorem Stmt.begins {s : Stmt} (h : s.Formed) (ps : List Piece) :
    Loose (s.pieces ++ ps) ∨ BeginsKept (s.pieces ++ ps) := by
  cases s with
  | binding t n value =>
    have hk : t.kind = .letWord := congrArg Spelling.kind h.1
    exact .inr ⟨_,_,rfl,by simp [Token.spelling,hk,Kind.kept]⟩
  | result t value =>
    have hk : t.kind = .returnWord := by
      cases value
      · exact congrArg Spelling.kind h
      · exact congrArg Spelling.kind h.1
    cases value <;> exact .inr ⟨_,_,rfl,by simp [Token.spelling,hk,Kind.kept]⟩
  | expression t e => exact Expr.begins h ps
  | block b => exact h.elim

theorem finalAll_cons {s : Stmt} {ss : List Stmt} (h : FinalAll (s :: ss)) :
    s.Final ∧ FinalAll ss ∧ ((∃ t e, s = .expression t e) → ss = []) := by
  cases s with
  | expression t e =>
    obtain ⟨he,rfl⟩ := h
    exact ⟨he,trivial,fun _ => rfl⟩
  | _ => exact ⟨h.1,h.2,by rintro ⟨_,_,⟨⟩⟩⟩

section
variable {free : Prop}

theorem Chained.leaf {w : Spelling} {ps : List Piece} (hw : w.kind.leaf = true)
    (hps : Loose ps ∨ free ∧ BeginsKept ps) (h : Chained free ps) :
    Chained free (.token w :: ps) := by
  rcases hps with hl | ⟨hf,hb⟩
  · exact .token hl h
  · exact ⟨.inr ⟨hf,hw,hb⟩,h⟩

theorem Chained.unary {t : Token} {right : Expr} {ps : List Piece}
    (ht : t.spelling = .of .bang ∨ t.spelling = .of .minus) (hf : right.Formed)
    (h : Chained free (right.pieces ++ ps)) :
    Chained free (.token t.spelling :: (right.pieces ++ ps)) := by
  refine ⟨.inl fun d hd => ?_,h⟩
  have hne := Expr.head_ne hf ps d hd
  rcases ht with ht | ht <;> rw [ht]
  · simpa [Spelling.glues,Spelling.of,Kind.text,Kind.label,isWordStart] using hne
  · rfl

mutual

theorem Expr.chained : (e : Expr) → e.Formed → (free ∨ e.Final) → ∀ ps : List Piece,
    (Loose ps ∨ free ∧ BeginsKept ps) → Chained free ps → Chained free (e.pieces ++ ps)
  | .name n, _, _, ps, hps, h => .leaf rfl hps h
  | .integer t _, hf, _, ps, hps, h => by
    have hk : t.kind = .integer := hf.1
    exact .leaf (by rw [Token.spelling,hk]; rfl) hps h
  | .boolean t v, hf, _, ps, hps, h => by
    have hk : t.spelling.kind.leaf = true := by
      rw [show t.spelling = _ from hf]
      cases v <;> rfl
    exact .leaf hk hps h
  | .unary t operator right, hf, hfin, ps, _, h => by
    have hr := Expr.chained right hf.2.2 hfin _ (.inl (.mark (by simp)))
      (.mark (k := .closeParen) (by simp) h)
    have ho := Chained.unary hf.1 hf.2.2 hr
    rw [← Token.operator_spelling hf.2.1] at ho
    simpa [Expr.pieces] using Chained.mark (k := .openParen) (by simp) ho
  | .binary t left operator right, hf, hfin, ps, _, h => by
    have hr := Expr.chained right hf.2.2.2.2 (hfin.imp_right And.right) _ (.inl (.mark (by simp)))
      (.mark (k := .closeParen) (by simp) h)
    have ho : Chained free (.blank :: .token ⟨t.kind,operator⟩ :: .blank :: _) := .token .blank hr
    have hl := Expr.chained left hf.2.2.2.1 (hfin.imp_right And.left) _ (.inl .blank) ho
    simpa [Expr.pieces] using Chained.mark (k := .openParen) (by simp) hl
  | .conditional t condition consequence none, hf, hfin, ps, _, h => by
    have ha := Block.chained consequence hf.2.2 (hfin.imp_right And.right) ps h
    have hclose : Chained free (.mark .closeParen :: .blank :: _) := .mark (by simp) ha
    have hc := Expr.chained condition hf.2.1 (hfin.imp_right And.left) _ (.inl (.mark (by simp)))
      hclose
    have hif : Chained free (.mark .ifWord :: .blank :: .mark .openParen :: _) :=
      .token .blank (.mark (by simp) hc)
    simpa [Expr.pieces] using hif
  | .conditional t condition consequence (some alternative), hf, hfin, ps, _, h => by
    have hb := Block.chained alternative hf.2.2.2 (hfin.imp_right fun h => h.2.2) ps h
    have helse : Chained free (.blank :: .mark .elseWord :: .blank :: _) := .token .blank hb
    have ha := Block.chained consequence hf.2.2.1 (hfin.imp_right fun h => h.2.1) _ helse
    have hclose : Chained free (.mark .closeParen :: .blank :: _) := .mark (by simp) ha
    have hc := Expr.chained condition hf.2.1 (hfin.imp_right And.left) _ (.inl (.mark (by simp)))
      hclose
    have hif : Chained free (.mark .ifWord :: .blank :: .mark .openParen :: _) :=
      .token .blank (.mark (by simp) hc)
    simpa [Expr.pieces] using hif
  | .function t parameters body, hf, hfin, ps, _, h => by
    have hb := Block.chained body hf.2.2 hfin ps h
    have hclose : Chained free (.mark .closeParen :: .blank :: _) := .mark (by simp) hb
    have hnames : ∀ qs ∈ parameters.map fun n => [n.piece], ∀ rest, Loose rest →
        Chained free rest → Chained free (qs ++ rest) := by
      intro qs hqs rest hl hrest
      obtain ⟨n,-,rfl⟩ := List.mem_map.mp hqs
      exact .token hl hrest
    have hparams := Chained.separated hnames (.mark (by simp)) hclose
    have hfn : Chained free (.token t.spelling :: .mark .openParen :: _) :=
      .token (.mark (by simp)) (.mark (by simp) hparams)
    simpa [Expr.pieces] using hfn
  | .call t callee arguments, hf, hfin, ps, _, h => by
    have hes := FormedEach.chained arguments hf.2.2 (hfin.imp_right And.right)
    have hargs := Chained.separated hes (.mark (by simp)) (.mark (k := .closeParen) (by simp) h)
    have hopen : Chained free (.mark .openParen :: _) := .mark (by simp) hargs
    have hc := Expr.chained callee hf.2.1 (hfin.imp_right And.left) _ (.inl (.mark (by simp))) hopen
    simpa [Expr.pieces] using hc

theorem FormedEach.chained : (es : List Expr) → FormedEach es → (free ∨ FinalEach es) →
    ∀ qs ∈ piecesEach es, ∀ ps, Loose ps → Chained free ps → Chained free (qs ++ ps)
  | [], _, _ => by simp [piecesEach]
  | e :: es, hf, hfin => by
    have he := Expr.chained e hf.1 (hfin.imp_right And.left)
    have hes := FormedEach.chained es hf.2 (hfin.imp_right And.right)
    intro qs hqs ps hl h
    rw [piecesEach,List.mem_cons] at hqs
    rcases hqs with rfl | hqs
    · exact he ps (.inl hl) h
    · exact hes qs hqs ps hl h

theorem Block.chained : (b : Block) → b.Formed → (free ∨ b.Final) → ∀ ps : List Piece,
    Chained free ps → Chained free (b.pieces ++ ps)
  | .mk t [], _, _, ps, h => .mark (by simp) (.mark (by simp) h)
  | .mk t (s :: ss), hf, hfin, ps, h => by
    have hss := FormedAll.chained (s :: ss) hf.2 hfin (.blank :: .mark .closeBrace :: ps) .blank
      (.mark (by simp) h)
    have hopen : Chained free (.mark .openBrace :: .blank :: _) := .mark (by simp) hss
    simpa [Block.pieces,piecesAll] using hopen

theorem Stmt.chained : (s : Stmt) → s.Formed → (free ∨ s.Final) → ∀ ps : List Piece,
    ((∃ t e, s = .expression t e) → Loose ps ∨ free ∧ BeginsKept ps) → Chained free ps →
      Chained free (s.pieces ++ ps)
  | .binding t n value, hf, hfin, ps, _, h => by
    have hv := Expr.chained value hf.2.2 hfin _ (.inl (.mark (by simp)))
      (.mark (k := .semicolon) (by simp) h)
    have hassign : Chained free (.blank :: .mark .assign :: .blank :: _) := .token .blank hv
    have hname : Chained free (.blank :: n.piece :: _) := .token .blank hassign
    have hlet : Chained free (.token t.spelling :: _) := .token .blank hname
    simpa [Stmt.pieces] using hlet
  | .result t none, _, _, ps, _, h => .token (.mark (by simp)) (.mark (by simp) h)
  | .result t (some value), hf, hfin, ps, _, h => by
    have hv := Expr.chained value hf.2 hfin _ (.inl (.mark (by simp)))
      (.mark (k := .semicolon) (by simp) h)
    have hreturn : Chained free (.token t.spelling :: .blank :: _) := .token .blank hv
    simpa [Stmt.pieces] using hreturn
  | .expression t e, hf, hfin, ps, hps, h => Expr.chained e hf hfin ps (hps ⟨t,e,rfl⟩) h
  | .block b, hf, _, _, _, _ => hf.elim

theorem FormedAll.chained : (ss : List Stmt) → FormedAll ss → (free ∨ FinalAll ss) →
    ∀ ps : List Piece, Loose ps → Chained free ps → Chained free (piecesAll ss ++ ps)
  | [], _, _, ps, _, h => h
  | s :: ss, hf, hfin, ps, hl, h => by
    have hrest := FormedAll.chained ss hf.2 (hfin.imp_right fun h => (finalAll_cons h).2.1) ps hl h
    have hfollow : (∃ t e, s = .expression t e) →
        Loose (piecesAll ss ++ ps) ∨ free ∧ BeginsKept (piecesAll ss ++ ps) := by
      intro hs
      cases ss with
      | nil => exact .inl hl
      | cons r rs =>
        rcases hfin with hfree | hfin
        · rw [piecesAll,List.append_assoc]
          exact (Stmt.begins hf.2.1 _).imp_right fun hb => ⟨hfree,hb⟩
        · have hnil := (finalAll_cons hfin).2.2 hs
          simp at hnil
    have hs := Stmt.chained s hf.1 (hfin.imp_right fun h => (finalAll_cons h).1) _ hfollow hrest
    simpa [piecesAll] using hs

end
end

/-- Where each expression statement is the last one, no tokens run together. -/
theorem Program.Final.separate {p : Program} (h : p.Final) (hf : p.Formed) : Separate p.pieces := by
  have hc := @FormedAll.chained False p.statements hf (.inr h) [] .nil trivial
  rw [List.append_nil] at hc
  exact separate_iff_chained.mpr hc

end Precedence
