import Precedence.Proofs.Tree.Joined

/-! Joining statements makes a text longer: what stands in parentheses gets another pair of them
as an argument. So a tree that is the same joined has nothing to join. -/
namespace Precedence

def tokenCount (ps : List Piece) : Nat := (tokensOf ps).length

@[simp] theorem tokenCount_nil : tokenCount [] = 0 := rfl

@[simp] theorem tokenCount_blank (ps : List Piece) : tokenCount (.blank :: ps) = tokenCount ps := rfl

@[simp] theorem tokenCount_token (w : Spelling) (ps : List Piece) :
    tokenCount (.token w :: ps) = tokenCount ps+1 := rfl

@[simp] theorem tokenCount_mark (k : Kind) (ps : List Piece) :
    tokenCount (.mark k :: ps) = tokenCount ps+1 := rfl

@[simp] theorem tokenCount_append (ps qs : List Piece) :
    tokenCount (ps ++ qs) = tokenCount ps + tokenCount qs := by
  simp [tokenCount]

/-- `qs` has no fewer tokens than `ps`, and as many only where `P` holds. -/
def Grows (ps qs : List Piece) (P : Prop) : Prop :=
  tokenCount ps ≤ tokenCount qs ∧ (tokenCount qs = tokenCount ps → P)

theorem piecesAll_append (ss ss' : List Stmt) :
    piecesAll (ss ++ ss') = piecesAll ss ++ piecesAll ss' := by
  induction ss with
  | nil => rfl
  | cons s ss ih => simp [piecesAll,ih]

theorem Block.tokenCount_pieces (t : Token) (ss : List Stmt) :
    tokenCount (Block.mk t ss).pieces = tokenCount (piecesAll ss)+2 := by
  simp [tokenCount,Block.tokensOf_pieces]

theorem Expr.tokenCount_onto {e : Expr} (p : Expr) (h : e.parens = true) :
    tokenCount (e.onto p).pieces = tokenCount e.pieces + tokenCount p.pieces+2 := by
  induction e using Expr.spine with
  | unary | binary =>
    simp [Expr.onto,Expr.pieces,piecesEach,separated]
    omega
  | call t callee arguments ih =>
    have ih := ih h
    simp only [Expr.onto,Expr.pieces,tokenCount_append,ih]
    omega
  | _ => simp [Expr.parens] at h

def GrowsAll (held : Option Expr) (ss : List Stmt) : Prop :=
  Grows (piecesAll (closed held ++ ss)) (piecesAll (joinedAll held ss))
    (ApartAll ss ∧ (held.isSome = true → startsParens ss = false))

namespace GrowsAll
variable {held : Option Expr} {e p : Expr} {t : Token} {s : Stmt} {ss : List Stmt}

theorem none_iff : GrowsAll none ss ↔
    Grows (piecesAll ss) (piecesAll (joinedAll none ss)) (ApartAll ss) := by
  simp [GrowsAll,closed]

theorem tokenCount_cons (s : Stmt) (ss : List Stmt) :
    tokenCount (piecesAll (s :: ss)) = tokenCount s.pieces + tokenCount (piecesAll ss) :=
  tokenCount_append _ _

theorem tokenCount_closed (p : Expr) (ss : List Stmt) :
    tokenCount (piecesAll (closed (some p) ++ ss)) =
      tokenCount p.pieces + tokenCount (piecesAll ss) := by
  simp [closed,piecesAll,Stmt.pieces]

theorem hold (he : Grows e.pieces e.joined.pieces e.Apart) (h : GrowsAll (some e.joined) ss) :
    GrowsAll none (.expression t e :: ss) := by
  obtain ⟨he,he'⟩ := he
  obtain ⟨hss,hss'⟩ := h
  rw [tokenCount_closed] at hss hss'
  rw [none_iff,Grows,joinedAll,tokenCount_cons,Stmt.pieces]
  refine ⟨by omega,fun h => ?_⟩
  obtain ⟨ha,hp⟩ := hss' (by omega)
  exact ⟨he' (by omega),hp rfl,ha⟩

theorem call (hpar : e.parens = true) (he : Grows e.pieces e.joined.pieces e.Apart)
    (h : GrowsAll (some (e.joined.onto p)) ss) : GrowsAll (some p) (.expression t e :: ss) := by
  obtain ⟨he,-⟩ := he
  obtain ⟨hss,-⟩ := h
  have hpar' : e.joined.parens = true := by rw [e.parens_joined,hpar]
  rw [tokenCount_closed,Expr.tokenCount_onto p hpar'] at hss
  rw [GrowsAll,Grows,joinedAll,if_pos hpar,tokenCount_closed,tokenCount_cons,Stmt.pieces]
  exact ⟨by omega,fun h => by omega⟩

theorem next (hpar : e.parens = false) (he : Grows e.pieces e.joined.pieces e.Apart)
    (h : GrowsAll (some e.joined) ss) : GrowsAll (some p) (.expression t e :: ss) := by
  obtain ⟨he,he'⟩ := he
  obtain ⟨hss,hss'⟩ := h
  rw [tokenCount_closed] at hss hss'
  rw [GrowsAll,Grows,joinedAll,if_neg (by simp [hpar]),tokenCount_closed,tokenCount_closed,
    tokenCount_cons,Stmt.pieces]
  refine ⟨by omega,fun h => ?_⟩
  obtain ⟨ha,hp⟩ := hss' (by omega)
  exact ⟨⟨he' (by omega),hp rfl,ha⟩,fun _ => hpar⟩

theorem statement (hne : ∀ t e, s ≠ .expression t e) (hs : Grows s.pieces s.joined.pieces s.Apart)
    (h : GrowsAll none ss) : GrowsAll held (s :: ss) := by
  obtain ⟨hs,hs'⟩ := hs
  obtain ⟨hss,hss'⟩ := none_iff.mp h
  rw [GrowsAll,Grows,joinedAll_cons hne,piecesAll_append,piecesAll_append,tokenCount_append,
    tokenCount_append,tokenCount_cons,tokenCount_cons]
  refine ⟨by omega,fun h => ?_⟩
  have hA : s.Apart ∧ ApartAll ss := ⟨hs' (by omega),hss' (by omega)⟩
  cases s with
  | expression t e => exact absurd rfl (hne t e)
  | _ => exact ⟨hA,fun _ => rfl⟩

end GrowsAll

mutual

theorem Expr.joined_grows : (e : Expr) → Grows e.pieces e.joined.pieces e.Apart
  | .name _ => ⟨Nat.le_refl _,fun _ => trivial⟩
  | .integer _ _ => ⟨Nat.le_refl _,fun _ => trivial⟩
  | .boolean _ _ => ⟨Nat.le_refl _,fun _ => trivial⟩
  | .unary _ _ right => by
    obtain ⟨hle,heq⟩ := right.joined_grows
    simp only [Grows,Expr.joined,Expr.pieces,tokenCount_mark,tokenCount_token,tokenCount_append]
    exact ⟨by omega,fun h => heq (by omega)⟩
  | .binary _ left _ right => by
    obtain ⟨hl,hl'⟩ := left.joined_grows
    obtain ⟨hr,hr'⟩ := right.joined_grows
    simp only [Grows,Expr.joined,Expr.pieces,tokenCount_mark,tokenCount_token,tokenCount_blank,
      tokenCount_append]
    exact ⟨by omega,fun h => ⟨hl' (by omega),hr' (by omega)⟩⟩
  | .conditional _ condition consequence none => by
    obtain ⟨hc,hc'⟩ := condition.joined_grows
    obtain ⟨ha,ha'⟩ := consequence.joined_grows
    simp only [Grows,Expr.joined,Expr.pieces,tokenCount_mark,tokenCount_blank,tokenCount_append]
    exact ⟨by omega,fun h => ⟨hc' (by omega),ha' (by omega)⟩⟩
  | .conditional _ condition consequence (some alternative) => by
    obtain ⟨hc,hc'⟩ := condition.joined_grows
    obtain ⟨ha,ha'⟩ := consequence.joined_grows
    obtain ⟨hb,hb'⟩ := alternative.joined_grows
    simp only [Grows,Expr.joined,Expr.pieces,tokenCount_mark,tokenCount_blank,tokenCount_append]
    exact ⟨by omega,fun h => ⟨hc' (by omega),ha' (by omega),hb' (by omega)⟩⟩
  | .function _ _ body => by
    obtain ⟨hle,heq⟩ := body.joined_grows
    simp only [Grows,Expr.joined,Expr.pieces,tokenCount_mark,tokenCount_token,tokenCount_blank,
      tokenCount_append]
    exact ⟨by omega,fun h => heq (by omega)⟩
  | .call _ callee arguments => by
    obtain ⟨hc,hc'⟩ := callee.joined_grows
    obtain ⟨ha,ha'⟩ := joinedEach_grows arguments
    simp only [Grows,Expr.joined,Expr.pieces,tokenCount_mark,tokenCount_append]
    exact ⟨by omega,fun h => ⟨hc' (by omega),ha' (by omega)⟩⟩

theorem joinedEach_grows : (es : List Expr) →
    Grows (separated (piecesEach es)) (separated (piecesEach (joinedEach es))) (ApartEach es)
  | [] => ⟨Nat.le_refl _,fun _ => trivial⟩
  | [e] => by
    obtain ⟨hle,heq⟩ := e.joined_grows
    exact ⟨hle,fun h => ⟨heq h,trivial⟩⟩
  | e :: f :: es => by
    obtain ⟨he,he'⟩ := e.joined_grows
    obtain ⟨hes,hes'⟩ := joinedEach_grows (f :: es)
    simp only [Grows,joinedEach,piecesEach,separated,tokenCount_append,tokenCount_mark,tokenCount_blank]
      at hes hes' ⊢
    exact ⟨by omega,fun h => ⟨he' (by omega),hes' (by omega)⟩⟩

theorem Block.joined_grows : (b : Block) → Grows b.pieces b.joined.pieces b.Apart
  | .mk t body => by
    obtain ⟨hle,heq⟩ := GrowsAll.none_iff.mp (joinedAll_grows body none)
    rw [Grows,Block.joined,Block.tokenCount_pieces,Block.tokenCount_pieces]
    exact ⟨by omega,fun h => heq (by omega)⟩

theorem Stmt.joined_grows : (s : Stmt) → Grows s.pieces s.joined.pieces s.Apart
  | .binding _ _ value => by
    obtain ⟨hle,heq⟩ := value.joined_grows
    simp only [Grows,Stmt.joined,Stmt.pieces,Name.piece,tokenCount_mark,tokenCount_token,tokenCount_blank,
      tokenCount_append]
    exact ⟨by omega,fun h => heq (by omega)⟩
  | .result _ none => ⟨Nat.le_refl _,fun _ => trivial⟩
  | .result _ (some value) => by
    obtain ⟨hle,heq⟩ := value.joined_grows
    simp only [Grows,Stmt.joined,Stmt.pieces,tokenCount_mark,tokenCount_token,tokenCount_blank,
      tokenCount_append]
    exact ⟨by omega,fun h => heq (by omega)⟩
  | .expression _ e => e.joined_grows
  | .block (.mk _ body) => GrowsAll.none_iff.mp (joinedAll_grows body none)

theorem joinedAll_grows : (ss : List Stmt) → (held : Option Expr) → GrowsAll held ss
  | [], held => by
    rw [GrowsAll,List.append_nil]
    exact ⟨Nat.le_refl _,fun _ => ⟨trivial,fun _ => rfl⟩⟩
  | .expression t e :: ss, held => by
    cases held with
    | none => exact .hold e.joined_grows (joinedAll_grows ss _)
    | some p =>
      by_cases hpar : e.parens = true
      · exact .call hpar e.joined_grows (joinedAll_grows ss _)
      · exact .next (by simpa using hpar) e.joined_grows (joinedAll_grows ss _)
  | .binding t n value :: ss, held =>
    .statement (by simp) (Stmt.binding t n value).joined_grows (joinedAll_grows ss none)
  | .result t value :: ss, held =>
    .statement (by simp) (Stmt.result t value).joined_grows (joinedAll_grows ss none)
  | .block b :: ss, held =>
    .statement (by simp) (Stmt.block b).joined_grows (joinedAll_grows ss none)

end

/-- Of the joined trees only those that were apart have as many tokens as before. -/
theorem apartAll_of_tokenCount {ss : List Stmt}
    (h : tokenCount (piecesAll (joinedAll none ss)) = tokenCount (piecesAll ss)) : ApartAll ss :=
  (GrowsAll.none_iff.mp (joinedAll_grows ss none)).2 h

end Precedence
