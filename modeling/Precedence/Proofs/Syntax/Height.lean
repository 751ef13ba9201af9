import Precedence.Proofs.Syntax.Nodes
import Precedence.Proofs.Tree.Height

/-! How high the trees are that can be read. The nesting limit bounds the height, but for left
operands and callees: these share the level of the expression that they start, so that the height
grows with every operator in a row. -/
namespace Precedence

/-- Twice the height that `n` levels leave room for, where no more than `w` operations and calls
stand in a row. -/
def room (w n : Nat) : Nat := n*(2*w+3)

@[simp] theorem room_succ (w n : Nat) : room w (n+1) = room w n+(2*w+3) := Nat.succ_mul ..

def Phrase.Low (w n : Nat) : Phrase → Prop
  | .atom e | .expr _ e => 2*e.height ≤ room w n+1+2*e.links
  | .items es | .arguments es => 2*heightEach es ≤ room w n
  | .alternative none => True
  | .alternative (some b) | .block b => 2*b.height+1 ≤ room w n
  | .statement s => 2*s.height ≤ room w n
  | .statements ss => ∀ s ∈ ss, 2*s.height ≤ room w n

/-- An expression takes a level of its own, which leaves room for what it is a part of. -/
theorem Phrase.Low.opened {w l n : Nat} {layer : Power} {e : Expr}
    (h : ∀ n, l ≤ n → (Phrase.expr layer e).Low w n) (hw : ∀ k ∈ e.nodes, k.links ≤ w)
    (hn : l+1 ≤ n) : 2*(e.height+1) ≤ room w n := by
  obtain _ | m := n
  · exact absurd hn (Nat.not_succ_le_zero l)
  have he := h m (Nat.le_of_succ_le_succ hn)
  have hl := Expr.links_le hw
  simp only [Phrase.Low] at he
  simp only [room_succ]
  omega

theorem Phrase.Low.block {w l n : Nat} {o : Token} {ss : List Stmt}
    (h : ∀ n, l ≤ n → (Phrase.statements ss).Low w n) (hn : l+1 ≤ n) :
    (Phrase.block (.mk o ss)).Low w n := by
  obtain _ | m := n
  · exact absurd hn (Nat.not_succ_le_zero l)
  have hss : ∀ s ∈ ss, 2*s.height ≤ room w m := h m (Nat.le_of_succ_le_succ hn)
  have hall : 2*heightAll ss ≤ room w m+2 := by
    clear h hn
    induction ss with
    | nil => simp [heightAll]
    | cons s ss ih =>
      obtain ⟨hs,hss⟩ := List.forall_mem_cons.mp hss
      have hi := ih hss
      simp only [heightAll]
      omega
  simp only [Phrase.Low,Block.height,room_succ]
  omega

/-- A derivation with `n` levels gives a tree that is no higher than they leave room for. -/
theorem Derivation.low {gaps : Prop} {w : Nat} {φ : Phrase} {input rest : List Token}
    (D : Derivation gaps φ input rest) (hw : ∀ k ∈ φ.nodes, k.links ≤ w) :
    ∀ n, D.levels ≤ n → φ.Low w n := by
  induction D with
  | name | integer | truth | falsity => exact fun n _ => Nat.zero_le _
  | group _ _ _ ih =>
    intro n hn
    have h := Phrase.Low.opened (ih hw) hw hn
    simp only [Phrase.Low]
    omega
  | @conditional _ _ _ _ _ b _ _ _ _ _ _ _ _ _ _ ih ihc iha =>
    intro n hn
    obtain ⟨hne,hnb⟩ := Nat.max_le.mp hn
    obtain ⟨hnc,hna⟩ := Nat.max_le.mp hnb
    cases b with
    | none =>
      obtain ⟨hwe,hwc⟩ := List.forall_mem_append.mp (List.forall_mem_cons.mp hw).2
      have he := Phrase.Low.opened (ih hwe) hwe hne
      have hc := ihc hwc n hnc
      simp only [Phrase.Low,Expr.height] at hc ⊢
      omega
    | some b =>
      obtain ⟨hwe,hwb⟩ := List.forall_mem_append.mp (List.forall_mem_cons.mp hw).2
      obtain ⟨hwc,hwa⟩ := List.forall_mem_append.mp hwb
      have he := Phrase.Low.opened (ih hwe) hwe hne
      have hc := ihc hwc n hnc
      have ha := iha hwa n hna
      simp only [Phrase.Low,Expr.height] at hc ha ⊢
      omega
  | noElse => exact fun _ _ => trivial
  | elseBlock _ _ ih => exact ih hw
  | function _ _ _ _ ih =>
    intro n hn
    have hb := ih (List.forall_mem_append.mp (List.forall_mem_cons.mp hw).2).2 n hn
    simp only [Phrase.Low,Expr.height] at hb ⊢
    omega
  | ofAtom _ ih | loosen _ _ ih => exact ih hw
  | call _ _ _ ihf iha =>
    intro n hn
    obtain ⟨hnf,hna⟩ := Nat.max_le.mp hn
    obtain ⟨hwf,hwa⟩ := List.forall_mem_append.mp (List.forall_mem_cons.mp hw).2
    have hf := ihf hwf n hnf
    have ha := iha hwa n hna
    simp only [Phrase.Low,Expr.height,Expr.links] at hf ha ⊢
    omega
  | unary _ _ ih =>
    intro n hn
    have hwe := (List.forall_mem_cons.mp hw).2
    have he := Phrase.Low.opened (ih hwe) hwe hn
    simp only [Phrase.Low,Expr.height]
    omega
  | binary _ _ _ _ ihl ihr =>
    intro n hn
    obtain ⟨hnl,hnr⟩ := Nat.max_le.mp hn
    obtain ⟨hwl,hwr⟩ := List.forall_mem_append.mp (List.forall_mem_cons.mp hw).2
    -- The left operand opens no level: what it adds to the height is a link of the row.
    have hl := ihl hwl n hnl
    have hr := Phrase.Low.opened (ihr hwr) hwr hnr
    simp only [Phrase.Low,Expr.height,Expr.links] at hl ⊢
    omega
  | lastItem _ ih =>
    intro n hn
    have hwe := (List.forall_mem_append.mp hw).1
    have he := Phrase.Low.opened (ih hwe) hwe hn
    simp only [Phrase.Low,heightEach]
    omega
  | moreItems _ _ _ ih ihs =>
    intro n hn
    obtain ⟨hn,hns⟩ := Nat.max_le.mp hn
    obtain ⟨hwe,hws⟩ := List.forall_mem_append.mp hw
    have he := Phrase.Low.opened (ih hwe) hwe hn
    have hes := ihs hws n hns
    simp only [Phrase.Low,heightEach] at hes ⊢
    omega
  | noArguments => exact fun _ _ => Nat.zero_le _
  | someArguments _ _ ih => exact ih hw
  | closedBlock _ _ _ ih | openBlock _ _ ih =>
    exact fun n hn => Phrase.Low.block (ih (List.forall_mem_cons.mp hw).2) hn
  | binding _ _ _ _ _ ih =>
    have hwe := (List.forall_mem_cons.mp (List.forall_mem_cons.mp hw).2).2
    exact fun n hn => Phrase.Low.opened (ih hwe) hwe hn
  | bareResult => exact fun _ _ => Nat.zero_le _
  | result _ _ _ ih | expression _ _ ih =>
    have hwe := (List.forall_mem_cons.mp hw).2
    exact fun n hn => Phrase.Low.opened (ih hwe) hwe hn
  | nil => exact fun _ _ => by simp [Phrase.Low]
  | cons _ _ ihf ihs =>
    intro n hn
    obtain ⟨hn,hns⟩ := Nat.max_le.mp hn
    obtain ⟨hws,hwss⟩ := List.forall_mem_append.mp hw
    exact List.forall_mem_cons.mpr ⟨ihf hws n hn,ihs hwss n hns⟩
  | skip _ _ ih => exact ih hw

/-- The nesting limit bounds the height of all that is read from a source, as far as operations and
calls in a row are bounded in it. -/
theorem height_le_of_links (source : Source) (w : Nat)
    (hw : ∀ n ∈ (parse source).program.nodes, n.links ≤ w) :
    ∀ s ∈ (parse source).program.statements, 2*s.height ≤ nestingLimit*(2*w+3) := by
  obtain ⟨D,hD⟩ := (Scanner.ofSource source).parse_derivable True (.inl trivial)
  exact D.low hw nestingLimit hD

/-- A call of two additions in a group. -/
theorem height_le_of_links_group :
    (∀ n ∈ (parse ⟨"(a + -b + c)(1);","f"⟩).program.nodes, n.links ≤ 3) ∧
      (parse ⟨"(a + -b + c)(1);","f"⟩).program.statements.map Stmt.height = [5] ∧
      ∀ s ∈ (parse ⟨"(a + -b + c)(1);","f"⟩).program.statements,
        2*s.height ≤ nestingLimit*(2*3+3) := by
  have hlinks : ∀ n ∈ (parse ⟨"(a + -b + c)(1);","f"⟩).program.nodes, n.links ≤ 3 := by
    decide +kernel
  exact ⟨hlinks,by decide +kernel,height_le_of_links _ 3 hlinks⟩

def sumPieces : Nat → List Piece
  | 0 => []
  | n+1 => .token (.of .plus) :: .token ⟨.identifier,"a"⟩ :: sumPieces n

theorem sumPieces_lexes (n : Nat) : ∀ w ∈ tokensOf (sumPieces n), w.Lexes := by
  induction n with
  | zero => simp [sumPieces]
  | succ n ih =>
    refine List.forall_mem_cons.mpr ⟨Spelling.lexes_of rfl,List.forall_mem_cons.mpr ⟨?_,ih⟩⟩
    exact Spelling.lexes_name (by decide)

theorem sumPieces_separate (n : Nat) : Separate (.token ⟨.identifier,"a"⟩ :: sumPieces n) := by
  induction n with
  | zero => simp [sumPieces,Separate]
  | succ n ih =>
    refine ⟨fun d hd => ?_,fun d hd => ?_,ih⟩
    · obtain rfl := Option.some.inj hd
      decide
    · obtain rfl := Option.some.inj hd
      decide

theorem sum_derivable {n : Nat} {e : Expr} {input ts : List Token}
    (hts : ts.map Token.spelling = tokensOf (sumPieces n))
    (he : Derivable False 1 (.expr .sum e) input ts) :
    ∃ e', Derivable False 1 (.expr .sum e') input [] ∧ e'.height = e.height+n := by
  induction n generalizing e ts with
  | zero =>
    obtain rfl := List.map_eq_nil_iff.mp hts
    exact ⟨e,he,rfl⟩
  | succ n ih =>
    obtain ⟨t,_,rfl,ht,hts⟩ := List.map_eq_cons_iff.mp hts
    obtain ⟨u,vs,rfl,hu,hvs⟩ := List.map_eq_cons_iff.mp hts
    have hk : t.kind = .plus := Token.kind_of_spelling ht
    have hname : u.kind = .identifier := Token.kind_of_spelling hu
    obtain ⟨D,hD⟩ := he
    obtain ⟨e',he',hh⟩ := ih (e := .binary t e t.text (.name (.ofToken u))) hvs
      ⟨.binary (by simp [hk,Power.operators]) (by decide : Power.sum < .call) D
        (.ofAtom (.name hname)),by simp only [Derivation.levels]; omega⟩
    refine ⟨e',he',?_⟩
    simp only [Expr.height] at hh
    omega

def sumSource (n : Nat) : Source :=
  { text := String.ofList (textOf (.token ⟨.identifier,"a"⟩ :: sumPieces n)) }

theorem sumSource_spellings (n : Nat) :
    (Scanner.ofSource (sumSource n)).ahead.map Token.spelling =
      ⟨.identifier,"a"⟩ :: tokensOf (sumPieces n) := by
  have hlexes : ∀ w ∈ tokensOf (.token ⟨.identifier,"a"⟩ :: sumPieces n), w.Lexes :=
    List.forall_mem_cons.mpr ⟨Spelling.lexes_name (by decide),sumPieces_lexes n⟩
  rw [Scanner.ahead_spellings,← tokensOf_token,← spellings_textOf hlexes (sumPieces_separate n)]
  exact congrArg spellings String.toList_ofList

/-- Trees of every height are read without a fault, for left operands take no levels. -/
theorem height_of_sum (n : Nat) :
    ∃ s, parse (sumSource n) = ⟨⟨[s]⟩,[]⟩ ∧ s.height = n+1 := by
  obtain ⟨t,ts,ha,ht,hts⟩ := List.map_eq_cons_iff.mp (sumSource_spellings n)
  have hname : t.kind = .identifier := Token.kind_of_spelling ht
  have hfirst : Derivable False 1 (.expr .sum (.name (.ofToken t))) (t :: ts) ts :=
    ⟨.loosen (by decide : Power.sum < .call) (.ofAtom (.name hname)),by simp [Derivation.levels]⟩
  obtain ⟨e,⟨D,hD⟩,hh⟩ := sum_derivable hts hfirst
  have hs : Derivable False nestingLimit (.statements [.expression t e])
      (Scanner.ofSource (sumSource n)).ahead [] := by
    rw [ha]
    refine ⟨.cons (.expression (.loosen (by decide : Power.lowest < .sum) D)
      (.omitted (by simp))) .nil,?_⟩
    simp only [Derivation.levels,nestingLimit]
    omega
  obtain ⟨S,hS⟩ := hs
  refine ⟨_,Scanner.parse_of_derivation S hS,?_⟩
  rw [Stmt.height,hh,Expr.height,Nat.zero_add]

/-- So no number bounds the height of all trees. -/
theorem height_not_bounded :
    ¬ ∃ K, ∀ source, ∀ s ∈ (parse source).program.statements, s.height ≤ K := by
  rintro ⟨K,hK⟩
  obtain ⟨s,hp,hs⟩ := height_of_sum K
  have hle := hK (sumSource K) s (by simp [hp])
  omega

end Precedence
