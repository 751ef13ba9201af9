import Precedence.Proofs.Tree.Separate

/-! Tokens that run together become fewer. A text of pieces is cut into as many tokens of the kinds
that trees keep as the pieces had only if none of them run together. -/
namespace Precedence

def keptCount (ws : List Spelling) : Nat := ws.countP fun w => w.kind.kept

@[simp] theorem keptCount_nil : keptCount [] = 0 := rfl

theorem keptCount_cons (w : Spelling) (ws : List Spelling) :
    keptCount (w :: ws) = keptCount ws + if w.kind.kept then 1 else 0 := List.countP_cons

theorem keptCount_cons_le (w : Spelling) (ws : List Spelling) :
    keptCount (w :: ws) ≤ keptCount ws+1 := by
  rw [keptCount_cons]
  split <;> omega

theorem keptCount_le_cons (w : Spelling) (ws : List Spelling) :
    keptCount ws ≤ keptCount (w :: ws) := by
  rw [keptCount_cons]
  exact Nat.le_add_right _ _

@[simp] theorem keptCount_append (us ws : List Spelling) :
    keptCount (us ++ ws) = keptCount us + keptCount ws := List.countP_append

theorem keptCount_spelling (ts : List Token) :
    keptCount (ts.map Token.spelling) = (keptOnly ts).length := by
  rw [keptCount,List.countP_map,List.countP_eq_length_filter]
  rfl

/-- The characters of which the runs are that a token can go on with. -/
def IsRun (p : Char → Bool) : Prop := p = isWordPart ∨ p = Char.isDigit

theorem isDigit_of_isWordPart {c : Char} (h : isWordPart c = true) (hs : ¬ isWordStart c = true) :
    c.isDigit = true := by
  simp only [isWordPart,isWordStart,Char.isAlphanum,Bool.or_eq_true,not_or] at h hs
  rcases h with (h | h) | h
  · exact absurd h hs.1
  · exact h
  · exact absurd h hs.2

theorem Spelling.Lexes.all_of_head {w : Spelling} {p : Char → Bool} {c : Char} {cs : List Char}
    (h : w.Lexes) (hp : IsRun p) (hw : w.text.toList = c :: cs) (hc : p c = true) :
    ∀ d ∈ c :: cs, p d = true := by
  obtain ⟨c',cs',hw',-,hl⟩ := h
  obtain ⟨rfl,rfl⟩ := List.cons.inj (hw'.symm.trans hw)
  unfold lexemeAt at hl
  by_cases hs : isWordStart c' = true
  · rw [if_pos hs] at hl
    have htake := (List.cons.inj (congrArg Lexeme.text hl)).2
    rcases hp with rfl | rfl
    · simpa [hc] using all_of_takeWhile htake
    · rw [isWordStart_of_isDigit hc] at hs
      simp at hs
  · have hn : c'.isDigit = true := by
      rcases hp with rfl | rfl
      · exact isDigit_of_isWordPart hc hs
      · exact hc
    rw [if_neg hs,if_pos hn] at hl
    have htake := (List.cons.inj (congrArg Lexeme.text hl)).2
    have hall : ∀ d ∈ c' :: cs', d.isDigit = true := by simpa [hn] using all_of_takeWhile htake
    rcases hp with rfl | rfl
    · exact fun d hd => isWordPart_of_isDigit (hall d hd)
    · exact hall

theorem spellings_run {w : Spelling} {rest : List Char} {d : Char} (h : w.Lexes)
    (hw : w.kind.leaf = true) (hd : w.glues d = true) :
    ∃ p u, IsRun p ∧ p d = true ∧
      spellings (w.text.toList ++ rest) = u :: spellings (rest.dropWhile p) := by
  obtain ⟨c,cs,htext,hblank,hl⟩ := h
  rw [Spelling.glues,htext] at hd
  rw [htext,List.cons_append,spellings,if_neg (by simp [hblank])]
  unfold lexemeAt at hl ⊢
  by_cases hs : isWordStart c = true
  · rw [if_pos hs] at hl ⊢
    have hall := all_of_takeWhile (List.cons.inj (congrArg Lexeme.text hl)).2
    exact ⟨isWordPart,_,.inl rfl,by simpa [hs] using hd,by rw [List.dropWhile_append_of_pos hall]⟩
  · by_cases hn : c.isDigit = true
    · rw [if_neg hs,if_pos hn] at hl ⊢
      have hall := all_of_takeWhile (List.cons.inj (congrArg Lexeme.text hl)).2
      exact ⟨Char.isDigit,_,.inr rfl,by simpa [hs,hn] using hd,
        by rw [List.dropWhile_append_of_pos hall]⟩
    · simp only [hs,hn] at hd
      cases hk : w.kind <;> simp [hk,Kind.leaf] at hw hd

/-- What is left of a text behind the rest of a run has no more tokens that trees keep than the
text had, and fewer if the first of them was in the run. -/
theorem keptCount_dropWhile {ps : List Piece} {p : Char → Bool} (hp : IsRun p) (h : Lexical ps)
    (hle : ∀ qs, qs <:+ ps → keptCount (spellings (textOf qs)) ≤ keptCount (tokensOf qs)) :
    keptCount (spellings ((textOf ps).dropWhile p)) ≤ keptCount (tokensOf ps) ∧
      ((∃ d ∈ (textOf ps).head?, p d = true) → BeginsKept ps →
        keptCount (spellings ((textOf ps).dropWhile p)) < keptCount (tokensOf ps)) := by
  induction ps with
  | nil => simp [BeginsKept]
  | cons q ps ih =>
    have hps : ∀ qs, qs <:+ ps → keptCount (spellings (textOf qs)) ≤ keptCount (tokensOf qs) :=
      fun qs hqs => hle qs (hqs.trans (List.suffix_cons q ps))
    cases q with
    | blank =>
      have hb : p ' ' = false := by rcases hp with rfl | rfl <;> decide
      have hself := hle _ (List.suffix_refl _)
      refine ⟨?_,?_⟩
      · rw [textOf_cons,Piece.text_blank,List.singleton_append,
          List.dropWhile_cons_of_neg (by simp [hb])]
        simpa using hself
      · rintro - ⟨v,qs,hv,-⟩
        simp at hv
    | token w =>
      rw [Lexical.token] at h
      obtain ⟨hw,hlex⟩ := h
      have ih := (ih hlex hps).1
      obtain ⟨c,cs,htext,hblank,hl⟩ := hw
      by_cases hc : p c = true
      -- The run takes a token as a whole or stops in front of it.
      · have hall := Spelling.Lexes.all_of_head ⟨c,cs,htext,hblank,hl⟩ hp htext hc
        have hdrop : (textOf (.token w :: ps)).dropWhile p = (textOf ps).dropWhile p := by
          rw [textOf_cons,Piece.text_token,htext,List.dropWhile_append_of_pos hall]
        rw [hdrop,tokensOf_token]
        refine ⟨Nat.le_trans ih (keptCount_le_cons _ _),?_⟩
        rintro - ⟨v,qs,hv,hk⟩
        obtain ⟨hwv,-⟩ := List.cons.inj hv
        obtain rfl : w = v := Piece.token.inj hwv
        rw [keptCount_cons,if_pos hk]
        omega
      · have hdrop : (textOf (.token w :: ps)).dropWhile p = textOf (.token w :: ps) := by
          rw [textOf_cons,Piece.text_token,htext,List.cons_append,List.dropWhile_cons_of_neg hc]
        rw [hdrop]
        refine ⟨hle _ (List.suffix_refl _),?_⟩
        rintro ⟨d,hd,hpd⟩
        obtain rfl : c = d := by simpa [htext] using hd
        exact absurd hpd hc

theorem keptCount_token {w : Spelling} {ps : List Piece} (hw : w.Lexes) (h : Lexical ps)
    (hc : Chained True (.token w :: ps))
    (hle : ∀ qs, qs <:+ ps → keptCount (spellings (textOf qs)) ≤ keptCount (tokensOf qs)) :
    keptCount (spellings (textOf (.token w :: ps))) ≤ keptCount (tokensOf (.token w :: ps)) ∧
      (keptCount (spellings (textOf (.token w :: ps))) = keptCount (tokensOf (.token w :: ps)) →
        (∀ d ∈ (textOf ps).head?, w.glues d = false) ∧
          keptCount (spellings (textOf ps)) = keptCount (tokensOf ps)) := by
  have hself := hle ps (List.suffix_refl _)
  rw [textOf_cons,Piece.text_token,tokensOf_token]
  by_cases hd : ∃ d ∈ (textOf ps).head?, w.glues d = true
  -- Glued to what is behind it, the token takes up a kept one.
  · obtain ⟨d,hd,hglue⟩ := hd
    obtain ⟨-,hleaf,hbegins⟩ := hc.1.resolve_left fun hn => by simp [hn d hd] at hglue
    obtain ⟨p,u,hp,hpd,hrun⟩ := @spellings_run w (textOf ps) d hw hleaf hglue
    have hlt := (keptCount_dropWhile hp h hle).2 ⟨d,hd,hpd⟩ hbegins
    have hu := keptCount_cons_le u (spellings ((textOf ps).dropWhile p))
    have hk : w.kind.kept = true := by
      cases hk : w.kind <;> simp [hk,Kind.leaf] at hleaf <;> rfl
    rw [hrun,keptCount_cons w,if_pos hk]
    exact ⟨by omega,fun he => by omega⟩
  · have hd : ∀ d ∈ (textOf ps).head?, w.glues d = false := by simpa using hd
    rw [spellings_cons hw hd,keptCount_cons,keptCount_cons]
    exact ⟨by omega,fun he => ⟨hd,by omega⟩⟩

/-- A text has no more tokens that trees keep than its pieces. -/
theorem keptCount_spellings_le {ps qs : List Piece} (h : Lexical ps) (hc : Chained True ps)
    (hq : qs <:+ ps) : keptCount (spellings (textOf qs)) ≤ keptCount (tokensOf qs) := by
  induction ps generalizing qs with
  | nil =>
    obtain rfl := List.suffix_nil.mp hq
    simp
  | cons p ps ih =>
    cases p with
    | blank =>
      rcases List.suffix_cons_iff.mp hq with rfl | hq
      · have hspell : spellings (textOf (.blank :: ps)) = spellings (textOf ps) := spellings_blank rfl
        rw [hspell]
        exact ih h hc (List.suffix_refl _)
      · exact ih h hc hq
    | token w =>
      rw [Lexical.token] at h
      have hle : ∀ qs, qs <:+ ps → keptCount (spellings (textOf qs)) ≤ keptCount (tokensOf qs) :=
        fun qs hq => ih h.2 hc.2 hq
      rcases List.suffix_cons_iff.mp hq with rfl | hq
      · exact (keptCount_token h.1 h.2 hc hle).1
      · exact hle qs hq

/-- It has as many only if none of them run together. -/
theorem separate_of_keptCount {ps : List Piece} (h : Lexical ps) (hc : Chained True ps)
    (he : keptCount (spellings (textOf ps)) = keptCount (tokensOf ps)) : Separate ps := by
  induction ps with
  | nil => trivial
  | cons p ps ih =>
    cases p with
    | blank =>
      have hspell : spellings (textOf (.blank :: ps)) = spellings (textOf ps) := spellings_blank rfl
      rw [hspell] at he
      exact ih h hc he
    | token w =>
      rw [Lexical.token] at h
      obtain ⟨hd,he⟩ := (keptCount_token h.1 h.2 hc fun _ => keptCount_spellings_le h.2 hc.2).2 he
      exact ⟨hd,ih h.2 hc.2 he⟩

def keptLength (ts : List Token) : Nat := (withoutParens ts).length

@[simp] theorem keptLength_nil : keptLength [] = 0 := rfl

@[simp] theorem keptLength_append (ts us : List Token) :
    keptLength (ts ++ us) = keptLength ts + keptLength us := by
  simp [keptLength]

theorem keptLength_cons {t : Token} (ts : List Token) (h : t.kind.kept = true) :
    keptLength (t :: ts) = keptLength ts+1 := by
  have hp : t.kind ≠ .openParen := by
    intro hp
    simp [hp,Kind.kept] at h
  simp [keptLength,withoutParens,hp]

theorem keptLength_paren {t : Token} (ts : List Token) (h : t.kind = .openParen) :
    keptLength (t :: ts) = keptLength ts := by
  simp [keptLength,withoutParens,h]

theorem keptCount_kept {w : Spelling} (ws : List Spelling) (h : w.kind.kept = true) :
    keptCount (w :: ws) = keptCount ws+1 := by
  rw [keptCount_cons,if_pos h]

@[simp] theorem keptCount_mark (k : Kind) (ws : List Spelling) :
    keptCount (.of k :: ws) = keptCount ws + if k.kept then 1 else 0 := keptCount_cons _ ws

theorem Token.kept_of_spelling {t : Token} {w : Spelling} (h : t.spelling = w)
    (hk : w.kind.kept = true) : t.kind.kept = true := by
  rw [← h] at hk
  exact hk

theorem Kind.kept_of_operator {layer : Power} {k : Kind} (h : k ∈ layer.operators) :
    k.kept = true := by
  cases layer <;> simp [Power.operators] at h <;> rcases h with rfl | rfl <;> rfl

theorem keptCount_names (ns : List Name) (hn : ∀ n ∈ ns, n.Formed) :
    keptCount (tokensOf (separated (ns.map fun n => [n.piece]))) =
      keptLength (ns.map Name.token) := by
  induction ns with
  | nil => rfl
  | cons n ns ih =>
    have hk : n.token.kind.kept = true := Token.kept_of_spelling (hn n (by simp)).1 rfl
    have ih := ih fun m hm => hn m (List.mem_cons_of_mem _ hm)
    rw [List.map_cons,List.map_cons,keptLength_cons _ hk,← ih]
    cases ns with
    | nil => rfl
    | cons m ns =>
      rw [List.map_cons,separated,List.singleton_append,Name.piece,tokensOf_token,
        keptCount_kept _ rfl]
      simp [Kind.kept]

mutual

theorem Expr.keptCount_pieces : (e : Expr) → e.Formed →
    keptCount (tokensOf e.pieces) = keptLength e.tokens
  | .name n, h => by
    have hk : n.token.kind.kept = true := Token.kept_of_spelling h.1 rfl
    rw [Expr.tokens,keptLength_cons _ hk]
    rfl
  | .integer t v, h => by
    have hk : t.kind.kept = true := by
      rw [show t.kind = .integer from h.1]
      rfl
    simp [Expr.tokens,Expr.pieces,keptLength_cons _ hk,keptCount_kept _ (w := t.spelling) hk]
  | .boolean t v, h => by
    have hk : t.kind.kept = true := by cases v <;> exact Token.kept_of_spelling h rfl
    simp [Expr.tokens,Expr.pieces,keptLength_cons _ hk,keptCount_kept _ (w := t.spelling) hk]
  | .unary t operator right, h => by
    have hk : t.kind.kept = true := by
      rcases h.1 with ht | ht <;> exact Token.kept_of_spelling ht rfl
    have hr := Expr.keptCount_pieces right h.2.2
    rw [Expr.tokens,keptLength_cons _ hk]
    simp [Expr.pieces,keptCount_kept _ (w := ⟨t.kind,operator⟩) hk,Kind.kept,hr]
  | .binary t left operator right, h => by
    have hk : t.kind.kept = true := h.1.elim fun _ ht => Kind.kept_of_operator ht
    have hl := Expr.keptCount_pieces left h.2.2.2.1
    have hr := Expr.keptCount_pieces right h.2.2.2.2
    rw [Expr.tokens,keptLength_append,keptLength_cons _ hk]
    simp [Expr.pieces,keptCount_kept _ (w := ⟨t.kind,operator⟩) hk,Kind.kept,hl,hr]
  | .conditional t condition consequence none, h => by
    have hk : t.kind.kept = true := Token.kept_of_spelling h.1 rfl
    have hc := Expr.keptCount_pieces condition h.2.1
    have ha := Block.keptCount_pieces consequence h.2.2
    rw [Expr.tokens,keptLength_cons _ hk]
    simp [Expr.pieces,Kind.kept,hc,ha]
  | .conditional t condition consequence (some alternative), h => by
    have hk : t.kind.kept = true := Token.kept_of_spelling h.1 rfl
    have hc := Expr.keptCount_pieces condition h.2.1
    have ha := Block.keptCount_pieces consequence h.2.2.1
    have hb := Block.keptCount_pieces alternative h.2.2.2
    rw [Expr.tokens,keptLength_cons _ hk]
    simp [Expr.pieces,Kind.kept,hc,ha,hb]
  | .function t parameters body, h => by
    have hk : t.kind.kept = true := Token.kept_of_spelling h.1 rfl
    have hp := keptCount_names parameters h.2.1
    have hb := Block.keptCount_pieces body h.2.2
    rw [Expr.tokens,keptLength_cons _ hk]
    simp [Expr.pieces,keptCount_kept _ (w := t.spelling) hk,Kind.kept,hp,hb]
  | .call t callee arguments, h => by
    have hk : t.kind = .openParen := congrArg Spelling.kind h.1
    have hc := Expr.keptCount_pieces callee h.2.1
    have ha := keptCount_piecesEach arguments h.2.2
    rw [Expr.tokens,keptLength_append,keptLength_paren _ hk]
    simp [Expr.pieces,Kind.kept,hc,ha]

theorem keptCount_piecesEach : (es : List Expr) → FormedEach es →
    keptCount (tokensOf (separated (piecesEach es))) = keptLength (tokensEach es)
  | [], _ => rfl
  | [e], h => by
    have he := Expr.keptCount_pieces e h.1
    simp [piecesEach,separated,tokensEach,he]
  | e :: f :: es, h => by
    have he := Expr.keptCount_pieces e h.1
    have hes := keptCount_piecesEach (f :: es) h.2
    rw [piecesEach] at hes
    rw [piecesEach,piecesEach,separated,tokensEach,keptLength_append,← hes]
    simp [Kind.kept,he]

theorem Block.keptCount_pieces : (b : Block) → b.Formed →
    keptCount (tokensOf b.pieces) = keptLength b.tokens
  | .mk t body, h => by
    have hk : t.kind.kept = true := Token.kept_of_spelling h.1 rfl
    have hb := keptCount_piecesAll body h.2
    rw [Block.tokens,Block.tokensOf_pieces,keptLength_cons _ hk]
    simp [Kind.kept,hb]

theorem Stmt.keptCount_pieces : (s : Stmt) → s.Formed →
    keptCount (tokensOf s.pieces) = keptLength s.tokens
  | .binding t n value, h => by
    have hk : t.kind.kept = true := Token.kept_of_spelling h.1 rfl
    have hn : n.token.kind.kept = true := Token.kept_of_spelling h.2.1.1 rfl
    have hv := Expr.keptCount_pieces value h.2.2
    rw [Stmt.tokens,keptLength_cons _ hk,keptLength_cons _ hn]
    simp [Stmt.pieces,Name.piece,keptCount_kept _ (w := t.spelling) hk,
      keptCount_kept _ (w := ⟨.identifier,n.value⟩) rfl,Kind.kept,hv]
  | .result t none, h => by
    have hk : t.kind.kept = true := Token.kept_of_spelling h rfl
    rw [Stmt.tokens,keptLength_cons _ hk]
    simp [Stmt.pieces,keptCount_kept _ (w := t.spelling) hk,Kind.kept]
  | .result t (some value), h => by
    have hk : t.kind.kept = true := Token.kept_of_spelling h.1 rfl
    have hv := Expr.keptCount_pieces value h.2
    rw [Stmt.tokens,keptLength_cons _ hk]
    simp [Stmt.pieces,keptCount_kept _ (w := t.spelling) hk,Kind.kept,hv]
  | .expression t e, h => Expr.keptCount_pieces e h
  | .block b, h => h.elim

theorem keptCount_piecesAll : (ss : List Stmt) → FormedAll ss →
    keptCount (tokensOf (piecesAll ss)) = keptLength (tokensAll ss)
  | [], _ => rfl
  | s :: ss, h => by
    have hs := Stmt.keptCount_pieces s h.1
    have hss := keptCount_piecesAll ss h.2
    simp [piecesAll,tokensAll,hs,hss]

end

end Precedence
