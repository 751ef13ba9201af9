import Precedence.Proofs.Descent.Lockstep
import Precedence.Proofs.Syntax.Acceptance
import Precedence.Proofs.Tree.Alike

/-! Reading depends on the tokens that it has been shown and on nothing else: not on what comes
behind the lookahead, and not on where the tokens stand. -/
namespace Precedence
open Parse Descent Likeness Pairing

namespace Parse
variable {α β : Type}

/-- The first rounds of a repetition. -/
def rounds (round : α → Parse (Round α β)) : Nat → α → Parse (Round α β)
  | 0, a => return .again a
  | k+1, a => do
    match ← round a with
    | .again b => rounds round k b
    | .stop r => return .stop r

theorem rounds_of_again {round : α → Parse (Round α β)} {a b : α} {c d : Cursor}
    (h : round a c = .done (.again b) d) (k : Nat) :
    rounds round (k+1) a c = rounds round k b d :=
  bind_of_done h

theorem rounds_of_loop {round : α → Parse (Round α β)} {a : α} {r : β} {c d : Cursor}
    (h : loop round a c = .done r d) :
    ∃ k b e, rounds round k a c = .done (.again b) e ∧ round b e = .done (.stop r) d := by
  refine loop_done_induction (P := fun a c => ∃ k b e, rounds round k a c = .done (.again b) e ∧
    round b e = .done (.stop r) d) ?_ ?_ a c h
  · intro a c hr
    exact ⟨0,a,c,rfl,hr⟩
  · rintro a c b e hr - ⟨k,b',e',hk,hr'⟩
    exact ⟨k+1,b',e',(rounds_of_again hr k).trans hk,hr'⟩

theorem Paired.rounds [Likeness α] [Likeness β] {R : Pairing} {pre : Kind → Prop}
    {round round' : α → Parse (Round α β)}
    (h : ∀ a b, Alike a b → Paired R pre pre (round a) (round' b)) (k : Nat) :
    ∀ {a b : α}, Alike a b → Paired R pre pre (Parse.rounds round k a) (Parse.rounds round' k b) := by
  induction k with
  | zero => exact fun hab => pure (.again hab)
  | succ k ih =>
    refine fun hab => bind (h _ _ hab) fun _ _ hr => ?_
    cases hr with
    | again hv => exact ih hv
    | stop hv => exact pure (.stop hv)

end Parse

namespace Source

/-- The statements read and the cursor, after a number of rounds of reading statements, if reading
takes so many. -/
def after (source : Source) (k : Nat) : Option (List Stmt × Cursor) :=
  match rounds (moreStatements .standard (within .standard nestingLimit) (· == .endOfInput)) k []
      (.ofScanner (.ofSource source)) with
  | .done (.again read) c => some (read.reverse,c)
  | _ => none

theorem after_eq_some {source : Source} {k : Nat} {ss : List Stmt} {c : Cursor} :
    source.after k = some (ss,c) ↔
      rounds (moreStatements .standard (within .standard nestingLimit) (· == .endOfInput)) k []
        (.ofScanner (.ofSource source)) = .done (.again ss.reverse) c := by
  unfold after
  constructor
  · intro h
    split at h
    · rename_i hr
      obtain ⟨rfl,rfl⟩ := Prod.mk.inj (Option.some.inj h)
      rw [List.reverse_reverse,hr]
    · simp at h
  · intro h
    rw [h]
    simp

theorem after_end (source : Source) : ∃ k ss c, source.after k = some (ss,c) ∧
    c.current.kind = .endOfInput ∧ parse source = ⟨⟨ss⟩,c.faults.toList⟩ := by
  obtain ⟨ss,c,h⟩ := (Scanner.ofSource source).statements_done
  obtain ⟨k,read,e,hk,hr⟩ := rounds_of_loop h
  have hend := statements_stop h
  obtain ⟨-,rfl,rfl⟩ := moreStatements_stop hr
  refine ⟨k,_,_,after_eq_some.mpr ?_,eq_of_beq hend,Scanner.parse_of_statements h⟩
  rw [List.reverse_reverse]
  exact hk

@[simp] theorem length_tokens (source : Source) :
    source.tokens.length = source.words.length+1 := by
  simp [tokens]

theorem tokens_getElem? (source : Source) {i : Nat} (h : i ≤ source.words.length) :
    source.tokens[i]? = some ((source.words.drop i).headD (Scanner.ofSource source).last) := by
  have ht : source.tokens = source.words ++ [(Scanner.ofSource source).last] := by
    rw [words_eq]
    rfl
  rw [ht]
  rcases Nat.lt_or_eq_of_le h with h | rfl
  · rw [List.getElem?_append_left h,List.drop_eq_getElem_cons h,List.headD_cons,
      List.getElem?_eq_getElem h]
  · simp

theorem eq_length_of_end (source : Source) {i : Nat} (h : i ≤ source.words.length)
    (hk : ((source.words.drop i).headD (Scanner.ofSource source).last).kind = .endOfInput) :
    i = source.words.length := by
  rcases Nat.lt_or_eq_of_le h with h | h
  · rw [List.drop_eq_getElem_cons h,List.headD_cons] at hk
    refine absurd hk ((Scanner.ofSource source).ahead_ne_end _ ?_)
    rw [← words_eq]
    exact List.getElem_mem h
  · exact h

end Source

/-- How many tokens of its source a cursor has shown, the lookahead and the end token included. -/
def Cursor.shown (c : Cursor) (source : Source) : Nat :=
  min source.tokens.length (source.words.length-c.left+2)

/-- Faults of the same cause, at tokens of the same number. -/
def Fault.Matches (a b : Source) (f g : Fault) : Prop :=
  f.cause = g.cause ∧ ∃ (i : Nat) (t u : Token), a.tokens[i]? = some t ∧ b.tokens[i]? = some u ∧
    f.position = t.position ∧ g.position = u.position

namespace Source
variable {a b : Source} {m : Nat}

def Same (a b : Source) (t u : Token) : Prop :=
  t.alike u = true ∧ ∃ i : Nat, a.tokens[i]? = some t ∧ b.tokens[i]? = some u

section Agreeing
variable (h : (a.tokens.take m).map Token.spelling = (b.tokens.take m).map Token.spelling)
include h

theorem same_of_lt {i : Nat} (hi : i ≤ a.words.length) (hm : i < m) : i ≤ b.words.length ∧
    a.Same b ((a.words.drop i).headD (Scanner.ofSource a).last)
      ((b.words.drop i).headD (Scanner.ofSource b).last) := by
  have ha := a.tokens_getElem? hi
  have hs := congrArg (fun ws => ws[i]?) h
  simp only [List.getElem?_map,List.getElem?_take_of_lt hm,ha,Option.map_some] at hs
  obtain ⟨u,hu,hsu⟩ := Option.map_eq_some_iff.mp hs.symm
  have hb : i ≤ b.words.length := by
    have hlt := (List.getElem?_eq_some_iff.mp hu).1
    rw [length_tokens] at hlt
    omega
  rw [b.tokens_getElem? hb] at hu
  obtain rfl := Option.some.inj hu
  exact ⟨hb,Token.alike_iff_spelling.mpr hsu.symm,i,ha,b.tokens_getElem? hb⟩

theorem drop_end (hm : a.words.length < m) : b.words.drop a.words.length = [] := by
  obtain ⟨hb,hs,-⟩ := same_of_lt h (Nat.le_refl _) hm
  refine List.drop_eq_nil_of_le (Nat.le_of_eq (b.eq_length_of_end hb ?_).symm)
  rw [← Token.kind_of_alike hs]
  simp [Scanner.last,Scanner.tokenHere]

/-- The tokens ahead of a reading that has been shown more than the first `m` tokens. -/
def Beyond (a : Source) (m : Nat) (xs : List Token) : Prop :=
  ∃ i, i ≤ a.words.length ∧ xs = a.words.drop i ∧ m < min a.tokens.length (i+2)

/-- The same number of tokens has been read of both sources. -/
def Level (a b : Source) (xs ys : List Token) : Prop :=
  ∃ i, i ≤ a.words.length ∧ xs = a.words.drop i ∧ ys = b.words.drop i

omit h in
theorem shown_of_not_beyond {i : Nat} (hi : i ≤ a.words.length)
    (hb : ¬ a.Beyond m (a.words.drop i)) : i < m ∧ (i < a.words.length → i+1 < m) := by
  have hm : ¬ m < min a.tokens.length (i+2) := fun hm => hb ⟨i,hi,rfl,hm⟩
  rw [length_tokens] at hm
  omega

theorem tail_level {xs ys : List Token} (hl : a.Level b xs ys) (hb : ¬ a.Beyond m xs) :
    a.Level b xs.tail ys.tail := by
  obtain ⟨i,hi,rfl,rfl⟩ := hl
  have hm := (shown_of_not_beyond hi hb).1
  rcases Nat.lt_or_eq_of_le hi with hlt | rfl
  · exact ⟨i+1,hlt,by simp,by simp⟩
  · exact ⟨a.words.length,hi,by simp,by rw [drop_end h hm]; rfl⟩

/-- Readings of two sources whose first `m` tokens are alike are in step as long as they have been
shown no more. -/
def pairing : Pairing where
  Same := a.Same b
  last := (Scanner.ofSource a).last
  last' := (Scanner.ofSource b).last
  held := []
  Near := a.Level b
  Gone := a.Beyond m
  alike hs := hs.1
  current := by
    rintro _ _ ⟨i,hi,rfl,rfl⟩ hb
    exact (same_of_lt h hi (shown_of_not_beyond hi hb).1).2
  peek := by
    rintro _ _ ⟨i,hi,rfl,rfl⟩ hb -
    obtain ⟨hm,hnext⟩ := shown_of_not_beyond hi hb
    rcases Nat.lt_or_eq_of_le hi with hlt | rfl
    · simpa using (same_of_lt h hlt (hnext hlt)).2
    · -- Behind the end token there is the end token again.
      have hs := (same_of_lt h hi hm).2
      rw [drop_end h hm,List.drop_length] at hs ⊢
      exact hs
  advance hl hb _ := tail_level h hl hb
  shorter := by
    rintro _ _ _ _ ⟨i,hi,rfl,rfl⟩ ⟨j,hj,rfl,rfl⟩ hbi hbj
    have hi' := (same_of_lt h hi (shown_of_not_beyond hi hbi).1).1
    have hj' := (same_of_lt h hj (shown_of_not_beyond hj hbj).1).1
    simp only [List.length_drop]
    omega
  goneTail := by
    rintro _ ⟨i,hi,rfl,hm⟩
    rcases Nat.lt_or_eq_of_le hi with hlt | rfl
    · exact ⟨i+1,hlt,by simp,by omega⟩
    · exact ⟨a.words.length,hi,by simp,hm⟩
  blocks := .inl fun _ _ hl hb => tail_level h hl hb

theorem cursors_start :
    (pairing h).Cursors (.ofScanner (.ofSource a)) (.ofScanner (.ofSource b)) where
  near := ⟨0,Nat.zero_le _,by simp [Cursor.ofScanner],by simp [Cursor.ofScanner]⟩
  last := rfl
  last' := rfl
  depth := rfl
  faults := ⟨[],rfl,.nil⟩

theorem round_paired (ss ss' : List Stmt) (hs : Alike ss ss') :
    Paired (pairing h) Anywhere Anywhere
      (moreStatements .standard (within .standard nestingLimit) (· == .endOfInput) ss)
      (moreStatements .standard (within .standard nestingLimit) (· == .endOfInput) ss') :=
  moreStatements_paired (within_lockstep nestingLimit) (fun _ _ hl hb => tail_level h hl hb) _ hs

end Agreeing

theorem not_beyond {c : Cursor} (hc : c.shown a ≤ m) : ¬ a.Beyond m c.ahead := by
  rintro ⟨i,hi,hx,hm⟩
  have hleft := c.left_eq
  rw [hx,List.length_drop] at hleft
  simp only [Cursor.shown] at hc
  omega

theorem matches_of_sameFault {f g : Fault} {h} (hf : (@pairing a b m h).SameFault f g) :
    Fault.Matches a b f g := by
  obtain ⟨hc,t,u,⟨-,i,ht,hu⟩,hp,hp'⟩ := hf
  exact ⟨hc,i,t,u,ht,hu,hp,hp'⟩

end Source

/-- Let the first `m` tokens of two sources be alike, whatever comes behind them and wherever they
stand. As long as reading one of them has been shown none but those, reading the other gives the
same statements, the same faults at tokens of the same number, and the same open levels. Sources all
of whose tokens are alike have the same program and faults of the same causes. -/
theorem depends_on_shown (a b : Source) (m : Nat)
    (h : (a.tokens.take m).map Token.spelling = (b.tokens.take m).map Token.spelling) :
    (∀ k ss c, a.after k = some (ss,c) → c.shown a ≤ m →
      ∃ ss' c', b.after k = some (ss',c') ∧ stmtsAlike ss ss' = true ∧
        List.Forall₂ (Fault.Matches a b) c.faults.toList c'.faults.toList ∧ c.depth = c'.depth) ∧
    (a.tokens.map Token.spelling = b.tokens.map Token.spelling →
      (parse a).program.alike (parse b).program = true ∧
        (parse a).faults.map Fault.cause = (parse b).faults.map Fault.cause) := by
  constructor
  · intro k ss c hk hm
    rw [Source.after_eq_some] at hk
    have hr := (Paired.rounds (Source.round_paired h) k .nil).resume (Source.cursors_start h) trivial
    rw [hk] at hr
    generalize hb : rounds _ k [] (.ofScanner (.ofSource b)) = o at hr
    cases hr with
    | done hv hc _ =>
      cases hv with
      | again hv =>
        have hs := List.forall₂_reverse_iff.mpr hv
        rw [List.reverse_reverse] at hs
        obtain ⟨gs,hgs,hf⟩ := hc.faults
        refine ⟨_,_,Source.after_eq_some.mpr ?_,stmtsAlike_iff.mpr hs,?_,hc.depth⟩
        · rw [List.reverse_reverse]
          exact hb
        · rw [hgs]
          exact hf.imp fun _ _ => Source.matches_of_sameFault
    | gone hg => exact absurd hg (Source.not_beyond hm)
  · intro ht
    obtain ⟨ss,c,ha⟩ := (Scanner.ofSource a).statements_done
    obtain ⟨ss',c',hb⟩ := (Scanner.ofSource b).statements_done
    have h : (a.tokens.take a.tokens.length).map Token.spelling =
        (b.tokens.take a.tokens.length).map Token.spelling := by
      have hl := congrArg List.length ht
      simp only [List.length_map] at hl
      rw [List.take_length,hl,List.take_length,ht]
    have hr := (Paired.loop (Source.round_paired h) .nil).resume (Source.cursors_start h) trivial
    rw [show loop _ _ _ = _ from ha,show loop _ _ _ = _ from hb] at hr
    rw [show parse a = _ from Scanner.parse_of_statements ha,
      show parse b = _ from Scanner.parse_of_statements hb]
    cases hr with
    | done hv hc _ =>
      obtain ⟨gs,hgs,hf⟩ := hc.faults
      have hcauses : List.Forall₂ (· = ·) (c.faults.toList.map Fault.cause)
          (gs.map Fault.cause) := by
        simpa using hf.imp fun _ _ hfg => hfg.1
      rw [List.forall₂_eq_eq_eq] at hcauses
      rw [hgs]
      exact ⟨stmtsAlike_iff.mpr hv,hcauses⟩
    | gone hg =>
      -- There are no tokens beyond the first `m` when these are all of them.
      obtain ⟨i,-,-,hm⟩ := hg
      omega

/-- A statement that fails behind its first token, before two different ends. -/
theorem depends_on_shown_fault :
    ((Source.tokens ⟨"let 1; x","f"⟩).take 3).map Token.spelling =
        ((Source.tokens ⟨"let\n1 ;)","g"⟩).take 3).map Token.spelling ∧
      ∃ ss c ss' c', Source.after ⟨"let 1; x","f"⟩ 1 = some (ss,c) ∧ c.faults.size = 1 ∧
        Source.after ⟨"let\n1 ;)","g"⟩ 1 = some (ss',c') ∧ stmtsAlike ss ss' = true ∧
        List.Forall₂ (Fault.Matches ⟨"let 1; x","f"⟩ ⟨"let\n1 ;)","g"⟩) c.faults.toList
          c'.faults.toList ∧ c.depth = c'.depth := by
  have h : ((Source.tokens ⟨"let 1; x","f"⟩).take 3).map Token.spelling =
      ((Source.tokens ⟨"let\n1 ;)","g"⟩).take 3).map Token.spelling := by decide +kernel
  have hafter : (Source.after ⟨"let 1; x","f"⟩ 1).any (fun r =>
      decide (r.2.shown ⟨"let 1; x","f"⟩ ≤ 3 ∧ r.2.faults.size = 1)) = true := by decide +kernel
  obtain ⟨⟨ss,c⟩,hk,hc⟩ := (Option.any_eq_true _ _).mp hafter
  obtain ⟨hshown,hsize⟩ := of_decide_eq_true hc
  obtain ⟨ss',c',hb⟩ := (depends_on_shown _ _ 3 h).1 1 ss c hk hshown
  exact ⟨h,ss,c,ss',c',hk,hsize,hb⟩

end Precedence
