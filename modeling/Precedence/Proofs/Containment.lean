import Precedence.Proofs.Restoration

/-! What fails in a block stays in it. A block is a run of statements that are tried one after the
other; each of them is kept or leaves one fault, and the run goes on until the block ends. Only where
no level is free for it does the block itself fail, and then nothing has happened. -/
namespace Precedence
open Parse Descent

/-- A statement that was tried, with the cursors before and behind it. -/
structure Try where
  start : Cursor
  result : Except Fault Stmt
  stop : Cursor

namespace Try

def outcome (t : Try) : Outcome Stmt :=
  match t.result with
  | .ok s => .done s t.stop
  | .error f => .failed f t.stop

def kept (t : Try) : Option Stmt := t.result.toOption

def fault (t : Try) : Option Fault :=
  match t.result with
  | .ok _ => none
  | .error f => some f

/-- Where the next statement starts: behind this one, with its fault recorded if it failed. -/
def next (t : Try) : Cursor :=
  match t.result with
  | .ok _ => t.stop.advance
  | .error f => (t.stop.record f).advance

/-- The faults recorded while the statement was read, in the blocks inside it. -/
def inner (t : Try) : List Fault := t.stop.faults.toList.drop t.start.faults.size

/-- All faults that the statement leaves, its own as the last one. -/
def found (t : Try) : List Fault := t.inner ++ t.fault.toList

theorem eq_of_outcome {t u : Try} (hs : t.start = u.start) (h : t.outcome = u.outcome) : t = u := by
  obtain ⟨c,r,d⟩ := t
  obtain ⟨c',r',d'⟩ := u
  obtain rfl : c = c' := hs
  cases r with
  | ok s =>
    cases r' with
    | ok s' =>
      obtain ⟨rfl,rfl⟩ := Outcome.done.inj h
      rfl
    | error f' => simp [outcome] at h
  | error f =>
    cases r' with
    | ok s' => simp [outcome] at h
    | error f' =>
      obtain ⟨rfl,rfl⟩ := Outcome.failed.inj h
      rfl

theorem outcome_restores {t : Try} {c : Cursor} (h : t.outcome.Restores c) : t.stop.Follows c := by
  unfold outcome at h
  cases hr : t.result with
  | ok s => rw [hr] at h; exact h
  | error f => rw [hr] at h; exact h

theorem faults_next (t : Try) : t.next.faults.toList = t.stop.faults.toList ++ t.fault.toList := by
  unfold next fault
  cases t.result with
  | ok s => exact (List.append_nil _).symm
  | error f => exact t.stop.faults_record f

theorem kept_or_fault (t : Try) :
    (∃ s, t.kept = some s ∧ t.fault = none) ∨ ∃ f, t.kept = none ∧ t.fault = some f := by
  unfold kept fault
  cases t.result with
  | ok s => exact .inl ⟨s,rfl,rfl⟩
  | error f => exact .inr ⟨f,rfl,rfl⟩

theorem kept_length_add (ts : List Try) :
    (ts.filterMap kept).length+(ts.filterMap fault).length = ts.length := by
  induction ts with
  | nil => rfl
  | cons t ts ih =>
    rcases t.kept_or_fault with ⟨s,hk,hf⟩ | ⟨f,hk,hf⟩
    · rw [List.filterMap_cons_some hk,List.filterMap_cons_none hf,List.length_cons,List.length_cons]
      omega
    · rw [List.filterMap_cons_none hk,List.filterMap_cons_some hf,List.length_cons,List.length_cons]
      omega

end Try

/-- Statements tried one after the other, up to a token at which to stop. -/
inductive Tries (read : Parse Stmt) (stop : Kind → Bool) : List Try → Cursor → Cursor → Prop where
  | none {c : Cursor} (h : stop c.current.kind = true) : Tries read stop [] c c
  | more {t : Try} {ts : List Try} {c' : Cursor} (hk : stop t.start.current.kind = false)
      (h : read t.start = t.outcome) (rest : Tries read stop ts t.next c') :
      Tries read stop (t :: ts) t.start c'

namespace Tries
variable {read : Parse Stmt} {stop : Kind → Bool} {ts us : List Try} {c d e : Cursor}

theorem ends (h : Tries read stop ts c d) : stop d.current.kind = true := by
  induction h with
  | none h => exact h
  | more _ _ _ ih => exact ih

theorem unique (h : Tries read stop ts c d) (k : Tries read stop us c e) : ts = us := by
  induction h generalizing us with
  | none h =>
    cases k with
    | none => rfl
    | more hk => simp [h] at hk
  | @more t ts d hk h _ ih =>
    -- The start of a try is no variable, so it is named before the cases.
    generalize hs : t.start = s at k
    cases k with
    | none hk' => simp [← hs,hk] at hk'
    | @more u us e hk' h' rest =>
      obtain rfl : t = u := Try.eq_of_outcome hs (by rw [← h,← h',hs])
      rw [ih rest]

theorem faults (hread : Restores Stmt read) (h : Tries read stop ts c d) :
    d.faults.toList = c.faults.toList ++ ts.flatMap Try.found := by
  induction h with
  | none h => simp
  | @more t ts d _ h _ ih =>
    have hr := hread t.start
    rw [h] at hr
    have hinner : t.start.faults.toList ++ t.inner = t.stop.faults.toList :=
      List.prefix_iff_eq_append.mp (Try.outcome_restores hr).faults
    rw [ih,t.faults_next,← hinner,List.flatMap_cons,Try.found]
    simp only [List.append_assoc]

end Tries

namespace Descent
variable {g : Grammar} {d : Descent} {stop : Kind → Bool}

theorem tries_of_loop {read ss : List Stmt} {c e : Cursor}
    (h : loop (moreStatements g d stop) read c = .done ss e) :
    ∃ ts, Tries (statement g d) stop ts c e ∧ ss = read.reverse ++ ts.filterMap Try.kept := by
  refine loop_done_induction (P := fun read c => ∃ ts, Tries (statement g d) stop ts c e ∧
    ss = read.reverse ++ ts.filterMap Try.kept) ?_ ?_ read c h
  · intro read c hr
    obtain ⟨hk,rfl,rfl⟩ := moreStatements_stop hr
    exact ⟨[],.none hk,by simp⟩
  · intro read c next e₁ hr _ ⟨ts,hts,hss⟩
    obtain ⟨hk,o,e',ho,rfl,rfl⟩ := moreStatements_again hr
    rcases attempt_eq_done.mp ho with ⟨s,hs,rfl⟩ | ⟨f,e₂,hf,rfl,rfl⟩
    · have hkept : Try.kept ⟨c,.ok s,e'⟩ = some s := rfl
      refine ⟨⟨c,.ok s,e'⟩ :: ts,.more hk hs hts,?_⟩
      simp [hss,List.filterMap_cons_some hkept]
    · have hkept : Try.kept ⟨c,.error f,e₂⟩ = none := rfl
      refine ⟨⟨c,.error f,e₂⟩ :: ts,.more hk hf hts,?_⟩
      simp [hss,List.filterMap_cons_none hkept]

end Descent

theorem Cursor.deeper_leave {c : Cursor} (h : c.depth ≠ 0) : c.leave.deeper = c :=
  Cursor.eq_of_ahead rfl rfl (Nat.sub_one_add_one h) rfl

namespace Grammar
variable {g : Grammar} {c : Cursor}

theorem descent_steady (g : Grammar) : g.descent.Steady g :=
  ⟨fun power => here_steady fun _ hd => hd.expr power,here_steady fun _ hd => hd.block⟩

theorem block_of_limit (h : nestingLimit ≤ c.depth) :
    g.block c = .failed ⟨.tooDeep nestingLimit,c.current.position⟩ c := by
  rw [block_eq_counted,counted,if_neg (Nat.not_lt.mpr h)]
  rfl

theorem block_of_level (hg : g.Terminating) (hl : c.last.kind = .endOfInput)
    (h : c.depth < nestingLimit) : ∃ e ts, Tries g.stmt endsBlock ts c.deeper.advance e ∧
      e.Follows c.deeper ∧
      g.block c = .done (.mk c.current (ts.filterMap Try.kept)) e.leave := by
  have hf : (statements g g.descent endsBlock c.deeper.advance).Follows g c.deeper.advance :=
    statements_steady g.descent_steady rfl _ hl
  rw [block_eq_counted,counted,if_pos h,nested,body,advance_bind,stmt_eq]
  cases hs : statements g g.descent endsBlock c.deeper.advance with
  | done ss e =>
    obtain ⟨ts,hts,rfl⟩ := tries_of_loop hs
    rw [hs] at hf
    rw [bind_of_done hs]
    exact ⟨e,ts,hts,hf.trans (.advance _),rfl⟩
  | failed f e => exact absurd hs (loop_moreStatements_ne_failed _ _ _ _)
  | endless =>
    rw [hs] at hf
    exact absurd hg hf

end Grammar

/-- A block fails where no level is free for it, and only there: that is its fault, at its first
token, and nothing has changed. Everywhere else it is read, whatever its tokens, up to a closing
brace or the end of input. The statements in it are tried one after the other. Those that succeed
are its body, and each of the others has left one fault of its own behind those found inside it, so
that the body and these faults together are as many as the statements tried. -/
theorem block_contains_faults (c : Cursor) (hl : c.last.kind = .endOfInput) :
    ((∃ f e, Grammar.standard.block c = .failed f e) ↔ nestingLimit ≤ c.depth) ∧
    (nestingLimit ≤ c.depth →
      Grammar.standard.block c = .failed ⟨.tooDeep nestingLimit,c.current.position⟩ c) ∧
    (c.depth < nestingLimit → ∃ b c' ts, Grammar.standard.block c = .done b c' ∧
      endsBlock c'.current.kind = true ∧ c'.depth = c.depth ∧
      Tries Grammar.standard.stmt endsBlock ts c.deeper.advance c'.deeper ∧
      (∀ us e, Tries Grammar.standard.stmt endsBlock us c.deeper.advance e → us = ts) ∧
      b.body = ts.filterMap Try.kept ∧
      c'.faults.toList = c.faults.toList ++ ts.flatMap Try.found ∧
      b.body.length+(ts.filterMap Try.fault).length = ts.length) := by
  have hread : c.depth < nestingLimit → ∃ e ts,
      Tries Grammar.standard.stmt endsBlock ts c.deeper.advance e ∧ e.Follows c.deeper ∧
      Grammar.standard.block c = .done (.mk c.current (ts.filterMap Try.kept)) e.leave :=
    Grammar.block_of_level Grammar.standard_terminating hl
  refine ⟨⟨fun ⟨f,e,hfailed⟩ => ?_,fun h => ⟨_,_,Grammar.block_of_limit h⟩⟩,
    Grammar.block_of_limit,fun h => ?_⟩
  · refine Nat.not_lt.mp fun h => ?_
    obtain ⟨_,_,-,-,hdone⟩ := hread h
    rw [hdone] at hfailed
    exact nomatch hfailed
  · obtain ⟨e,ts,hts,hf,hdone⟩ := hread h
    have hdepth : e.depth = c.depth+1 := hf.depth
    have he : e.leave.deeper = e := Cursor.deeper_leave (by omega)
    have hfaults := hts.faults Grammar.stmt_restores
    exact ⟨_,e.leave,ts,hdone,hts.ends,congrArg (·-1) hdepth,he.symm ▸ hts,
      fun _ _ hus => hus.unique hts,rfl,hfaults,Try.kept_length_add ts⟩

/-- At the limit a block fails and leaves everything as it is. With one level free, a block of three
statements is read: one that is kept, one that finds no free level, and one that breaks off. -/
theorem block_contains_faults_limit : ∃ c d : Cursor,
    (c.last.kind = .endOfInput ∧ c.depth = 128 ∧
      Grammar.standard.block c = .failed ⟨.tooDeep nestingLimit,c.current.position⟩ c) ∧
    (d.last.kind = .endOfInput ∧ d.depth = 127 ∧ ∃ b d' ts, Grammar.standard.block d = .done b d' ∧
      (b.body.length,d'.faults.size,d'.current.kind) = (1,2,.closeBrace) ∧ d'.depth = 127 ∧
      Tries Grammar.standard.stmt endsBlock ts d.deeper.advance d'.deeper ∧
      b.body.length+(ts.filterMap Try.fault).length = ts.length) := by
  let start : Cursor := .ofScanner (.ofSource ⟨"\x7b return; a let b \x7d c","f"⟩)
  let c : Cursor := { start with depth := 128 }
  let d : Cursor := { start with depth := 127 }
  have hrun : (Grammar.standard.block d).result?.any (fun r => decide
      ((r.1.body.length,r.2.faults.size,r.2.current.kind) = (1,2,.closeBrace))) = true := by
    decide +kernel
  have hc : c.last.kind = .endOfInput := rfl
  have hd : d.last.kind = .endOfInput := rfl
  obtain ⟨b,d',ts,hdone,-,hdepth,hts,-,-,-,hcount⟩ :=
    (block_contains_faults d hd).2.2 (Nat.lt_succ_self 127)
  rw [hdone] at hrun
  exact ⟨c,d,⟨hc,rfl,(block_contains_faults c hc).2.1 (Nat.le_refl 128)⟩,hd,rfl,b,d',ts,hdone,
    of_decide_eq_true hrun,hdepth,hts,hcount⟩

end Precedence
