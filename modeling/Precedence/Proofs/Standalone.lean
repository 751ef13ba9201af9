import Precedence.Proofs.Descent.Edge
import Precedence.Proofs.Lookahead
import Precedence.Proofs.Synchronisation
import Precedence.Proofs.Token.Slice

/-! Each statement stands alone: the piece of the source that it was read from is a source of that
statement only, with the faults that were found while it was read. -/
namespace Precedence
open Parse Descent Likeness Pairing

namespace Parse
variable {α β : Type}

theorem Steady.rounds {g : Grammar} {round : α → Parse (Round α β)}
    (h : ∀ a, Steady g (round a)) (k : Nat) : ∀ a, Steady g (Parse.rounds round k a) := by
  induction k with
  | zero => exact fun _ => .pure _
  | succ k ih =>
    refine fun a => .bind (h a) fun r => ?_
    cases r with
    | again b => exact ih b
    | stop r => exact .pure _

end Parse

theorem Source.after_follows {source : Source} {k : Nat} {ss : List Stmt} {c : Cursor}
    (h : source.after k = some (ss,c)) : c.Follows (.ofScanner (.ofSource source)) :=
  (Steady.rounds (moreStatements_steady (within_steady .standard nestingLimit) _) k []).follows
    (Scanner.ofSource source).proper (Source.after_eq_some.mp h)

namespace Scanner

/-- A reading of a piece in its source is in step with a reading of the piece by itself. -/
theorem cursors_piece {text : List Char} {n : Nat} {file : String} {d : Cursor}
    (ha : d.ahead = (⟨text,n,file⟩ : Scanner).ahead) (hl : d.last = (⟨text,n,file⟩ : Scanner).last)
    (hd : d.depth = 0) : (moved n (ofSource ⟨String.ofList text,file⟩).last
      d.faults.toList).Cursors (.ofScanner (.ofSource ⟨String.ofList text,file⟩)) d := by
  have hsource : ofSource ⟨String.ofList text,file⟩ = ⟨text,0,file⟩ := by simp [ofSource]
  have hmoved := ahead_moved n ⟨text,0,file⟩
  rw [Nat.zero_add] at hmoved
  rw [hsource]
  refine ⟨ha.trans hmoved,rfl,hl.trans ?_,hd.symm,[],by simp [moved],.nil⟩
  simp [last,tokenHere,Token.moved,moved,Nat.add_comm n]

end Scanner

namespace Descent
variable {c c' : Cursor} {s : Stmt}

theorem statement_current_ne_end {n : Nat}
    (h : statement .standard (within .standard n) c = .done s c') :
    c.current.kind ≠ .endOfInput := by
  intro hk
  have hfails : ∃ f d, (within .standard n).expr .lowest c = .failed f d := by
    cases n with
    | zero => exact ⟨_,_,rfl⟩
    | succ n =>
      have hfirst : firstOperand .standard (within .standard n) c.deeper =
          .failed ⟨.noHead .endOfInput,c.current.position⟩ c.deeper := by
        simp only [firstOperand,current_bind]
        rw [show c.deeper.current = c.current from rfl,hk]
        rfl
      refine ⟨⟨.noHead .endOfInput,c.current.position⟩,c.deeper.leave,?_⟩
      change nested (expression .standard (within .standard n) .lowest) c = _
      rw [nested,expression,bind_of_failed hfirst]
  obtain ⟨f,d,hf⟩ := hfails
  have hx : statement .standard (within .standard n) c =
      (within .standard n).expressionStatement c := by
    simp only [statement,current_bind,hk]
    rfl
  rw [hx,expressionStatement,current_bind,bind_of_failed hf] at h
  simp at h

theorem parse_of_statement {scanner : Scanner}
    (h : statement .standard (within .standard nestingLimit) (.ofScanner scanner) = .done s c)
    (hr : c.rest = []) : scanner.parse = ⟨⟨[s]⟩,c.faults.toList⟩ := by
  have hf := (statement_steady (within_steady .standard nestingLimit)).follows scanner.proper h
  have hend : c.advance.current.kind = .endOfInput := by
    have hlast : c.advance.last.kind = .endOfInput := (hf.proper scanner.proper).last
    rwa [Cursor.current,Cursor.ahead_advance,hr]
  have hround : moreStatements .standard (within .standard nestingLimit) (· == .endOfInput) []
      (.ofScanner scanner) = .done (.again [s]) c.advance := by
    refine moreStatements_eq_done.mpr (.inr ⟨?_,some s,c,?_,rfl,rfl⟩)
    · simpa using statement_current_ne_end h
    · exact attempt_eq_done.mpr (.inl ⟨s,h,rfl⟩)
  refine Scanner.parse_of_statements (c := c.advance) ?_
  refine (loop_again hround ?_).trans (loop_stop (moreStatements_eq_done.mpr (.inl ⟨?_,rfl,rfl⟩)))
  · exact ((moreStatements_progresses (within_steady .standard nestingLimit) rfl) _ _ _ _
      scanner.proper.last hround).resolve_right fun h => h Grammar.standard_terminating
  · simpa using hend

/-- The piece of the source that a statement was read from, and a reading of its tokens as they stand
in the source: it gives the statement and ends where the piece does. -/
theorem statement_piece {source : Source} (hlen : Text.bytes source.text.toList < 2^32)
    (hc : c.Follows (.ofScanner (.ofSource source)))
    (hs : statement .standard (within .standard nestingLimit) c = .done s c') :
    ∃ text d d', source.Slice c.current.span.start.toNat c'.current.span.stop.toNat text ∧
      (moved c.current.span.start.toNat (Scanner.ofSource ⟨text,source.file⟩).last
        c.faults.toList).Cursors (.ofScanner (.ofSource ⟨text,source.file⟩)) d ∧
      statement .standard (within .standard nestingLimit) d = .done s d' ∧
      d'.rest = [] ∧ d'.faults = c'.faults := by
  have hproper := hc.proper (Scanner.ofSource source).proper
  have hfollows := (statement_steady (within_steady .standard nestingLimit)).follows hproper hs
  have hcur := hproper.ahead_eq (statement_current_ne_end hs)
  obtain ⟨used,hused⟩ := hc.ahead
  rw [hcur] at hused
  obtain ⟨before,cs,htext,hstart,hahead,hlast⟩ := Source.ahead_from hused.symm hlen
  have hbytes : Text.bytes before+Text.bytes cs < 2^32 := by rwa [← Text.bytes_append,← htext]
  have hcl := hc.last.trans hlast.symm
  rw [hstart]
  cases h : c'.ahead with
  | nil =>
    -- The statement runs into the end of input, which is where the piece ends too.
    have hend : c'.current.span.stop.toNat = Text.bytes before+Text.bytes cs := by
      rw [Cursor.current,h,List.headD_nil,hfollows.last,hcl]
      exact Scanner.last_stop _ hbytes
    refine ⟨String.ofList cs,c,c',⟨before,[],?_,rfl,?_⟩,
      Scanner.cursors_piece (hcur.trans hahead.symm) hcl hc.depth,hs,by rw [Cursor.rest,h]; rfl,rfl⟩
    · simpa using htext
    · simpa using hend
  | cons t more =>
    obtain ⟨front,hfront⟩ := hfollows.ahead
    rw [h,List.append_cons] at hfront
    obtain ⟨text,behind,hcs,hpiece,-,hstop⟩ :=
      Scanner.ahead_upto _ (hahead.trans (hcur.symm.trans hfront.symm)) hbytes
    -- The same reading, but with the end of input where the piece ends.
    obtain ⟨d,ha,hl,htrim⟩ : ∃ d : Cursor, d.ahead = front ++ [t] ∧
        d.last = (⟨text,Text.bytes before,source.file⟩ : Scanner).last ∧ c.Trimmed more d :=
      ⟨{ ahead := front ++ [t], last := _, depth := c.depth, faults := c.faults },rfl,rfl,
        hfront.symm,by simp,hproper.last,rfl,rfl,rfl⟩
    obtain ⟨d',hd',hcd⟩ := statement_trimmed htrim hs (by simp [h])
    have hone : d'.ahead ++ more = [t] ++ more := hcd.ahead.symm.trans h
    refine ⟨String.ofList text,d,d',⟨before,behind,?_,rfl,?_⟩,htrim.faults ▸
      Scanner.cursors_piece (ha.trans hpiece.symm) hl (htrim.depth.trans hc.depth),hd',
      by rw [Cursor.rest,List.append_cancel_right hone]; rfl,hcd.faults⟩
    · rw [String.toList_ofList,← hcs]
      exact htext
    · rw [String.toList_ofList,Cursor.current_of_ahead h]
      exact hstop t (by simp)

end Descent

/-- Let a statement have been read from a source, with faults or without, and take the piece of the
source from its first token up to the end of its last one. By itself that piece is read as that one
statement, with just the faults that were found while it was read, at offsets that count from where
the piece starts. -/
theorem statement_stands_alone (source : Source) (hlen : Text.bytes source.text.toList < 2^32)
    (k : Nat) (read : List Stmt) (c : Cursor) (hk : source.after k = some (read,c)) (s : Stmt)
    (c' : Cursor) (hs : Grammar.standard.stmt c = .done s c') :
    ∃ text s' found, source.Slice c.current.span.start.toNat c'.current.span.stop.toNat text ∧
      parse ⟨text,source.file⟩ = ⟨⟨[s']⟩,found⟩ ∧ s'.alike s = true ∧
      c'.faults.toList =
        c.faults.toList ++ found.map (Fault.moved c.current.span.start.toNat) ∧
      ∀ f ∈ found, (f.moved c.current.span.start.toNat).place =
        f.place+c.current.span.start.toNat := by
  have hc := Source.after_follows hk
  have hlevels : within .standard nestingLimit = within .standard (nestingLimit-c.depth) := by
    rw [hc.depth]
    rfl
  have hstmt : statement .standard (within .standard nestingLimit) c = .done s c' := by
    rw [hlevels]
    exact hs
  obtain ⟨text,d,d',hslice,hcd,hd,hrest,hfaults⟩ := statement_piece hlen hc hstmt
  have hp := (statement_paired (within_lockstep nestingLimit)).resume hcd trivial
  rw [hd] at hp
  have hsteady := statement_steady (within_steady .standard nestingLimit) _
    (Scanner.ofSource ⟨text,source.file⟩).proper.last
  generalize he : statement _ _ (Cursor.ofScanner _) = o at hp hsteady
  cases hp with
  | @done s' _ e _ hv hed _ =>
    have hend : e.rest = [] := by
      have hnear : d'.ahead = e.ahead.map _ := hed.near
      rw [Cursor.rest,hnear,← List.map_tail] at hrest
      exact List.map_eq_nil_iff.mp hrest
    refine ⟨text,s',e.faults.toList,hslice,parse_of_statement he hend,hv,?_,fun f hf => ?_⟩
    · rw [← hfaults]
      exact hed.faults_moved
    · obtain ⟨before,behind,htext,hstart,-⟩ := hslice
      have hbytes := congrArg Text.bytes htext
      simp only [Text.bytes_append] at hbytes
      have hparse : parse ⟨text,source.file⟩ = _ := parse_of_statement he hend
      have hplace := @Fault.offset_moved (String.ofList before) text source.file f
        (by rw [String.toList_ofList]; omega) (by rwa [hparse])
      rwa [String.toList_ofList,← hstart] at hplace
  | gone hg =>
    -- Readings in step are never gone, and a statement is not endless.
    cases o with
    | done => exact hg.elim
    | failed => exact hg.elim
    | endless => exact absurd Grammar.standard_terminating hsteady

/-- A statement with a fault in a block, behind one that could not be read and in front of more. -/
theorem statement_stands_alone_fault :
    Text.bytes "let 1; if (b) \x7b ) c \x7d d".toList < 2^32 ∧ ∃ read c s c',
      Source.after ⟨"let 1; if (b) \x7b ) c \x7d d","f"⟩ 2 = some (read,c) ∧
        Grammar.standard.stmt c = .done s c' ∧ (c.faults.size,c'.faults.size) = (1,2) ∧
        ∃ text s' found, Source.Slice ⟨"let 1; if (b) \x7b ) c \x7d d","f"⟩ 7 21 text ∧
          parse ⟨text,"f"⟩ = ⟨⟨[s']⟩,found⟩ ∧ s'.alike s = true ∧
          c'.faults.toList = c.faults.toList ++ found.map (Fault.moved 7) := by
  have hlen : Text.bytes "let 1; if (b) \x7b ) c \x7d d".toList < 2^32 := by decide
  have hafter : (Source.after ⟨"let 1; if (b) \x7b ) c \x7d d","f"⟩ 2).any (fun r =>
      decide (r.2.faults.size = 1 ∧ r.2.current.span.start.toNat = 7) &&
        (Grammar.standard.stmt r.2).result?.any fun q =>
          decide (q.2.faults.size = 2 ∧ q.2.current.span.stop.toNat = 21)) = true := by
    decide +kernel
  obtain ⟨⟨read,c⟩,hk,hc⟩ := (Option.any_eq_true _ _).mp hafter
  obtain ⟨hstart,hrun⟩ := (Bool.and_eq_true _ _).mp hc
  obtain ⟨hsize,hstart⟩ := of_decide_eq_true hstart
  obtain ⟨s,c',hs,hend⟩ := Outcome.done_of_result? hrun
  obtain ⟨hsize',hstop⟩ := of_decide_eq_true hend
  obtain ⟨text,s',found,hslice,hparse,hv,hf,-⟩ := statement_stands_alone _ hlen 2 read c hk s c' hs
  rw [hstart] at hslice hf
  rw [hstop] at hslice
  exact ⟨hlen,read,c,s,c',hk,hs,by rw [hsize,hsize'],text,s',found,hslice,hparse,hv,hf⟩

end Precedence
