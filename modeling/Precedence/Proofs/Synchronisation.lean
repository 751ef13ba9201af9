import Precedence.Proofs.Descent.Cut
import Precedence.Proofs.FaultPlaces

/-! A semicolon outside of blocks is where reading starts afresh, whatever went wrong before it. -/
namespace Precedence
open Parse Descent Likeness Pairing

namespace Scanner

theorem ahead_of_append (s b file : String)
    (h : ∀ t ∈ (ofSource ⟨s,file⟩).ahead.getLast?, t.kind = .semicolon) :
    (ofSource ⟨s ++ b,file⟩).ahead = (ofSource ⟨s,file⟩).ahead ++
      (ofSource ⟨b,file⟩).ahead.map (Token.moved (Text.bytes s.toList)) := by
  rw [← ahead_moved]
  have ha := (ofSource ⟨s,file⟩).ahead_append b.toList h
  simpa [ofSource,String.toList_append] using ha

end Scanner

theorem Fault.offset_moved {s b file : String} {f : Fault}
    (hlen : Text.bytes s.toList+Text.bytes b.toList < 2^32)
    (hf : f ∈ (parse ⟨b,file⟩).faults) :
    (f.moved (Text.bytes s.toList)).position.offset.toNat =
      f.position.offset.toNat+Text.bytes s.toList := by
  obtain ⟨t,ht,hp,-⟩ := Scanner.parse_fault_lies hf
  obtain ⟨k,hk,hstart⟩ : ∃ k, k ≤ Text.bytes b.toList ∧ t.span.start = k.toUInt32 := by
    rcases List.mem_append.mp ht with ht | ht
    · obtain ⟨k,hk,hs⟩ := Scanner.ahead_start _ t ht
      exact ⟨k,by simpa [Scanner.ofSource] using hk,hs⟩
    · obtain rfl := List.mem_singleton.mp ht
      exact ⟨Text.bytes b.toList,Nat.le_refl _,by
        simp [Scanner.last,Scanner.tokenHere,Scanner.ofSource]⟩
  have hoff : f.position.offset = k.toUInt32 := by rw [hp,← hstart]; rfl
  have hmoved : (f.moved (Text.bytes s.toList)).position.offset =
      k.toUInt32+(Text.bytes s.toList).toUInt32 := by rw [← hoff]; rfl
  rw [hmoved,hoff,UInt32.toNat_add]
  simp only [Nat.toUInt32_eq,UInt32.toNat_ofNat']
  omega

namespace Scanner
variable {s t u : Scanner} {n : Nat}

/-- In front of the tokens that were added a reading is in step with one of those tokens alone, if
what it found before is the same. -/
theorem cursors_added {last : Token} {e d : Cursor} (hl : u.last = t.last.moved n)
    (he : e.depth = 0) (hd : d.ahead = t.ahead.map (Token.moved n))
    (hed : (cut False (t.ahead.map (Token.moved n)) last u.last).Cursors e d) :
    (moved n t.last e.faults.toList).Cursors (.ofScanner t) d := by
  obtain ⟨gs,hgs,hf⟩ := hed.faults
  have hfaults : e.faults.toList = gs := by
    rw [← List.forall₂_eq_eq_eq]
    exact hf.imp fun _ _ => eq_of_sameFault_cut
  refine ⟨hd,rfl,hed.last'.trans hl,he.symm.trans hed.depth,[],?_,.nil⟩
  rw [hgs,hfaults,List.append_nil]
  rfl

theorem parse_added (ha : u.ahead = s.ahead ++ t.ahead.map (Token.moved n))
    (hl : u.last = t.last.moved n) (hlast : ∀ w ∈ s.ahead.getLast?, w.kind = .semicolon)
    (hb : (∀ w ∈ s.ahead, w.kind ≠ .openBrace) ∨
      s.parse.faults = [] ∧ closes s.ahead = opens s.ahead) :
    Alike (s.parse.program.statements ++ t.parse.program.statements) u.parse.program.statements ∧
      u.parse.faults = s.parse.faults ++ t.parse.faults.map (Fault.moved n) := by
  obtain ⟨ss,e,hss⟩ := s.statements_done
  obtain ⟨ts,f,hts⟩ := t.statements_done
  rw [parse_of_statements hss] at hb ⊢
  rw [parse_of_statements hts]
  have hclosed : (∀ w ∈ s.ahead, w.kind ≠ .openBrace) ∨
      e.faults = #[] ∧ opens s.ahead = closes s.ahead :=
    hb.imp_right fun h => ⟨Array.toList_eq_nil_iff.mp h.1,h.2.symm⟩
  have hstart : (cut False (t.ahead.map (Token.moved n)) s.last u.last).Cursors
      (.ofScanner s) (.ofScanner u) :=
    ⟨⟨ha,⟨hlast,False.elim⟩,False.elim⟩,rfl,rfl,rfl,[],rfl,.nil⟩
  -- The whole is read up to the tokens that were added, and then as they are by themselves.
  obtain ⟨before,d,hv,hloop,hd,hed⟩ := statements_cut _ [] _ hss [] _ .nil s.proper hstart
    ⟨hlast,id⟩ hclosed
  have he := (statements_steady (levels_steady nestingLimit) rfl).follows s.proper hss
  obtain ⟨ts',f',hts',hvt,hf⟩ := statements_moved (cursors_added hl he.depth hd hed) hts before
  rw [parse_of_statements (hloop.trans hts')]
  exact ⟨List.rel_append hv hvt,hf⟩

end Scanner

/-- A semicolon outside of blocks is a point from which reading starts afresh. Let a source end
with a semicolon and have no block, or be free of faults with all its blocks closed. Whatever comes
behind it, what is read of both is what is read of each by itself, with the same faults at offsets
that count from the start of the whole. -/
theorem semicolon_synchronises (s b file : String)
    (hs : (Source.words ⟨s,file⟩).getLast?.map Token.kind = some .semicolon)
    (hb : (∀ t ∈ Source.words ⟨s,file⟩, t.kind ≠ .openBrace) ∨ (parse ⟨s,file⟩).faults = [] ∧
      closes (Source.words ⟨s,file⟩) = opens (Source.words ⟨s,file⟩))
    (hlen : Text.bytes s.toList+Text.bytes b.toList < 2^32) :
    stmtsAlike ((parse ⟨s,file⟩).program.statements ++ (parse ⟨b,file⟩).program.statements)
        (parse ⟨s ++ b,file⟩).program.statements = true ∧
      (parse ⟨s ++ b,file⟩).faults = (parse ⟨s,file⟩).faults ++
        (parse ⟨b,file⟩).faults.map (Fault.moved (Text.bytes s.toList)) ∧
      ∀ f ∈ (parse ⟨b,file⟩).faults, (f.moved (Text.bytes s.toList)).position.offset.toNat =
        f.position.offset.toNat+Text.bytes s.toList := by
  rw [Source.words_eq] at hs hb
  have hlast : ∀ t ∈ (Scanner.ofSource ⟨s,file⟩).ahead.getLast?, t.kind = .semicolon := by
    intro t ht
    rw [ht] at hs
    exact Option.some.inj hs
  obtain ⟨hv,hf⟩ := Scanner.parse_added (Scanner.ahead_of_append s b file hlast)
    (Scanner.last_of_append s b file) hlast hb
  exact ⟨stmtsAlike_iff.mpr hv,hf,fun f hf => Fault.offset_moved hlen hf⟩

/-- Behind statements that are at fault, and behind a block that is closed. -/
theorem semicolon_synchronises_fault :
    ((∀ t ∈ Source.words ⟨"let 1; (a;","f"⟩, t.kind ≠ .openBrace) ∧
      (parse ⟨"let 1; (a;" ++ "b; )","f"⟩).faults = (parse ⟨"let 1; (a;","f"⟩).faults ++
        (parse ⟨"b; )","f"⟩).faults.map (Fault.moved (Text.bytes "let 1; (a;".toList))) ∧
    (closes (Source.words ⟨"fn(x) \x7b x; \x7d;","f"⟩) =
        opens (Source.words ⟨"fn(x) \x7b x; \x7d;","f"⟩) ∧
      (parse ⟨"fn(x) \x7b x; \x7d;" ++ "(1","f"⟩).faults =
        (parse ⟨"fn(x) \x7b x; \x7d;","f"⟩).faults ++
          (parse ⟨"(1","f"⟩).faults.map (Fault.moved (Text.bytes "fn(x) \x7b x; \x7d;".toList))) := by
  have hflat : ∀ t ∈ Source.words ⟨"let 1; (a;","f"⟩, t.kind ≠ .openBrace := by decide +kernel
  have hclosed : (parse ⟨"fn(x) \x7b x; \x7d;","f"⟩).faults = [] ∧
      closes (Source.words ⟨"fn(x) \x7b x; \x7d;","f"⟩) =
        opens (Source.words ⟨"fn(x) \x7b x; \x7d;","f"⟩) := by decide +kernel
  obtain ⟨-,hfaults,-⟩ := semicolon_synchronises "let 1; (a;" "b; )" "f" (by decide +kernel)
    (.inl hflat) (by decide +kernel)
  obtain ⟨-,hfaults',-⟩ := semicolon_synchronises "fn(x) \x7b x; \x7d;" "(1" "f" (by decide +kernel)
    (.inr hclosed) (by decide +kernel)
  exact ⟨⟨hflat,hfaults⟩,hclosed.2,hfaults'⟩

end Precedence
