import Mathlib.Data.List.Nodup
import Precedence.Proofs.Descent.Heed
import Precedence.Proofs.FaultPlaces

/-! No illegal token goes unreported: wherever it stands, reading comes to it once as the current token
and finds it at fault. -/
namespace Precedence
open Parse Descent

theorem Scanner.eq_of_place {s : Scanner} (h : s.offset+Text.bytes s.rest < 2^32) {t u : Token}
    (ht : t ∈ s.ahead ++ [s.last]) (hu : u ∈ s.ahead ++ [s.last]) (hp : t.place = u.place) :
    t = u := by
  have hne : ((s.ahead ++ [s.last]).map Token.place).Nodup :=
    List.pairwise_map.mpr ((s.ahead_ascending h).imp Nat.ne_of_lt)
  exact List.inj_on_of_nodup_map hne ht hu hp

theorem Scanner.blames_of_position {s : Scanner} (h : s.offset+Text.bytes s.rest < 2^32) {f : Fault}
    (hf : f ∈ s.parse.faults) {t : Token} (ht : t ∈ s.ahead ++ [s.last])
    (hp : f.position = t.position) : f.cause.Blames t := by
  obtain ⟨u,hu,hl⟩ := Scanner.parse_fault_lies hf
  have hplace : t.place = u.place := congrArg (fun p => p.offset.toNat) (hp.symm.trans hl.position)
  exact Scanner.eq_of_place h ht hu hplace ▸ hl.blames

theorem Scanner.illegal_told {s : Scanner} {t : Token} (ht : t ∈ s.ahead) (hk : t.kind = .illegal) :
    ∃ f ∈ s.parse.faults, f.TellsOf t := by
  obtain ⟨ss,c,hc⟩ := s.statements_done
  have h := statements_heed hk (within_heeds hk nestingLimit) (· == .endOfInput) (.ofScanner s)
    (.inl ht)
  have hf := (statements_steady (levels_steady nestingLimit) rfl).follows s.proper hc
  have hend := (hf.proper s.proper).ahead_eq_nil (eq_of_beq (statements_stop hc))
  rw [show within .standard nestingLimit = levels nestingLimit from rfl,hc] at h
  rw [parse_of_statements hc]
  refine h.resolve_left fun hm => ?_
  rw [hend] at hm
  exact nomatch hm

theorem Cause.of_blames_illegal {e : Cause} {t : Token} (hk : t.kind = .illegal) (h : e.Blames t)
    (he : e.isUnexpected = false) : e = .noHead .illegal ∨ e = .tooDeep nestingLimit := by
  cases e with
  | unexpected => simp [isUnexpected] at he
  | noHead kind => exact .inl (by rw [← hk,h.1])
  | badInteger literal => exact absurd (hk.symm.trans h.1) (by decide)
  | tooDeep limit => exact .inr (by rw [show limit = 128 from h]; rfl)

/-- A fault that tells of a token is the last of those at its place, with one in front of it at the
most. -/
theorem Fault.last_of_place {last n : Nat} (hn : n ≠ last) {fs : List Fault}
    (h : fs.Pairwise (Fault.Before last)) (hp : ∀ g ∈ fs, g.place = n) {f : Fault} (hf : f ∈ fs)
    (hs : f.cause.isUnexpected = false) :
    fs = [f] ∨ ∃ e : Fault, e.cause.isUnexpected = true ∧ fs = [e,f] := by
  obtain ⟨htwo,hpair⟩ := Fault.length_le_two hn h hp
  match fs with
  | [] => simp at hf
  | [g] => exact .inl (by rw [List.mem_singleton.mp hf])
  | [e,g] =>
    obtain ⟨he,-⟩ := hpair e g rfl
    have hg : f = g := by
      rcases List.mem_pair.mp hf with rfl | hg
      · rw [hs] at he
        exact nomatch he
      · exact hg
    exact .inr ⟨e,he,by rw [hg]⟩
  | _ :: _ :: _ :: _ => simp at htwo

/-- Each illegal token of a source is the position of one fault that says so, or that says that no
level was left there. In front of it there is at most one other fault at that token, which is that
something else was asked for. And the fault that no expression starts with an illegal token lies at
an illegal token. -/
theorem illegal_reported (source : Source) (h : Text.bytes source.text.toList < 2^32) :
    (∀ t ∈ source.tokens, t.kind = .illegal → ∃ f : Fault,
      (f.cause = .noHead .illegal ∨ f.cause = .tooDeep nestingLimit) ∧ f.position = t.position ∧
        ((parse source).faultsAt t = [f] ∨ ∃ (e : Fault) (expected : Kind),
          e.cause = .unexpected expected .illegal ∧ (parse source).faultsAt t = [e,f])) ∧
    ∀ f ∈ (parse source).faults, f.cause = .noHead .illegal →
      ∃ t ∈ source.tokens, t.kind = .illegal ∧ f.position = t.position := by
  have hlen : (Scanner.ofSource source).offset+Text.bytes (Scanner.ofSource source).rest < 2^32 := by
    simpa [Scanner.ofSource] using h
  constructor
  · intro t ht hk
    have hword : t ∈ (Scanner.ofSource source).ahead := by
      rcases List.mem_append.mp ht with ht | ht
      · exact ht
      · rw [List.mem_singleton.mp ht] at hk
        exact absurd hk (by simp [Scanner.last,Scanner.tokenHere])
    have hblames (f : Fault) (hf : f ∈ (parse source).faultsAt t) : f.cause.Blames t := by
      obtain ⟨hf,hp⟩ := List.mem_filter.mp hf
      exact Scanner.blames_of_position hlen hf ht (of_decide_eq_true hp)
    obtain ⟨f,hf,hsaid,hp⟩ := Scanner.illegal_told hword hk
    have hmem : f ∈ (parse source).faultsAt t := List.mem_filter.mpr ⟨hf,decide_eq_true hp⟩
    refine ⟨f,Cause.of_blames_illegal hk (hblames f hmem) hsaid,hp,?_⟩
    have hend : t.place ≠ (Scanner.ofSource source).last.place :=
      Nat.ne_of_lt ((List.pairwise_append.mp
        ((Scanner.ofSource source).ahead_ascending hlen)).2.2 t hword _ (by simp))
    have hplace (g : Fault) (hg : g ∈ (parse source).faultsAt t) : g.place = t.place := by
      have hp : g.position = t.position := of_decide_eq_true (List.mem_filter.mp hg).2
      rw [Fault.place,hp]
      rfl
    have hbefore : ((parse source).faultsAt t).Pairwise (Fault.Before _) :=
      (Scanner.parse_faults_before hlen).sublist List.filter_sublist
    -- Of two faults at one token the first is that something else was asked for.
    refine (Fault.last_of_place hend hbefore hplace hmem hsaid).imp_right ?_
    rintro ⟨e,he,hpair⟩
    have hb := hblames e (by simp [hpair])
    cases hc : e.cause with
    | unexpected expected received =>
      rw [hc] at hb
      exact ⟨e,expected,by rw [hc,← hk,hb.1],hpair⟩
    | noHead | badInteger | tooDeep => simp [hc,Cause.isUnexpected] at he
  · intro f hf hc
    obtain ⟨t,ht,hl⟩ := Scanner.parse_fault_lies hf
    have hb := hl.blames
    rw [hc] at hb
    exact ⟨t,ht,hb.1,hl.position⟩

/-- An illegal token among parameters, and one where a value should start. -/
theorem illegal_reported_parameter :
    Text.bytes "fn(@) 1; let a = é".toList < 2^32 ∧
      (parse ⟨"fn(@) 1; let a = é","f"⟩).faults.map Fault.cause =
        [.unexpected .identifier .illegal,.noHead .illegal,.noHead .closeParen,.noHead .illegal] ∧
      ∃ t ∈ Source.tokens ⟨"fn(@) 1; let a = é","f"⟩, t.kind = .illegal ∧ t.text = "@" ∧
        ∃ (e f : Fault) (expected : Kind), e.cause = .unexpected expected .illegal ∧
          f.cause = .noHead .illegal ∧
          (parse ⟨"fn(@) 1; let a = é","f"⟩).faultsAt t = [e,f] := by
  have h : Text.bytes "fn(@) 1; let a = é".toList < 2^32 := by decide +kernel
  have hcauses : (parse ⟨"fn(@) 1; let a = é","f"⟩).faults.map Fault.cause =
      [.unexpected .identifier .illegal,.noHead .illegal,.noHead .closeParen,.noHead .illegal] := by
    decide +kernel
  have hat : ((parse ⟨"fn(@) 1; let a = é","f"⟩).faultsAt ⟨.illegal,"@",⟨"f",3,4⟩⟩).map Fault.cause =
      [.unexpected .identifier .illegal,.noHead .illegal] := by decide +kernel
  have ht : (⟨.illegal,"@",⟨"f",3,4⟩⟩ : Token) ∈ Source.tokens ⟨"fn(@) 1; let a = é","f"⟩ := by
    decide +kernel
  refine ⟨h,hcauses,_,ht,rfl,rfl,?_⟩
  obtain ⟨f,-,-,hf | ⟨e,expected,he,hpair⟩⟩ := (illegal_reported _ h).1 _ ht rfl
  · rw [hf] at hat
    simp at hat
  · rw [hpair] at hat
    obtain ⟨-,hcause⟩ := List.cons.inj hat
    exact ⟨e,f,expected,he,(List.cons.inj hcause).1,hpair⟩

end Precedence
