import Precedence.Proofs.Syntax.Acceptance
import Precedence.Proofs.Syntax.Formed
import Precedence.Proofs.Token.Places
import Precedence.Proofs.Tree.Nodes

/-! The nodes of whatever is read, also where there are faults: the data of each go with its token,
and none of an expression's tokens stands in front of the statement that the expression is. -/
namespace Precedence

def Phrase.nodes : Phrase → List Node
  | .atom e | .expr _ e => e.nodes
  | .items es | .arguments es => nodesEach es
  | .alternative none => []
  | .alternative (some b) | .block b => b.nodes
  | .statement s => s.nodes
  | .statements ss => nodesAll ss

/-- A statement that is an expression has a place in `ts` from which on all the tokens of the
expression are to be found. -/
def Node.Leads (ts : List Token) : Node → Prop
  | .stmt (.expression t e) =>
    ∃ behind, (t :: behind) <:+ ts ∧ ∀ n ∈ e.nodes, n.token ∈ t :: behind
  | _ => True

theorem Node.Leads.mono {n : Node} {ts us : List Token} (h : n.Leads ts) (hs : ts <:+ us) :
    n.Leads us := by
  unfold Node.Leads at h ⊢
  split
  · obtain ⟨behind,hb,hn⟩ := h
    exact ⟨behind,hb.trans hs,hn⟩
  · trivial

/-- Nodes that are read from `input` with `rest` left over. -/
structure Placed (ns : List Node) (input rest : List Token) : Prop where
  rest : rest <:+ input
  token : ∀ n ∈ ns, n.token ∈ input
  leads : ∀ n ∈ ns, n.Leads input

namespace Placed
variable {ns ms : List Node} {n : Node} {input inner rest : List Token} {t : Token}

theorem refl : Placed [] rest rest := ⟨List.suffix_refl _,by simp,by simp⟩

theorem skip : Placed [] (t :: rest) rest := ⟨List.suffix_cons _ _,by simp,by simp⟩

theorem append (h : Placed ns input inner) (hm : Placed ms inner rest) :
    Placed (ns ++ ms) input rest where
  rest := hm.rest.trans h.rest
  token := List.forall_mem_append.mpr ⟨h.token,fun n hn => h.rest.subset (hm.token n hn)⟩
  leads := List.forall_mem_append.mpr ⟨h.leads,fun n hn => (hm.leads n hn).mono h.rest⟩

theorem behind (h : Placed ns inner rest) : Placed ns (t :: inner) rest := skip.append h

theorem closed (h : Placed ns input (t :: rest)) : Placed ns input rest :=
  ⟨(List.suffix_cons _ _).trans h.rest,h.token,h.leads⟩

theorem cons (h : Placed ns input rest) (ht : n.token ∈ input) (hn : n.Leads input) :
    Placed (n :: ns) input rest :=
  ⟨h.rest,List.forall_mem_cons.mpr ⟨ht,h.token⟩,List.forall_mem_cons.mpr ⟨hn,h.leads⟩⟩

theorem terminated (h : Placed ns input inner) (ht : Terminator inner rest) :
    Placed ns input rest := by
  cases ht with
  | semicolon => exact h.closed
  | omitted => exact h

theorem leaf (ht : n.token = t) (hn : n.Leads (t :: rest)) : Placed [n] (t :: rest) rest :=
  skip.cons (by simp [ht]) hn

theorem names {ns : List Name} (h : Names ns input rest) :
    Placed (ns.map Node.name) input rest := by
  induction h with
  | last => exact leaf rfl trivial
  | more _ _ _ ih => exact ih.behind.behind.cons List.mem_cons_self trivial

theorem parameters {ns : List Name} (h : Parameters ns input rest) :
    Placed (ns.map Node.name) input rest := by
  cases h with
  | none => exact skip
  | some _ h => exact (names h).closed

end Placed

/-- The nodes of what is derived are placed where it is derived from. -/
theorem Derivation.placed {gaps : Prop} {φ : Phrase} {input rest : List Token}
    (D : Derivation gaps φ input rest) : Placed φ.nodes input rest := by
  induction D with
  | name | integer | truth | falsity => exact .leaf rfl trivial
  | group _ _ _ ih => exact ih.closed.behind
  | @conditional _ _ _ _ _ b _ _ _ _ _ _ _ _ _ _ ih ihc iha =>
    have h := ih.append (ihc.append iha).behind
    cases b with
    | none =>
      simp only [Phrase.nodes,List.append_nil] at h
      exact h.behind.behind.cons List.mem_cons_self trivial
    | some b => exact h.behind.behind.cons List.mem_cons_self trivial
  | noElse => exact .refl
  | elseBlock _ _ ih => exact ih.behind
  | function _ _ hn _ ih =>
    exact ((Placed.parameters hn).append ih).behind.behind.cons List.mem_cons_self trivial
  | ofAtom _ ih | loosen _ _ ih => exact ih
  | call _ _ _ ihf iha =>
    exact (ihf.append iha.behind).cons (ihf.rest.subset List.mem_cons_self) trivial
  | unary _ _ ih => exact ih.behind.cons List.mem_cons_self trivial
  | binary _ _ _ _ ihl ihr =>
    exact (ihl.append ihr.behind).cons (ihl.rest.subset List.mem_cons_self) trivial
  | lastItem _ ih => exact ih.append .refl
  | moreItems _ _ _ ih ihs => exact ih.append ihs.behind
  | noArguments => exact .skip
  | someArguments _ _ ih => exact ih.closed
  | closedBlock _ _ _ ih => exact ih.closed.behind.cons List.mem_cons_self trivial
  | openBlock _ _ ih => exact ih.behind.cons List.mem_cons_self trivial
  | @binding _ name assign e inner _ rest _ _ _ _ ht ih =>
    have h : Placed (.name (.ofToken name) :: e.nodes) (name :: assign :: inner) rest :=
      (ih.terminated ht).behind.behind.cons List.mem_cons_self trivial
    exact h.behind.cons List.mem_cons_self trivial
  | bareResult => exact Placed.skip.behind.cons List.mem_cons_self trivial
  | result _ _ ht ih => exact (ih.terminated ht).behind.cons List.mem_cons_self trivial
  | expression _ ht ih =>
    exact (ih.terminated ht).cons List.mem_cons_self ⟨_,List.suffix_refl _,ih.token⟩
  | nil => exact .refl
  | cons _ _ ihf ihs => exact ihf.append ihs
  | skip _ _ ih => exact ih.behind

/-- In tokens that start one behind the other, what a statement leads does not start before it. -/
theorem Node.Leads.place_le {t : Token} {e : Expr} {ts : List Token}
    (h : (Node.stmt (.expression t e)).Leads ts)
    (hts : ts.Pairwise fun t u => t.place < u.place) : ∀ n ∈ e.nodes, t.place ≤ n.token.place := by
  obtain ⟨behind,hb,hn⟩ := h
  intro n he
  rcases List.mem_cons.mp (hn n he) with ht | ht
  · exact Nat.le_of_eq (congrArg Token.place ht.symm)
  · exact Nat.le_of_lt (List.rel_of_pairwise_cons (hts.sublist hb.sublist) ht)

/-- Every tree that is read is formed, also where there are faults. The data of each node go with
its token, which is one of the source. A statement that is an expression starts no later than
anything the expression is made of. -/
theorem program_nodes_formed (source : Source) :
    (∀ n ∈ (parse source).program.nodes,
      n.Formed ∧ n.token ∈ source.words ∧ n.Leads source.words) ∧
    (Text.bytes source.text.toList < 2^32 →
      ∀ t e, .stmt (.expression t e) ∈ (parse source).program.nodes →
        ∀ n ∈ e.nodes, t.place ≤ n.token.place) := by
  obtain ⟨D,-⟩ := (Scanner.ofSource source).parse_derivable True (.inl trivial)
  have hformed := nodesAll_formed _ (D.formed (Scanner.ahead_lexed _)).1
  have hplaced := D.placed
  rw [Source.words_eq]
  refine ⟨fun n hn => ⟨hformed n hn,hplaced.token n hn,hplaced.leads n hn⟩,fun hlen t e he => ?_⟩
  have ha := (Scanner.ofSource source).ahead_ascending (by simpa [Scanner.ofSource] using hlen)
  exact (hplaced.leads _ he).place_le (List.pairwise_append.mp ha).1

/-- Behind a statement at fault, one that starts with parentheses, of which it keeps none. -/
theorem program_nodes_formed_group :
    Text.bytes "let ; ((-a)(2));".toList < 2^32 ∧
      (parse ⟨"let ; ((-a)(2));","f"⟩).faults.length = 2 ∧
      ∃ t e, .stmt (.expression t e) ∈ (parse ⟨"let ; ((-a)(2));","f"⟩).program.nodes ∧
        t.kind = .openParen ∧ e.nodes.length = 4 ∧ ∀ n ∈ e.nodes, t.place ≤ n.token.place := by
  have hlen : Text.bytes "let ; ((-a)(2));".toList < 2^32 := by decide +kernel
  have hgroup : (parse ⟨"let ; ((-a)(2));","f"⟩).program.nodes.any (fun
      | .stmt (.expression t e) => t.kind == .openParen && e.nodes.length == 4
      | _ => false) = true := by decide +kernel
  obtain ⟨n,hn,hk⟩ := List.any_eq_true.mp hgroup
  split at hk
  · rename_i t e
    obtain ⟨ht,he⟩ : t.kind = .openParen ∧ e.nodes.length = 4 := by simpa using hk
    exact ⟨hlen,by decide +kernel,t,e,hn,ht,he,
      (program_nodes_formed ⟨"let ; ((-a)(2));","f"⟩).2 hlen t e hn⟩
  · simp at hk

end Precedence
