import Precedence.Proofs.Tree.Formed

/-! The nodes of a tree one by one, and how in a formed tree the data of each go with its token. -/
namespace Precedence

inductive Node where
  | name (name : Name)
  | expr (e : Expr)
  | block (b : Block)
  | stmt (s : Stmt)

def Node.token : Node → Token
  | name n => n.token
  | expr e => e.token
  | block b => b.token
  | stmt s => s.token

mutual

/-- An expression and all that it is made of. A name that is used as a value is one node. -/
def Expr.nodes : Expr → List Node
  | .name n => [.name n]
  | .integer t value => [.expr (.integer t value)]
  | .boolean t value => [.expr (.boolean t value)]
  | .unary t operator right => .expr (.unary t operator right) :: right.nodes
  | .binary t left operator right =>
    .expr (.binary t left operator right) :: (left.nodes ++ right.nodes)
  | .conditional t condition consequence none =>
    .expr (.conditional t condition consequence none) :: (condition.nodes ++ consequence.nodes)
  | .conditional t condition consequence (some alternative) =>
    .expr (.conditional t condition consequence (some alternative)) ::
      (condition.nodes ++ (consequence.nodes ++ alternative.nodes))
  | .function t parameters body =>
    .expr (.function t parameters body) :: (parameters.map Node.name ++ body.nodes)
  | .call t callee arguments =>
    .expr (.call t callee arguments) :: (callee.nodes ++ nodesEach arguments)
termination_by structural e => e

def nodesEach : List Expr → List Node
  | [] => []
  | e :: es => e.nodes ++ nodesEach es
termination_by structural es => es

def Block.nodes : Block → List Node
  | .mk t body => .block (.mk t body) :: nodesAll body
termination_by structural b => b

def Stmt.nodes : Stmt → List Node
  | .binding t name value => .stmt (.binding t name value) :: .name name :: value.nodes
  | .result t none => [.stmt (.result t none)]
  | .result t (some value) => .stmt (.result t (some value)) :: value.nodes
  | .expression t e => .stmt (.expression t e) :: e.nodes
  | .block b => .stmt (.block b) :: b.nodes
termination_by structural s => s

def nodesAll : List Stmt → List Node
  | [] => []
  | s :: ss => s.nodes ++ nodesAll ss
termination_by structural ss => ss

end

def Program.nodes (p : Program) : List Node := nodesAll p.statements

/-- The name is spelled as its token, which is no reserved word. -/
def Name.Plain (n : Name) : Prop :=
  n.token.kind = .identifier ∧ n.value = n.token.text ∧ n.value ∉ Kind.reserved.map Prod.fst

/-- The data of a node go with its token. No node is a block that is a statement by itself. -/
def Node.Formed : Node → Prop
  | .name n | .expr (.name n) => n.Plain
  | .expr (.integer t value) =>
    t.kind = .integer ∧ t.text ≠ "" ∧ t.text.toList.all Char.isDigit = true ∧
      value = Nat.ofDigitChars 10 t.text.toList 0 ∧ 0 ≤ value ∧ value ≤ Text.integerLimit
  | .expr (.boolean t value) =>
    (value = true ↔ t.kind = .trueWord) ∧ (value = false ↔ t.kind = .falseWord)
  | .expr (.unary t operator _) => operator = t.text ∧ (t.kind = .bang ∨ t.kind = .minus)
  | .expr (.binary t _ operator _) =>
    operator = t.text ∧
      t.kind ∈ [Kind.equal,.notEqual,.less,.greater,.plus,.minus,.star,.slash]
  | .expr (.conditional t _ _ _) => t.kind = .ifWord
  | .expr (.function t _ _) => t.kind = .fnWord
  | .expr (.call t _ _) => t.kind = .openParen
  | .block b => b.token.kind = .openBrace
  | .stmt (.binding t _ _) => t.kind = .letWord
  | .stmt (.result t _) => t.kind = .returnWord
  | .stmt (.expression _ _) => True
  | .stmt (.block _) => False

theorem isName_not_reserved {s : String} (h : isName s = true) :
    s ∉ Kind.reserved.map Prod.fst := by
  intro hs
  simp only [Kind.reserved,List.map_cons,List.map_nil,List.mem_cons,List.not_mem_nil,or_false] at hs
  rcases hs with rfl | rfl | rfl | rfl | rfl | rfl | rfl <;> revert h <;> decide

theorem Name.Formed.plain {n : Name} (h : n.Formed) : n.Plain :=
  ⟨congrArg Spelling.kind h.1,(congrArg Spelling.text h.1).symm,isName_not_reserved h.2⟩

theorem Text.numeral?_eq_some {s : String} {v : Int} (h : numeral? s = some v) :
    s ≠ "" ∧ s.toList.all Char.isDigit = true ∧ v = Nat.ofDigitChars 10 s.toList 0 ∧ 0 ≤ v ∧
      v ≤ integerLimit := by
  unfold numeral? at h
  split at h
  · rename_i hs
    obtain rfl := Option.some.inj h
    exact ⟨hs.1,hs.2.1,rfl,Int.natCast_nonneg _,Int.ofNat_le.mpr hs.2.2⟩
  · simp at h

theorem Kind.mem_operators {layer : Power} {k : Kind} (h : k ∈ layer.operators) :
    k ∈ [equal,notEqual,less,greater,plus,minus,star,slash] := by
  cases layer <;> simp [Power.operators] at h <;> rcases h with rfl | rfl <;> simp

mutual

theorem Expr.nodes_formed : (e : Expr) → e.Formed → ∀ n ∈ e.nodes, n.Formed
  | .name _, h => List.forall_mem_singleton.mpr (Name.Formed.plain h)
  | .integer _ _, ⟨hk,hn⟩ => List.forall_mem_singleton.mpr ⟨hk,Text.numeral?_eq_some hn⟩
  | .boolean t value, h => by
    have hk : t.kind = if value then .trueWord else .falseWord := Token.kind_of_spelling h
    cases value <;> simp_all [Expr.nodes,Node.Formed]
  | .unary _ _ right, ⟨hk,ho,hr⟩ =>
    List.forall_mem_cons.mpr
      ⟨⟨ho,hk.imp Token.kind_of_spelling Token.kind_of_spelling⟩,right.nodes_formed hr⟩
  | .binary _ left _ right, ⟨⟨_,hk⟩,_,ho,hl,hr⟩ =>
    List.forall_mem_cons.mpr ⟨⟨ho,Kind.mem_operators hk⟩,
      List.forall_mem_append.mpr ⟨left.nodes_formed hl,right.nodes_formed hr⟩⟩
  | .conditional _ condition consequence none, ⟨ht,hc,ha⟩ =>
    List.forall_mem_cons.mpr ⟨Token.kind_of_spelling ht,
      List.forall_mem_append.mpr ⟨condition.nodes_formed hc,consequence.nodes_formed ha⟩⟩
  | .conditional _ condition consequence (some alternative), ⟨ht,hc,ha,hb⟩ =>
    List.forall_mem_cons.mpr ⟨Token.kind_of_spelling ht,
      List.forall_mem_append.mpr ⟨condition.nodes_formed hc,
        List.forall_mem_append.mpr ⟨consequence.nodes_formed ha,alternative.nodes_formed hb⟩⟩⟩
  | .function _ parameters body, ⟨ht,hp,hb⟩ =>
    List.forall_mem_cons.mpr ⟨Token.kind_of_spelling ht,
      List.forall_mem_append.mpr
        ⟨List.forall_mem_map.mpr fun n hn => (hp n hn).plain,body.nodes_formed hb⟩⟩
  | .call _ callee arguments, ⟨ht,hf,ha⟩ =>
    List.forall_mem_cons.mpr ⟨Token.kind_of_spelling ht,
      List.forall_mem_append.mpr ⟨callee.nodes_formed hf,nodesEach_formed arguments ha⟩⟩

theorem nodesEach_formed : (es : List Expr) → FormedEach es → ∀ n ∈ nodesEach es, n.Formed
  | [], _ => by simp [nodesEach]
  | e :: es, ⟨he,hes⟩ =>
    List.forall_mem_append.mpr ⟨e.nodes_formed he,nodesEach_formed es hes⟩

theorem Block.nodes_formed : (b : Block) → b.Formed → ∀ n ∈ b.nodes, n.Formed
  | .mk _ body, ⟨ht,hb⟩ =>
    List.forall_mem_cons.mpr ⟨Token.kind_of_spelling ht,nodesAll_formed body hb⟩

theorem Stmt.nodes_formed : (s : Stmt) → s.Formed → ∀ n ∈ s.nodes, n.Formed
  | .binding _ _ value, ⟨ht,hn,hv⟩ =>
    List.forall_mem_cons.mpr ⟨Token.kind_of_spelling ht,
      List.forall_mem_cons.mpr ⟨hn.plain,value.nodes_formed hv⟩⟩
  | .result _ none, ht => List.forall_mem_singleton.mpr (Token.kind_of_spelling ht)
  | .result _ (some value), ⟨ht,hv⟩ =>
    List.forall_mem_cons.mpr ⟨Token.kind_of_spelling ht,value.nodes_formed hv⟩
  | .expression _ e, h => List.forall_mem_cons.mpr ⟨trivial,e.nodes_formed h⟩
  | .block _, h => h.elim

theorem nodesAll_formed : (ss : List Stmt) → FormedAll ss → ∀ n ∈ nodesAll ss, n.Formed
  | [], _ => by simp [nodesAll]
  | s :: ss, ⟨hs,hss⟩ =>
    List.forall_mem_append.mpr ⟨s.nodes_formed hs,nodesAll_formed ss hss⟩

end

end Precedence
