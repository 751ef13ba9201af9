import Precedence.Proofs.Syntax.Readback

/-! Trees written as tokens with any number of parentheses around each expression. Where an operand
does not hold together as tightly as its operator, it takes one pair at least; everywhere else
parentheses leave no trace in the tree. -/
namespace Precedence

/-- How tightly an expression holds together that stands in no parentheses: as its operator, if it
has one. -/
def Expr.power : Expr → Power
  | .binary t _ _ _ => Grammar.standard.power t.kind
  | .unary _ _ _ => .unary
  | _ => .call

def Expr.powerIn (e : Expr) : Nat → Power
  | 0 => e.power
  | _+1 => .call

mutual

/-- The tree with only what `keep` tells of the tokens that its expression statements keep. -/
def Expr.keeping (keep : Token → Token) : Expr → Expr
  | .unary t operator right => .unary t operator (right.keeping keep)
  | .binary t left operator right => .binary t (left.keeping keep) operator (right.keeping keep)
  | .conditional t condition a none =>
    .conditional t (condition.keeping keep) (a.keeping keep) none
  | .conditional t condition a (some b) =>
    .conditional t (condition.keeping keep) (a.keeping keep) (some (b.keeping keep))
  | .function t ns b => .function t ns (b.keeping keep)
  | .call t f es => .call t (f.keeping keep) (keepingEach keep es)
  | .name n => .name n
  | .integer t value => .integer t value
  | .boolean t value => .boolean t value
termination_by structural e => e

def keepingEach (keep : Token → Token) : List Expr → List Expr
  | [] => []
  | e :: es => e.keeping keep :: keepingEach keep es
termination_by structural es => es

def Block.keeping (keep : Token → Token) : Block → Block
  | .mk t body => .mk t (keepingAll keep body)
termination_by structural b => b

def Stmt.keeping (keep : Token → Token) : Stmt → Stmt
  | .binding t n e => .binding t n (e.keeping keep)
  | .result t none => .result t none
  | .result t (some e) => .result t (some (e.keeping keep))
  | .expression t e => .expression (keep t) (e.keeping keep)
  | .block b => .block (b.keeping keep)
termination_by structural s => s

def keepingAll (keep : Token → Token) : List Stmt → List Stmt
  | [] => []
  | s :: ss => s.keeping keep :: keepingAll keep ss
termination_by structural ss => ss

end

mutual

@[simp] theorem Expr.keeping_id : (e : Expr) → e.keeping id = e
  | .unary _ _ right => by rw [Expr.keeping,right.keeping_id]
  | .binary _ left _ right => by rw [Expr.keeping,left.keeping_id,right.keeping_id]
  | .conditional _ condition a none => by rw [Expr.keeping,condition.keeping_id,a.keeping_id]
  | .conditional _ condition a (some b) => by
    rw [Expr.keeping,condition.keeping_id,a.keeping_id,b.keeping_id]
  | .function _ _ b => by rw [Expr.keeping,b.keeping_id]
  | .call _ f es => by rw [Expr.keeping,f.keeping_id,keepingEach_id es]
  | .name _ | .integer _ _ | .boolean _ _ => rfl

theorem keepingEach_id : (es : List Expr) → keepingEach id es = es
  | [] => rfl
  | e :: es => by rw [keepingEach,e.keeping_id,keepingEach_id es]

theorem Block.keeping_id : (b : Block) → b.keeping id = b
  | .mk _ body => by rw [Block.keeping,keepingAll_id body]

theorem Stmt.keeping_id : (s : Stmt) → s.keeping id = s
  | .binding _ _ e => by rw [Stmt.keeping,e.keeping_id]
  | .result _ none => rfl
  | .result _ (some e) => by rw [Stmt.keeping,e.keeping_id]
  | .expression _ e => by rw [Stmt.keeping,e.keeping_id]; rfl
  | .block b => by rw [Stmt.keeping,b.keeping_id]

theorem keepingAll_id : (ss : List Stmt) → keepingAll id ss = ss
  | [] => rfl
  | s :: ss => by rw [keepingAll,s.keeping_id,keepingAll_id ss]

end

/-- What can be written. An expression comes with the number of parentheses around it. -/
inductive Written where
  | expr (parens : Nat) (e : Expr)
  | items (es : List Expr)
  | arguments (es : List Expr)
  | alternative (b : Option Block)
  | block (b : Block)
  | statement (s : Stmt)
  | statements (ss : List Stmt)

/-- `Writing keep φ input rest` writes `φ` as the tokens of `input` in front of `rest`, wherever in
a source they stand. Each statement ends with a semicolon. The token that an expression statement
keeps shows in no text; as far as `keep` tells, it is the first one of the statement as it is
written. -/
inductive Writing (keep : Token → Token) : Written → List Token → List Token → Type where
  | group {k : Nat} {e : Expr} {o c : Token} {inner rest : List Token} (ho : o.kind = .openParen)
      (hc : c.kind = .closeParen) (content : Writing keep (.expr k e) inner (c :: rest)) :
      Writing keep (.expr (k+1) e) (o :: inner) rest
  | name {n : Name} {t : Token} {rest : List Token} (ht : t.alike n.token = true) :
      Writing keep (.expr 0 (.name n)) (t :: rest) rest
  | integer {u t : Token} {value : Int} {rest : List Token} (ht : t.alike u = true) :
      Writing keep (.expr 0 (.integer u value)) (t :: rest) rest
  | boolean {u t : Token} {value : Bool} {rest : List Token} (ht : t.alike u = true) :
      Writing keep (.expr 0 (.boolean u value)) (t :: rest) rest
  | unary {k : Nat} {u t : Token} {operator : String} {right : Expr} {inner rest : List Token}
      (ht : t.alike u = true) (need : right.power < .unary → 0 < k)
      (operand : Writing keep (.expr k right) inner rest) :
      Writing keep (.expr 0 (.unary u operator right)) (t :: inner) rest
  | binary {k m : Nat} {u t : Token} {left right : Expr} {operator : String}
      {input inner rest : List Token} (ht : t.alike u = true)
      (needLeft : left.power < Grammar.standard.power u.kind → 0 < k)
      (needRight : ¬ Grammar.standard.power u.kind < right.power → 0 < m)
      (first : Writing keep (.expr k left) input (t :: inner))
      (second : Writing keep (.expr m right) inner rest) :
      Writing keep (.expr 0 (.binary u left operator right)) input rest
  | conditional {k : Nat} {u word o c : Token} {e : Expr} {a : Block} {b : Option Block}
      {inner behind between rest : List Token} (hw : word.alike u = true) (ho : o.kind = .openParen)
      (hc : c.kind = .closeParen) (condition : Writing keep (.expr k e) inner (c :: behind))
      (consequence : Writing keep (.block a) behind between)
      (alternative : Writing keep (.alternative b) between rest) :
      Writing keep (.expr 0 (.conditional u e a b)) (word :: o :: inner) rest
  | noElse {rest : List Token} : Writing keep (.alternative none) rest rest
  | elseBlock {word : Token} {b : Block} {inner rest : List Token} (hw : word.kind = .elseWord)
      (block : Writing keep (.block b) inner rest) :
      Writing keep (.alternative (some b)) (word :: inner) rest
  | function {u word o : Token} {ns ns' : List Name} {b : Block} {inner behind rest : List Token}
      (hw : word.alike u = true) (ho : o.kind = .openParen) (hn : ns'.isEqv ns Name.alike = true)
      (parameters : Parameters ns' inner behind) (body : Writing keep (.block b) behind rest) :
      Writing keep (.expr 0 (.function u ns b)) (word :: o :: inner) rest
  | call {k : Nat} {u o : Token} {f : Expr} {es : List Expr} {input inner rest : List Token}
      (ho : o.alike u = true) (need : f.power < .call → 0 < k)
      (callee : Writing keep (.expr k f) input (o :: inner))
      (arguments : Writing keep (.arguments es) inner rest) :
      Writing keep (.expr 0 (.call u f es)) input rest
  | lastItem {k : Nat} {e : Expr} {input rest : List Token}
      (item : Writing keep (.expr k e) input rest) : Writing keep (.items [e]) input rest
  | moreItems {k : Nat} {comma : Token} {e : Expr} {es : List Expr} {input inner rest : List Token}
      (hc : comma.kind = .comma) (item : Writing keep (.expr k e) input (comma :: inner))
      (more : Writing keep (.items es) inner rest) : Writing keep (.items (e :: es)) input rest
  | noArguments {c : Token} {rest : List Token} (hc : c.kind = .closeParen) :
      Writing keep (.arguments []) (c :: rest) rest
  | someArguments {c : Token} {es : List Expr} {inner rest : List Token} (hc : c.kind = .closeParen)
      (items : Writing keep (.items es) inner (c :: rest)) : Writing keep (.arguments es) inner rest
  | closedBlock {u o c : Token} {ss : List Stmt} {inner rest : List Token} (ho : o.alike u = true)
      (hc : c.kind = .closeBrace) (body : Writing keep (.statements ss) inner (c :: rest)) :
      Writing keep (.block (.mk u ss)) (o :: inner) rest
  | binding {k : Nat} {u word t assign s : Token} {n : Name} {e : Expr} {inner rest : List Token}
      (hw : word.alike u = true) (hn : t.alike n.token = true) (ha : assign.kind = .assign)
      (hs : s.kind = .semicolon) (value : Writing keep (.expr k e) inner (s :: rest)) :
      Writing keep (.statement (.binding u n e)) (word :: t :: assign :: inner) rest
  | bareResult {u word s : Token} {rest : List Token} (hw : word.alike u = true)
      (hs : s.kind = .semicolon) :
      Writing keep (.statement (.result u none)) (word :: s :: rest) rest
  | result {k : Nat} {u word s : Token} {e : Expr} {inner rest : List Token}
      (hw : word.alike u = true) (hs : s.kind = .semicolon)
      (value : Writing keep (.expr k e) inner (s :: rest)) :
      Writing keep (.statement (.result u (some e))) (word :: inner) rest
  | expression {k : Nat} {u t s : Token} {e : Expr} {inner rest : List Token}
      (ht : (keep t).alike (keep u) = true) (hs : s.kind = .semicolon)
      (value : Writing keep (.expr k e) (t :: inner) (s :: rest)) :
      Writing keep (.statement (.expression u e)) (t :: inner) rest
  | nil {rest : List Token} : Writing keep (.statements []) rest rest
  | cons {s : Stmt} {ss : List Stmt} {input behind rest : List Token}
      (first : Writing keep (.statement s) input behind)
      (more : Writing keep (.statements ss) behind rest) :
      Writing keep (.statements (s :: ss)) input rest

/-- How many levels the parts of what is written open at once at the most: one for what stands in
parentheses, an operand behind its operator, a condition, an argument, the expression of a statement
and a block. -/
def Writing.levels {keep : Token → Token} {φ : Written} {input rest : List Token} :
    Writing keep φ input rest → Nat
  | group _ _ content => content.levels+1
  | name _ | integer _ | boolean _ => 0
  | unary _ _ operand => operand.levels+1
  | binary _ _ _ first second => max first.levels (second.levels+1)
  | conditional _ _ _ condition consequence alternative =>
    max (condition.levels+1) (max consequence.levels alternative.levels)
  | noElse => 0
  | elseBlock _ block => block.levels
  | function _ _ _ _ body => body.levels
  | call _ _ callee arguments => max callee.levels arguments.levels
  | lastItem item => item.levels+1
  | moreItems _ item more => max (item.levels+1) more.levels
  | noArguments _ => 0
  | someArguments _ items => items.levels
  | closedBlock _ _ body => body.levels+1
  | binding _ _ _ _ value => value.levels+1
  | bareResult _ _ => 0
  | result _ _ value => value.levels+1
  | expression _ _ value => value.levels+1
  | nil => 0
  | cons first more => max first.levels more.levels

namespace Written

/-- The tokens of the tree have the kinds and texts that belong to their places. -/
def Formed : Written → Prop
  | expr _ e => e.Formed
  | items es | arguments es => FormedEach es
  | alternative none => True
  | alternative (some b) => b.Formed
  | block b => b.Formed
  | statement s => s.Formed
  | statements ss => FormedAll ss

/-- The tokens between two places derive a tree like this one, as far as `keep` tells, with a number
of levels. -/
def Derived (keep : Token → Token) : Written → Nat → List Token → List Token → Prop
  | expr k e, n, input, rest => ∃ e' : Expr, (e'.keeping keep).alike (e.keeping keep) = true ∧
    ∃ D : Derivation False (.expr (e.powerIn k) e') input rest, D.levels = n
  | items es, n, input, rest => ∃ es' : List Expr,
    exprsAlike (keepingEach keep es') (keepingEach keep es) = true ∧
    ∃ D : Derivation False (.items es') input rest, D.levels = n
  | arguments es, n, input, rest => ∃ es' : List Expr,
    exprsAlike (keepingEach keep es') (keepingEach keep es) = true ∧
    ∃ D : Derivation False (.arguments es') input rest, D.levels = n
  | alternative none, n, input, rest =>
    ∃ D : Derivation False (.alternative none) input rest, D.levels = n
  | alternative (some b), n, input, rest => ∃ b' : Block,
    (b'.keeping keep).alike (b.keeping keep) = true ∧
    ∃ D : Derivation False (.alternative (some b')) input rest, D.levels = n
  | block b, n, input, rest => ∃ b' : Block, (b'.keeping keep).alike (b.keeping keep) = true ∧
    ∃ D : Derivation False (.block b') input rest, D.levels = n
  | statement s, n, input, rest => ∃ s' : Stmt, (s'.keeping keep).alike (s.keeping keep) = true ∧
    ∃ D : Derivation False (.statement s') input rest, D.levels = n
  | statements ss, n, input, rest => ∃ ss' : List Stmt,
    stmtsAlike (keepingAll keep ss') (keepingAll keep ss) = true ∧
    ∃ D : Derivation False (.statements ss') input rest, D.levels = n

end Written

theorem Names.append {ns : List Name} {input rest : List Token} (h : Names ns input rest)
    (ts : List Token) : Names ns (input ++ ts) (rest ++ ts) := by
  induction h with
  | last h => exact .last h
  | more h hc _ ih => exact .more h hc ih

theorem Parameters.append {ns : List Name} {input rest : List Token} (h : Parameters ns input rest)
    (ts : List Token) : Parameters ns (input ++ ts) (rest ++ ts) := by
  cases h with
  | none h => exact .none h
  | some h names => exact .some h (names.append ts)

theorem Expr.not_powerIn_lt {e : Expr} {k : Nat} {layer : Power} (need : e.power < layer → 0 < k) :
    ¬ e.powerIn k < layer := by
  cases k with
  | zero => exact fun h => Nat.lt_irrefl 0 (need h)
  | succ k => exact layer.not_call_lt

theorem Expr.lt_powerIn {e : Expr} {k : Nat} {layer : Power} (hl : layer < .call)
    (need : ¬ layer < e.power → 0 < k) : layer < e.powerIn k := by
  cases k with
  | zero => exact Classical.byContradiction fun hn => Nat.lt_irrefl 0 (need hn)
  | succ k => exact hl

theorem Token.kind_of_alike_of {t u : Token} {k : Kind} (h : t.alike u = true)
    (hu : u.spelling = .of k) : t.kind = k :=
  (Token.kind_of_alike h).trans (Token.kind_of_spelling hu)

namespace Written.Derived
variable {keep : Token → Token} {e left right : Expr} {a : Block} {b : Option Block}
  {operator : String} {t u word o c : Token} {k m n n' n'' : Nat}
  {input inner behind between rest : List Token}

theorem loosen {layer : Power} (h : (expr k e).Derived keep n input rest)
    (hl : ¬ e.powerIn k < layer) :
    ∃ e' : Expr, (e'.keeping keep).alike (e.keeping keep) = true ∧
      ∃ D : Derivation False (.expr layer e') input rest, D.levels = n := by
  obtain ⟨e',he,D,hD⟩ := h
  obtain ⟨D',hD'⟩ := D.exists_loosen hl
  exact ⟨e',he,D',hD'.trans hD⟩

theorem lowest (h : (expr k e).Derived keep n input rest) :
    ∃ e' : Expr, (e'.keeping keep).alike (e.keeping keep) = true ∧
      ∃ D : Derivation False (.expr .lowest e') input rest, D.levels = n :=
  h.loosen (Power.not_lt_lowest _)

theorem unary (ht : t.alike u = true) (h : (Expr.unary u operator right).Formed)
    (need : right.power < .unary → 0 < k) (hr : (expr k right).Derived keep n inner rest) :
    (expr 0 (.unary u operator right)).Derived keep (n+1) (t :: inner) rest := by
  obtain ⟨hu,rfl,-⟩ := h
  obtain ⟨e',he,D,hD⟩ := hr.loosen (Expr.not_powerIn_lt need)
  obtain ⟨hk,htext⟩ := (Token.alike_iff _ _).mp ht
  have hkind : t.kind = .bang ∨ t.kind = .minus :=
    hu.imp (Token.kind_of_alike_of ht) (Token.kind_of_alike_of ht)
  refine ⟨.unary t t.text e',by simp [Expr.keeping,Expr.alike,ht,htext,he],.unary hkind D,?_⟩
  simp [Derivation.levels,hD]

theorem binary (ht : t.alike u = true) (h : (Expr.binary u left operator right).Formed)
    (needLeft : left.power < Grammar.standard.power u.kind → 0 < k)
    (needRight : ¬ Grammar.standard.power u.kind < right.power → 0 < m)
    (hl : (expr k left).Derived keep n input (t :: inner))
    (hr : (expr m right).Derived keep n' inner rest) :
    (expr 0 (.binary u left operator right)).Derived keep (max n (n'+1)) input rest := by
  obtain ⟨⟨layer,hlayer⟩,-,rfl,-,-⟩ := h
  obtain ⟨hk,htext⟩ := (Token.alike_iff _ _).mp ht
  obtain ⟨-,-,hpower,-,hunary⟩ := Grammar.standard_operator hlayer
  rw [hpower] at needLeft needRight
  obtain ⟨a,ha,L,hL⟩ := hl.loosen (Expr.not_powerIn_lt needLeft)
  obtain ⟨b,hb,R,hR⟩ := hr
  have hlt := Expr.lt_powerIn (Nat.lt_trans hunary (by decide)) needRight
  have hself : (Expr.binary u left u.text right).powerIn 0 = layer := hpower
  rw [Derived,hself]
  refine ⟨.binary t a t.text b,by simp [Expr.keeping,Expr.alike,ht,htext,ha,hb],
    .binary (hk ▸ hlayer) hlt L R,?_⟩
  simp [Derivation.levels,hL,hR]

theorem conditional (hw : word.alike u = true) (h : (Expr.conditional u e a b).Formed)
    (ho : o.kind = .openParen) (hc : c.kind = .closeParen)
    (he : (expr k e).Derived keep n inner (c :: behind))
    (ha : (block a).Derived keep n' behind between)
    (hb : (alternative b).Derived keep n'' between rest) :
    (expr 0 (.conditional u e a b)).Derived keep (max (n+1) (max n' n'')) (word :: o :: inner)
      rest := by
  obtain ⟨e',he',D,hD⟩ := he.lowest
  obtain ⟨a',ha',A,hA⟩ := ha
  cases b with
  | none =>
    obtain ⟨B,hB⟩ := hb
    refine ⟨.conditional word e' a' none,by simp [Expr.keeping,Expr.alike,hw,he',ha'],
      .ofAtom (.conditional (Token.kind_of_alike_of hw h.1) ho hc D A B),?_⟩
    simp [Derivation.levels,hD,hA,hB]
  | some b =>
    obtain ⟨b',hb',B,hB⟩ := hb
    refine ⟨.conditional word e' a' (some b'),by simp [Expr.keeping,Expr.alike,hw,he',ha',hb'],
      .ofAtom (.conditional (Token.kind_of_alike_of hw h.1) ho hc D A B),?_⟩
    simp [Derivation.levels,hD,hA,hB]

end Written.Derived

namespace Writing
variable {keep : Token → Token} {φ : Written} {input rest : List Token}

/-- What is written can be derived, whatever comes behind. -/
theorem derived (w : Writing keep φ input rest) (ts : List Token) (h : φ.Formed) :
    φ.Derived keep w.levels (input ++ ts) (rest ++ ts) := by
  induction w with
  | group ho hc content ih =>
    -- Between parentheses an expression of any layer may stand.
    obtain ⟨e',he,D,hD⟩ := (ih h).lowest
    exact ⟨e',he,.ofAtom (.group ho hc D),by simp [Derivation.levels,levels,hD]⟩
  | name ht =>
    obtain ⟨hk,ha⟩ := Name.ofToken_alike h ((Token.alike_iff_spelling.mp ht).trans h.1)
    exact ⟨.name (.ofToken _),by simpa [Expr.keeping,Expr.alike] using ha,.ofAtom (.name hk),rfl⟩
  | @integer u t value _ ht =>
    obtain ⟨hk,htext⟩ := (Token.alike_iff _ _).mp ht
    have hn : Text.numeral? t.text = some value := by rw [htext]; exact h.2
    exact ⟨.integer t value,by simp [Expr.keeping,Expr.alike,ht],
      .ofAtom (.integer (hk.trans h.1) hn),rfl⟩
  | @boolean u t value _ ht =>
    have hk := Token.kind_of_spelling ((Token.alike_iff_spelling.mp ht).trans h)
    refine ⟨.boolean t value,by simp [Expr.keeping,Expr.alike,ht],?_⟩
    cases value with
    | true => exact ⟨.ofAtom (.truth hk),rfl⟩
    | false => exact ⟨.ofAtom (.falsity hk),rfl⟩
  | unary ht need operand ih => exact .unary ht h need (ih h.2.2)
  | binary ht needLeft needRight first second ihl ihr =>
    exact .binary ht h needLeft needRight (ihl h.2.2.2.1) (ihr h.2.2.2.2)
  | @conditional k u word o c e a b _ _ _ _ hw ho hc condition consequence alternative ih iha ihb =>
    cases b with
    | none => exact .conditional hw h ho hc (ih h.2.1) (iha h.2.2) (ihb trivial)
    | some b => exact .conditional hw h ho hc (ih h.2.1) (iha h.2.2.1) (ihb h.2.2.2)
  | noElse => exact ⟨.noElse,rfl⟩
  | elseBlock hw block ih =>
    obtain ⟨b',hb,D,hD⟩ := ih h
    exact ⟨b',hb,.elseBlock hw D,hD⟩
  | @function u word o ns ns' b _ _ _ hw ho hn parameters body ih =>
    obtain ⟨hu,-,hb⟩ := h
    obtain ⟨b',hb',D,hD⟩ := ih hb
    have hk : word.kind = .fnWord := Token.kind_of_alike_of hw hu
    exact ⟨.function word ns' b',by simp [Expr.keeping,Expr.alike,hw,hn,hb'],
      .ofAtom (.function hk ho (parameters.append ts) D),by simp [Derivation.levels,levels,hD]⟩
  | @call k u o f es _ _ _ ho need callee arguments ihf ihs =>
    obtain ⟨hu,hf,hes⟩ := h
    -- In its place the callee binds as tightly as a call does.
    obtain ⟨f',hf',F,hF⟩ := (ihf hf).loosen (Expr.not_powerIn_lt need)
    obtain ⟨es',hes',A,hA⟩ := ihs hes
    have hk : o.kind = .openParen := Token.kind_of_alike_of ho hu
    exact ⟨.call o f' es',by simp [Expr.keeping,Expr.alike,ho,hf',hes'],.call hk F A,
      by simp [Derivation.levels,levels,hF,hA]⟩
  | lastItem item ih =>
    obtain ⟨e',he,D,hD⟩ := (ih h.1).lowest
    exact ⟨[e'],by simp [keepingEach,exprsAlike,he],.lastItem D,
      by simp [Derivation.levels,levels,hD]⟩
  | moreItems hc item more ih ihs =>
    obtain ⟨e',he,D,hD⟩ := (ih h.1).lowest
    obtain ⟨es',hes,E,hE⟩ := ihs h.2
    exact ⟨e' :: es',by simp [keepingEach,exprsAlike,he,hes],.moreItems hc D E,
      by simp [Derivation.levels,levels,hD,hE]⟩
  | noArguments hc => exact ⟨[],rfl,.noArguments hc,rfl⟩
  | someArguments hc items ih =>
    obtain ⟨es',hes,D,hD⟩ := ih h
    exact ⟨es',hes,.someArguments hc D,hD⟩
  | @closedBlock u o c ss _ _ ho hc body ih =>
    obtain ⟨hu,hss⟩ := h
    obtain ⟨ss',hss',D,hD⟩ := ih hss
    have hk : o.kind = .openBrace := Token.kind_of_alike_of ho hu
    exact ⟨.mk o ss',by simp [Block.keeping,Block.alike,ho,hss'],.closedBlock hk hc D,
      by simp [Derivation.levels,levels,hD]⟩
  | @binding k u word t assign s n e _ _ hw hn ha hs value ih =>
    obtain ⟨hu,hname,he⟩ := h
    obtain ⟨e',he',D,hD⟩ := (ih he).lowest
    obtain ⟨hk,hn'⟩ := Name.ofToken_alike hname ((Token.alike_iff_spelling.mp hn).trans hname.1)
    have hkw : word.kind = .letWord := Token.kind_of_alike_of hw hu
    exact ⟨.binding word (.ofToken t) e',by simp [Stmt.keeping,Stmt.alike,hw,hn',he'],
      .binding hkw hk ha D (.semicolon hs),by simp [Derivation.levels,levels,hD]⟩
  | @bareResult u word s _ hw hs =>
    have hk : word.kind = .returnWord := Token.kind_of_alike_of hw h
    exact ⟨.result word none,by simp [Stmt.keeping,Stmt.alike,hw],.bareResult hk hs,rfl⟩
  | @result k u word s e _ _ hw hs value ih =>
    obtain ⟨hu,he⟩ := h
    obtain ⟨e',he',D,hD⟩ := (ih he).lowest
    have hk : word.kind = .returnWord := Token.kind_of_alike_of hw hu
    exact ⟨.result word (some e'),by simp [Stmt.keeping,Stmt.alike,hw,he'],
      .result hk D (.semicolon hs),by simp [Derivation.levels,levels,hD]⟩
  | @expression k u t s e _ _ ht hs value ih =>
    obtain ⟨e',he',D,hD⟩ := (ih h).lowest
    exact ⟨.expression t e',by simp [Stmt.keeping,Stmt.alike,ht,he'],.expression D (.semicolon hs),
      by simp [Derivation.levels,levels,hD]⟩
  | nil => exact ⟨[],rfl,.nil,rfl⟩
  | cons first more ih ihs =>
    obtain ⟨s',hs,D,hD⟩ := ih h.1
    obtain ⟨ss',hss,E,hE⟩ := ihs h.2
    exact ⟨s' :: ss',by simp [keepingAll,stmtsAlike,hs,hss],.cons D E,
      by simp [Derivation.levels,levels,hD,hE]⟩

end Writing
end Precedence
