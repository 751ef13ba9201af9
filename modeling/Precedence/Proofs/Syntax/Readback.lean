import Precedence.Proofs.Syntax.Derivation
import Precedence.Proofs.Tree.Alike
import Precedence.Proofs.Tree.Separate

/-! The tokens of a tree's text can be derived as the joined tree. Each operation stands in
parentheses there, so operands need no power of their own. -/
namespace Precedence

/-- The tokens of `input` in front of `rest` have the given spellings. -/
def Spelled (ws : List Spelling) (input rest : List Token) : Prop :=
  ∃ ts : List Token, ts.map Token.spelling = ws ∧ input = ts ++ rest

namespace Spelled
variable {us ws : List Spelling} {w : Spelling} {input rest : List Token}

theorem nil : Spelled [] input rest ↔ input = rest := by simp [Spelled]

theorem cons : Spelled (w :: ws) input rest ↔
    ∃ t inner, t.spelling = w ∧ input = t :: inner ∧ Spelled ws inner rest := by
  constructor
  · rintro ⟨ts,hts,rfl⟩
    obtain ⟨t,ts,rfl,ht,hts⟩ := List.map_eq_cons_iff.mp hts
    exact ⟨t,ts ++ rest,ht,rfl,ts,hts,rfl⟩
  · rintro ⟨t,_,rfl,rfl,ts,rfl,rfl⟩
    exact ⟨t :: ts,rfl,rfl⟩

theorem append : Spelled (us ++ ws) input rest ↔
    ∃ between, Spelled us input between ∧ Spelled ws between rest := by
  constructor
  · rintro ⟨ts,hts,rfl⟩
    obtain ⟨ls,rs,rfl,hl,hr⟩ := List.map_eq_append_iff.mp hts
    exact ⟨rs ++ rest,⟨ls,hl,by simp⟩,rs,hr,rfl⟩
  · rintro ⟨_,⟨ls,rfl,rfl⟩,rs,rfl,rfl⟩
    exact ⟨ls ++ rs,by simp,by simp⟩

theorem head (h : Spelled ws input rest) (hw : ws.head? = some w) :
    ∃ t inner, input = t :: inner ∧ t.spelling = w := by
  obtain ⟨ws,rfl⟩ := List.head?_eq_some_iff.mp hw
  obtain ⟨t,inner,ht,rfl,-⟩ := cons.mp h
  exact ⟨t,inner,rfl,ht⟩

end Spelled

/-- The tokens between two places are read as an expression like the joined one. If they start
with a parenthesis and stand behind an expression, they are read as what is joined to that. -/
def Expr.Reread (e : Expr) (input rest : List Token) : Prop :=
  ∃ e' : Expr, e'.alike e.joined = true ∧
    (∃ D : Derivation False (.expr .call e') input rest, e.Apart → D.levels = e.levels) ∧
    (e.parens = true → ∀ (p p' : Expr) (front : List Token), p'.alike p = true →
      Derivation False (.expr .call p') front input →
      ∃ q : Expr, q.alike (e.joined.onto p) = true ∧
        Nonempty (Derivation False (.expr .call q) front rest))

/-- The tokens of an expression's text are read as the joined one. -/
def Expr.Readable (e : Expr) : Prop :=
  ∀ input rest, Spelled (tokensOf e.pieces) input rest → e.Reread input rest

def Block.Readable (b : Block) : Prop :=
  ∀ input rest, Spelled (tokensOf b.pieces) input rest →
    ∃ b' : Block, b'.alike b.joined = true ∧
      ∃ D : Derivation False (.block b') input rest, b.Apart → D.levels = b.levels

/-- Expression statements are read as expressions, and end only where it is known what follows. -/
def Stmt.Readable : Stmt → Prop
  | .expression _ e => e.Readable
  | s => ∀ input rest, Spelled (tokensOf s.pieces) input rest →
    ∃ s' : Stmt, s'.alike s.joined = true ∧
      ∃ D : Derivation False (.statement s') input rest, s.Apart → D.levels = s.levels

/-- An expression read already, behind which the statements go on. -/
inductive Held : Option Expr → List Token → List Token → Nat → Prop where
  | none {input : List Token} : Held none input input 0
  | some {p p' : Expr} {t : Token} {inner behind : List Token} (ht : t.spelling = p.opening.spelling)
      (hp : p'.alike p = true) (D : Derivation False (.expr .call p') (t :: inner) behind) :
      Held (some p) (t :: inner) behind (D.levels+1)

namespace Expr.Reread
variable {e e' : Expr} {input inner rest : List Token} {o c : Token}

theorem ofAtom (h : e'.alike e.joined = true) (D : Derivation False (.atom e') input rest)
    (hl : e.Apart → D.levels = e.levels) (hp : e.parens = false) : e.Reread input rest :=
  ⟨e',h,⟨.ofAtom D,hl⟩,fun h => by simp [hp] at h⟩

/-- An operation in its parentheses. Behind another expression it is the argument of a call. -/
theorem ofGroup (h : e'.alike e.joined = true) (ho : o.spelling = .of .openParen)
    (hc : c.kind = .closeParen) (D : Derivation False (.expr .lowest e') inner (c :: rest))
    (hl : e.Apart → D.levels+1 = e.levels)
    (honto : ∀ p, e.joined.onto p = .call (.mark .openParen) p [e.joined]) :
    e.Reread (o :: inner) rest := by
  have hk : o.kind = .openParen := Token.kind_of_spelling ho
  refine ⟨e',h,⟨.ofAtom (.group hk hc D),hl⟩,fun _ p p' front hp F => ?_⟩
  have ha : o.alike (.mark .openParen) = true := Token.alike_iff_spelling.mpr ho
  refine ⟨.call o p' [e'],?_,⟨.call hk F (.someArguments hc (.lastItem D))⟩⟩
  rw [honto]
  simp [Expr.alike,exprsAlike,ha,hp,h]

theorem lowest (h : e.Reread input rest) :
    ∃ e' : Expr, e'.alike e.joined = true ∧
      ∃ D : Derivation False (.expr .lowest e') input rest, e.Apart → D.levels = e.levels := by
  obtain ⟨e',ha,⟨D,hl⟩,-⟩ := h
  have hlt : Power.lowest < .call := by decide
  exact ⟨e',ha,.loosen hlt D,hl⟩

end Expr.Reread

theorem Expr.tokensOf_head {e : Expr} (h : e.Formed) :
    (tokensOf e.pieces).head? = some e.opening.spelling := by
  obtain ⟨qs,hqs⟩ := e.pieces_head h
  rw [hqs]
  rfl

theorem Name.ofToken_alike {n : Name} {t : Token} (hn : n.Formed)
    (h : t.spelling = ⟨.identifier,n.value⟩) :
    t.kind = .identifier ∧ (Name.ofToken t).alike n = true := by
  have ha : t.alike n.token = true := Token.alike_iff_spelling.mpr (h.trans hn.1.symm)
  have hv : t.text = n.value := congrArg Spelling.text h
  exact ⟨Token.kind_of_spelling h,by simp [Name.alike,Name.ofToken,ha,hv]⟩

theorem Parameters.of_spelled {ns : List Name} {input rest : List Token} {c : Token}
    (hn : ∀ n ∈ ns, n.Formed) (hc : c.kind = .closeParen)
    (h : Spelled (tokensOf (separated (ns.map fun n => [n.piece]))) input (c :: rest)) :
    ∃ ns' : List Name, ns'.isEqv ns Name.alike = true ∧ Parameters ns' input rest := by
  cases ns with
  | nil =>
    obtain rfl := Spelled.nil.mp h
    exact ⟨[],rfl,.none hc⟩
  | cons n ns =>
    suffices key : ∃ ns' : List Name, ns'.isEqv (n :: ns) Name.alike = true ∧
        Names ns' input (c :: rest) by
      obtain ⟨ns',ha,hns⟩ := key
      exact ⟨ns',ha,.some hc hns⟩
    induction ns generalizing n input with
    | nil =>
      obtain ⟨t,inner,ht,rfl,hrest⟩ := Spelled.cons.mp h
      obtain rfl := Spelled.nil.mp hrest
      obtain ⟨hk,ha⟩ := Name.ofToken_alike (hn n (by simp)) ht
      exact ⟨[.ofToken t],by simp [List.isEqv,ha],.last hk⟩
    | cons m ns ih =>
      obtain ⟨t,_,ht,rfl,hcs⟩ := Spelled.cons.mp h
      obtain ⟨comma,inner,hcomma,rfl,hns⟩ := Spelled.cons.mp hcs
      obtain ⟨hk,ha⟩ := Name.ofToken_alike (hn n (by simp)) ht
      obtain ⟨ns',hns,hD⟩ := ih m (fun k hk => hn k (List.mem_cons_of_mem _ hk)) hns
      refine ⟨.ofToken t :: ns',by simp [List.isEqv,ha,hns],?_⟩
      exact .more hk (Token.kind_of_spelling hcomma) hD

namespace Expr.Readable
variable {t : Token} {operator : String} {e left right condition callee : Expr}
  {arguments : List Expr} {parameters : List Name} {body consequence alternative : Block}

theorem unary (hf : (Expr.unary t operator right).Formed) (hr : right.Readable) :
    (Expr.unary t operator right).Readable := by
  intro input rest h
  rw [Expr.Formed] at hf
  obtain ⟨ht,ho,-⟩ := hf
  simp only [Expr.pieces,tokensOf_mark,tokensOf_token,tokensOf_append,tokensOf_nil,Spelled.cons,
    Spelled.append,Spelled.nil] at h
  obtain ⟨o,_,hopen,rfl,t',_,ht',rfl,_,hright,c,_,hclose,rfl,rfl⟩ := h
  obtain ⟨e',ha,⟨D,hl⟩,-⟩ := hr _ _ hright
  rw [Token.operator_spelling ho] at ht'
  have hk : t'.kind = .bang ∨ t'.kind = .minus := by
    rw [← ht'] at ht
    exact ht.imp Token.kind_of_spelling Token.kind_of_spelling
  have hu : Power.unary < .call := by decide
  have hlt : Power.lowest < .unary := by decide
  have htext : t'.text = operator := ho ▸ congrArg Spelling.text ht'
  have halike : (Expr.unary t' t'.text e').alike (Expr.unary t operator right).joined = true := by
    simp [Expr.joined,Expr.alike,Token.alike_iff_spelling.mpr ht',htext,ha]
  refine .ofGroup halike hopen (Token.kind_of_spelling hclose)
    (.loosen hlt (.unary hk (.loosen hu D))) (fun hA => ?_) fun _ => rfl
  have hl := hl hA
  simp [Derivation.levels,Expr.levels,hl]

theorem binary (hf : (Expr.binary t left operator right).Formed) (hleft : left.Readable)
    (hr : right.Readable) : (Expr.binary t left operator right).Readable := by
  intro input rest h
  rw [Expr.Formed] at hf
  obtain ⟨⟨layer,hlayer⟩,-,ho,-,-⟩ := hf
  simp only [Expr.pieces,tokensOf_mark,tokensOf_token,tokensOf_blank,tokensOf_append,tokensOf_nil,
    Spelled.cons,Spelled.append,Spelled.nil] at h
  obtain ⟨o,_,hopen,rfl,_,hl,t',_,ht',rfl,_,hright,c,_,hclose,rfl,rfl⟩ := h
  obtain ⟨l,hal,⟨L,hL⟩,-⟩ := hleft _ _ hl
  obtain ⟨r,har,⟨R,hR⟩,-⟩ := hr _ _ hright
  rw [Token.operator_spelling ho] at ht'
  have hk : t'.kind ∈ layer.operators := by
    rw [Token.kind_of_spelling ht']
    exact hlayer
  have hu : layer < .unary := (Grammar.standard_operator hlayer).2.2.2.2
  have hlt : layer < .call := Nat.lt_trans hu (by decide)
  have htext : t'.text = operator := ho ▸ congrArg Spelling.text ht'
  have hlow : Power.lowest < layer := Power.lowest_lt_of_operator hlayer
  have halike : (Expr.binary t' l t'.text r).alike (Expr.binary t left operator right).joined = true := by
    simp [Expr.joined,Expr.alike,Token.alike_iff_spelling.mpr ht',htext,hal,har]
  refine .ofGroup halike hopen (Token.kind_of_spelling hclose)
    (.loosen hlow (.binary hk hlt (.loosen hlt L) R)) (fun hA => ?_) fun _ => rfl
  rw [Expr.Apart] at hA
  simp [Derivation.levels,Expr.levels,hL hA.1,hR hA.2]

theorem conditional (hf : t.spelling = .of .ifWord) (hc : condition.Readable)
    (ha : consequence.Readable) : (Expr.conditional t condition consequence none).Readable := by
  intro input rest h
  simp only [Expr.pieces,tokensOf_mark,tokensOf_blank,tokensOf_append,Spelled.cons,Spelled.append]
    at h
  obtain ⟨t',_,ht',rfl,o,_,hopen,rfl,_,hcond,c,_,hclose,rfl,hcons⟩ := h
  obtain ⟨c',hc',C,hC⟩ := (hc _ _ hcond).lowest
  obtain ⟨a',ha',A,hA⟩ := ha _ _ hcons
  have halike : (Expr.conditional t' c' a' none).alike
      (Expr.conditional t condition consequence none).joined = true := by
    simp [Expr.joined,Expr.alike,Token.alike_iff_spelling.mpr (ht'.trans hf.symm),hc',ha']
  refine .ofAtom halike (.conditional (Token.kind_of_spelling ht') (Token.kind_of_spelling hopen)
    (Token.kind_of_spelling hclose) C A .noElse) (fun h => ?_) rfl
  rw [Expr.Apart] at h
  simp [Derivation.levels,Expr.levels,hC h.1,hA h.2]

theorem conditionalElse (hf : t.spelling = .of .ifWord) (hc : condition.Readable)
    (ha : consequence.Readable) (hb : alternative.Readable) :
    (Expr.conditional t condition consequence (some alternative)).Readable := by
  intro input rest h
  simp only [Expr.pieces,tokensOf_mark,tokensOf_blank,tokensOf_append,Spelled.cons,Spelled.append]
    at h
  obtain ⟨t',_,ht',rfl,o,_,hopen,rfl,_,hcond,c,_,hclose,rfl,_,hcons,w,_,hw,rfl,halt⟩ := h
  obtain ⟨c',hc',C,hC⟩ := (hc _ _ hcond).lowest
  obtain ⟨a',ha',A,hA⟩ := ha _ _ hcons
  obtain ⟨b',hb',B,hB⟩ := hb _ _ halt
  have halike : (Expr.conditional t' c' a' (some b')).alike
      (Expr.conditional t condition consequence (some alternative)).joined = true := by
    simp [Expr.joined,Expr.alike,Token.alike_iff_spelling.mpr (ht'.trans hf.symm),hc',ha',hb']
  refine .ofAtom halike (.conditional (Token.kind_of_spelling ht') (Token.kind_of_spelling hopen)
    (Token.kind_of_spelling hclose) C A (.elseBlock (Token.kind_of_spelling hw) B))
    (fun h => ?_) rfl
  rw [Expr.Apart] at h
  simp [Derivation.levels,Expr.levels,hC h.1,hA h.2.1,hB h.2.2]

theorem function (hf : t.spelling = .of .fnWord) (hp : ∀ n ∈ parameters, n.Formed)
    (hb : body.Readable) : (Expr.function t parameters body).Readable := by
  intro input rest h
  simp only [Expr.pieces,tokensOf_mark,tokensOf_token,tokensOf_blank,tokensOf_append,Spelled.cons,
    Spelled.append] at h
  obtain ⟨t',_,ht',rfl,o,_,hopen,rfl,_,hnames,c,_,hclose,rfl,hbody⟩ := h
  obtain ⟨ns,hns,N⟩ := Parameters.of_spelled hp (Token.kind_of_spelling hclose) hnames
  obtain ⟨b',hb',B,hB⟩ := hb _ _ hbody
  have halike : (Expr.function t' ns b').alike (Expr.function t parameters body).joined = true := by
    simp [Expr.joined,Expr.alike,Token.alike_iff_spelling.mpr ht',hns,hb']
  exact .ofAtom halike (.function (Token.kind_of_spelling (ht'.trans hf))
    (Token.kind_of_spelling hopen) N B) hB rfl

theorem items {input rest : List Token} {c : Token} (hes : ∀ e ∈ arguments, e.Readable)
    (hc : c.kind = .closeParen)
    (h : Spelled (tokensOf (separated (piecesEach arguments))) input (c :: rest)) :
    ∃ es' : List Expr, exprsAlike es' (joinedEach arguments) = true ∧
      ∃ D : Derivation False (.arguments es') input rest,
        ApartEach arguments → D.levels = levelsEach arguments := by
  cases arguments with
  | nil =>
    obtain rfl := Spelled.nil.mp h
    exact ⟨[],rfl,.noArguments hc,fun _ => rfl⟩
  | cons e es =>
    suffices key : ∃ es' : List Expr, exprsAlike es' (joinedEach (e :: es)) = true ∧
        ∃ D : Derivation False (.items es') input (c :: rest),
          ApartEach (e :: es) → D.levels = levelsEach (e :: es) by
      obtain ⟨es',ha,D,hD⟩ := key
      exact ⟨es',ha,.someArguments hc D,hD⟩
    induction es generalizing e input with
    | nil =>
      obtain ⟨e',he,D,hD⟩ := (hes e (by simp) _ _ h).lowest
      refine ⟨[e'],by simp [joinedEach,exprsAlike,he],.lastItem D,fun hA => ?_⟩
      rw [ApartEach] at hA
      simp [Derivation.levels,levelsEach,hD hA.1]
    | cons f es ih =>
      have hpieces : tokensOf (separated (piecesEach (e :: f :: es))) =
          tokensOf e.pieces ++ .of .comma :: tokensOf (separated (piecesEach (f :: es))) := by
        simp [piecesEach,separated]
      rw [hpieces,Spelled.append] at h
      obtain ⟨_,hfirst,hrest⟩ := h
      obtain ⟨comma,_,hcomma,rfl,hmore⟩ := Spelled.cons.mp hrest
      obtain ⟨e',he,D,hD⟩ := (hes e (by simp) _ _ hfirst).lowest
      obtain ⟨es',hes',Ds,hDs⟩ := ih f (fun g hg => hes g (List.mem_cons_of_mem _ hg)) hmore
      refine ⟨e' :: es',?_,.moreItems (Token.kind_of_spelling hcomma) D Ds,fun hA => ?_⟩
      · rw [joinedEach,exprsAlike,he,hes']
        rfl
      · rw [ApartEach] at hA
        simp [Derivation.levels,levelsEach,hD hA.1,hDs hA.2]

theorem call (hf : t.spelling = .of .openParen) (hcallee : callee.Readable)
    (hes : ∀ e ∈ arguments, e.Readable) : (Expr.call t callee arguments).Readable := by
  intro input rest h
  simp only [Expr.pieces,tokensOf_mark,tokensOf_append,tokensOf_nil,Spelled.cons,Spelled.append,
    Spelled.nil] at h
  obtain ⟨_,hc,o,_,hopen,rfl,_,hargs,c,_,hclose,rfl,rfl⟩ := h
  obtain ⟨f',hf',⟨F,hF⟩,honto⟩ := hcallee _ _ hc
  obtain ⟨es',hes',A,hA⟩ := items hes (Token.kind_of_spelling hclose) hargs
  have ho : o.kind = .openParen := Token.kind_of_spelling hopen
  have ha : o.alike t = true := Token.alike_iff_spelling.mpr (hopen.trans hf.symm)
  refine ⟨.call o f' es',?_,⟨.call ho F A,fun h => ?_⟩,fun hp p p' front hpp P => ?_⟩
  · simp [Expr.joined,Expr.alike,ha,hf',hes']
  · rw [Expr.Apart] at h
    simp [Derivation.levels,Expr.levels,hF h.1,hA h.2]
  · obtain ⟨q,hq,⟨Q⟩⟩ := honto hp p p' front hpp P
    refine ⟨.call o q es',?_,⟨.call ho Q A⟩⟩
    simp [Expr.joined,Expr.onto,Expr.alike,ha,hq,hes']

end Expr.Readable

namespace Stmt.Readable
variable {t : Token} {n : Name} {value : Expr}

theorem binding (hf : (Stmt.binding t n value).Formed) (hv : value.Readable) :
    (Stmt.binding t n value).Readable := by
  intro input rest h
  rw [Stmt.Formed] at hf
  obtain ⟨ht,hn,-⟩ := hf
  simp only [Stmt.pieces,Name.piece,tokensOf_mark,tokensOf_token,tokensOf_blank,tokensOf_append,
    tokensOf_nil,Spelled.cons,Spelled.append,Spelled.nil] at h
  obtain ⟨t',_,ht',rfl,n',_,hn',rfl,a,_,ha,rfl,_,hvalue,c,_,hc,rfl,rfl⟩ := h
  obtain ⟨e',he',D,hD⟩ := (hv _ _ hvalue).lowest
  obtain ⟨hk,hname⟩ := Name.ofToken_alike hn hn'
  refine ⟨.binding t' (.ofToken n') e',?_,.binding (Token.kind_of_spelling (ht'.trans ht)) hk
    (Token.kind_of_spelling ha) D (.semicolon (Token.kind_of_spelling hc)),fun hA => ?_⟩
  · simp [Stmt.joined,Stmt.alike,Token.alike_iff_spelling.mpr ht',hname,he']
  · have hD := hD hA
    simp [Derivation.levels,Stmt.levels,hD]

theorem bareResult (hf : t.spelling = .of .returnWord) : (Stmt.result t none).Readable := by
  intro input rest h
  simp only [Stmt.pieces,tokensOf_mark,tokensOf_token,tokensOf_nil,Spelled.cons,Spelled.nil] at h
  obtain ⟨t',_,ht',rfl,c,_,hc,rfl,rfl⟩ := h
  refine ⟨.result t' none,?_,.bareResult (Token.kind_of_spelling (ht'.trans hf))
    (Token.kind_of_spelling hc),fun _ => rfl⟩
  simp [Stmt.joined,Stmt.alike,Token.alike_iff_spelling.mpr ht']

theorem result (hf : t.spelling = .of .returnWord) (hv : value.Readable) :
    (Stmt.result t (some value)).Readable := by
  intro input rest h
  simp only [Stmt.pieces,tokensOf_mark,tokensOf_token,tokensOf_blank,tokensOf_append,tokensOf_nil,
    Spelled.cons,Spelled.append,Spelled.nil] at h
  obtain ⟨t',_,ht',rfl,_,hvalue,c,_,hc,rfl,rfl⟩ := h
  obtain ⟨e',he',D,hD⟩ := (hv _ _ hvalue).lowest
  refine ⟨.result t' (some e'),?_,.result (Token.kind_of_spelling (ht'.trans hf)) D
    (.semicolon (Token.kind_of_spelling hc)),fun hA => ?_⟩
  · simp [Stmt.joined,Stmt.alike,Token.alike_iff_spelling.mpr ht',he']
  · have hD := hD hA
    simp [Derivation.levels,Stmt.levels,hD]

theorem of_ne {s : Stmt} {input rest : List Token} (h : s.Readable)
    (hne : ∀ t e, s ≠ .expression t e) (hs : Spelled (tokensOf s.pieces) input rest) :
    ∃ s' : Stmt, s'.alike s.joined = true ∧
      ∃ D : Derivation False (.statement s') input rest, s.Apart → D.levels = s.levels := by
  cases s with
  | expression t e => exact absurd rfl (hne t e)
  | _ => exact h _ _ hs

end Stmt.Readable

theorem Stmt.tokensOf_head {s : Stmt} (hf : s.Formed) (hne : ∀ t e, s ≠ .expression t e) :
    ∃ w, (tokensOf s.pieces).head? = some w ∧ w.kind.continues = false := by
  cases s with
  | binding t n value =>
    rw [Stmt.Formed] at hf
    exact ⟨_,rfl,by rw [hf.1]; rfl⟩
  | result t value =>
    cases value <;> rw [Stmt.Formed] at hf
    · exact ⟨_,rfl,by rw [hf]; rfl⟩
    · exact ⟨_,rfl,by rw [hf.1]; rfl⟩
  | expression t e => exact absurd rfl (hne t e)
  | block b => exact hf.elim

theorem apartAll_cons {s : Stmt} {ss : List Stmt} (h : ApartAll (s :: ss)) :
    s.Apart ∧ ApartAll ss := by
  cases s with
  | expression t e => exact ⟨h.1,h.2.2⟩
  | _ => exact h

theorem Expr.opening_onto {e : Expr} (p : Expr) (h : e.parens = true) :
    (e.onto p).opening = p.opening := by
  induction e using Expr.spine with
  | unary | binary => rfl
  | call t callee arguments ih =>
    rw [Expr.onto,Expr.opening]
    exact ih h
  | _ => simp [Expr.parens] at h

namespace Held
variable {held : Option Expr} {input behind rest : List Token} {n : Nat} {ss ss' : List Stmt}

/-- A held expression that nothing goes on with is a statement in front of the others. -/
theorem close (hh : Held held input behind n) (hb : ∀ t ∈ behind.head?, t.kind.continues = false)
    (ha : stmtsAlike ss' ss = true) (D : Derivation False (.statements ss') behind rest) :
    ∃ ss'' : List Stmt, stmtsAlike ss'' (closed held ++ ss) = true ∧
      ∃ D' : Derivation False (.statements ss'') input rest, D'.levels = max n D.levels := by
  cases hh with
  | none => exact ⟨ss',ha,D,(Nat.zero_max _).symm⟩
  | @some p p' t inner behind ht hp P =>
    have hlt : Power.lowest < .call := by decide
    refine ⟨.expression t p' :: ss',?_,.cons (.expression (.loosen hlt P) (.omitted hb)) D,rfl⟩
    simp [closed,stmtsAlike,Stmt.alike,Token.alike_iff_spelling.mpr ht,hp,ha]

end Held

/-- The tokens are read as the statements, joined to an expression held back that opens `n`
levels. -/
def RereadAll (held : Option Expr) (n : Nat) (ss : List Stmt) (input rest : List Token) : Prop :=
  ∃ ss' : List Stmt, stmtsAlike ss' (joinedAll held ss) = true ∧
    ∃ D : Derivation False (.statements ss') input rest,
      ApartAll ss → (held.isSome = true → startsParens ss = false) →
        D.levels = max n (levelsAll ss)

namespace RereadAll
variable {held : Option Expr} {e p : Expr} {t : Token} {s s' : Stmt} {ss : List Stmt} {m n : Nat}
  {input behind between rest : List Token}

theorem nil (hh : Held held input rest n) (hrest : ∀ t ∈ rest.head?, t.kind.continues = false) :
    RereadAll held n [] input rest := by
  have hnil : stmtsAlike [] [] = true := rfl
  obtain ⟨ss',ha,D,hD⟩ := hh.close hrest hnil .nil
  rw [List.append_nil] at ha
  exact ⟨ss',ha,D,fun _ _ => hD⟩

theorem hold (he : e.Apart → m = e.levels+1) (h : RereadAll (some e.joined) m ss input rest) :
    RereadAll none 0 (.expression t e :: ss) input rest := by
  obtain ⟨ss',ha,D,hD⟩ := h
  refine ⟨ss',ha,D,fun hA _ => ?_⟩
  rw [ApartAll] at hA
  rw [hD hA.2.2 fun _ => hA.2.1,he hA.1,levelsAll,Stmt.levels,Nat.zero_max]

theorem call (hpar : e.parens = true) (h : RereadAll (some (e.joined.onto p)) m ss input rest) :
    RereadAll (some p) n (.expression t e :: ss) input rest := by
  obtain ⟨ss',ha,D,-⟩ := h
  refine ⟨ss',by rwa [joinedAll,if_pos hpar],D,fun _ hn => ?_⟩
  have hn : e.parens = false := hn rfl
  simp [hpar] at hn

theorem next (hpar : e.parens = false) (hh : Held (some p) input behind n)
    (hb : ∀ t ∈ behind.head?, t.kind.continues = false) (he : e.Apart → m = e.levels+1)
    (h : RereadAll (some e.joined) m ss behind rest) :
    RereadAll (some p) n (.expression t e :: ss) input rest := by
  obtain ⟨ss',ha,D,hD⟩ := h
  obtain ⟨ss'',ha',D',hD'⟩ := hh.close hb ha D
  refine ⟨ss'',by rwa [joinedAll,if_neg (by simp [hpar])],D',fun hA _ => ?_⟩
  rw [ApartAll] at hA
  rw [hD',hD hA.2.2 fun _ => hA.2.1,he hA.1,levelsAll,Stmt.levels]

theorem statement (hne : ∀ t e, s ≠ .expression t e) (hh : Held held input behind n)
    (hb : ∀ t ∈ behind.head?, t.kind.continues = false) (hs : s'.alike s.joined = true)
    (S : Derivation False (.statement s') behind between) (hS : s.Apart → S.levels = s.levels)
    (h : RereadAll none 0 ss between rest) : RereadAll held n (s :: ss) input rest := by
  obtain ⟨ss',ha,D,hD⟩ := h
  have hcons : stmtsAlike (s' :: ss') (s.joined :: joinedAll none ss) = true := by
    rw [stmtsAlike,hs,ha]
    rfl
  obtain ⟨ss'',ha',D',hD'⟩ := hh.close hb hcons (.cons S D)
  refine ⟨ss'',by rwa [joinedAll_cons hne],D',fun hA _ => ?_⟩
  obtain ⟨hAs,hAss⟩ := apartAll_cons hA
  rw [hD',levelsAll,Derivation.levels,hS hAs,hD hAss (by simp),Nat.zero_max]

end RereadAll

/-- The tokens of statements behind a held expression are read as the joined statements. -/
theorem statements_of_spelled {ss : List Stmt} {held : Option Expr} {input behind rest : List Token}
    {n : Nat} (hss : ∀ s ∈ ss, s.Formed ∧ s.Readable) (hh : Held held input behind n)
    (h : Spelled (tokensOf (piecesAll ss)) behind rest)
    (hrest : ∀ t ∈ rest.head?, t.kind.continues = false) : RereadAll held n ss input rest := by
  induction ss generalizing held input behind n with
  | nil =>
    obtain rfl := Spelled.nil.mp h
    exact .nil hh hrest
  | cons s ss ih =>
    have hmem : ∀ s ∈ ss, s.Formed ∧ s.Readable := fun s hs => hss s (List.mem_cons_of_mem _ hs)
    obtain ⟨hf,hs⟩ := hss s (by simp)
    rw [piecesAll,tokensOf_append,Spelled.append] at h
    obtain ⟨between,hfirst,hmore⟩ := h
    by_cases hexpr : ∃ t e, s = .expression t e
    · obtain ⟨t,e,rfl⟩ := hexpr
      rw [Stmt.Formed] at hf
      obtain ⟨u,inner,rfl,hu⟩ := hfirst.head (Expr.tokensOf_head hf)
      obtain ⟨e',he,⟨D,hD⟩,honto⟩ := hs _ _ hfirst
      have hheld : Held (some e.joined) (u :: inner) between (D.levels+1) :=
        .some (by rw [hu,e.opening_joined]) he D
      have hlevels : e.Apart → D.levels+1 = e.levels+1 := fun h => by rw [hD h]
      cases hh with
      | none => exact .hold hlevels (ih hmem hheld hmore)
      | @some p p' v front _ hv hp P =>
        -- Only what begins with a parenthesis is read as arguments of the held expression.
        by_cases hpar : e.parens = true
        · obtain ⟨q,hq,⟨Q⟩⟩ := honto hpar p p' _ hp P
          have hopen : v.spelling = (e.joined.onto p).opening.spelling := by
            rw [Expr.opening_onto p (by rw [e.parens_joined,hpar]),hv]
          exact .call hpar (ih hmem (.some hopen hq Q) hmore)
        · have hpar : e.parens = false := by simpa using hpar
          have hb : ∀ t ∈ (u :: inner).head?, t.kind.continues = false := by
            rintro _ ⟨⟩
            rw [Token.kind_of_spelling hu]
            exact Expr.opening_continues hf hpar
          exact .next hpar (.some hv hp P) hb hlevels (ih hmem hheld hmore)
    · have hne : ∀ t e, s ≠ .expression t e := fun t e he => hexpr ⟨t,e,he⟩
      obtain ⟨s',hs',S,hS⟩ := hs.of_ne hne hfirst
      obtain ⟨w,hw,hk⟩ := Stmt.tokensOf_head hf hne
      obtain ⟨u,inner,rfl,hu⟩ := hfirst.head hw
      have hb : ∀ t ∈ (u :: inner).head?, t.kind.continues = false := by
        rintro _ ⟨⟩
        rwa [Token.kind_of_spelling hu]
      exact .statement hne hh hb hs' S hS (ih hmem .none hmore)

theorem Block.Readable.of_statements {t : Token} {ss : List Stmt} (hf : t.spelling = .of .openBrace)
    (hss : ∀ s ∈ ss, s.Formed ∧ s.Readable) : (Block.mk t ss).Readable := by
  intro input rest h
  rw [Block.tokensOf_pieces] at h
  simp only [Spelled.cons,Spelled.append,Spelled.nil] at h
  obtain ⟨o,_,ho,rfl,_,hbody,c,_,hc,rfl,rfl⟩ := h
  have hk : c.kind = .closeBrace := Token.kind_of_spelling hc
  obtain ⟨ss',ha,D,hD⟩ := statements_of_spelled hss .none hbody (by simp [hk,Kind.continues])
  refine ⟨.mk o ss',?_,.closedBlock (Token.kind_of_spelling ho) hk D,fun hA => ?_⟩
  · simp [Block.joined,Block.alike,Token.alike_iff_spelling.mpr (ho.trans hf.symm),ha]
  · simp [Derivation.levels,Block.levels,hD hA (by simp)]

namespace Expr.Readable
variable {t : Token}

theorem name {n : Name} (hf : n.Formed) : (Expr.name n).Readable := by
  intro input rest h
  obtain ⟨t',_,ht',rfl,hrest⟩ := Spelled.cons.mp h
  obtain rfl := Spelled.nil.mp hrest
  obtain ⟨hk,ha⟩ := Name.ofToken_alike hf ht'
  exact .ofAtom (by simpa [Expr.joined,Expr.alike] using ha) (.name hk) (fun _ => rfl) rfl

theorem integer {v : Int} (hk : t.kind = .integer) (hv : Text.numeral? t.text = some v) :
    (Expr.integer t v).Readable := by
  intro input rest h
  obtain ⟨t',_,ht',rfl,hrest⟩ := Spelled.cons.mp h
  obtain rfl := Spelled.nil.mp hrest
  have htext : t'.text = t.text := congrArg Spelling.text ht'
  have ha : (Expr.integer t' v).alike (Expr.integer t v).joined = true := by
    simp [Expr.joined,Expr.alike,Token.alike_iff_spelling.mpr ht']
  exact .ofAtom ha (.integer ((Token.kind_of_spelling ht').trans hk) (by rw [htext,hv]))
    (fun _ => rfl) rfl

theorem boolean {b : Bool} (hf : t.spelling = .of (if b then .trueWord else .falseWord)) :
    (Expr.boolean t b).Readable := by
  intro input rest h
  obtain ⟨t',_,ht',rfl,hrest⟩ := Spelled.cons.mp h
  obtain rfl := Spelled.nil.mp hrest
  have ha : (Expr.boolean t' b).alike (Expr.boolean t b).joined = true := by
    simp [Expr.joined,Expr.alike,Token.alike_iff_spelling.mpr ht']
  have hk := Token.kind_of_spelling (ht'.trans hf)
  cases b with
  | true => exact .ofAtom ha (.truth hk) (fun _ => rfl) rfl
  | false => exact .ofAtom ha (.falsity hk) (fun _ => rfl) rfl

end Expr.Readable

mutual

theorem Expr.readable : (e : Expr) → e.Formed → e.Readable
  | .name _, h => .name (by rwa [Expr.Formed] at h)
  | .integer _ _, h => by
    rw [Expr.Formed] at h
    exact .integer h.1 h.2
  | .boolean _ _, h => .boolean (by rwa [Expr.Formed] at h)
  | .unary _ _ right, h => .unary h (right.readable h.2.2)
  | .binary _ left _ right, h => .binary h (left.readable h.2.2.2.1) (right.readable h.2.2.2.2)
  | .conditional _ condition consequence none, h =>
    .conditional h.1 (condition.readable h.2.1) (consequence.readable h.2.2)
  | .conditional _ condition consequence (some alternative), h =>
    .conditionalElse h.1 (condition.readable h.2.1) (consequence.readable h.2.2.1)
      (alternative.readable h.2.2.2)
  | .function _ _ body, h => .function h.1 h.2.1 (body.readable h.2.2)
  | .call _ callee arguments, h =>
    .call h.1 (callee.readable h.2.1) (FormedEach.readable arguments h.2.2)

theorem FormedEach.readable : (es : List Expr) → FormedEach es → ∀ e ∈ es, e.Readable
  | [], _ => by simp
  | e :: es, h => by
    have he := e.readable h.1
    have hes := FormedEach.readable es h.2
    simpa using ⟨he,hes⟩

theorem Block.readable : (b : Block) → b.Formed → b.Readable
  | .mk _ body, h => .of_statements h.1 (FormedAll.readable body h.2)

theorem Stmt.readable : (s : Stmt) → s.Formed → s.Readable
  | .binding _ _ value, h => .binding h (value.readable h.2.2)
  | .result _ none, h => .bareResult h
  | .result _ (some value), h => .result h.1 (value.readable h.2)
  | .expression _ e, h => e.readable h
  | .block _, h => h.elim

theorem FormedAll.readable : (ss : List Stmt) → FormedAll ss → ∀ s ∈ ss, s.Formed ∧ s.Readable
  | [], _ => by simp
  | s :: ss, h => by
    have hs := s.readable h.1
    have hss := FormedAll.readable ss h.2
    simpa using ⟨⟨h.1,hs⟩,hss⟩

end

theorem Program.derivation_of_spelled {p : Program} {input : List Token} (hf : p.Formed)
    (h : Spelled (tokensOf p.pieces) input []) :
    ∃ ss : List Stmt, stmtsAlike ss (joinedAll none p.statements) = true ∧
      ∃ D : Derivation False (.statements ss) input [], p.Apart → D.levels = p.levels := by
  obtain ⟨ss,ha,D,hD⟩ := statements_of_spelled (FormedAll.readable _ hf) .none h (by simp)
  refine ⟨ss,ha,D,fun hA => ?_⟩
  rw [hD hA (by simp),Nat.zero_max]
  rfl

end Precedence
