import Precedence.Proofs.Descent.Verdict
import Precedence.Proofs.Syntax.Derivation

/-! Whatever can be derived is read: on the tokens of a derivation a reading gives the derived
tree, unless it comes to a token at which a level would be opened that it does not have. That
token is then its first fault. -/
namespace Precedence
open Parse Cursor

/-- Reading with operators that bind tighter than `power` takes a whole expression of a layer. -/
structure Power.Takes (power layer : Power) : Prop where
  le : ¬ layer < power
  lt : layer.operators ≠ [] → power < layer

theorem Power.Takes.of_lt {power layer : Power} (h : power < layer) : power.Takes layer :=
  ⟨Nat.lt_asymm h,fun _ => h⟩

theorem Power.Takes.tighter {power layer above : Power} (h : power.Takes layer)
    (hl : layer < above) : power.Takes above :=
  of_lt (Nat.lt_of_le_of_lt (Nat.le_of_not_lt h.le) hl)

/-- The next token, if any, is neither `else` nor binds tighter than a layer. -/
def Power.Stops (layer : Power) (rest : List Token) : Prop :=
  ∀ t ∈ rest.head?, t.kind ≠ .elseWord ∧ ¬ layer < Grammar.standard.power t.kind

namespace Power.Stops
variable {layer power : Power} {rest : List Token} {c d : Cursor}

theorem tighter {above : Power} (h : layer.Stops rest) (hl : layer < above) : above.Stops rest :=
  fun t ht => ⟨(h t ht).1,fun hk => (h t ht).2 (Nat.lt_trans hl hk)⟩

theorem mono (h : power.Stops rest) (hl : ¬ layer < power) : layer.Stops rest :=
  fun t ht => ⟨(h t ht).1,fun hk => (h t ht).2 (Nat.lt_of_le_of_lt (Nat.le_of_not_lt hl) hk)⟩

theorem of_kind {t : Token} (hk : t.kind.continues = false) (he : t.kind ≠ .elseWord) :
    layer.Stops (t :: rest) := by
  rintro _ ⟨⟩
  have hlow := Grammar.continues_eq_false.mp hk
  exact ⟨he,fun h => hlow (Nat.lt_of_le_of_lt (Nat.zero_le _) h)⟩

theorem not_lt (h : layer.Stops rest) (hd : d.Reached c (Behind rest)) :
    ¬ layer < Grammar.standard.power d.peek.kind := by
  rw [peek_eq,hd.place]
  cases rest with
  | nil =>
    rw [List.headD_nil,hd.proper.last]
    exact layer.not_lt_lowest
  | cons t ts => exact (h t rfl).2

theorem not_else (h : layer.Stops rest) (hd : d.Reached c (Behind rest)) :
    d.peek.kind ≠ .elseWord := by
  rw [peek_eq,hd.place]
  cases rest with
  | nil =>
    rw [List.headD_nil,hd.proper.last]
    decide
  | cons t ts => exact (h t rfl).1

end Power.Stops

namespace Descent
variable {n : Nat} {c d : Cursor} {rest : List Token}

abbrev levels (n : Nat) : Descent := within .standard n

theorem levels_steady (n : Nat) : (levels n).Steady .standard := within_steady _ n

theorem operators_stop {D : Descent} {power : Power} {e : Expr}
    (h : ¬ power < Grammar.standard.power c.peek.kind) :
    operators .standard D power e c = .done e c := by
  apply loop_stop
  simp [operator,h]

theorem firstOperand_of_head {D : Descent} {rule : HeadRule} {t : Token} {ts : List Token}
    (ha : c.ahead = t :: ts) (h : Grammar.standard.head t.kind = some rule) :
    firstOperand .standard D c = D.head rule c := by
  simp [firstOperand,current_of_ahead ha,h]

theorem statement_of_rule {D : Descent} {rule : StatementRule} {t : Token} {ts : List Token}
    (ha : c.ahead = t :: ts) (h : Grammar.standard.statement t.kind = some rule) :
    statement .standard D c = D.statementBy rule c := by
  simp [statement,current_of_ahead ha,h]

theorem statement_of_starts {D : Descent} {t : Token} {ts : List Token} (ha : c.ahead = t :: ts)
    (h : t.kind.starts = true) : statement .standard D c = D.expressionStatement c := by
  simp [statement,current_of_ahead ha,Grammar.statement_of_starts h]

end Descent

open Descent

def Parts (rest : List Token) : Prop :=
  ∀ t ∈ rest.head?, t.kind ≠ .elseWord ∧ t.kind ≠ .semicolon

/-- What reading a phrase comes to, given where it misses levels. The value of an expression is
handed on to the operators behind it. -/
def Phrase.Reads (missing : Nat → Option Token) : Phrase → List Token → List Token → Prop
  | .atom e, input, rest => ∀ n (c : Cursor), c.Proper → c.ahead = input →
    Power.call.Stops rest →
    (firstOperand .standard (levels n) c).Meets c (missing n) (pure e) (Behind rest)
  | .expr layer e, input, rest => ∀ n (c : Cursor) (power : Power), c.Proper → c.ahead = input →
    layer.Stops rest → power.Takes layer → power < .call →
    (expression .standard (levels n) power c).Meets c (missing n)
      (operators .standard (levels n) power e) (Behind rest)
  | .items es, input, rest => ∀ n (c : Cursor) held, c.Proper → c.rest = input →
    Power.lowest.Stops rest → (∀ t ∈ rest.head?, t.kind ≠ .comma) →
    (itemsOnto (levels n).argument held c).Meets c (missing n) (pure (held.reverse ++ es))
      (Behind rest)
  | .arguments es, input, rest => ∀ n (c : Cursor), c.Proper → c.rest = input →
    (listed (levels n).argument c).Meets c (missing n) (pure es) (Behind rest)
  | .alternative b, input, rest => ∀ n (c : Cursor), c.Proper → c.rest = input →
    Power.call.Stops rest →
    ((levels n).alternative c).Meets c (missing n) (pure b) (Behind rest)
  | .block b, input, rest => ∀ n (c : Cursor), c.Proper → c.ahead = input →
    ((levels n).block c).Meets c (missing n) (pure b) (Behind rest)
  | .statement s, input, rest => ∀ n (c : Cursor), c.Proper → c.ahead = input → Parts rest →
    (Descent.statement .standard (levels n) c).Meets c (missing n) (pure s) (Behind rest)
  | .statements ss, input, rest => ∀ n (c : Cursor) stop read, c.Proper → c.ahead = input →
    stop .endOfInput = true → (∀ k : Kind, k.startsStatement = true → stop k = false) →
    (∀ t ∈ rest.head?, stop t.kind = true) → Parts rest →
    (loop (moreStatements .standard (levels n) stop) read c).Meets c (missing n)
      (pure (read.reverse ++ ss)) (Before rest)

namespace Phrase.Reads
variable {x y z : Nat → Option Token} {e : Expr} {layer power : Power}
  {input inner rest : List Token} {n : Nat} {c : Cursor}

theorem opened {t : Token} (h : Reads x (.expr layer e) input rest) (ha : power.Takes layer)
    (hp : power < .call) (hs : power.Stops rest) (ht : input.head? = some t) (hc : c.Proper)
    (hi : c.ahead = input) :
    ((levels n).expr power c).Meets c (Derivation.opening input.head? x n) (pure e)
      (Behind rest) := by
  obtain ⟨ts,rfl⟩ := List.head?_eq_some_iff.mp ht
  cases n with
  | zero =>
    simp [Derivation.opening,levels,within,tooDeep,Outcome.Meets,Outcome.FirstFault,
      current_of_ahead hi]
  | succ n =>
    apply Outcome.Meets.nested
    have hm := h n c.deeper power hc.deeper hi (hs.mono ha.le) ha hp
    cases hx : x n with
    | none =>
      rw [hx] at hm
      obtain ⟨d,hd,hr⟩ := hm
      rw [Derivation.opening,hx,hd,operators_stop (hs.not_lt hr)]
      exact .of_done rfl hr
    | some s =>
      rw [hx] at hm
      rw [Derivation.opening,hx]
      exact hm

theorem name {t : Token} (h : t.kind = .identifier) :
    Reads (fun _ => none) (.atom (.name (.ofToken t))) (t :: rest) rest := by
  intro n c hc ha _
  rw [firstOperand_of_head ha (by rw [h]; rfl)]
  refine .of_done (d := c) ?_ (.refl hc (rest_of_ahead ha))
  simp [head,Descent.name,current_of_ahead ha]

theorem integer {t : Token} {v : Int} (h : t.kind = .integer)
    (hv : Text.numeral? t.text = some v) :
    Reads (fun _ => none) (.atom (.integer t v)) (t :: rest) rest := by
  intro n c hc ha _
  rw [firstOperand_of_head ha (by rw [h]; rfl)]
  refine .of_done (d := c) ?_ (.refl hc (rest_of_ahead ha))
  simp [head,Descent.integer,current_of_ahead ha,hv]

theorem boolean {t : Token} {b : Bool} (h : t.kind = .trueWord ∨ t.kind = .falseWord)
    (hb : (t.kind == .trueWord) = b) :
    Reads (fun _ => none) (.atom (.boolean t b)) (t :: rest) rest := by
  intro n c hc ha _
  have hrule : Grammar.standard.head t.kind = some .boolean := by
    rcases h with h | h <;> rw [h] <;> rfl
  rw [firstOperand_of_head ha hrule]
  refine .of_done (d := c) ?_ (.refl hc (rest_of_ahead ha))
  simp [head,Descent.boolean,current_of_ahead ha,hb]

theorem group {o close t : Token} (ho : o.kind = .openParen) (hk : close.kind = .closeParen)
    (ht : inner.head? = some t) (h : Reads x (.expr .lowest e) inner (close :: rest)) :
    Reads (Derivation.opening inner.head? x) (.atom e) (o :: inner) rest := by
  intro n c hc ha _
  have hs : Power.lowest.Stops (close :: rest) := .of_kind (by rw [hk]; rfl) (by simp [hk])
  have hm := h.opened (n := n) ⟨by decide,by decide⟩ (by decide) hs ht hc.advance (rest_of_ahead ha)
  rw [firstOperand_of_head ha (by rw [ho]; rfl)]
  refine Outcome.Meets.congr (d := c.advance) ?_ rfl
  refine hm.map (fun d hd => ?_) hc.advance ((levels_steady n).expr _) fun _ =>
    .bind (.expect _) fun _ => .pure _
  rw [hd.expect hk]
  exact .of_done rfl hd.advance

theorem of_firstOperand {D : Descent} {o : Option Token}
    (h : (firstOperand .standard D c).Meets c o (pure e) (Behind rest)) (hc : c.Proper)
    (hd : D.Steady .standard) : (expression .standard D power c).Meets c o
      (operators .standard D power e) (Behind rest) :=
  h.lift hc (firstOperand_steady hd) fun _ => operators_steady hd _ _

theorem ofAtom (h : Reads x (.atom e) input rest) : Reads x (.expr .call e) input rest :=
  fun n c _ hc ha hs _ _ => of_firstOperand (h n c hc ha hs) hc (levels_steady n)

theorem unary {t s : Token} (ht : t.kind = .bang ∨ t.kind = .minus) (hf : inner.head? = some s)
    (h : Reads x (.expr .unary e) inner rest) :
    Reads (Derivation.opening inner.head? x) (.expr .unary (.unary t t.text e)) (t :: inner)
      rest := by
  intro n c power hc ha hs _ _
  have hm := h.opened (n := n) ⟨by decide,by decide⟩ (by decide) hs hf hc.advance (rest_of_ahead ha)
  have hu : Grammar.standard.head t.kind = some .unary := by
    rcases ht with ht | ht <;> rw [ht] <;> rfl
  refine of_firstOperand ?_ hc (levels_steady n)
  rw [firstOperand_of_head ha hu]
  refine Outcome.Meets.congr (d := c.advance) ?_ rfl
  refine hm.map (fun d hd => ?_) hc.advance ((levels_steady n).expr _) fun _ => .pure _
  rw [current_of_ahead ha]
  exact .of_done rfl hd

theorem loosen {above : Power} (hl : layer < above) (h : Reads x (.expr above e) input rest) :
    Reads x (.expr layer e) input rest :=
  fun n c power hc ha hs ht hp => h n c power hc ha (hs.tighter hl) (ht.tighter hl) hp

theorem operators_again {D : Descent} {rule : TailRule} {left : Expr} {d : Cursor} {t : Token}
    {o : Option Token} (hd : d.Reached c (Behind (t :: inner)))
    (hr : Grammar.standard.tail t.kind = some rule) (hs : t.kind ≠ .semicolon)
    (hp : power < Grammar.standard.power t.kind) (hD : D.Steady .standard)
    (h : (D.tail rule left (Grammar.standard.power t.kind) d.advance).Meets c o (pure e)
      (Behind rest)) :
    (operators .standard D power left d).Meets c o (operators .standard D power e)
      (Behind rest) := by
  refine Outcome.Meets.loop (a := e) ?_ hd.proper hd.faults (operator_steady hD power)
    (operator_progresses hD power)
  have hround : operator .standard D power left d =
      (D.tail rule left (Grammar.standard.power t.kind) >>= fun e => pure (.again e)) d.advance := by
    simp [operator,hd.peek,hr,hs,hp]
  rw [hround]
  have hf : d.advance.faults = c.faults := hd.faults
  refine (Outcome.Meets.congr h hf.symm).map (fun d hd => ?_) hd.proper.advance (tail_steady hD _ _ _)
    (fun _ => .pure _) |>.congr hf
  exact .of_done rfl hd

theorem binary {above : Power} {t s : Token} {a b : Expr} (ht : t.kind ∈ layer.operators)
    (hl : layer < above) (hf : inner.head? = some s)
    (left : Reads x (.expr layer a) input (t :: inner)) (right : Reads y (.expr above b) inner rest) :
    Reads (fun n => x n <|> Derivation.opening inner.head? y n)
      (.expr layer (.binary t a t.text b)) input rest := by
  intro n c power hc ha hs hp hlt
  obtain ⟨hsemi,-,hpower,htail,hu⟩ := Grammar.standard_operator ht
  have hstop : layer.Stops (t :: inner) := by
    rintro _ ⟨⟩
    refine ⟨fun he => ?_,hpower ▸ Nat.lt_irrefl _⟩
    rw [he] at htail
    simp [Grammar.standard] at htail
  refine (left n c power hc ha hstop hp hlt).seq fun d hd => ?_
  refine operators_again hd htail hsemi (hpower ▸ hp.lt (List.ne_nil_of_mem ht)) (levels_steady n) ?_
  have hd' := hd.advance.before
  have hm := right.opened (n := n) (.of_lt hl) (Nat.lt_trans hu (by decide)) hs hf hd'.proper hd'.place
  rw [hpower]
  refine Outcome.Meets.congr (d := d.advance.advance) ?_ hd.faults
  refine hm.map (fun e he => ?_) hd'.proper ((levels_steady n).expr _) fun _ => .pure _
  rw [current_advance,hd.peek]
  exact .of_done rfl he

theorem call {o : Token} {f : Expr} {es : List Expr} (ho : o.kind = .openParen)
    (callee : Reads x (.expr .call f) input (o :: inner))
    (arguments : Reads y (.arguments es) inner rest) :
    Reads (fun n => x n <|> y n) (.expr .call (.call o f es)) input rest := by
  intro n c power hc ha _ hp hlt
  have hstop : Power.call.Stops (o :: inner) := by
    rintro _ ⟨⟩
    exact ⟨by simp [ho],Power.not_call_lt _⟩
  refine (callee n c power hc ha hstop hp hlt).seq fun d hd => ?_
  have hrule : Grammar.standard.tail o.kind = some .call := by rw [ho]; rfl
  refine operators_again hd hrule (by simp [ho]) (by rw [ho]; exact hlt) (levels_steady n) ?_
  have hm := arguments n d.advance hd.proper.advance hd.advance.place
  have hi := argument_steady (levels_steady n)
  refine Outcome.Meets.congr (d := d.advance) ?_ hd.faults
  refine hm.map (fun e he => ?_) hd.proper.advance (listed_steady hi) fun _ => .pure _
  rw [current_advance,hd.peek]
  exact .of_done rfl he

theorem noArguments {close : Token} (hk : close.kind = .closeParen) :
    Reads (fun _ => none) (.arguments []) (close :: rest) rest :=
  fun _ _ hc hr => listed_none hc hr hk

theorem someArguments {close t : Token} {es : List Expr} (hk : close.kind = .closeParen)
    (ht : inner.head? = some t) (hs : t.kind.starts = true)
    (h : Reads x (.items es) inner (close :: rest)) : Reads x (.arguments es) inner rest := by
  intro n c hc hr
  have hstop : Power.lowest.Stops (close :: rest) := .of_kind (by rw [hk]; rfl) (by simp [hk])
  have hm := h n c [] hc hr hstop (by simp [hk])
  refine listed_some hm hc (argument_steady (levels_steady n)) hk ?_
  obtain ⟨ts,rfl⟩ := List.head?_eq_some_iff.mp ht
  rw [peek_of_rest hr]
  intro hp
  rw [hp] at hs
  simp [Kind.starts] at hs

theorem argument {t : Token} (h : Reads x (.expr .lowest e) input rest)
    (ht : input.head? = some t) (hs : Power.lowest.Stops rest) (hc : c.Proper)
    (hr : c.rest = input) :
    ((levels n).argument c).Meets c (Derivation.opening input.head? x n) (pure e) (Behind rest) :=
  (h.opened ⟨by decide,by decide⟩ (by decide) hs ht hc.advance hr).congr rfl

theorem lastItem {t : Token} (ht : input.head? = some t)
    (h : Reads x (.expr .lowest e) input rest) :
    Reads (Derivation.opening input.head? x) (.items [e]) input rest :=
  fun n _ _ hc hr hs hk =>
    itemsOnto_last (h.argument ht hs hc hr) hc (argument_steady (levels_steady n)) hk

theorem moreItems {comma t : Token} {es : List Expr} (hk : comma.kind = .comma)
    (ht : input.head? = some t) (h : Reads x (.expr .lowest e) input (comma :: inner))
    (more : Reads y (.items es) inner rest) :
    Reads (fun n => Derivation.opening input.head? x n <|> y n) (.items (e :: es)) input rest := by
  intro n c held hc hr hs hcomma
  have hstop : Power.lowest.Stops (comma :: inner) := .of_kind (by rw [hk]; rfl) (by simp [hk])
  refine itemsOnto_more (h.argument ht hstop hc hr) (fun d hd => ?_) hk hc (argument_steady (levels_steady n))
  exact (more n d (e :: held) hd.proper hd.place hs hcomma).congr hd.faults

theorem noElse : Reads (fun _ => none) (.alternative none) rest rest := by
  intro n c hc hr hs
  have hne := hs.not_else (.refl hc hr)
  refine .of_done (d := c) ?_ (.refl hc hr)
  simp [Descent.alternative,hne]

theorem elseBlock {word t : Token} {b : Block} (hw : word.kind = .elseWord)
    (ht : inner.head? = some t) (hb : t.kind = .openBrace) (h : Reads x (.block b) inner rest) :
    Reads x (.alternative (some b)) (word :: inner) rest := by
  intro n c hc hr hs
  obtain ⟨ts,rfl⟩ := List.head?_eq_some_iff.mp ht
  have hd : c.advance.Reached c (Behind (t :: ts)) := (Reached.refl hc hr).advance
  have hsplit : (levels n).alternative c =
      ((levels n).block >>= fun b => pure (some b)) c.advance.advance := by
    simp only [Descent.alternative,peekIs_bind,peek_of_rest hr,hw,beq_self_eq_true,if_true,
      advance_bind]
    exact hd.expect hb
  rw [hsplit]
  have hm := h n c.advance.advance hd.proper.advance hd.place
  refine Outcome.Meets.congr (d := c.advance.advance) ?_ rfl
  refine hm.map (fun e he => ?_) hd.proper.advance (levels_steady n).block fun _ => .pure _
  exact .of_done rfl he

theorem behind_brace {α : Type} {q : Block → Parse α} {b : Block} {d : Cursor} {o : Option Token}
    {next : Parse α} {t : Token} {P : Cursor → Prop} (h : Reads x (.block b) inner rest)
    (hd : d.Reached c (Behind inner)) (ht : inner.head? = some t) (hb : t.kind = .openBrace)
    (hq : ∀ e, e.Reached c (Behind rest) → (q b e).Meets c o next P)
    (hs : ∀ b, Parse.Steady .standard (q b)) :
    ((expect .openBrace >>= fun _ => (levels n).block >>= q) d).Meets c (x n <|> o) next P := by
  obtain ⟨ts,rfl⟩ := List.head?_eq_some_iff.mp ht
  rw [hd.expect hb]
  have hd' := hd.before
  have hm := h n d.advance hd'.proper hd'.place
  refine Outcome.Meets.congr (d := d.advance) ?_ hd.faults
  refine hm.bind (fun e he => ?_) hd'.proper (levels_steady n).block hs
  exact (hq e (he.trans hd')).congr hd.faults.symm

theorem conditional {word o close t s : Token} {a : Block} {b : Option Block}
    {behind between : List Token} (hw : word.kind = .ifWord) (ho : o.kind = .openParen)
    (hk : close.kind = .closeParen) (ht : inner.head? = some t) (hs : behind.head? = some s)
    (hb : s.kind = .openBrace) (condition : Reads x (.expr .lowest e) inner (close :: behind))
    (consequence : Reads y (.block a) behind between)
    (alternative : Reads z (.alternative b) between rest) :
    Reads (fun n => Derivation.opening inner.head? x n <|> y n <|> z n)
      (.atom (.conditional word e a b)) (word :: o :: inner) rest := by
  intro n c hc ha hstop
  have hclose : Power.lowest.Stops (close :: behind) := .of_kind (by rw [hk]; rfl) (by simp [hk])
  have hd : c.Reached c (Behind (o :: inner)) := .refl hc (rest_of_ahead ha)
  have hi := hd.advance.before
  have hm := condition.opened (n := n) ⟨by decide,by decide⟩ (by decide) hclose ht hi.proper hi.place
  have hD := levels_steady n
  rw [firstOperand_of_head ha (by rw [hw]; rfl)]
  simp only [head,Descent.conditional,current_bind,current_of_ahead ha]
  rw [hd.expect ho]
  refine Outcome.Meets.congr (d := c.advance.advance) ?_ rfl
  refine hm.bind (fun d hd => ?_) hi.proper (hD.expr _) fun _ =>
    .bind (.expect _) fun _ => .bind (.expect _) fun _ => .bind hD.block fun _ =>
      .bind (alternative_steady hD) fun _ => .pure _
  rw [hd.expect hk]
  refine consequence.behind_brace hd.advance hs hb (fun d hd => ?_) fun _ =>
    .bind (alternative_steady hD) fun _ => .pure _
  refine Outcome.Meets.congr (d := d) ?_ hd.faults
  refine (alternative n d hd.proper hd.place hstop).map (fun d hd => ?_) hd.proper
    (alternative_steady hD) fun _ => .pure _
  exact .of_done rfl hd

theorem parameter {t : Token} (ht : t.kind = .identifier) (hc : c.Proper)
    (hr : c.rest = t :: rest) :
    (Descent.parameter c).Meets c none (pure (.ofToken t)) (Behind rest) :=
  have hd := Reached.refl hc hr
  .of_done (hd.expect ht) hd.advance

theorem parameter_steady : Parse.Steady .standard Descent.parameter :=
  .bind (.expect _) fun _ => .pure _

theorem names {ns : List Name} (h : Names ns input rest)
    (hk : ∀ t ∈ rest.head?, t.kind ≠ .comma) (held : List Name) (hc : c.Proper)
    (hr : c.rest = input) :
    (itemsOnto Descent.parameter held c).Meets c none (pure (held.reverse ++ ns)) (Behind rest) := by
  induction h generalizing c held with
  | last ht => exact itemsOnto_last (parameter ht hc hr) hc parameter_steady hk
  | more ht hcomma _ ih =>
    refine itemsOnto_more (parameter ht hc hr) (fun d hd => ?_) hcomma hc parameter_steady
    exact (ih hk _ hd.proper hd.place).congr hd.faults

theorem parameters {ns : List Name} (h : Parameters ns input rest) (hc : c.Proper)
    (hr : c.rest = input) :
    (listed Descent.parameter c).Meets c none (pure ns) (Behind rest) := by
  cases h with
  | none hk => exact listed_none hc hr hk
  | some hk h =>
    refine listed_some (names h (by simp [hk]) [] hc hr) hc parameter_steady hk ?_
    have hp : c.peek.kind = .identifier := by
      cases h with
      | last ht | more ht _ _ => rw [peek_of_rest hr,ht]
    simp [hp]

theorem function {word o s : Token} {ns : List Name} {b : Block} {behind : List Token}
    (hw : word.kind = .fnWord) (ho : o.kind = .openParen) (hns : Parameters ns inner behind)
    (hs : behind.head? = some s) (hb : s.kind = .openBrace)
    (body : Reads x (.block b) behind rest) :
    Reads x (.atom (.function word ns b)) (word :: o :: inner) rest := by
  intro n c hc ha _
  have hd : c.Reached c (Behind (o :: inner)) := .refl hc (rest_of_ahead ha)
  have hD := levels_steady n
  rw [firstOperand_of_head ha (by rw [hw]; rfl)]
  simp only [head,Descent.function,current_bind,current_of_ahead ha]
  rw [hd.expect ho]
  refine Outcome.Meets.congr (d := c.advance) ?_ rfl
  refine Outcome.Meets.bind (x := none) (y := x n)
    (parameters hns hd.advance.proper hd.advance.place) (fun d hd => ?_) hc.advance
    (listed_steady parameter_steady) fun _ =>
      .bind (.expect _) fun _ => .bind hD.block fun _ => .pure _
  have hm := body.behind_brace (n := n) (q := fun b => pure (Expr.function word ns b)) (o := none) hd
    hs hb (fun e he => .of_done rfl he) fun _ => .pure _
  simpa using hm

theorem block {o : Token} {ss : List Stmt} {outer : List Token}
    (hend : ∀ t ∈ outer.head?, endsBlock t.kind = true) (hp : Parts outer)
    (h : Reads x (.statements ss) inner outer) :
    Reads (Derivation.opening (some o) x) (.block (.mk o ss)) (o :: inner) outer.tail := by
  intro n c hc ha
  cases n with
  | zero =>
    simp [Derivation.opening,levels,within,tooDeep,Outcome.Meets,Outcome.FirstFault,
      current_of_ahead ha]
  | succ n =>
    apply Outcome.Meets.nested
    have hs : ∀ k : Kind, k.startsStatement = true → endsBlock k = false := by
      intro k
      cases k <;> decide
    have hm := h n c.deeper.advance endsBlock [] hc.deeper.advance (rest_of_ahead ha) rfl hs hend hp
    have hcur : c.deeper.current = o := current_of_ahead ha
    simp only [body,advance_bind,hcur]
    refine Outcome.Meets.congr (d := c.deeper.advance) ?_ rfl
    refine hm.map (fun d hd => ?_) hc.deeper.advance
      (statements_steady (levels_steady n) rfl) fun _ => .pure _
    exact .of_done rfl ⟨hd.proper,congrArg List.tail hd.place,hd.faults⟩

theorem nil : Reads (fun _ => none) (.statements []) rest rest := by
  intro n c stop read hc ha hlast _ hend _
  have hk : stop c.current.kind = true := by
    cases rest with
    | nil => simp [Cursor.current,ha,hc.last,hlast]
    | cons t ts => simpa [current_of_ahead ha] using hend t rfl
  refine .of_done (d := c) (loop_stop ?_) (.refl hc ha)
  simp [moreStatements,hk]

theorem cons {s : Stmt} {ss : List Stmt} {t : Token} {behind : List Token}
    (ht : input.head? = some t) (hk : t.kind.startsStatement = true) (hb : Parts rest → Parts behind)
    (first : Reads x (.statement s) input behind) (more : Reads y (.statements ss) behind rest) :
    Reads (fun n => x n <|> y n) (.statements (s :: ss)) input rest := by
  intro n c stop read hc ha hlast hstart hend hp
  have hD := levels_steady n
  have hcur : stop c.current.kind = false := by
    obtain ⟨ts,rfl⟩ := List.head?_eq_some_iff.mp ht
    rw [current_of_ahead ha]
    exact hstart _ hk
  have hround : (moreStatements .standard (levels n) stop read c).Meets c (x n)
      (pure (.again (s :: read))) (Before behind) := by
    simp only [moreStatements,current_bind,hcur]
    refine (first n c hc ha (hb hp)).attempt.map (fun d hd => ?_) hc
      (.attempt (statement_steady hD)) fun _ => .bind .advance fun _ => .pure _
    exact .of_done rfl hd.before
  refine (hround.loop hc rfl (moreStatements_steady hD stop) (moreStatements_progresses hD hlast)).seq
    fun d hd => ?_
  simpa using (more n d stop (s :: read) hd.proper hd.place hlast hstart hend hp).congr hd.faults

theorem value {α : Type} {t : Token} {f : Expr → α} {behind : List Token}
    (h : Reads x (.expr .lowest e) input behind) (hend : Terminator behind rest) (hp : Parts rest)
    (ht : input.head? = some t) (hc : c.Proper) (ha : c.ahead = input) :
    (((levels n).expr .lowest >>= fun e => skip .semicolon >>= fun _ => pure (f e)) c).Meets c
      (Derivation.opening input.head? x n) (pure (f e)) (Behind rest) := by
  have hstop : Power.lowest.Stops behind := by
    cases hend with
    | semicolon hs => exact .of_kind (by rw [hs]; rfl) (by simp [hs])
    | omitted hs =>
      intro t ht
      exact ⟨(hp t ht).1,Grammar.continues_eq_false.mp (hs t ht)⟩
  have hm := h.opened (n := n) ⟨by decide,by decide⟩ (by decide) hstop ht hc ha
  refine hm.map (fun d hd => ?_) hc ((levels_steady n).expr _) fun _ =>
    .bind (.skip _) fun _ => .pure _
  rw [skip_bind]
  cases hend with
  | semicolon hs =>
    rw [if_pos (by rw [hd.peek,hs])]
    exact .of_done rfl hd.advance
  | omitted hs =>
    have hne : d.peek.kind ≠ .semicolon := by
      rw [peek_eq,hd.place]
      cases rest with
      | nil => rw [List.headD_nil,hd.proper.last]; decide
      | cons t ts => exact (hp t rfl).2
    rw [if_neg hne]
    exact .of_done rfl hd

theorem binding {word name assign t : Token} {behind : List Token} (hw : word.kind = .letWord)
    (hn : name.kind = .identifier) (ha : assign.kind = .assign) (ht : inner.head? = some t)
    (h : Reads x (.expr .lowest e) inner behind) (hend : Terminator behind rest) :
    Reads (Derivation.opening inner.head? x) (.statement (.binding word (.ofToken name) e))
      (word :: name :: assign :: inner) rest := by
  intro n c hc hi hp
  have hd : c.Reached c (Behind (name :: assign :: inner)) := .refl hc (rest_of_ahead hi)
  have hv := hd.advance.advance.before
  rw [statement_of_rule hi (by rw [hw]; rfl)]
  simp only [statementBy,bindingStatement,current_bind,current_of_ahead hi]
  rw [hd.expect hn,hd.advance.expect ha,advance_bind]
  exact (h.value hend hp ht hv.proper hv.place).congr hv.faults

theorem bareResult {word semicolon : Token} (hw : word.kind = .returnWord)
    (hs : semicolon.kind = .semicolon) :
    Reads (fun _ => none) (.statement (.result word none)) (word :: semicolon :: rest) rest := by
  intro n c hc ha _
  have hd : c.Reached c (Behind (semicolon :: rest)) := .refl hc (rest_of_ahead ha)
  refine .of_done (d := c.advance) ?_ hd.advance
  rw [statement_of_rule ha (by rw [hw]; rfl)]
  simp [statementBy,resultStatement,current_of_ahead ha,hd.peek,hs]

theorem result {word t : Token} {behind : List Token} (hw : word.kind = .returnWord)
    (ht : inner.head? = some t) (hs : t.kind ≠ .semicolon)
    (h : Reads x (.expr .lowest e) inner behind) (hend : Terminator behind rest) :
    Reads (Derivation.opening inner.head? x) (.statement (.result word (some e))) (word :: inner)
      rest := by
  intro n c hc ha hp
  have hd : c.Reached c (Behind inner) := .refl hc (rest_of_ahead ha)
  have hpeek : c.peek = t := by
    obtain ⟨ts,rfl⟩ := List.head?_eq_some_iff.mp ht
    exact hd.peek
  rw [statement_of_rule ha (by rw [hw]; rfl)]
  simp only [statementBy,resultStatement,current_bind,advance_bind,current_advance,
    current_of_ahead ha,hpeek,hs,if_false]
  exact (h.value hend hp ht hd.before.proper hd.before.place).congr hd.before.faults

theorem expression {t : Token} {behind : List Token} (hs : t.kind.starts = true)
    (h : Reads x (.expr .lowest e) (t :: inner) behind) (hend : Terminator behind rest) :
    Reads (Derivation.opening (some t) x) (.statement (.expression t e)) (t :: inner) rest := by
  intro n c hc ha hp
  rw [statement_of_starts ha hs]
  simp only [expressionStatement,current_bind,current_of_ahead ha]
  exact h.value hend hp rfl hc ha

end Phrase.Reads

namespace Derivation
variable {input rest : List Token}

theorem parts_of_statements {ss : List Stmt} (D : Derivation False (.statements ss) input rest)
    (h : Parts rest) : Parts input := by
  cases D with
  | nil => exact h
  | cons first more =>
    obtain ⟨t,ht,hk⟩ := first.starts
    intro s hs
    obtain rfl : t = s := Option.some.inj (ht.symm.trans hs)
    constructor <;> intro he <;> simp [he,Kind.startsStatement,Kind.starts] at hk
  | skip hg _ => exact hg.elim

/-- Whatever is derived is read up to the first token at which levels are missing. -/
theorem reads {φ : Phrase} {input rest : List Token} (D : Derivation False φ input rest) :
    φ.Reads D.exceeds input rest := by
  induction D with
  | name h => exact .name h
  | integer h hn => exact .integer h hn
  | truth h => exact .boolean (.inl h) (by rw [h]; rfl)
  | falsity h => exact .boolean (.inr h) (by rw [h]; rfl)
  | group ho hc content ih =>
    -- The first token of the part is where a level is missing, if one is.
    obtain ⟨t,ht,-⟩ := content.starts
    exact .group ho hc ht ih
  | conditional hw ho hc condition consequence _ ih ihc iha =>
    obtain ⟨t,ht,-⟩ := condition.starts
    obtain ⟨s,hs,hb⟩ := consequence.starts
    exact .conditional hw ho hc ht hs hb ih ihc iha
  | noElse => exact .noElse
  | elseBlock hw block ih =>
    obtain ⟨t,ht,hb⟩ := block.starts
    exact .elseBlock hw ht hb ih
  | function hw ho hn body ih =>
    obtain ⟨s,hs,hb⟩ := body.starts
    exact .function hw ho hn hs hb ih
  | ofAtom _ ih => exact .ofAtom ih
  | call ho _ _ ihf ihs => exact .call ho ihf ihs
  | unary ht operand ih =>
    obtain ⟨s,hs,-⟩ := operand.starts
    exact .unary ht hs ih
  | binary ht hl _ right ihl ihr =>
    obtain ⟨s,hs,-⟩ := right.starts
    exact .binary ht hl hs ihl ihr
  | loosen hl _ ih => exact .loosen hl ih
  | lastItem item ih =>
    obtain ⟨t,ht,-⟩ := item.starts
    exact .lastItem ht ih
  | moreItems hc item _ ih ihs =>
    obtain ⟨t,ht,-⟩ := item.starts
    exact .moreItems hc ht ih ihs
  | noArguments hc => exact .noArguments hc
  | someArguments hc items ih =>
    obtain ⟨t,ht,hs⟩ := items.starts
    exact .someArguments hc ht hs ih
  | closedBlock ho hc _ ih =>
    exact .block (by simp [hc,endsBlock]) (by simp [Parts,hc]) ih
  | openBlock ho _ ih => exact .block (by simp) (by simp [Parts]) ih
  | binding hw hn ha value hend ih =>
    obtain ⟨t,ht,-⟩ := value.starts
    exact .binding hw hn ha ht ih hend
  | bareResult hw hs => exact .bareResult hw hs
  | result hw value hend ih =>
    obtain ⟨t,ht,hs⟩ := value.starts
    exact .result hw ht (fun he => by simp [he,Kind.starts] at hs) ih hend
  | expression value hend ih =>
    obtain ⟨t,⟨⟩,hs⟩ := value.starts
    exact .expression hs ih hend
  | nil => exact .nil
  | cons first more ihf ihs =>
    obtain ⟨t,ht,hk⟩ := first.starts
    exact .cons ht hk more.parts_of_statements ihf ihs
  | skip hg _ _ => exact hg.elim

end Derivation
end Precedence
