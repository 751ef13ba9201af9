import Precedence.Descent.Cursor

/-! Actions on a cursor: reading, asking for a token, failing, going one level deeper, and
repeating. An action ends with a value or with a fault, and leaves the cursor in some state
either way. -/
namespace Precedence

/-- What becomes of an action. `endless` is the outcome of repeating for ever. -/
inductive Outcome (α : Type) where
  | done (value : α) (cursor : Cursor)
  | failed (fault : Fault) (cursor : Cursor)
  | endless

def Parse (α : Type) : Type := Cursor → Outcome α

/-- A round of a repetition either asks for another round or ends it. -/
inductive Round (α β : Type) where
  | again (state : α)
  | stop (result : β)

namespace Parse
variable {α β : Type}

instance : Monad Parse where
  pure a := fun c => .done a c
  bind p next := fun c =>
    match p c with
    | .done a c => next a c
    | .failed f c => .failed f c
    | .endless => .endless

theorem pure_apply (a : α) (c : Cursor) : (pure a : Parse α) c = .done a c := rfl

theorem bind_apply (p : Parse α) (next : α → Parse β) (c : Cursor) :
    (p >>= next) c = match p c with
      | .done a c => next a c
      | .failed f c => .failed f c
      | .endless => .endless := rfl

def current : Parse Token := fun c => .done c.current c

def peek : Parse Token := fun c => .done c.peek c

def peekIs (kind : Kind) : Parse Bool := fun c => .done (c.peek.kind == kind) c

/-- Moves on by one token and gives the one left behind. -/
def advance : Parse Token := fun c => .done c.current c.advance

def fail (cause : Cause) (position : Position) : Parse α := fun c => .failed ⟨cause,position⟩ c

def diverge : Parse α := fun _ => .endless

/-- Moves on to a token of the given kind and gives it. Otherwise the lookahead is at fault and
nothing moves. -/
def expect (kind : Kind) : Parse Token := fun c =>
  if c.peek.kind = kind then .done c.peek c.advance
  else .failed ⟨.unexpected kind c.peek.kind,c.peek.position⟩ c

def skip (kind : Kind) : Parse Unit := fun c =>
  .done () (if c.peek.kind = kind then c.advance else c)

def tooDeep : Parse α := fun c => .failed ⟨.tooDeep nestingLimit,c.current.position⟩ c

def enter : Parse Unit := fun c =>
  if c.depth < nestingLimit then .done () c.deeper else tooDeep c

/-- Runs an action one level deeper. The level is closed again on a fault too. -/
def nested (p : Parse α) : Parse α := fun c =>
  match p c.deeper with
  | .done a c => .done a c.leave
  | .failed f c => .failed f c.leave
  | .endless => .endless

/-- Runs an action and keeps its fault, if any, among those found. -/
def attempt (p : Parse α) : Parse (Option α) := fun c =>
  match p c with
  | .done a c => .done (some a) c
  | .failed f c => .done none (c.record f)
  | .endless => .endless

/-- Repeats rounds until one ends the repetition. A round that asks for another one without
having used up a token would do so for ever, since what is ahead alone decides a round. -/
def loop (round : α → Parse (Round α β)) (state : α) : Parse β := fun c =>
  match round state c with
  | .done (.stop b) c' => .done b c'
  | .done (.again a) c' =>
    if c'.left < c.left then loop round a c' else .endless
  | .failed f c' => .failed f c'
  | .endless => .endless
termination_by c => c.left

end Parse
end Precedence
