import Precedence.Fault.Basic
import Precedence.Token.Scanner

/-! A cursor walks over the tokens of a source. It shows the current token and one token of
lookahead, counts the levels that are open and keeps the faults found so far. -/
namespace Precedence

/-- How many expressions and blocks may be open inside each other. -/
def nestingLimit : Nat := 128

structure Cursor where
  /-- The tokens from the current one on, without the end token. -/
  ahead : List Token
  /-- How many tokens that are. -/
  left : Nat := ahead.length
  /-- The end token, which follows for ever once the others are used up. -/
  last : Token
  /-- Open levels. -/
  depth : Nat := 0
  /-- Faults in the order they were found. -/
  faults : Array Fault := #[]
  left_eq : left = ahead.length := by rfl

namespace Cursor

def ofScanner (s : Scanner) : Cursor := { ahead := s.ahead, last := s.last }

def current (c : Cursor) : Token := c.ahead.headD c.last

def peek (c : Cursor) : Token := c.ahead.tail.headD c.last

def advance (c : Cursor) : Cursor :=
  { c with ahead := c.ahead.tail, left := c.left-1,
           left_eq := by rw [List.length_tail,c.left_eq] }

def record (c : Cursor) (f : Fault) : Cursor := { c with faults := c.faults.push f }

def deeper (c : Cursor) : Cursor := { c with depth := c.depth+1 }

/-- Closes one level; where none is open nothing happens. -/
def leave (c : Cursor) : Cursor := { c with depth := c.depth-1 }

@[simp] theorem current_advance (c : Cursor) : c.advance.current = c.peek := rfl

@[simp] theorem last_advance (c : Cursor) : c.advance.last = c.last := rfl

@[simp] theorem leave_deeper (c : Cursor) : c.deeper.leave = c := rfl

@[simp] theorem faults_record (c : Cursor) (f : Fault) :
    (c.record f).faults.toList = c.faults.toList ++ [f] := by simp [record]

theorem eq_of_ahead {c d : Cursor} (ha : c.ahead = d.ahead) (hl : c.last = d.last)
    (hd : c.depth = d.depth) (hf : c.faults = d.faults) : c = d := by
  have hc := c.left_eq
  have hd' := d.left_eq
  cases c
  cases d
  simp_all

theorem advance_left_lt (c : Cursor) (h : c.ahead ≠ []) : c.advance.left < c.left := by
  have hl := List.length_pos_iff.mpr h
  have hc := c.left_eq
  simp only [advance]
  omega

end Cursor
end Precedence
