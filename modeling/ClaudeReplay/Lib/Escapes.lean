import Mathlib.Data.List.Basic
import Mathlib.Data.List.TakeDrop

/-!
# ClaudeReplay.Lib.Escapes

The content of a quoted string as a run of escape units: a plain byte, a backslash
and the byte after it, or `\u` and the four bytes after it. `Esc` says where in a
unit a scanner stands, `Esc.run` where it stands after some bytes, and `inside` that
none of them was the closing quote.

A content is *whole* when it ends between units, so that a quote after it closes the
string (`whole_append`: the units of a concatenation are those of its parts).
-/

namespace ClaudeReplay.Lib

/-- The quote that opens and closes a string. -/
def quote : UInt8 := 0x22

/-- The backslash that begins an escape. -/
def backslash : UInt8 := 0x5C

/-- `u`, which makes an escape six bytes long. -/
def letterU : UInt8 := 0x75

/-- Where a scanner stands in a unit. -/
inductive Esc
  /-- between units -/
  | plain
  /-- after a backslash -/
  | slash
  /-- in a `\u` unit, with `n + 1` bytes to come -/
  | hex (n : Nat)
  deriving DecidableEq, Repr

namespace Esc

/-- One content byte. -/
def step : Esc → UInt8 → Esc
  | .plain, b => if b = backslash then .slash else .plain
  | .slash, b => if b = letterU then .hex 3 else .plain
  | .hex 0, _ => .plain
  | .hex (n + 1), _ => .hex n

/-- The content bytes of a run. -/
def run (e : Esc) (xs : List UInt8) : Esc := xs.foldl step e

@[simp] theorem run_nil (e : Esc) : e.run [] = e := rfl

@[simp] theorem run_cons (e : Esc) (b : UInt8) (xs : List UInt8) :
    e.run (b :: xs) = (e.step b).run xs := rfl

theorem run_append (e : Esc) (xs ys : List UInt8) : e.run (xs ++ ys) = (e.run xs).run ys :=
  List.foldl_append

theorem run_snoc (e : Esc) (xs : List UInt8) (b : UInt8) :
    e.run (xs ++ [b]) = (e.run xs).step b := by
  rw [run_append]
  rfl

/-- This byte closes the string. -/
def closes (e : Esc) (b : UInt8) : Bool := e == .plain && b == quote

/-- No byte of the content closes the string. -/
def inside (e : Esc) : List UInt8 → Bool
  | [] => true
  | b :: xs => !e.closes b && (e.step b).inside xs

theorem inside_append (e : Esc) (xs ys : List UInt8) :
    e.inside (xs ++ ys) = (e.inside xs && (e.run xs).inside ys) := by
  induction xs generalizing e with
  | nil => simp [inside]
  | cons b xs ih => simp [inside, ih, Bool.and_assoc]

theorem inside_snoc (e : Esc) (xs : List UInt8) (b : UInt8) :
    e.inside (xs ++ [b]) = (e.inside xs && !(e.run xs).closes b) := by
  rw [inside_append]
  simp [inside]

end Esc

/-- A string's content: the quote that follows it closes the string. -/
structure Whole (xs : List UInt8) : Prop where
  inside : Esc.plain.inside xs = true
  ends : Esc.plain.run xs = .plain

theorem Whole.nil : Whole [] := ⟨rfl, rfl⟩

/-- **Units do not cross a seam between whole contents.** -/
theorem whole_append {xs ys : List UInt8} (hx : Whole xs) : Whole (xs ++ ys) ↔ Whole ys := by
  constructor
  · intro h
    have hin := h.inside
    have hend := h.ends
    rw [Esc.inside_append, hx.inside, hx.ends] at hin
    rw [Esc.run_append, hx.ends] at hend
    exact ⟨hin, hend⟩
  · intro hy
    refine ⟨?_, ?_⟩
    · rw [Esc.inside_append, hx.inside, hx.ends, hy.inside]
      rfl
    · rw [Esc.run_append, hx.ends, hy.ends]

end ClaudeReplay.Lib
