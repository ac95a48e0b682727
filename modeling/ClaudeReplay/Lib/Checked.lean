import Mathlib.Algebra.Group.Nat.Defs
import Mathlib.Algebra.GroupWithZero.Nat
import Mathlib.Data.List.Basic

/-!
# ClaudeReplay.Lib.Checked

Checked index arithmetic. A program that stores absolute positions into a
sliding buffer subtracts the buffer's base from them and slices or indexes with
the result; each of those operations has a precondition the machine checks and
the type does not. Here each is a function into `Except Fault`, so that a
program written with them makes every one of its accesses visible:

* `checkedSub` — `a - b`, faulting where the subtraction would underflow;
* `indexAt` — `xs[i]`, faulting where the index is out of range;
* `sliceFrom`, `slice` — `xs[i..]` and `xs[i..j]`, faulting where a bound is past the end;
* `checkedAdd`, `checkedShl` — `a + b` and `a << s` on a fixed width, faulting where the result
  does not fit;
* `assertThat` — an assertion.

"The program never faults" is then the single statement that its result is an
`.ok`. The `_of_le`/`_of_lt` lemmas discharge one access each.
-/

namespace ClaudeReplay.Lib

/-- Why a checked access failed. -/
inductive Fault
  | underflow
  | outOfRange
  | assertion
  deriving DecidableEq, Repr

/-- `a - b` on unsigned integers. -/
def checkedSub (a b : Nat) : Except Fault Nat :=
  if b ≤ a then .ok (a - b) else .error .underflow

/-- `xs[i]`. -/
def indexAt (xs : List α) (i : Nat) : Except Fault α :=
  match xs[i]? with
  | some x => .ok x
  | none => .error .outOfRange

/-- `xs[i..]`. -/
def sliceFrom (xs : List α) (i : Nat) : Except Fault (List α) :=
  if i ≤ xs.length then .ok (xs.drop i) else .error .outOfRange

/-- `xs[i..j]`. -/
def slice (xs : List α) (i j : Nat) : Except Fault (List α) :=
  if i ≤ j ∧ j ≤ xs.length then .ok ((xs.take j).drop i) else .error .outOfRange

/-- `a + b` on unsigned integers of `w` bits. -/
def checkedAdd (w a b : Nat) : Except Fault Nat :=
  if a + b < 2 ^ w then .ok (a + b) else .error .outOfRange

/-- `a << s` on unsigned integers of `w` bits, none of them lost. -/
def checkedShl (w a s : Nat) : Except Fault Nat :=
  if s < w ∧ a * 2 ^ s < 2 ^ w then .ok (a * 2 ^ s) else .error .outOfRange

/-- An assertion. -/
def assertThat (p : Prop) [Decidable p] : Except Fault Unit :=
  if p then .ok () else .error .assertion

theorem checkedSub_of_le (h : b ≤ a) : checkedSub a b = .ok (a - b) := if_pos h

theorem indexAt_of_getElem? (h : xs[i]? = some x) : indexAt xs i = .ok x := by
  rw [indexAt, h]

theorem sliceFrom_of_le (h : i ≤ xs.length) : sliceFrom xs i = .ok (xs.drop i) := if_pos h

theorem slice_of_le (h : i ≤ j) (h' : j ≤ xs.length) :
    slice xs i j = .ok ((xs.take j).drop i) := if_pos ⟨h, h'⟩

theorem checkedAdd_of_lt (h : a + b < 2 ^ w) : checkedAdd w a b = .ok (a + b) := if_pos h

theorem checkedShl_of_lt (h : s < w) (h' : a * 2 ^ s < 2 ^ w) :
    checkedShl w a s = .ok (a * 2 ^ s) := if_pos ⟨h, h'⟩

theorem assertThat_of (p : Prop) [Decidable p] (h : p) : assertThat p = .ok () := if_pos h

/-- A checked computation that did not fault, taken apart at its first bind. -/
theorem bind_eq_ok {x : Except ε α} {f : α → Except ε β} {b : β} :
    (x >>= f) = .ok b ↔ ∃ a, x = .ok a ∧ f a = .ok b := by
  cases x with
  | error e => simp [bind, Except.bind]
  | ok a => simp [bind, Except.bind]

theorem bind_ok (a : α) (f : α → Except ε β) : ((.ok a : Except ε α) >>= f) = f a := rfl

/-- An addition that is made under a condition. -/
theorem checkedAdd_ite {c : Prop} [Decidable c] (h : c → a + b < 2 ^ w)
    (f : Nat → Except Fault α) :
    (if c then checkedAdd w a b >>= f else pure a >>= f) = f (a + if c then b else 0) := by
  split
  · next hc => rw [checkedAdd_of_lt (h hc), bind_ok]
  · rfl

/-- The value of a computation known not to fault. -/
def okValue (x : Except ε α) (h : ∃ a, x = .ok a) : α :=
  match x, h with
  | .ok a, _ => a
  | .error _, h => absurd h (by simp)

theorem eq_ok_okValue {x : Except ε α} (h : ∃ a, x = .ok a) : x = .ok (okValue x h) := by
  cases x with
  | ok a => rfl
  | error e => simp at h

/-- Subtractions that are all in range, made one after the other. -/
theorem mapM_checkedSub (xs : List Nat) (b : Nat) (h : ∀ i ∈ xs, b ≤ i) :
    (xs.mapM fun i => checkedSub i b) = .ok (xs.map (· - b)) := by
  induction xs with
  | nil => rfl
  | cons x xs ih =>
    rw [List.mapM_cons, checkedSub_of_le (h x List.mem_cons_self), bind_ok,
      ih fun i hi => h i (List.mem_cons_of_mem x hi), bind_ok]
    rfl

/-- An invariant every step establishes of its result, over a whole run of
steps that cannot fault under it. -/
theorem foldlM_ok {P : β → Prop} {R : β → β → Prop} (f : β → α → Except ε β)
    (hrefl : ∀ b, R b b) (htrans : ∀ a b c, R a b → R b c → R a c)
    (hstep : ∀ b a, P b → ∃ b', f b a = .ok b' ∧ P b' ∧ R b b') (b : β) (xs : List α) (hb : P b) :
    ∃ b', xs.foldlM f b = .ok b' ∧ P b' ∧ R b b' := by
  induction xs generalizing b with
  | nil => exact ⟨b, rfl, hb, hrefl b⟩
  | cons x xs ih =>
    obtain ⟨b₁, h₁, hP₁, hR₁⟩ := hstep b x hb
    obtain ⟨b₂, h₂, hP₂, hR₂⟩ := ih b₁ hP₁
    refine ⟨b₂, ?_, hP₂, htrans _ _ _ hR₁ hR₂⟩
    rw [List.foldlM_cons, h₁, bind_ok, h₂]

end ClaudeReplay.Lib
