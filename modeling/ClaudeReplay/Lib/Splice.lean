import Mathlib.Data.List.Basic
import Mathlib.Data.List.TakeWhile

/-!
# ClaudeReplay.Lib.Splice

Keeping a copy of a list by deltas. A holder keeps `xs`, its source now holds
`ys`, and what is sent is `ys` from some position `n` on: the holder cuts its
copy at `n` and extends it by what came (`splice`). The copy is right exactly
when the part it kept was (`splice_drop_iff`), whatever the two held beyond `n`.

`agree` is how far two lists agree, the largest position a sender may splice at;
`intact` tests that a copy is still a prefix.
-/

namespace ClaudeReplay.Lib

variable {α : Type u} {xs ys zs : List α} {n : Nat}

/-! ## splicing -/

/-- Cut a list to its first `n` elements, then extend it. -/
def splice (xs : List α) (n : Nat) (ys : List α) : List α := xs.take n ++ ys

@[simp] theorem splice_zero (xs ys : List α) : splice xs 0 ys = ys := by simp [splice]

/-- **A splice is right exactly when what it kept is.** -/
theorem splice_drop_iff : splice xs n (ys.drop n) = ys ↔ xs.take n = ys.take n := by
  unfold splice
  constructor
  · intro h
    have h' : xs.take n ++ ys.drop n = ys.take n ++ ys.drop n := by rw [h, List.take_append_drop]
    exact List.append_cancel_right h'
  · intro h
    rw [h, List.take_append_drop]

/-- Splicing a whole copy at its own end asks that the copy be a prefix. -/
theorem splice_length_drop_iff (xs ys : List α) :
    splice xs xs.length (ys.drop xs.length) = ys ↔ xs <+: ys := by
  rw [splice_drop_iff, List.take_length, List.prefix_iff_eq_take]

/-- Cutting past the end cuts nothing. -/
theorem splice_min_length (xs : List α) (n : Nat) (ys : List α) :
    splice xs (min n xs.length) ys = splice xs n ys := by
  rw [splice, splice, ← List.take_take, List.take_length]

theorem splice_length (xs ys : List α) : splice xs xs.length ys = xs ++ ys := by
  rw [splice, List.take_length]

/-! ## how far two lists agree -/

section

variable [DecidableEq α]

/-- The length of the longest common prefix. -/
def agree (xs ys : List α) : Nat := ((xs.zip ys).takeWhile fun p => p.1 = p.2).length

theorem take_agree (xs ys : List α) : xs.take (agree xs ys) = ys.take (agree xs ys) := by
  induction xs generalizing ys with
  | nil => simp [agree]
  | cons x xs ih =>
    cases ys with
    | nil => simp [agree]
    | cons y ys =>
      by_cases h : x = y
      · subst h
        have hag : agree (x :: xs) (x :: ys) = agree xs ys + 1 := by simp [agree]
        rw [hag, List.take_succ_cons, List.take_succ_cons, ih]
      · simp [agree, h]

/-- Is a copy still a prefix? -/
def intact (xs ys : List α) : Bool :=
  decide (xs.length ≤ ys.length) && (xs.zip ys).all fun p => p.1 = p.2

theorem intact_iff : intact xs ys = true ↔ xs <+: ys := by
  induction xs generalizing ys with
  | nil => simp [intact]
  | cons x xs ih =>
    cases ys with
    | nil => simp [intact]
    | cons y ys =>
      have hstep : intact (x :: xs) (y :: ys) = (decide (x = y) && intact xs ys) := by
        simp only [intact, List.length_cons, Nat.add_le_add_iff_right, List.zip_cons_cons,
          List.all_cons]
        cases decide (xs.length ≤ ys.length) <;> simp
      rw [hstep, Bool.and_eq_true, decide_eq_true_eq, ih, List.cons_prefix_cons]

end

end ClaudeReplay.Lib
