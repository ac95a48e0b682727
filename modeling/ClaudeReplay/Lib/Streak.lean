import Mathlib.Data.List.Basic
import Mathlib.Data.List.TakeWhile

/-!
# ClaudeReplay.Lib.Streak

Logs, newest entry first, and how many of their latest entries agree.

`Latest n f x ts` says that the latest `n` entries of `ts` all have the value `x` under `f`.
`streak` counts the newest entries that are equal: it is what a counter holds that goes up when
an entry is like the one before and is set back when it is not. The two meet in
`le_streak_iff`.
-/

namespace ClaudeReplay.Lib

variable {α β γ : Type*}

/-! ## the latest entries -/

/-- The latest `n` entries of `ts` have the value `x` under `f`. -/
def Latest (n : Nat) (f : α → β) (x : β) (ts : List α) : Prop :=
  List.replicate n x <+: ts.map f

section Latest

variable {n : Nat} {f : α → β} {g : α → γ} {x : β} {y : γ} {t : α} {ts : List α} {q : α → Bool}

instance [DecidableEq β] : Decidable (Latest n f x ts) :=
  inferInstanceAs (Decidable (List.replicate n x <+: ts.map f))

@[simp] theorem latest_zero : Latest 0 f x ts := List.nil_prefix

@[simp] theorem not_latest_nil : ¬ Latest (n + 1) f x [] := by
  simp [Latest, List.replicate_succ]

@[simp] theorem latest_cons : Latest (n + 1) f x (t :: ts) ↔ f t = x ∧ Latest n f x ts := by
  simp only [Latest, List.replicate_succ, List.map_cons, List.cons_prefix_cons]
  grind

/-- What the latest entries have under two functions. -/
theorem latest_pair :
    Latest n (fun t => (f t, g t)) (x, y) ts ↔ Latest n f x ts ∧ Latest n g y ts := by
  induction n generalizing ts with
  | zero => simp
  | succ n ih => cases ts <;> grind [latest_cons, not_latest_nil]

/-- Latest entries that pass a filter are the latest of those that pass it. -/
theorem latest_filter (h : Latest n q true ts) : Latest n f x (ts.filter q) ↔ Latest n f x ts := by
  induction n generalizing ts with
  | zero => simp
  | succ n ih =>
    cases ts with
    | nil => simp
    | cons t ts =>
      obtain ⟨ht, hrest⟩ := latest_cons.mp h
      rw [List.filter_cons_of_pos ht, latest_cons, latest_cons, ih hrest]

/-- They are also the latest of those since the last one that does not pass. -/
theorem latest_takeWhile (h : Latest n q true ts) :
    Latest n f x (ts.takeWhile q) ↔ Latest n f x ts := by
  induction n generalizing ts with
  | zero => simp
  | succ n ih =>
    cases ts with
    | nil => simp
    | cons t ts =>
      obtain ⟨ht, hrest⟩ := latest_cons.mp h
      rw [List.takeWhile_cons_of_pos ht, latest_cons, latest_cons, ih hrest]

theorem Latest.head? (h : Latest (n + 1) f x ts) : (ts.map f).head? = some x := by
  cases ts with
  | nil => exact absurd h not_latest_nil
  | cons t ts => exact congrArg some (latest_cons.mp h).1

theorem Latest.mono {g : α → γ} (h : Latest n f x ts) (hfg : ∀ t, f t = x → g t = y) :
    Latest n g y ts := by
  induction n generalizing ts with
  | zero => simp
  | succ n ih =>
    cases ts with
    | nil => exact absurd h not_latest_nil
    | cons t ts =>
      obtain ⟨ht, hrest⟩ := latest_cons.mp h
      exact latest_cons.mpr ⟨hfg t ht, ih hrest⟩

end Latest

/-! ## streaks -/

section Streak

variable [DecidableEq α]

/-- How many of the newest entries are equal. -/
def streak : List α → Nat
  | [] => 0
  | x :: xs => if xs.head? = some x then streak xs + 1 else 1

variable {n : Nat} {x : α} {xs : List α}

@[simp] theorem streak_nil : streak ([] : List α) = 0 := rfl

theorem streak_cons :
    streak (x :: xs) = if xs.head? = some x then streak xs + 1 else 1 := rfl

theorem streak_pos (h : xs ≠ []) : 0 < streak xs := by
  cases xs with
  | nil => contradiction
  | cons x xs =>
    rw [streak_cons]
    split <;> omega

/-- A streak reaches a bound when that many of the newest entries are one entry. -/
theorem le_streak_iff : n + 1 ≤ streak xs ↔ ∃ x, Latest (n + 1) id x xs := by
  induction xs generalizing n with
  | nil => simp
  | cons x xs ih =>
    rw [streak_cons]
    cases n with
    | zero => split <;> simp
    | succ n =>
      by_cases hx : xs.head? = some x
      · rw [if_pos hx, Nat.add_le_add_iff_right, ih]
        obtain ⟨ys, rfl⟩ := List.head?_eq_some_iff.mp hx
        simp
      · rw [if_neg hx]
        cases xs with
        | nil => simp
        | cons y ys => simp_all

end Streak

end ClaudeReplay.Lib
