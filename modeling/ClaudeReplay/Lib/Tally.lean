import ClaudeReplay.Lib.Table
import Mathlib.Algebra.BigOperators.Group.List.Basic
import Mathlib.Algebra.Order.Monoid.Canonical.Defs
import Mathlib.Tactic.GCongr

/-!
# ClaudeReplay.Lib.Tally

Buckets: a table of amounts, one under each key, in any commutative monoid. A key
without a bucket counts zero.

`credit` adds to one bucket and `merge` moves one bucket into another: the first adds to
the total, the second leaves it as it is. What a list of credits adds up to under one key
is `creditedTo`, and buckets that hold just that hold all of it (`total_of_amounts`).
-/

namespace ClaudeReplay.Lib

variable {κ α : Type} [DecidableEq κ] [AddCommMonoid α]

/-- What a list of credits adds up to under one key. -/
def creditedTo (credits : List (κ × α)) (k : κ) : α :=
  ((credits.filter (·.1 = k)).map (·.2)).sum

theorem creditedTo_cons (c : κ × α) (credits : List (κ × α)) (k : κ) :
    creditedTo (c :: credits) k = (if c.1 = k then c.2 else 0) + creditedTo credits k := by
  by_cases hk : c.1 = k <;> simp [creditedTo, hk]

theorem creditedTo_concat (credits : List (κ × α)) (c : κ × α) (k : κ) :
    creditedTo (credits ++ [c]) k = creditedTo credits k + if c.1 = k then c.2 else 0 := by
  by_cases hk : c.1 = k <;> simp [creditedTo, hk]

theorem creditedTo_append (credits more : List (κ × α)) (k : κ) :
    creditedTo (credits ++ more) k = creditedTo credits k + creditedTo more k := by
  simp [creditedTo]

/-- Credits under one key moved to another. -/
theorem creditedTo_moved (credits : List (κ × α)) {k j : κ} (hkj : j ≠ k) (m : κ) :
    creditedTo (credits.map fun c => (if c.1 = k then j else c.1, c.2)) m =
      if m = k then 0 else creditedTo credits m + if m = j then creditedTo credits k else 0 := by
  induction credits with
  | nil => simp [creditedTo]
  | cons c credits ih =>
    rw [List.map_cons, creditedTo_cons, ih, creditedTo_cons, creditedTo_cons]
    by_cases hm : m = k
    · have hne : (if c.1 = k then j else c.1) ≠ m := by
        by_cases hc : c.1 = k
        · simpa [hc, hm] using hkj
        · simp [hc, hm]
      simp [hm, hm ▸ hne]
    · by_cases hc : c.1 = k
      · have hcm : c.1 ≠ m := fun h => hm (h ▸ hc)
        by_cases hj : j = m
        · simp [hm, hc, hj, Ne.symm hm, add_left_comm]
        · simp [hm, hc, hj, Ne.symm hm, Ne.symm hj]
      · by_cases hcm : c.1 = m
        · simp [hm, hcm, add_assoc]
        · simp [hm, hc, hcm]

/-- No key is credited more than all there is. -/
theorem creditedTo_le_sum [PartialOrder α] [CanonicallyOrderedAdd α] (credits : List (κ × α))
    (k : κ) : creditedTo credits k ≤ (credits.map (·.2)).sum := by
  induction credits with
  | nil => exact le_rfl
  | cons c credits ih =>
    rw [creditedTo_cons, List.map_cons, List.sum_cons]
    by_cases hk : c.1 = k
    · rw [if_pos hk]
      gcongr
    · rw [if_neg hk, zero_add]
      exact ih.trans le_add_self

/-- Credits whose keys are renamed: what stood under a key is part of what stands under its name. -/
theorem creditedTo_le_map [PartialOrder α] [CanonicallyOrderedAdd α] {ι : Type} [DecidableEq ι]
    (f : κ → ι) (credits : List (κ × α)) (k : κ) :
    creditedTo credits k ≤ creditedTo (credits.map fun c => (f c.1, c.2)) (f k) := by
  induction credits with
  | nil => exact le_rfl
  | cons c credits ih =>
    rw [creditedTo_cons, List.map_cons, creditedTo_cons]
    by_cases hk : c.1 = k
    · rw [if_pos hk, if_pos (congrArg f hk)]
      gcongr
    · rw [if_neg hk, zero_add]
      exact ih.trans le_add_self

namespace Table

/-- The amount under a key, zero where there is no bucket. -/
def amount (t : Table κ α) (k : κ) : α := (t.find? k).getD 0

/-- The sum of all buckets. -/
def total (t : Table κ α) : α := (t.rows.map (·.2)).sum

/-- Add to one bucket. -/
def credit (t : Table κ α) (k : κ) (a : α) : Table κ α := t.put k (t.amount k + a)

theorem amount_put (t : Table κ α) (k : κ) (a : α) (j : κ) :
    (t.put k a).amount j = if j = k then a else t.amount j := by
  rw [amount, find?_put]
  by_cases hj : j = k <;> simp [hj, amount]

theorem amount_erase (t : Table κ α) (k j : κ) :
    (t.erase k).amount j = if j = k then 0 else t.amount j := by
  rw [amount, find?_erase]
  by_cases hj : j = k <;> simp [hj, amount]

theorem amount_credit (t : Table κ α) (k : κ) (a : α) (j : κ) :
    (t.credit k a).amount j = t.amount j + if k = j then a else 0 := by
  rw [credit, amount_put]
  by_cases hj : j = k
  · simp [hj]
  · simp [hj, Ne.symm hj]

theorem total_put (t : Table κ α) (k : κ) (a : α) : (t.put k a).total = a + (t.erase k).total := by
  simp [total, put, erase, retain, deleteWhere]

/-- The sum of all buckets, one of them taken out. -/
theorem total_eq (t : Table κ α) (k : κ) : t.total = t.amount k + (t.erase k).total := by
  obtain ⟨rows, unique⟩ := t
  simp only [total, amount, find?, erase, retain, deleteWhere, Bool.not_not]
  induction rows with
  | nil => simp
  | cons row rows ih =>
    rw [List.map_cons, List.nodup_cons] at unique
    specialize ih unique.2
    rw [lookup_cons_ite, List.filter_cons]
    by_cases hk : k = row.1
    · have hrest : rows.filter (fun r => decide (r.1 ≠ k)) = rows := by
        rw [List.filter_eq_self]
        intro r hr
        have hne : r.1 ≠ k := fun heq => unique.1 (hk ▸ heq ▸ List.mem_map_of_mem hr)
        simpa using hne
      have hout : decide (row.1 ≠ k) = false := by simp [hk]
      rw [if_pos hk, hout, if_neg (by simp), hrest]
      rfl
    · simp only [List.map_cons, List.sum_cons, ih, hk, Ne.symm hk, ne_eq, not_false_eq_true,
        decide_true, if_false, if_true]
      exact add_left_comm _ _ _

theorem total_credit (t : Table κ α) (k : κ) (a : α) : (t.credit k a).total = t.total + a := by
  rw [credit, total_put, total_eq t k, add_right_comm]

theorem total_eq_zero {t : Table κ α} (h : ∀ k, t.amount k = 0) : t.total = 0 := by
  apply List.sum_eq_zero
  intro a ha
  obtain ⟨⟨k, b⟩, hmem, rfl⟩ := List.mem_map.mp ha
  have hk := h k
  rwa [amount, mem_iff.mp hmem] at hk

/-- The total depends on the amounts only. -/
theorem total_congr {t u : Table κ α} (h : ∀ k, t.amount k = u.amount k) : t.total = u.total := by
  induction hn : t.rows.length using Nat.strongRecOn generalizing t u with
  | ind n ih =>
    obtain ⟨rows, unique⟩ := t
    cases rows with
    | nil =>
      have hzero : ∀ k, u.amount k = 0 := fun k => (h k).symm
      rw [total_eq_zero hzero]
      rfl
    | cons row rows =>
      rw [total_eq _ row.1, total_eq u row.1, h]
      congr 1
      refine ih (erase ⟨row :: rows, unique⟩ row.1).rows.length ?_ ?_ rfl
      · have hle := List.length_filter_le (fun r : κ × α => decide (r.1 ≠ row.1)) rows
        have hlen : rows.length < n := by simp [← hn]
        simp only [erase, retain, deleteWhere, Bool.not_not, List.filter_cons, ne_eq, not_true,
          decide_false, Bool.false_eq_true, if_false]
        exact Nat.lt_of_le_of_lt hle hlen
      · intro k
        rw [amount_erase, amount_erase, h]

/-! ## lists of credits -/

/-- Credit a list of amounts, one after another. -/
def creditAll (t : Table κ α) (credits : List (κ × α)) : Table κ α :=
  credits.foldl (fun t c => t.credit c.1 c.2) t

theorem amount_creditAll (t : Table κ α) (credits : List (κ × α)) (k : κ) :
    (t.creditAll credits).amount k = t.amount k + creditedTo credits k := by
  induction credits generalizing t with
  | nil => simp [creditAll, creditedTo]
  | cons c credits ih =>
    show ((t.credit c.1 c.2).creditAll credits).amount k = _
    rw [ih, amount_credit, creditedTo_cons, add_assoc]

theorem total_creditAll (t : Table κ α) (credits : List (κ × α)) :
    (t.creditAll credits).total = t.total + (credits.map (·.2)).sum := by
  induction credits generalizing t with
  | nil => simp [creditAll]
  | cons c credits ih =>
    show ((t.credit c.1 c.2).creditAll credits).total = _
    rw [ih, total_credit, List.map_cons, List.sum_cons, add_assoc]

/-- Buckets that hold what a list of credits adds up to hold all of it. -/
theorem total_of_amounts {t : Table κ α} {credits : List (κ × α)}
    (h : ∀ k, t.amount k = creditedTo credits k) : t.total = (credits.map (·.2)).sum := by
  have hsame : ∀ k, t.amount k = (empty.creditAll credits).amount k := by
    intro k
    rw [h, amount_creditAll]
    exact (zero_add _).symm
  rw [total_congr hsame, total_creditAll]
  exact zero_add _

end Table

end ClaudeReplay.Lib
