import Mathlib.Data.List.Basic
import Mathlib.Data.List.Nodup

/-!
# ClaudeReplay.Lib.Distinct

Insertion into maps by key, as a scripting language has them: the first of the elements under each
key (`distinctBy`), and the last of the rows written under a key (`lastOf`).
-/

namespace ClaudeReplay.Lib

variable {α κ ν : Type} [DecidableEq κ]

/-! ## the first under each key -/

/-- The elements whose key is not among `seen` and not that of an earlier element. -/
def distinctFrom (key : α → κ) (seen : List κ) : List α → List α
  | [] => []
  | x :: xs =>
    if key x ∈ seen then distinctFrom key seen xs
    else x :: distinctFrom key (key x :: seen) xs

/-- The first element under each key. -/
def distinctBy (key : α → κ) (xs : List α) : List α := distinctFrom key [] xs

theorem length_distinctFrom_le (key : α → κ) (seen : List κ) (xs : List α) :
    (distinctFrom key seen xs).length ≤ xs.length := by
  induction xs generalizing seen with
  | nil => exact Nat.le_refl _
  | cons x xs ih =>
    rw [distinctFrom]
    split
    · exact Nat.le_succ_of_le (ih seen)
    · exact Nat.succ_le_succ (ih _)

/-- All are kept exactly when no key comes twice. -/
theorem length_distinctFrom_iff (key : α → κ) (seen : List κ) (xs : List α) :
    (distinctFrom key seen xs).length = xs.length ↔
      (xs.map key).Nodup ∧ ∀ x ∈ xs, key x ∉ seen := by
  induction xs generalizing seen with
  | nil => simp [distinctFrom]
  | cons x xs ih =>
    rw [distinctFrom]
    split
    · next hseen =>
      have hle := length_distinctFrom_le key seen xs
      constructor
      · intro h
        rw [List.length_cons] at h
        omega
      · intro h
        exact absurd hseen (h.2 x List.mem_cons_self)
    · next hnew =>
      rw [List.length_cons, List.length_cons, Nat.succ_inj, ih, List.map_cons, List.nodup_cons]
      simp only [List.mem_cons, List.mem_map, not_exists, not_and, not_or]
      grind

theorem distinctFrom_eq_self {key : α → κ} {seen : List κ} {xs : List α}
    (h : (xs.map key).Nodup) (hseen : ∀ x ∈ xs, key x ∉ seen) : distinctFrom key seen xs = xs := by
  induction xs generalizing seen with
  | nil => rfl
  | cons x xs ih =>
    rw [List.map_cons, List.nodup_cons] at h
    rw [distinctFrom, if_neg (hseen x List.mem_cons_self), ih h.2]
    intro y hy
    rw [List.mem_cons, not_or]
    constructor
    · intro heq
      exact h.1 (List.mem_map.mpr ⟨y, hy, heq⟩)
    · exact hseen y (List.mem_cons_of_mem _ hy)

theorem distinctBy_eq_self {key : α → κ} {xs : List α} (h : (xs.map key).Nodup) :
    distinctBy key xs = xs :=
  distinctFrom_eq_self h fun _ _ => by simp

theorem length_distinctBy_iff {key : α → κ} {xs : List α} :
    (distinctBy key xs).length = xs.length ↔ (xs.map key).Nodup := by
  rw [distinctBy, length_distinctFrom_iff]
  simp

/-! ## the last under a key -/

/-- The value that was written last under the key. -/
def lastOf (rows : List (κ × ν)) (k : κ) : Option ν := rows.reverse.lookup k

theorem lastOf_append (rows more : List (κ × ν)) (k : κ) :
    lastOf (rows ++ more) k = (lastOf more k).or (lastOf rows k) := by
  rw [lastOf, List.reverse_append, List.lookup_append]
  rfl

/-- Where no key comes twice, a row is the last under its key. -/
theorem lastOf_of_mem {rows : List (κ × ν)} {k : κ} {v : ν} (h : (rows.map Prod.fst).Nodup)
    (hmem : (k, v) ∈ rows) : lastOf rows k = some v := by
  have h : (rows.reverse.map Prod.fst).Nodup := by rwa [List.map_reverse, List.nodup_reverse]
  have hmem : (k, v) ∈ rows.reverse := List.mem_reverse.mpr hmem
  rw [lastOf]
  generalize rows.reverse = rows at h hmem
  induction rows with
  | nil => contradiction
  | cons row rows ih =>
    rw [List.map_cons, List.nodup_cons] at h
    obtain rfl | hmem := List.mem_cons.mp hmem
    · rw [List.lookup_cons, beq_self_eq_true]
    · rw [List.lookup_cons, beq_eq_false_iff_ne.mpr]
      · exact ih h.2 hmem
      · rintro rfl
        exact h.1 (List.mem_map.mpr ⟨_, hmem, rfl⟩)

end ClaudeReplay.Lib
