import Mathlib.Data.List.Basic
import Mathlib.Data.List.Nodup
import Mathlib.Data.List.Perm.Basic

/-!
# ClaudeReplay.Lib.Table

Tables with a primary key: finitely many rows, no two under one key. That the keys
are distinct is a field of the table, so no operation can produce a duplicate.

The operations are those of a relational store: insert under a fresh key, insert
or ignore, update one row, delete where a condition holds. Each has one lookup
rule, and a program's proofs use only these.
-/

namespace ClaudeReplay.Lib

variable {κ ν : Type} [DecidableEq κ]

/-- Looking a key up reads the first row under it. -/
theorem lookup_cons_ite (row : κ × ν) (rows : List (κ × ν)) (k : κ) :
    (row :: rows).lookup k = if k = row.1 then some row.2 else rows.lookup k := by
  rw [List.lookup_cons]
  by_cases hk : k = row.1
  · simp [hk]
  · simp [hk, beq_eq_false_iff_ne.mpr hk]

/-- A list without duplicates whose elements are all one. -/
theorem eq_singleton_of_nodup {α : Type} {xs : List α} {x : α} (h : xs.Nodup) (hx : x ∈ xs)
    (hall : ∀ y ∈ xs, y = x) : xs = [x] := by
  apply List.Perm.eq_singleton
  rw [List.perm_ext_iff_of_nodup h (by simp)]
  intro y
  rw [List.mem_singleton]
  exact ⟨hall y, fun hy => hy ▸ hx⟩

/-- Looking up in rows whose values are mapped. -/
theorem lookup_map {μ : Type} (rows : List (κ × ν)) (f : ν → μ) (k : κ) :
    (rows.map fun row => (row.1, f row.2)).lookup k = (rows.lookup k).map f := by
  induction rows with
  | nil => rfl
  | cons row rows ih =>
    rw [List.map_cons, lookup_cons_ite, lookup_cons_ite, ih]
    grind

/-- A table with rows of type `ν` under a primary key of type `κ`. -/
structure Table (κ ν : Type) where
  rows : List (κ × ν)
  unique : (rows.map Prod.fst).Nodup

namespace Table

/-- The table without rows. -/
def empty : Table κ ν := ⟨[], List.nodup_nil⟩

/-- The row under `k`. -/
def find? (t : Table κ ν) (k : κ) : Option ν := t.rows.lookup k

/-- How many rows the table has. -/
def count (t : Table κ ν) : Nat := t.rows.length

theorem mem_iff {t : Table κ ν} {k : κ} {v : ν} : (k, v) ∈ t.rows ↔ t.find? k = some v := by
  obtain ⟨rows, unique⟩ := t
  simp only [find?]
  induction rows with
  | nil => simp
  | cons row rows ih =>
    obtain ⟨j, w⟩ := row
    simp only [List.map_cons, List.nodup_cons] at unique
    rw [List.mem_cons, ih unique.2, lookup_cons_ite]
    by_cases hk : k = j
    · subst hk
      have hfresh : rows.lookup k ≠ some v := by
        intro h
        exact unique.1 (List.mem_map.mpr ⟨(k, v), (ih unique.2).mpr h, rfl⟩)
      simp [hfresh, eq_comm]
    · simp [hk]

theorem find?_eq_none_iff {t : Table κ ν} {k : κ} :
    t.find? k = none ↔ k ∉ t.rows.map Prod.fst := by
  rw [Option.eq_none_iff_forall_ne_some]
  constructor
  · intro h hk
    obtain ⟨⟨j, v⟩, hmem, rfl⟩ := List.mem_map.mp hk
    exact h v (mem_iff.mp hmem)
  · intro h v hv
    exact h (List.mem_map.mpr ⟨(k, v), mem_iff.mpr hv, rfl⟩)

/-! ## insertion -/

/-- Insert a row; a row already under its key refuses the insertion. -/
def insert? (t : Table κ ν) (k : κ) (v : ν) : Option (Table κ ν) :=
  if h : t.find? k = none then
    some ⟨(k, v) :: t.rows, List.nodup_cons.mpr ⟨find?_eq_none_iff.mp h, t.unique⟩⟩
  else
    none

theorem insert?_isSome {t : Table κ ν} {k : κ} {v : ν} (h : t.find? k = none) :
    (t.insert? k v).isSome = true := by
  simp [insert?, h]

theorem find?_insert? {t u : Table κ ν} {k : κ} {v : ν} (h : t.insert? k v = some u) (j : κ) :
    u.find? j = if j = k then some v else t.find? j := by
  unfold insert? at h
  split at h
  · obtain rfl := Option.some.inj h
    show List.lookup j ((k, v) :: t.rows) = _
    rw [lookup_cons_ite]
    by_cases hj : j = k <;> simp [hj, find?]
  · cases h

/-- Insert a row; a row already under its key stays. -/
def insertOrIgnore (t : Table κ ν) (k : κ) (v : ν) : Table κ ν := (t.insert? k v).getD t

theorem find?_insertOrIgnore (t : Table κ ν) (k : κ) (v : ν) (j : κ) :
    (t.insertOrIgnore k v).find? j = if j = k then (t.find? k).or (some v) else t.find? j := by
  unfold insertOrIgnore
  cases h : t.insert? k v with
  | some u =>
    have hfresh : t.find? k = none := by
      unfold insert? at h
      split at h
      · assumption
      · cases h
    rw [Option.getD_some, find?_insert? h, hfresh, Option.none_or]
  | none =>
    cases hk : t.find? k with
    | none =>
      have := insert?_isSome (v := v) hk
      simp [h] at this
    | some w =>
      by_cases hj : j = k
      · subst hj
        simp [hk]
      · simp [hj]

/-- Copy the rows of a list in, each unless its key is taken. -/
def insertAllOrIgnore (t : Table κ ν) (rows : List (κ × ν)) : Table κ ν :=
  rows.foldl (fun t row => t.insertOrIgnore row.1 row.2) t

/-- What a table already holds under a key, copying rows in does not change. -/
theorem find?_insertAllOrIgnore (t : Table κ ν) (rows : List (κ × ν)) (k : κ) :
    (t.insertAllOrIgnore rows).find? k = (t.find? k).or (rows.lookup k) := by
  induction rows generalizing t with
  | nil => simp [insertAllOrIgnore]
  | cons row rows ih =>
    show ((t.insertOrIgnore row.1 row.2).insertAllOrIgnore rows).find? k = _
    rw [ih, find?_insertOrIgnore, lookup_cons_ite]
    by_cases hk : k = row.1
    · subst hk
      cases t.find? row.1 <;> simp
    · simp [hk]

/-! ## update -/

/-- Replace the value under `k` by its image; nothing else changes. -/
def update (t : Table κ ν) (k : κ) (f : ν → ν) : Table κ ν where
  rows := t.rows.map fun row => (row.1, if row.1 = k then f row.2 else row.2)
  unique := by
    rw [List.map_map]
    exact t.unique

theorem find?_update (t : Table κ ν) (k : κ) (f : ν → ν) (j : κ) :
    (t.update k f).find? j = if j = k then (t.find? k).map f else t.find? j := by
  obtain ⟨rows, unique⟩ := t
  simp only [update, find?]
  clear unique
  induction rows with
  | nil => simp
  | cons row rows ih =>
    obtain ⟨i, w⟩ := row
    simp only [List.map_cons, lookup_cons_ite]
    grind

/-- Replace every value by its image. -/
def mapValues (t : Table κ ν) (f : ν → ν) : Table κ ν where
  rows := t.rows.map fun row => (row.1, f row.2)
  unique := by
    rw [List.map_map]
    exact t.unique

theorem find?_mapValues (t : Table κ ν) (f : ν → ν) (k : κ) :
    (t.mapValues f).find? k = (t.find? k).map f :=
  lookup_map t.rows f k

/-- Replace every value by its image, which may read the key. -/
def mapRows (t : Table κ ν) (f : κ → ν → ν) : Table κ ν where
  rows := t.rows.map fun row => (row.1, f row.1 row.2)
  unique := by
    rw [List.map_map]
    exact t.unique

theorem find?_mapRows (t : Table κ ν) (f : κ → ν → ν) (k : κ) :
    (t.mapRows f).find? k = (t.find? k).map (f k) := by
  obtain ⟨rows, unique⟩ := t
  simp only [mapRows, find?]
  clear unique
  induction rows with
  | nil => rfl
  | cons row rows ih =>
    rw [List.map_cons, lookup_cons_ite, lookup_cons_ite, ih]
    grind

/-- The table whose rows are the images of another's, under the same keys. -/
def image {μ : Type} (t : Table κ ν) (f : κ → ν → μ) : Table κ μ where
  rows := t.rows.map fun row => (row.1, f row.1 row.2)
  unique := by
    rw [List.map_map]
    exact t.unique

theorem find?_image {μ : Type} (t : Table κ ν) (f : κ → ν → μ) (k : κ) :
    (t.image f).find? k = (t.find? k).map (f k) := by
  obtain ⟨rows, unique⟩ := t
  simp only [image, find?]
  clear unique
  induction rows with
  | nil => rfl
  | cons row rows ih =>
    rw [List.map_cons, lookup_cons_ite, lookup_cons_ite, ih]
    grind

/-! ## deletion -/

/-- The rows that satisfy `p`. -/
def select (t : Table κ ν) (p : κ → ν → Bool) : List (κ × ν) :=
  t.rows.filter fun row => p row.1 row.2

/-- Delete the rows that satisfy `p`. -/
def deleteWhere (t : Table κ ν) (p : κ → ν → Bool) : Table κ ν where
  rows := t.rows.filter fun row => !p row.1 row.2
  unique := t.unique.sublist (List.filter_sublist.map Prod.fst)

theorem find?_deleteWhere (t : Table κ ν) (p : κ → ν → Bool) (k : κ) :
    (t.deleteWhere p).find? k = (t.find? k).filter fun v => !p k v := by
  apply Option.ext
  intro v
  rw [← mem_iff, Option.filter_eq_some_iff, ← mem_iff]
  simp [deleteWhere]

theorem lookup_select (t : Table κ ν) (p : κ → ν → Bool) (k : κ) :
    (t.select p).lookup k = (t.find? k).filter fun v => p k v := by
  have h := find?_deleteWhere t (fun k v => !p k v) k
  simp only [Bool.not_not] at h
  rw [← h]
  simp [select, deleteWhere, find?]

/-- Write the row under `k`, in place of the one that stands there. -/
def put (t : Table κ ν) (k : κ) (v : ν) : Table κ ν where
  rows := (k, v) :: t.rows.filter fun row => row.1 ≠ k
  unique := by
    refine List.nodup_cons.mpr ⟨?_, t.unique.sublist (List.filter_sublist.map Prod.fst)⟩
    intro hmem
    obtain ⟨row, hrow, heq⟩ := List.mem_map.mp hmem
    exact absurd heq (by simpa using (List.mem_filter.mp hrow).2)

/-- Keep the rows that satisfy `p`. -/
def retain (t : Table κ ν) (p : κ → ν → Bool) : Table κ ν := t.deleteWhere fun k v => !p k v

theorem find?_retain (t : Table κ ν) (p : κ → ν → Bool) (k : κ) :
    (t.retain p).find? k = (t.find? k).filter fun v => p k v := by
  rw [retain, find?_deleteWhere]
  simp only [Bool.not_not]

/-- Delete the row under `k`. -/
def erase (t : Table κ ν) (k : κ) : Table κ ν := t.retain fun j _ => j ≠ k

theorem find?_erase (t : Table κ ν) (k j : κ) :
    (t.erase k).find? j = if j = k then none else t.find? j := by
  rw [erase, find?_retain]
  by_cases hj : j = k
  · simp [hj]
  · cases t.find? j <;> simp [hj]

theorem find?_put (t : Table κ ν) (k : κ) (v : ν) (j : κ) :
    (t.put k v).find? j = if j = k then some v else t.find? j := by
  show List.lookup j ((k, v) :: t.rows.filter fun row => row.1 ≠ k) = _
  rw [lookup_cons_ite]
  by_cases hj : j = k
  · rw [if_pos hj, if_pos hj]
  · rw [if_neg hj, if_neg hj]
    have herase := find?_erase t k j
    rw [if_neg hj] at herase
    rw [← herase]
    simp [erase, retain, deleteWhere, find?]

theorem find?_empty (k : κ) : (empty : Table κ ν).find? k = none := rfl

/-! ## rows -/

omit [DecidableEq κ] in
/-- The rows are those that are kept and those that are not. -/
theorem perm_retain (t : Table κ ν) (p : κ → ν → Bool) :
    t.rows.Perm (t.select (fun k v => !p k v) ++ (t.retain p).rows) := by
  have h := (List.filter_append_perm (fun row : κ × ν => !p row.1 row.2) t.rows).symm
  simpa only [select, retain, deleteWhere] using h

/-- The rows are the one that is erased and the others. -/
theorem perm_erase {t : Table κ ν} {k : κ} {v : ν} (h : t.find? k = some v) :
    t.rows.Perm ((k, v) :: (t.erase k).rows) := by
  have hone : t.select (fun j _ => !decide (j ≠ k)) = [(k, v)] := by
    apply eq_singleton_of_nodup
    · exact (List.Nodup.of_map Prod.fst t.unique).filter _
    · simp [select, mem_iff.mpr h]
    · rintro ⟨j, w⟩ hmem
      simp only [select, List.mem_filter, ne_eq, decide_not, Bool.not_not, decide_eq_true_eq] at hmem
      obtain ⟨hmem, rfl⟩ := hmem
      rw [mem_iff, h, Option.some.injEq] at hmem
      rw [hmem]
  have h := t.perm_retain fun j _ => decide (j ≠ k)
  rwa [hone] at h

/-- A new row stands before the others. -/
theorem rows_put {t : Table κ ν} {k : κ} (h : ∀ row ∈ t.rows, row.1 ≠ k) (v : ν) :
    (t.put k v).rows = (k, v) :: t.rows := by
  show (k, v) :: t.rows.filter _ = _
  rw [List.filter_eq_self.mpr]
  intro row hrow
  simpa using h row hrow

/-- Write the rows of a list, one after another. -/
def putAll (t : Table κ ν) (rows : List (κ × ν)) : Table κ ν :=
  rows.foldl (fun t row => t.put row.1 row.2) t

/-- Rows under different keys are all there afterwards. -/
theorem find?_putAll (t : Table κ ν) {rows : List (κ × ν)} (h : (rows.map Prod.fst).Nodup) (k : κ) :
    (t.putAll rows).find? k = (rows.lookup k).or (t.find? k) := by
  induction rows generalizing t with
  | nil => rfl
  | cons row rows ih =>
    rw [List.map_cons, List.nodup_cons] at h
    show ((t.put row.1 row.2).putAll rows).find? k = _
    rw [ih _ h.2, find?_put, lookup_cons_ite]
    by_cases hk : k = row.1
    · have hfresh : rows.lookup k = none := by
        rw [List.lookup_eq_none_iff]
        rintro ⟨j, v⟩ hmem
        have hne : k ≠ j := fun heq => h.1 (hk ▸ heq ▸ List.mem_map_of_mem (f := Prod.fst) hmem)
        simpa using hne
      simp [hk ▸ hfresh, hk]
    · simp [hk]

end Table

end ClaudeReplay.Lib
