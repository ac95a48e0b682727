import ClaudeReplay.Lib.Table

/-!
# ClaudeReplay.Lib.Groups

Grouping: a table of lists, to which each entry is pushed under its key. A group is what
a scan of the entries for its key finds, in their order.
-/

namespace ClaudeReplay.Lib

variable {κ ν α : Type} [DecidableEq κ]

namespace Table

/-- The group of a key. A key without one has the empty group. -/
def group (t : Table κ (List ν)) (k : κ) : List ν := (t.find? k).getD []

/-- One value more in the group of `k`. -/
def push (t : Table κ (List ν)) (k : κ) (v : ν) : Table κ (List ν) := t.put k (t.group k ++ [v])

theorem group_push (t : Table κ (List ν)) (k : κ) (v : ν) (j : κ) :
    (t.push k v).group j = if k = j then t.group j ++ [v] else t.group j := by
  by_cases hj : k = j
  · subst hj
    simp [push, group, find?_put]
  · simp [push, group, find?_put, hj, Ne.symm hj]

end Table

/-- The groups of the entries that `entry` makes. -/
def groupBy (entry : α → Option (κ × ν)) (xs : List α) : Table κ (List ν) :=
  xs.foldl (fun t x => (entry x).elim t fun e => t.push e.1 e.2) .empty

/-- **A group is what a scan finds.** -/
theorem group_groupBy (entry : α → Option (κ × ν)) (xs : List α) (k : κ) :
    (groupBy entry xs).group k =
      xs.filterMap fun x => (entry x).bind fun e => if e.1 = k then some e.2 else none := by
  have hfold : ∀ (xs : List α) (t : Table κ (List ν)),
      (xs.foldl (fun t x => (entry x).elim t fun e => t.push e.1 e.2) t).group k = t.group k ++
        xs.filterMap fun x => (entry x).bind fun e => if e.1 = k then some e.2 else none := by
    intro xs
    induction xs with
    | nil => simp
    | cons x xs ih =>
      intro t
      rw [List.foldl_cons, ih, List.filterMap_cons]
      cases hentry : entry x with
      | none => simp
      | some e =>
        simp only [Option.elim_some, Table.group_push, Option.bind_some]
        by_cases hk : e.1 = k <;> simp [hk]
  exact hfold xs .empty

theorem mem_group_groupBy {entry : α → Option (κ × ν)} {xs : List α} {k : κ} {v : ν} :
    v ∈ (groupBy entry xs).group k ↔ ∃ x ∈ xs, entry x = some (k, v) := by
  rw [group_groupBy, List.mem_filterMap]
  apply exists_congr
  intro x
  apply and_congr_right
  intro _
  cases hentry : entry x with
  | none => simp
  | some e =>
    obtain ⟨j, w⟩ := e
    by_cases hk : j = k <;> simp [hk]

end ClaudeReplay.Lib
