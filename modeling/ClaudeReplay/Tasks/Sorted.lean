import ClaudeReplay.Tasks
import Mathlib.Data.List.Nodup
import Std.Data.String.ToNat

/-!
# ClaudeReplay.Tasks.Sorted

The order of the task list.

`compareId` is a linear order of the ids: two ids that compare equal are the same. So a list
that is sorted and names no task twice is determined by its tasks (`Orderly.ext`), and the
fold's list is one after every operation (`TaskFold.Tidy.replay`).
-/

namespace ClaudeReplay

open Std (TransCmp OrientedCmp)

/-! ## the order of the ids -/

instance : OrientedCmp compareNumber where
  eq_swap {a b} := by
    cases a with
    | none => cases b <;> rfl
    | some x =>
      cases b with
      | none => rfl
      | some y => exact @OrientedCmp.eq_swap Nat compare _ x y

instance : TransCmp compareNumber where
  isLE_trans {a b c} hab hbc := by
    cases a with
    | none =>
      cases b with
      | none => exact hbc
      | some y => simp [compareNumber] at hab
    | some x =>
      cases b with
      | none =>
        cases c with
        | none => rfl
        | some z => simp [compareNumber] at hbc
      | some y =>
        cases c with
        | none => rfl
        | some z => exact @TransCmp.isLE_trans Nat compare _ x y z hab hbc

instance : OrientedCmp fun a b => compareNumber (idNumber a) (idNumber b) where
  eq_swap {a b} := @OrientedCmp.eq_swap _ compareNumber _ (idNumber a) (idNumber b)

instance : TransCmp fun a b => compareNumber (idNumber a) (idNumber b) where
  isLE_trans {a b c} :=
    @TransCmp.isLE_trans _ compareNumber _ (idNumber a) (idNumber b) (idNumber c)

instance : TransCmp compareId :=
  inferInstanceAs (TransCmp (compareLex (compareOn idPrefix)
    (compareLex (fun a b => compareNumber (idNumber a) (idNumber b)) compare)))

/-- Ids that compare equal are the same. -/
theorem eq_of_compareId {a b : String} (h : compareId a b = .eq) : a = b := by
  rw [compareId, Ordering.then_eq_eq, Ordering.then_eq_eq] at h
  exact Std.LawfulEqOrd.eq_of_compare h.2.2

/-- `a` stands no later than `b`. -/
def TaskItem.Le (a b : TaskItem) : Prop := (compareId a.id b.id).isLE = true

instance : DecidableRel TaskItem.Le := fun a b =>
  inferInstanceAs (Decidable ((compareId a.id b.id).isLE = true))

instance : IsTrans TaskItem TaskItem.Le where
  trans _ _ _ := @TransCmp.isLE_trans _ compareId _ _ _ _

instance : Std.Total TaskItem.Le where
  total a b := by
    rw [TaskItem.Le, TaskItem.Le, @OrientedCmp.eq_swap _ compareId _ b.id a.id]
    cases compareId a.id b.id <;> simp

/-! ## orderly lists -/

/-- A list that is sorted and names no task twice. -/
structure Orderly (items : List TaskItem) : Prop where
  nodup : (items.map (·.id)).Nodup
  sorted : items.Pairwise TaskItem.Le

theorem sortItems_perm (items : List TaskItem) : (sortItems items).Perm items :=
  List.perm_insertionSort _ items

/-- Sorting a list that names no task twice. -/
theorem orderly_sortItems {items : List TaskItem} (h : (items.map (·.id)).Nodup) :
    Orderly (sortItems items) where
  nodup := ((sortItems_perm items).map _).nodup_iff.mpr h
  sorted := List.pairwise_insertionSort TaskItem.Le items

/-- A task is the one task of its id. -/
theorem eq_of_id {items : List TaskItem} (h : (items.map (·.id)).Nodup) {a b : TaskItem}
    (ha : a ∈ items) (hb : b ∈ items) (hid : a.id = b.id) : a = b :=
  List.inj_on_of_nodup_map h ha hb hid

/-- **Orderly lists of the same tasks are the same.** -/
theorem Orderly.ext {items items' : List TaskItem} (h : Orderly items) (h' : Orderly items')
    (hmem : ∀ t, t ∈ items ↔ t ∈ items') : items = items' := by
  have hperm : items.Perm items' :=
    (List.perm_ext_iff_of_nodup h.nodup.of_map h'.nodup.of_map).mpr hmem
  refine hperm.eq_of_pairwise ?_ h.sorted h'.sorted
  intro a b ha hb hab hba
  refine eq_of_id h.nodup ha ((hmem b).mpr hb) (eq_of_compareId ?_)
  exact OrientedCmp.isLE_antisymm hab hba

/-! ## looking a task up -/

/-- The task of an id. -/
def lookup (items : List TaskItem) (id : String) : Option TaskItem := items.find? (·.id = id)

theorem lookup_eq_some {items : List TaskItem} (h : (items.map (·.id)).Nodup) {id : String}
    {t : TaskItem} : lookup items id = some t ↔ t ∈ items ∧ t.id = id := by
  constructor
  · intro hfind
    exact ⟨List.mem_of_find?_eq_some hfind, by simpa using List.find?_some hfind⟩
  · rintro ⟨hmem, rfl⟩
    cases hfind : lookup items t.id with
    | none =>
      have hnone := List.find?_eq_none.mp hfind t hmem
      simp at hnone
    | some u =>
      have hid : u.id = t.id := by simpa using List.find?_some hfind
      rw [eq_of_id h (List.mem_of_find?_eq_some hfind) hmem hid]

/-- Orderly lists that find the same tasks are the same. -/
theorem Orderly.ext_lookup {items items' : List TaskItem} (h : Orderly items)
    (h' : Orderly items') (heq : ∀ id, lookup items id = lookup items' id) : items = items' := by
  refine h.ext h' fun t => ?_
  have ht := @lookup_eq_some items h.nodup t.id t
  have ht' := @lookup_eq_some items' h'.nodup t.id t
  rw [heq, ht'] at ht
  simpa using ht.symm

theorem lookup_sortItems {items : List TaskItem} (h : (items.map (·.id)).Nodup) (id : String) :
    lookup (sortItems items) id = lookup items id := by
  refine Option.ext fun t => ?_
  rw [lookup_eq_some (orderly_sortItems h).nodup, lookup_eq_some h,
    (sortItems_perm items).mem_iff]

/-! ## what the operations do to the list -/

theorem ids_updateItem {f : TaskItem → TaskItem} (hf : ∀ t, (f t).id = t.id) (id : String)
    (items : List TaskItem) :
    (updateItem id f items).map (·.id) =
      if id ∈ items.map (·.id) then items.map (·.id) else items.map (·.id) ++ [id] := by
  induction items with
  | nil => simp [updateItem, hf]
  | cons t ts ih =>
    by_cases ht : t.id = id
    · simp [updateItem, ht, hf]
    · simp only [updateItem, ht, if_false, List.map_cons, ih, List.mem_cons, Ne.symm ht, false_or]
      split <;> rfl

theorem nodup_updateItem {f : TaskItem → TaskItem} (hf : ∀ t, (f t).id = t.id) (id : String)
    {items : List TaskItem} (h : (items.map (·.id)).Nodup) :
    ((updateItem id f items).map (·.id)).Nodup := by
  rw [ids_updateItem hf]
  split
  · exact h
  · next hid => exact h.append (List.nodup_singleton id) (by simpa using hid)

/-- An update writes the task of its id, or a stub, and no other. -/
theorem lookup_updateItem {f : TaskItem → TaskItem} (hf : ∀ t, (f t).id = t.id) (id : String)
    (items : List TaskItem) (id' : String) :
    lookup (updateItem id f items) id' =
      if id' = id then some (f ((lookup items id).getD { id })) else lookup items id' := by
  induction items with
  | nil =>
    by_cases h : id' = id
    · simp [updateItem, lookup, hf, h]
    · simp [updateItem, lookup, hf, h, Ne.symm h]
  | cons t ts ih =>
    by_cases ht : t.id = id
    · by_cases h : id' = id
      · simp [updateItem, lookup, ht, hf, h]
      · simp [updateItem, lookup, ht, hf, h, Ne.symm h]
    · simp only [lookup] at ih
      by_cases h : t.id = id'
      · have hne : id' ≠ id := fun he => ht (h.trans he)
        simp [updateItem, lookup, h, hne]
      · simp [updateItem, lookup, ht, h, ih]

/-- Landing an item replaces the one of its id. -/
theorem nodup_land {items : List TaskItem} (h : (items.map (·.id)).Nodup) (item : TaskItem) :
    (((items.filter fun t => decide (t.id ≠ item.id)) ++ [item]).map (·.id)).Nodup := by
  rw [List.map_append]
  refine (h.sublist (List.filter_sublist.map _)).append (List.nodup_singleton _) ?_
  simp

theorem lookup_land (items : List TaskItem) (item : TaskItem) (id : String) :
    lookup ((items.filter fun t => decide (t.id ≠ item.id)) ++ [item]) id =
      if id = item.id then some item else lookup items id := by
  rw [lookup, List.find?_append]
  by_cases h : id = item.id
  · have hnone : (items.filter fun t => decide (t.id ≠ item.id)).find? (fun t => decide (t.id = id)) =
        none := by
      rw [List.find?_eq_none]
      intro t ht
      have hne : t.id ≠ item.id := by simpa using (List.mem_filter.mp ht).2
      simpa [h] using hne
    rw [hnone, if_pos h]
    simp [h]
  · have hsame : (items.filter fun t => decide (t.id ≠ item.id)).find? (fun t => decide (t.id = id)) =
        items.find? fun t => decide (t.id = id) := by
      rw [List.find?_filter]
      congr 1
      funext t
      by_cases ht : t.id = id
      · simp [ht, h]
      · simp [ht]
    rw [hsame, if_neg h]
    simp [Ne.symm h, lookup]

theorem nodup_snapshotItems (todos : List Todo) : ((snapshotItems todos).map (·.id)).Nodup := by
  have hids : (snapshotItems todos).map (·.id) = (List.range todos.length).map toString := by
    refine List.ext_getElem (by simp [snapshotItems]) fun i h h' => ?_
    simp [snapshotItems]
  rw [hids]
  exact List.nodup_range.map fun _ _ h => Nat.repr_injective h

/-! ## every operation keeps the list orderly -/

/-- A fold whose list is orderly, and so is the one it may put back. The drafts that wait for
their ids are as a create made them. -/
structure TaskFold.Tidy (f : TaskFold) : Prop where
  items : Orderly f.items
  held : ∀ id items, f.held = some (id, items) → Orderly items
  drafts : ∀ p ∈ f.pending, p.2.status = .pending ∧ p.2.blocks = []

theorem TaskFold.tidy_start : TaskFold.Tidy {} :=
  ⟨⟨List.nodup_nil, .nil⟩, by simp, by simp⟩

theorem TaskItem.update_id (t : TaskItem) (status subject description activeForm : Option String)
    (addBlocks addBlockedBy : List String) :
    (t.update status subject description activeForm addBlocks addBlockedBy).id = t.id := rfl

theorem TaskFold.Tidy.join {f : TaskFold} (h : f.Tidy) (toolUseId : String) (id : Option String) :
    (f.join toolUseId id).Tidy := by
  have hdrafts : ∀ p ∈ f.pending.eraseP (fun p => p.1 = toolUseId),
      p.2.status = .pending ∧ p.2.blocks = [] := fun p hp => h.drafts p (List.mem_of_mem_eraseP hp)
  unfold TaskFold.join
  split
  · exact h
  · next draft _ =>
    cases id with
    | none => exact ⟨h.items, h.held, hdrafts⟩
    | some id =>
      refine ⟨?_, h.held, hdrafts⟩
      simp only
      split
      · exact orderly_sortItems (nodup_land h.items.nodup ({ draft with id }.landOver _))
      · exact orderly_sortItems (nodup_land h.items.nodup { draft with id })

/-- **One operation keeps the list orderly.** -/
theorem TaskFold.Tidy.applyRecorded {f : TaskFold} (h : f.Tidy) (op : TaskOp) :
    (f.applyRecorded op).Tidy := by
  cases op with
  | create toolUseId subject description activeForm blockedBy =>
    refine ⟨h.items, h.held, fun p hp => ?_⟩
    obtain hp | hp := List.mem_append.mp hp
    · exact h.drafts p hp
    · rw [List.mem_singleton.mp hp]
      exact ⟨rfl, rfl⟩
  | resolve toolUseId id => exact h.join toolUseId id
  | update taskId status subject description activeForm addBlocks addBlockedBy =>
    refine ⟨orderly_sortItems (nodup_updateItem ?_ taskId h.items.nodup), h.held, h.drafts⟩
    exact fun t => t.update_id status subject description activeForm addBlocks addBlockedBy
  | snapshot todos toolUseId =>
    simp only [TaskFold.applyRecorded]
    split
    · refine ⟨orderly_sortItems (nodup_snapshotItems todos), fun id items hheld => ?_, h.drafts⟩
      simp only [Option.map_eq_some_iff, Prod.mk.injEq] at hheld
      obtain ⟨-, -, -, rfl⟩ := hheld
      exact h.items
    · exact h
  | retract toolUseId =>
    simp only [TaskFold.applyRecorded]
    split
    · next id items hheld =>
      split
      · exact ⟨h.held id items hheld, by simp, h.drafts⟩
      · exact h
    · exact h

theorem TaskFold.Tidy.replay {f : TaskFold} (h : f.Tidy) (ops : List TaskOp) :
    (f.replay ops).Tidy := by
  induction ops generalizing f with
  | nil => exact h
  | cons op ops ih => exact ih (h.applyRecorded op)

end ClaudeReplay
