import ClaudeReplay.Tasks.Sorted

/-!
# ClaudeReplay.Tasks.Edit

What an operation does to the task list.

Either it puts another list in its place (`TaskFold.replaces`), or it edits at most one task.
An `Edit` is what an update and the landing of a draft have in common: it sets fields and
adds edges, on the task of its id or on a stub. Edits compose, and doing one again changes
nothing (`Edit.on_on`).
-/

namespace ClaudeReplay

/-! ## edits -/

/-- Fields set and edges added. `reset` takes the place of the blockers before any is added. -/
structure Edit where
  status : Option TaskStatus := none
  subject : Option String := none
  description : Option String := none
  activeForm : Option String := none
  blocks : List String := []
  reset : Option (List String) := none
  blockedBy : List String := []
  deriving DecidableEq, Repr

namespace Edit

/-- The task after the edit. -/
def on (e : Edit) (t : TaskItem) : TaskItem :=
  { t with
    status := e.status.getD t.status
    subject := e.subject.getD t.subject
    description := e.description.getD t.description
    activeForm := e.activeForm.getD t.activeForm
    blocks := addMissing t.blocks e.blocks
    blockedBy := addMissing (e.reset.getD t.blockedBy) e.blockedBy }

/-- One edit after the other. -/
def then_ (e e' : Edit) : Edit where
  status := e'.status <|> e.status
  subject := e'.subject <|> e.subject
  description := e'.description <|> e.description
  activeForm := e'.activeForm <|> e.activeForm
  blocks := e.blocks ++ e'.blocks
  reset := e'.reset <|> e.reset
  blockedBy := if e'.reset.isSome then e'.blockedBy else e.blockedBy ++ e'.blockedBy

end Edit

theorem addMissing_append (have_ xs ys : List String) :
    addMissing have_ (xs ++ ys) = addMissing (addMissing have_ xs) ys := List.foldl_append

/-- What is added is there, and so is what was. -/
theorem mem_addMissing {have_ xs : List String} {x : String} :
    x ∈ addMissing have_ xs ↔ x ∈ have_ ∨ x ∈ xs := by
  induction xs generalizing have_ with
  | nil => simp [addMissing]
  | cons y ys ih =>
    rw [← List.singleton_append, addMissing_append, ih]
    by_cases hy : y ∈ have_
    · have hone : addMissing have_ [y] = have_ := by simp [addMissing, hy]
      rw [hone]
      grind
    · have hone : addMissing have_ [y] = have_ ++ [y] := by simp [addMissing, hy]
      rw [hone]
      grind

/-- Adding what is there changes nothing. -/
theorem addMissing_of_subset {have_ xs : List String} (h : ∀ x ∈ xs, x ∈ have_) :
    addMissing have_ xs = have_ := by
  induction xs with
  | nil => rfl
  | cons y ys ih =>
    have hone : addMissing have_ [y] = have_ := by simp [addMissing, h y List.mem_cons_self]
    rw [← List.singleton_append, addMissing_append, hone,
      ih fun x hx => h x (List.mem_cons_of_mem y hx)]

theorem addMissing_self (have_ xs : List String) :
    addMissing (addMissing have_ xs) xs = addMissing have_ xs :=
  addMissing_of_subset fun _ hx => mem_addMissing.mpr (.inr hx)

namespace Edit

theorem on_then (e e' : Edit) (t : TaskItem) : (e.then_ e').on t = e'.on (e.on t) := by
  obtain ⟨status, subject, description, activeForm, blocks, reset, blockedBy⟩ := e
  obtain ⟨status', subject', description', activeForm', blocks', reset', blockedBy'⟩ := e'
  simp only [then_, on, addMissing_append]
  congr 1
  · cases subject' <;> rfl
  · cases description' <;> rfl
  · cases activeForm' <;> rfl
  · cases status' <;> rfl
  · cases reset' with
    | none => simp [addMissing_append]
    | some xs => rfl

/-- **An edit done again changes nothing.** -/
theorem on_on (e : Edit) (t : TaskItem) : e.on (e.on t) = e.on t := by
  obtain ⟨status, subject, description, activeForm, blocks, reset, blockedBy⟩ := e
  simp only [on, addMissing_self]
  congr 1
  · cases subject <;> rfl
  · cases description <;> rfl
  · cases activeForm <;> rfl
  · cases status <;> rfl
  · cases reset with
    | none => exact addMissing_self t.blockedBy blockedBy
    | some xs => rfl

end Edit

/-! ## the edits of the operations -/

/-- The text, if there is any. -/
def nonempty (s : String) : Option String := if s.isEmpty then none else some s

/-- The landing of a draft: what it says goes over what the task's row said. -/
def landEdit (draft : TaskItem) : Edit where
  subject := nonempty draft.subject
  description := nonempty draft.description
  activeForm := nonempty draft.activeForm
  reset := if draft.blockedBy.isEmpty then none else some draft.blockedBy

namespace TaskFold

/-- The task an operation edits, and how. A resolve edits only when its draft is waiting. -/
def edit (f : TaskFold) : TaskOp → Option (String × Edit)
  | .resolve toolUseId (some id) =>
    (f.pending.find? (·.1 = toolUseId)).map fun p => (id, landEdit p.2)
  | .update taskId status subject description activeForm addBlocks addBlockedBy =>
    some (taskId, {
      status := status.map TaskStatus.parse
      subject, description, activeForm
      blocks := addBlocks
      blockedBy := addBlockedBy })
  | _ => none

/-- The list an operation puts in the place of the fold's: that of a snapshot let through,
or the one a retraction puts back. -/
def replaces (f : TaskFold) : TaskOp → Option (List TaskItem)
  | .snapshot todos _ =>
    if isSnapshotBuilt f.items = true then some (sortItems (snapshotItems todos)) else none
  | .retract toolUseId =>
    match f.held with
    | some (id, items) => if id = toolUseId then some items else none
    | none => none
  | _ => none

end TaskFold

/-- The list with one task edited, as it is looked up. -/
def edited (find : String → Option TaskItem) (edit : String × Edit) (id : String) :
    Option TaskItem :=
  if id = edit.1 then some (edit.2.on ((find id).getD { id })) else find id

/-- A draft lands as its edit of the row that stands, or of a stub. -/
theorem landEdit_on {draft : TaskItem} (hstatus : draft.status = .pending)
    (hblocks : draft.blocks = []) (id : String) :
    (landEdit draft).on { id } = { draft with id } ∧
      ∀ prev : TaskItem, prev.id = id → (landEdit draft).on prev = { draft with id }.landOver prev := by
  obtain ⟨did, subject, description, activeForm, status, blocks, blockedBy⟩ := draft
  obtain rfl : status = .pending := hstatus
  obtain rfl : blocks = [] := hblocks
  have hor : ∀ s s' : String, (nonempty s).getD s' = orElseIfEmpty s s' := by
    intro s s'
    rw [nonempty, orElseIfEmpty]
    split <;> rfl
  have hempty : ∀ s : String, (nonempty s).getD "" = s := by
    intro s
    rw [nonempty]
    split
    · next h => exact (String.isEmpty_iff.mp h).symm
    · rfl
  constructor
  · simp only [Edit.on, landEdit, hempty, addMissing]
    cases blockedBy <;> rfl
  · rintro prev rfl
    simp only [Edit.on, landEdit, TaskItem.landOver, hor, addMissing]
    cases blockedBy <;> rfl

namespace TaskFold

variable {f : TaskFold} {op : TaskOp}

/-- An operation that replaces the list says which list it will be. -/
theorem items_of_replaces {items : List TaskItem} (h : f.replaces op = some items) :
    (f.applyRecorded op).items = items := by
  cases op with
  | snapshot todos toolUseId =>
    simp only [replaces] at h
    split at h
    · next hbuilt =>
      simp only [applyRecorded, hbuilt, if_true]
      exact Option.some.inj h
    · contradiction
  | retract toolUseId =>
    simp only [replaces] at h
    split at h
    · next id items' hheld =>
      split at h
      · next hid =>
        simp only [applyRecorded, hheld, hid, if_true]
        exact Option.some.inj h
      · contradiction
    · contradiction
  | _ => contradiction

/-- A task landed under its id, as it is looked up. -/
theorem lookup_landed (hf : f.Tidy) {item : TaskItem} {id' : String} (hitem : item.id = id')
    (id : String) :
    lookup (sortItems ((f.items.filter fun t => decide (t.id ≠ id')) ++ [item])) id =
      if id = id' then some item else lookup f.items id := by
  subst hitem
  rw [lookup_sortItems (nodup_land hf.items.nodup item), lookup_land]

/-- **What any other operation does**: at most it edits one task. -/
theorem lookup_of_not_replaces (hf : f.Tidy) (h : f.replaces op = none) (id : String) :
    lookup (f.applyRecorded op).items id =
      ((f.edit op).elim (lookup f.items) (edited (lookup f.items))) id := by
  cases op with
  | create toolUseId subject description activeForm blockedBy => rfl
  | resolve toolUseId id' =>
    simp only [applyRecorded, join]
    cases hfind : f.pending.find? (·.1 = toolUseId) with
    | none => cases id' <;> simp [edit, hfind]
    | some p =>
      cases id' with
      | none => simp [edit]
      | some id' =>
        obtain ⟨hstatus, hblocks⟩ := hf.drafts p (List.mem_of_find?_eq_some hfind)
        obtain ⟨hstub, hover⟩ := landEdit_on hstatus hblocks id'
        simp only [edit, hfind, Option.map_some, Option.elim_some, edited]
        cases hprev : f.items.find? fun t => decide (t.id = id') with
        | none =>
          simp only
          rw [lookup_landed hf (show _ = id' from rfl)]
          split
          · next hid =>
            obtain rfl : id = id' := hid
            rw [lookup, hprev, Option.getD_none, hstub]
          · rfl
        | some prev =>
          have hprevId : prev.id = id' := by simpa using List.find?_some hprev
          simp only
          rw [lookup_landed hf (show _ = id' from rfl)]
          split
          · next hid =>
            obtain rfl : id = id' := hid
            rw [lookup, hprev, Option.getD_some, hover prev hprevId]
          · rfl
  | update taskId status subject description activeForm addBlocks addBlockedBy =>
    have hid := fun t : TaskItem =>
      t.update_id status subject description activeForm addBlocks addBlockedBy
    simp only [applyRecorded, edit, Option.elim_some, edited]
    rw [lookup_sortItems (nodup_updateItem hid taskId hf.items.nodup), lookup_updateItem hid]
    split
    · next htask =>
      obtain rfl : id = taskId := htask
      rfl
    · rfl
  | snapshot todos toolUseId =>
    simp only [replaces] at h
    split at h
    · contradiction
    · next hbuilt => simp only [applyRecorded, hbuilt]; rfl
  | retract toolUseId =>
    simp only [replaces] at h
    split at h
    · next id' items hheld =>
      split at h
      · contradiction
      · next hid => simp only [applyRecorded, hheld, hid]; rfl
    · next hheld => simp only [applyRecorded, hheld]; rfl

end TaskFold

end ClaudeReplay
