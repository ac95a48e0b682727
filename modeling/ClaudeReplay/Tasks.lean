import ClaudeReplay.Text
import Mathlib.Data.List.Sort
import Mathlib.Algebra.Group.Nat.Defs

/-!
# ClaudeReplay.Tasks

The task op-log. `TaskFold` replays `TaskOp`s, and watches tool results for the
create → id join, into a point-in-time `TaskList`. Two ways in:

* `TaskFold.apply` — the live path: applies an op and records it for the meta
  stream, except a `snapshot` that says nothing new;
* `TaskFold.applyRecorded` — the replay path: applies without recording.

The result of this module is that the log is complete. `TaskFold.Logged` says a
fold is what replaying its recorded ops over a start value gives, and every live
operation keeps it: whatever a live fold did, its recorded ops say it.
-/

namespace ClaudeReplay

/-- A task's lifecycle state. -/
inductive TaskStatus
  | pending | inProgress | completed
  deriving DecidableEq, Repr

/-- `TaskStatus::parse`: an unknown word is `pending`. -/
def TaskStatus.parse (s : String) : TaskStatus :=
  if s = "in_progress" then .inProgress
  else if s = "completed" then .completed
  else .pending

/-- One task, as the op-log knows it. What only a queue's own files record (its
owner, its times, its worklog) is never written by the fold. -/
structure TaskItem where
  id : String := ""
  subject : String := ""
  description : String := ""
  activeForm : String := ""
  status : TaskStatus := .pending
  blocks : List String := []
  blockedBy : List String := []
  deriving DecidableEq, Repr

/-- One entry of a `TodoWrite` snapshot. -/
structure Todo where
  text : String
  status : String
  activeForm : String
  deriving DecidableEq, Repr

/-- One task operation. An absent field of an update changes nothing. -/
inductive TaskOp
  | create (toolUseId subject description activeForm : String) (blockedBy : List String)
  | resolve (toolUseId : String) (id : Option String)
  | update (taskId : String) (status subject description activeForm : Option String)
      (addBlocks addBlockedBy : List String)
  | snapshot (todos : List Todo) (toolUseId : Option String)
  | retract (toolUseId : String)
  deriving DecidableEq, Repr

/-! ## the list's order -/

/-- The digits at the front of a character list, as the number they spell. -/
def digitsValue (cs : List Char) : Nat :=
  cs.foldl (fun n c => 10 * n + (c.toNat - '0'.toNat)) 0

/-- `str::parse::<u64>` on text that opens on a digit or is empty. -/
def parseU64 (cs : List Char) : Option Nat :=
  if cs.isEmpty || !cs.all Char.isDigit then none
  else if digitsValue cs < 2 ^ 64 then some (digitsValue cs) else none

/-- An id's queue prefix: what stands before its first digit. -/
def idPrefix (id : String) : String := String.ofList (id.toList.takeWhile fun c => !c.isDigit)

/-- An id's number, when the rest of it is one. -/
def idNumber (id : String) : Option Nat := parseU64 (id.toList.dropWhile fun c => !c.isDigit)

/-- The comparison of two optional numbers in `TaskList::sort`: a number sorts
before none. -/
def compareNumber : Option Nat → Option Nat → Ordering
  | some x, some y => compare x y
  | some _, none => .lt
  | none, some _ => .gt
  | none, none => .eq

/-- The comparison of two ids in `TaskList::sort`: by prefix, number, whole id. -/
def compareId (a b : String) : Ordering :=
  (compare (idPrefix a) (idPrefix b)).then
    ((compareNumber (idNumber a) (idNumber b)).then (compare a b))

/-- `TaskList::sort`, a stable sort by id. -/
def sortItems (items : List TaskItem) : List TaskItem :=
  items.insertionSort fun a b => (compareId a.id b.id).isLE = true

/-! ## the fold -/

/-- The op-log reducer. `pending` holds the creates whose id has not arrived;
`held` the items the latest named snapshot replaced, until its result says
whether the client took it; `recorded` the ops applied since the last drain. -/
structure TaskFold where
  items : List TaskItem := []
  pending : List (String × TaskItem) := []
  held : Option (String × List TaskItem) := none
  recorded : List TaskOp := []
  deriving DecidableEq, Repr

/-- Keep the draft's value where it has one, and the standing row's otherwise. -/
def orElseIfEmpty (mine theirs : String) : String := if mine.isEmpty then theirs else mine

/-- The draft that lands under an id some item already holds: it wins field by
field where it has something, and the status stays the standing row's. -/
def TaskItem.landOver (draft prev : TaskItem) : TaskItem :=
  { draft with
    subject := orElseIfEmpty draft.subject prev.subject
    description := orElseIfEmpty draft.description prev.description
    activeForm := orElseIfEmpty draft.activeForm prev.activeForm
    blockedBy := if draft.blockedBy.isEmpty then prev.blockedBy else draft.blockedBy
    blocks := if draft.blocks.isEmpty then prev.blocks else draft.blocks
    status := prev.status }

/-- `TaskFold::join`: land a pending create under `id`, or drop it when the
create failed. -/
def TaskFold.join (f : TaskFold) (toolUseId : String) (id : Option String) : TaskFold :=
  match f.pending.find? fun p => p.1 = toolUseId with
  | none => f
  | some (_, draft) =>
    let pending := f.pending.eraseP fun p => p.1 = toolUseId
    match id with
    | none => { f with pending }
    | some id =>
      let item := { draft with id }
      let item := match f.items.find? fun t => t.id = id with
        | some prev => item.landOver prev
        | none => item
      { f with pending, items := sortItems ((f.items.filter fun t => t.id ≠ id) ++ [item]) }

/-- Append the edges an update adds that the task does not have yet. -/
def addMissing (have_ add : List String) : List String :=
  add.foldl (fun acc b => if acc.contains b then acc else acc ++ [b]) have_

/-- The fields an update writes. -/
def TaskItem.update (t : TaskItem) (status subject description activeForm : Option String)
    (addBlocks addBlockedBy : List String) : TaskItem :=
  { t with
    status := (status.map TaskStatus.parse).getD t.status
    subject := subject.getD t.subject
    description := description.getD t.description
    activeForm := activeForm.getD t.activeForm
    blocks := addMissing t.blocks addBlocks
    blockedBy := addMissing t.blockedBy addBlockedBy }

/-- Rewrite the first item with the given id, or push a rewritten stub. -/
def updateItem (taskId : String) (f : TaskItem → TaskItem) : List TaskItem → List TaskItem
  | [] => [f { id := taskId }]
  | t :: ts => if t.id = taskId then f t :: ts else t :: updateItem taskId f ts

/-- The items a snapshot installs, numbered by position. -/
def snapshotItems (todos : List Todo) : List TaskItem :=
  todos.mapIdx fun i t =>
    { id := toString i, subject := t.text, activeForm := t.activeForm,
      status := TaskStatus.parse t.status }

/-- `TaskFold::is_snapshot_built`: empty, or numbered as a snapshot numbers. -/
def isSnapshotBuilt (items : List TaskItem) : Bool :=
  (items.mapIdx fun i t => decide (t.id = toString i)).all id

/-- `TaskFold::apply_recorded`: apply an op without recording it. -/
def TaskFold.applyRecorded (f : TaskFold) : TaskOp → TaskFold
  | .create toolUseId subject description activeForm blockedBy =>
    { f with pending := f.pending ++ [(toolUseId, { subject, description, activeForm, blockedBy })] }
  | .resolve toolUseId id => f.join toolUseId id
  | .update taskId status subject description activeForm addBlocks addBlockedBy =>
    { f with items := sortItems (updateItem taskId
        (·.update status subject description activeForm addBlocks addBlockedBy) f.items) }
  | .snapshot todos toolUseId =>
    if isSnapshotBuilt f.items then
      { f with held := toolUseId.map (·, f.items), items := sortItems (snapshotItems todos) }
    else f
  | .retract toolUseId =>
    match f.held with
    | some (id, items) => if id = toolUseId then { f with held := none, items } else f
    | none => f

/-- Is the op a snapshot? -/
def TaskOp.isSnapshot : TaskOp → Bool
  | .snapshot .. => true
  | _ => false

/-- `TaskFold::apply`: apply an op and record it. A snapshot that says nothing
new is neither. -/
def TaskFold.apply (f : TaskFold) (op : TaskOp) : TaskFold :=
  if op.isSnapshot = true ∧ (f.applyRecorded op).items = f.items then f
  else { f with recorded := f.recorded ++ [op] }.applyRecorded op

/-- The id a create's result text assigns: the digits after its first `#`. -/
def resultId (text : String) : Option String :=
  let rest := ((text.toList.dropWhile (· ≠ '#')).drop 1).takeWhile Char.isDigit
  if rest.isEmpty then none else some (String.ofList rest)

/-- `TaskFold::on_tool_result`: a pending create's result lands it. -/
def TaskFold.onToolResult (f : TaskFold) (toolUseId text : String) : TaskFold :=
  if f.pending.any fun p => p.1 = toolUseId then
    f.apply (.resolve toolUseId (resultId text))
  else f

/-- `TaskFold::on_tool_outcome`: a refused `TodoWrite` puts back the list it replaced. -/
def TaskFold.onToolOutcome (f : TaskFold) (toolUseId : String) (isError : Option Bool) : TaskFold :=
  if isError = some true ∧ (f.held.any fun h => h.1 = toolUseId) = true then
    f.apply (.retract toolUseId)
  else f

/-- `TaskFold::drain_recorded`: the ops applied since the last call. -/
def TaskFold.drainRecorded (f : TaskFold) : List TaskOp × TaskFold :=
  (f.recorded, { f with recorded := [] })

/-! ## the log is complete -/

/-- The fold's value, without the ops it has recorded. -/
def TaskFold.value (f : TaskFold) : TaskFold := { f with recorded := [] }

/-- Replay a log over a fold. -/
def TaskFold.replay (f : TaskFold) (ops : List TaskOp) : TaskFold := ops.foldl applyRecorded f

@[simp] theorem TaskFold.join_recorded (f : TaskFold) (k : String) (id : Option String) :
    (f.join k id).recorded = f.recorded := by
  unfold join
  split
  · rfl
  · cases id <;> rfl

/-- `applyRecorded` never touches the recorded ops. -/
@[simp] theorem TaskFold.applyRecorded_recorded (f : TaskFold) (op : TaskOp) :
    (f.applyRecorded op).recorded = f.recorded := by
  cases op with
  | resolve k id => exact join_recorded f k id
  | snapshot todos k =>
    simp only [applyRecorded]
    split <;> rfl
  | retract k =>
    simp only [applyRecorded]
    split
    · split <;> rfl
    · rfl
  | _ => rfl

/-- …nor reads them. -/
theorem TaskFold.applyRecorded_value (f : TaskFold) (op : TaskOp) :
    (f.applyRecorded op).value = f.value.applyRecorded op := by
  obtain ⟨items, pending, held, recorded⟩ := f
  cases op with
  | resolve k id =>
    simp only [applyRecorded, join, value]
    split
    · rfl
    · cases id <;> rfl
  | snapshot todos k =>
    by_cases h : isSnapshotBuilt items = true
    · simp only [applyRecorded, value, h, ite_true]
    · simp only [applyRecorded, value, h]
      rfl
  | retract k =>
    cases held with
    | none => rfl
    | some hd =>
      by_cases h : hd.1 = k
      · simp only [applyRecorded, value, h, ite_true]
      · simp only [applyRecorded, value, h, ite_false]
  | _ => rfl

/-- The fold is what replaying its recorded ops over `start` gives. -/
def TaskFold.Logged (start f : TaskFold) : Prop := f.value = start.replay f.recorded

theorem TaskFold.logged_self (f : TaskFold) (h : f.recorded = []) : Logged f f := by
  obtain ⟨items, pending, held, recorded⟩ := f
  subst h
  rfl

/-- **The live path logs what it does**: an applied op extends the log by itself. -/
theorem TaskFold.apply_logged (start f : TaskFold) (op : TaskOp) (h : Logged start f) :
    Logged start (f.apply op) := by
  unfold apply
  split
  · exact h
  · have hvalue : (({ f with recorded := f.recorded ++ [op] } : TaskFold).applyRecorded op).value =
        f.value.applyRecorded op := applyRecorded_value _ op
    unfold Logged replay at *
    rw [hvalue, applyRecorded_recorded, List.foldl_append, h]
    rfl

theorem TaskFold.onToolResult_logged (start f : TaskFold) (k text : String)
    (h : Logged start f) : Logged start (f.onToolResult k text) := by
  unfold onToolResult
  split
  · exact apply_logged start f _ h
  · exact h

theorem TaskFold.onToolOutcome_logged (start f : TaskFold) (k : String) (e : Option Bool)
    (h : Logged start f) : Logged start (f.onToolOutcome k e) := by
  unfold onToolOutcome
  split
  · exact apply_logged start f _ h
  · exact h

/-- What a replay adds is the fold of the added ops. -/
theorem TaskFold.replay_append (f : TaskFold) (xs ys : List TaskOp) :
    f.replay (xs ++ ys) = (f.replay xs).replay ys := List.foldl_append

@[simp] theorem TaskFold.replay_recorded (f : TaskFold) (ops : List TaskOp) :
    (f.replay ops).recorded = f.recorded := by
  induction ops generalizing f with
  | nil => rfl
  | cons op ops ih => rw [replay, List.foldl_cons, ← replay, ih, applyRecorded_recorded]

theorem TaskFold.value_of_recorded (f : TaskFold) (h : f.recorded = []) : f.value = f := by
  obtain ⟨items, pending, held, recorded⟩ := f
  subst h
  rfl

end ClaudeReplay
