import ClaudeReplay.Taskq.Records

/-!
# ClaudeReplay.Taskq.Drafts

Where a drafted description lands.

A command's creates draft their tasks under their place among them, and the `n`th create record of
the output lands the `n`th draft (`landings_call`). So a description is attached to the task of
that record, whoever printed it. It is the task of its own record exactly where the `n`th create
record of the output names the task that the `n`th create printed a record of
(`draftsOwn_iff`). A create that fails, or an older create record printed in between, moves
every later draft on.
-/

namespace ClaudeReplay

/-! ## landings -/

namespace TaskFold

/-- The draft an operation lands, if it is waiting: its name, the draft, and the id it gets. -/
def landing (f : TaskFold) : TaskOp → Option (String × TaskItem × String)
  | .resolve k (some id) => (f.pending.find? (·.1 = k)).map fun p => (k, p.2, id)
  | _ => none

/-- The drafts a log lands. -/
def landings (f : TaskFold) : List TaskOp → List (String × TaskItem × String)
  | [] => []
  | op :: ops => (f.landing op).toList ++ (f.applyRecorded op).landings ops

theorem landings_append (f : TaskFold) (xs ys : List TaskOp) :
    f.landings (xs ++ ys) = f.landings xs ++ (f.replay xs).landings ys := by
  induction xs generalizing f with
  | nil => rfl
  | cons op xs ih => rw [List.cons_append, landings, landings, ih, List.append_assoc]; rfl

/-- A landing takes its own draft away, and no other. -/
theorem find?_pending_resolve (f : TaskFold) {k k' : String} (h : k' ≠ k) (id : Option String) :
    (f.applyRecorded (.resolve k id)).pending.find? (·.1 = k') = f.pending.find? (·.1 = k') := by
  have herase : (f.pending.eraseP (·.1 = k)).find? (·.1 = k') = f.pending.find? (·.1 = k') := by
    induction f.pending with
    | nil => rfl
    | cons p ps ih =>
      by_cases hp : p.1 = k
      · rw [List.eraseP_cons_of_pos (by simp [hp]), List.find?_cons_of_neg (by simp [hp, Ne.symm h])]
      · rw [List.eraseP_cons_of_neg (by simp [hp]), List.find?_cons, List.find?_cons, ih]
  show (f.join k id).pending.find? _ = _
  unfold join
  split
  · rfl
  · cases id <;> exact herase

end TaskFold

namespace Taskq

/-! ## the drafts of a command -/

theorem draftId_injective {callId : String} {i j : Nat} (h : draftId callId i = draftId callId j) :
    i = j :=
  Nat.repr_injective ((String.append_right_inj _).mp h)

/-- What a create drafts. -/
def draftOf (call : TaskqCall) : TaskItem where
  subject := String.ofList call.subject
  description := String.ofList call.description
  activeForm := String.ofList call.activeForm

/-- No draft waits under a name of the shell call. -/
def Fresh (callId : String) (f : TaskFold) : Prop := ∀ p ∈ f.pending, ∀ n, p.1 ≠ draftId callId n

/-- The calls of a command leave their drafts waiting, in order, and land none. -/
theorem replay_callOps (callId : String) (n : Nat) (calls : List TaskqCall) (f : TaskFold) :
    (f.replay (callOps callId n calls)).pending = f.pending ++
      ((calls.filter (·.verb = .create)).zipIdx n).map (fun c => (draftId callId c.2, draftOf c.1)) ∧
    f.landings (callOps callId n calls) = [] := by
  induction calls generalizing n f with
  | nil => simp [callOps, TaskFold.replay, TaskFold.landings]
  | cons call calls ih =>
    by_cases hcreate : call.verb = .create
    · rw [callOps, if_pos hcreate, List.filter_cons_of_pos (by simp [hcreate]), List.zipIdx_cons]
      obtain ⟨hpending, hlandings⟩ := ih (n + 1) (f.applyRecorded (.create (draftId callId n)
        (String.ofList call.subject) (String.ofList call.description)
        (String.ofList call.activeForm) []))
      constructor
      · exact hpending.trans (by simp [TaskFold.applyRecorded, draftOf])
      · rw [TaskFold.landings, hlandings]
        rfl
    · rw [callOps, if_neg hcreate, List.filter_cons_of_neg (by simp [hcreate])]
      cases hop : call.op with
      | none => exact ih n f
      | some op =>
        obtain ⟨id, status, subject, description, activeForm, rfl⟩ := op_eq_update hop
        obtain ⟨hpending, hlandings⟩ := ih n
          (f.applyRecorded (.update id status subject description activeForm [] []))
        constructor
        · exact hpending
        · rw [Option.toList_some, List.singleton_append, TaskFold.landings, hlandings]
          rfl

theorem find?_drafts (callId : String) (n : Nat) (calls : List TaskqCall) (j : Nat) :
    ((calls.zipIdx n).map fun c => (draftId callId c.2, draftOf c.1)).find?
        (·.1 = draftId callId (n + j)) =
      calls[j]?.map fun call => (draftId callId (n + j), draftOf call) := by
  induction calls generalizing n j with
  | nil => rfl
  | cons call calls ih =>
    rw [List.zipIdx_cons, List.map_cons]
    cases j with
    | zero => simp
    | succ j =>
      have hne : draftId callId n ≠ draftId callId (n + (j + 1)) := fun h => by
        have := draftId_injective h
        omega
      rw [List.find?_cons_of_neg (by simpa using hne), show n + (j + 1) = n + 1 + j by omega, ih]
      rfl

/-- The draft that waits under a name of the call is that of the create in its place. -/
theorem find?_replay_creates {callId : String} {f : TaskFold} (hf : Fresh callId f)
    (cmd : List Char) (n : Nat) :
    (f.replay (taskqCreateOps callId cmd)).pending.find? (·.1 = draftId callId n) =
      (creates cmd)[n]?.map fun call => (draftId callId n, draftOf call) := by
  have hnone : f.pending.find? (·.1 = draftId callId n) = none := by
    rw [List.find?_eq_none]
    intro p hp
    simpa using hf p hp n
  rw [taskqCreateOps, (replay_callOps callId 0 (taskqCalls cmd) f).1, List.find?_append, hnone,
    Option.none_or]
  have hdrafts := find?_drafts callId 0 (creates cmd) n
  rwa [Nat.zero_add] at hdrafts

/-! ## the landings of an output -/

variable (parse : List Char → Option Lib.Value)

/-- The create records among some lines, in order. -/
def createRecords (lines : List (List Char)) : List Record :=
  (lines.filterMap (recordOf parse)).filter Record.isCreate

theorem createdOps_keeps (line : List Char) (f : TaskFold) :
    (f.replay (createdOps line)).pending = f.pending ∧ f.landings (createdOps line) = [] := by
  unfold createdOps
  cases createdLine line <;> exact ⟨rfl, rfl⟩

/-- A create record lands the draft of its place, and the later ones go on waiting. -/
theorem landings_create {callId : String} {find : Nat → Option (String × TaskItem)} {n : Nat}
    {r : Record} (hr : r.isCreate = true) (g : TaskFold)
    (h : ∀ i, n ≤ i → g.pending.find? (·.1 = draftId callId i) = find i) :
    g.landings (r.ops callId n) =
        ((find n).map fun p => (draftId callId n, p.2, queueId r.task.toList)).toList ∧
      ∀ i, n + 1 ≤ i →
        (g.replay (r.ops callId n)).pending.find? (·.1 = draftId callId i) = find i := by
  rw [Record.ops, if_pos hr]
  constructor
  · have hfind : (g.applyRecorded r.update).pending.find? (·.1 = draftId callId n) = find n :=
      h n (Nat.le_refl n)
    simp only [TaskFold.landings, TaskFold.landing, hfind, List.append_nil]
    rfl
  · intro i hi
    have hne : draftId callId i ≠ draftId callId n := fun heq => by
      have := draftId_injective heq
      omega
    have hother := TaskFold.find?_pending_resolve (g.applyRecorded r.update) hne
      (some (queueId r.task.toList))
    exact hother.trans (h i (by omega))

/-- Any other record lands nothing. -/
theorem landings_other {callId : String} {n : Nat} {r : Record} (hr : r.isCreate = false)
    (g : TaskFold) : g.landings (r.ops callId n) = [] ∧
      (g.replay (r.ops callId n)).pending = g.pending := by
  rw [Record.ops, hr, if_neg Bool.false_ne_true]
  split <;> exact ⟨rfl, rfl⟩

/-- **The `n`th create record lands the `n`th draft.** `find` is what waits, by place. -/
theorem landings_lineOps (callId : String) (find : Nat → Option (String × TaskItem)) (n : Nat)
    (lines : List (List Char)) (f : TaskFold)
    (h : ∀ i, n ≤ i → f.pending.find? (·.1 = draftId callId i) = find i) :
    f.landings (lineOps parse callId n lines) =
      ((createRecords parse lines).zipIdx n).filterMap fun r =>
        (find r.2).map fun p => (draftId callId r.2, p.2, queueId r.1.task.toList) := by
  induction lines generalizing n f with
  | nil => rfl
  | cons line lines ih =>
    obtain ⟨hpending, hnone⟩ := createdOps_keeps line f
    rw [lineOps, TaskFold.landings_append, hnone, List.nil_append]
    have hg : ∀ i, n ≤ i → (f.replay (createdOps line)).pending.find? (·.1 = draftId callId i) =
        find i := by rwa [hpending]
    generalize f.replay (createdOps line) = g at hg
    cases hrecord : recordOf parse line with
    | none =>
      rw [createRecords, List.filterMap_cons, hrecord]
      exact ih n g hg
    | some r =>
      rw [createRecords, List.filterMap_cons, hrecord]
      simp only
      rw [TaskFold.landings_append]
      cases hcreate : r.isCreate with
      | true =>
        obtain ⟨hlands, hrest⟩ := landings_create hcreate g hg
        rw [List.filter_cons_of_pos hcreate, List.zipIdx_cons, hlands, if_pos rfl, ih _ _ hrest,
          List.filterMap_cons, createRecords]
        cases find n <;> rfl
      | false =>
        obtain ⟨hlands, hrest⟩ := @landings_other callId n r hcreate g
        rw [List.filter_cons_of_neg (by simp [hcreate]), hlands, List.nil_append,
          if_neg Bool.false_ne_true, ih n _ (by rwa [hrest]), createRecords]

/-! ## whose description lands where -/

/-- Line `i` of an output was printed by the create `printedBy i`; a line that no create of the
command printed of its own task has none. -/
abbrev PrintedBy := Nat → Option Nat

/-- The `n`th create printed a record of the task that is kept under the id. -/
def OwnRecord (text : List Char) (printedBy : PrintedBy) (n : Nat) (id : String) : Prop :=
  ∃ (i : Nat) (line : List Char) (r : Record), (strLines text)[i]? = some line ∧
    printedBy i = some n ∧ recordOf parse line = some r ∧ r.isCreate = true ∧
    queueId r.task.toList = id

/-- **A described draft lands on its own task.** -/
def DraftsOwn (f : TaskFold) (callId : String) (cmd text : List Char) (printedBy : PrintedBy) :
    Prop :=
  ∀ (n : Nat) (draft : TaskItem) (id : String),
    (draftId callId n, draft, id) ∈
        f.landings (taskqCreateOps callId cmd ++ taskqOps parse callId text) →
      draft.description ≠ "" → OwnRecord parse text printedBy n id

/-- The `n`th create record of the output, if there is one, names the task that the `n`th create
printed a record of; for each create that describes its task. -/
def Paired (cmd text : List Char) (printedBy : PrintedBy) : Prop :=
  ∀ n, ∀ call ∈ (creates cmd)[n]?, call.description ≠ [] →
    ∀ r ∈ (createRecords parse (strLines text))[n]?,
      OwnRecord parse text printedBy n (queueId r.task.toList)

/-- What a command and its output land: the draft of a place under the id of the create record in
that place. -/
theorem mem_landings_iff {callId : String} {f : TaskFold} (hf : Fresh callId f)
    (cmd text : List Char) (n : Nat) (draft : TaskItem) (id : String) :
    (draftId callId n, draft, id) ∈
        f.landings (taskqCreateOps callId cmd ++ taskqOps parse callId text) ↔
      ∃ call ∈ (creates cmd)[n]?, ∃ r ∈ (createRecords parse (strLines text))[n]?,
        draft = draftOf call ∧ id = queueId r.task.toList := by
  have hlandings := landings_lineOps parse callId _ 0 (strLines text) _
    fun i _ => find?_replay_creates hf cmd i
  rw [TaskFold.landings_append, taskqCreateOps, (replay_callOps _ _ _ _).2, List.nil_append,
    ← taskqCreateOps, taskqOps, hlandings, List.mem_filterMap]
  constructor
  · rintro ⟨⟨r, i⟩, hmem, hsome⟩
    rw [List.mk_mem_zipIdx_iff_getElem?] at hmem
    obtain ⟨p, hp, heq⟩ := Option.map_eq_some_iff.mp hsome
    obtain ⟨call, hcall, rfl⟩ := Option.map_eq_some_iff.mp hp
    simp only [Prod.mk.injEq] at heq
    obtain ⟨hid, rfl, rfl⟩ := heq
    obtain rfl := draftId_injective hid
    exact ⟨call, hcall, r, hmem, rfl, rfl⟩
  · rintro ⟨call, hcall, r, hr, rfl, rfl⟩
    refine ⟨(r, n), List.mk_mem_zipIdx_iff_getElem?.mpr hr, ?_⟩
    simp only [Option.mem_def.mp hcall, Option.map_some]

/-- **When every description lands on its own task.** -/
theorem draftsOwn_iff (parse : List Char → Option Lib.Value) (f : TaskFold) (callId : String)
    (hf : Fresh callId f) (cmd text : List Char) (printedBy : PrintedBy) :
    DraftsOwn parse f callId cmd text printedBy ↔ Paired parse cmd text printedBy := by
  have hdescription (call : TaskqCall) :
      (draftOf call).description ≠ "" ↔ call.description ≠ [] := by
    rw [ne_eq, ne_eq, not_iff_not]
    exact String.ofList_eq_empty_iff
  constructor
  · intro hown n call hcall hdesc r hr
    exact hown n (draftOf call) _
      ((mem_landings_iff parse hf cmd text n _ _).mpr ⟨call, hcall, r, hr, rfl, rfl⟩)
      ((hdescription call).mpr hdesc)
  · intro hpaired n draft id hmem hdesc
    obtain ⟨call, hcall, r, hr, rfl, rfl⟩ := (mem_landings_iff parse hf cmd text n _ _).mp hmem
    exact hpaired n call hcall ((hdescription call).mp hdesc) r hr

/-- Two creates, each with a description. -/
def twoCreates : List Char :=
  "taskq create --description first\ntaskq create --description second".toList

/-- The record of task 5, as JSON. -/
def recordFive : List Char :=
  "\x7b\"rid\":\"r1\",\"op\":\"create\",\"task\":\"5\"\x7d".toList

/-- A reader that knows the one record. -/
def parseFive (json : List Char) : Option Lib.Value :=
  if json = recordFive then
    some (.obj [("rid", .str "r1"), ("op", .str "create"), ("task", .str "5")])
  else none

def five : Record := { op := "create", task := "5", subject := "" }

/-- The line a create that is kept as task 5 prints. -/
def printedFive : List Char := sentinel ++ ' ' :: recordFive

theorem lines_printedFive : strLines printedFive = [printedFive] := by decide +kernel

theorem recordOf_printedFive :
    recordOf parseFive printedFive = some five := by
  decide +kernel

theorem createRecords_printedFive : createRecords parseFive (strLines printedFive) = [five] := by
  rw [lines_printedFive, createRecords, List.filterMap_cons, recordOf_printedFive]
  rfl

/-- The record of task 5 is the first create's own. -/
theorem draftsOwn_first :
    DraftsOwn parseFive {} "c1" twoCreates printedFive
      (fun i => if i = 0 then some 0 else none) := by
  have hfresh : Fresh "c1" {} := by simp [Fresh]
  have hown : OwnRecord parseFive printedFive (fun i => if i = 0 then some 0 else none) 0
      (queueId five.task.toList) := by
    refine ⟨0, printedFive, five, ?_, if_pos rfl, recordOf_printedFive, by decide, rfl⟩
    rw [lines_printedFive, List.getElem?_cons_zero]
  have hpaired : Paired parseFive twoCreates printedFive
      (fun i => if i = 0 then some 0 else none) := by
    intro n call _ _ r hr
    rw [createRecords_printedFive] at hr
    cases n with
    | zero =>
      obtain rfl : five = r := Option.some.inj hr
      exact hown
    | succ n => cases hr
  exact (draftsOwn_iff parseFive {} "c1" hfresh twoCreates printedFive _).mpr hpaired

/-- The first create fails and prints nothing: its description lands on the task of the second. -/
theorem failed_create_describes_next :
    ¬DraftsOwn parseFive {} "c1" twoCreates printedFive
      (fun i => if i = 0 then some 1 else none) := by
  intro h
  have hfirst : (creates twoCreates)[0]? =
      some { verb := .create, description := "first".toList } := by decide +kernel
  have hlands := (@mem_landings_iff parseFive "c1" {} (by simp [Fresh]) twoCreates
    printedFive 0 _ _).mpr ⟨_, hfirst, five, by rw [createRecords_printedFive]; rfl, rfl, rfl⟩
  obtain ⟨i, line, r, -, hprinted, -⟩ := h 0 _ _ hlands (by decide)
  simp only at hprinted
  split at hprinted <;> cases hprinted

end Taskq

end ClaudeReplay
