import ClaudeReplay.Taskq.Words
import ClaudeReplay.Tasks.Edit

/-!
# ClaudeReplay.Taskq.Calls

The task-queue calls of a shell command, and the operations they stand for.

The words of the command are gone through for a verb right behind the queue's program. A `create`
drafts a task under the name of the shell call and the call's place among its creates; the verbs
that move a task, and an `update`, say what they say at once.
-/

namespace ClaudeReplay.Taskq

/-! ## the calls of a command -/

inductive Verb
  | create
  | update
  | done
  | claim
  | release
  | stop
  deriving DecidableEq

def Verb.parse (w : List Char) : Option Verb :=
  if w = "create".toList then some .create
  else if w = "update".toList then some .update
  else if w = "done".toList then some .done
  else if w = "claim".toList then some .claim
  else if w = "release".toList then some .release
  else if w = "stop".toList then some .stop
  else none

/-- `TaskqCall`: a verb and what it was given. -/
structure TaskqCall where
  verb : Verb
  task : List Char := []
  subject : List Char := []
  description : List Char := []
  activeForm : List Char := []
  status : List Char := []
  deriving DecidableEq

/-- Is the word the queue's program? It is known by what stands behind the last slash. -/
def isTaskq (w : List Char) : Bool :=
  let base := (w.reverse.takeWhile (· ≠ '/')).reverse
  base = "taskq".toList || base = "$TQ".toList || base = ['$', '\x7b', 'T', 'Q', '\x7d']

/-- `starts_with("--")` -/
def isFlag (w : List Char) : Bool := ['-', '-'].isPrefixOf w

/-- `name.chars().all(…)`: the characters of a variable's name. -/
def isNameChar (c : Char) : Bool := c.isAlphanum || c = '_'

/-- `unexpanded`: a value that is a reference to a variable or a command, and no text. -/
def unexpanded : List Char → Bool
  | '$' :: rest =>
    if rest.head? = some '(' then rest.getLast? = some ')'
    else
      let name :=
        if rest.head? = some '\x7b' ∧ rest.tail.getLast? = some '\x7d' then rest.tail.dropLast
        else rest
      !name.isEmpty && name.all isNameChar
  | _ => false

/-- A flag's value goes to the field it names. -/
def TaskqCall.set (call : TaskqCall) (flag value : List Char) : TaskqCall :=
  let value := if unexpanded value then [] else value
  if flag = "--subject".toList then { call with subject := value }
  else if flag = "--description".toList then { call with description := value }
  else if flag = "--active-form".toList then { call with activeForm := value }
  else if flag = "--status".toList then { call with status := value }
  else call

/-- The bare flags of a `stop`, and how many words they are. -/
def readBare (status : List Char) : List (List Char) → List Char × Nat
  | [] => (status, 0)
  | w :: ws =>
    if w = "--cancel".toList then
      let r := readBare "cancelled".toList ws
      (r.1, r.2 + 1)
    else if w = "--release".toList then
      let r := readBare "pending".toList ws
      (r.1, r.2 + 1)
    else (status, 0)

/-- Flags with their values, and how many words they are. -/
def readFlags (call : TaskqCall) : List (List Char) → TaskqCall × Nat
  | w :: value :: ws =>
    if isFlag w then
      let r := readFlags (call.set w value) ws
      (r.1, r.2 + 2)
    else (call, 0)
  | _ => (call, 0)

/-- What stands behind a verb, and how many words it is. -/
def readCall (verb : Verb) (ws : List (List Char)) : TaskqCall × Nat :=
  let task := if verb = .create then none else ws.head?.filter (!isFlag ·)
  let behindTask := ws.drop task.toList.length
  let bare := readBare [] behindTask
  let r := readFlags { verb, task := task.getD [], status := bare.1 } (behindTask.drop bare.2)
  (r.1, task.toList.length + bare.2 + r.2)

/-- The calls among some words: `program` is whether the word before them is the queue's program,
and the first `skip` of them are of a call already read. -/
def readCalls (program : Bool) (skip : Nat) : List (List Char) → List TaskqCall
  | [] => []
  | w :: ws =>
    match skip with
    | skip + 1 => readCalls (isTaskq w) skip ws
    | 0 =>
      match if program then Verb.parse w else none with
      | some verb =>
        let r := readCall verb ws
        r.1 :: readCalls (isTaskq w) r.2 ws
      | none => readCalls (isTaskq w) 0 ws

/-- `taskq_calls`: none where a quote is left open. -/
def taskqCalls (cmd : List Char) : List TaskqCall :=
  let words := shellWords cmd
  if words.2 then readCalls false 0 words.1 else []

/-! ## their operations -/

/-- `queue_id` -/
def queueId (task : List Char) : String :=
  if task.head?.any Char.isDigit then String.ofList ('q' :: task) else String.ofList task

/-- The name a draft waits under: its shell call, and its place among the creates of it. -/
def draftId (callId : String) (n : Nat) : String := "taskq:" ++ callId ++ "#" ++ toString n

/-- A field that a command gives, if it says anything. -/
def given (field : List Char) : Option String :=
  if field.isEmpty then none else some (String.ofList field)

/-- The status a verb moves a task to. -/
def TaskqCall.moves (call : TaskqCall) : Option String :=
  match call.verb with
  | .done => some "completed"
  | .claim => some "in_progress"
  | .release | .stop =>
    some (if call.status = "cancelled".toList then "cancelled" else "pending")
  | .create | .update => none

/-- What a call other than a create says. -/
def TaskqCall.op (call : TaskqCall) : Option TaskOp :=
  if call.task.isEmpty then none
  else
    match call.moves with
    | some status => some (.update (queueId call.task) (some status) none none none [] [])
    | none =>
      let description := given call.description
      let subject := given call.subject
      let activeForm := given call.activeForm
      let status := given call.status
      if description = none ∧ subject = none ∧ activeForm = none ∧ status = none then none
      else some (.update (queueId call.task) status subject description activeForm [] [])

/-- Any call but a create says an update, without an edge. -/
theorem op_eq_update {call : TaskqCall} {op : TaskOp} (h : call.op = some op) :
    ∃ id status subject description activeForm,
      op = .update id status subject description activeForm [] [] := by
  unfold TaskqCall.op at h
  split at h
  · cases h
  · split at h
    · exact ⟨_, _, _, _, _, (Option.some.inj h).symm⟩
    · simp only at h
      split at h
      · cases h
      · exact ⟨_, _, _, _, _, (Option.some.inj h).symm⟩

/-- The operations of some calls, the next create being the `n`th. -/
def callOps (callId : String) (n : Nat) : List TaskqCall → List TaskOp
  | [] => []
  | call :: calls =>
    if call.verb = .create then
      .create (draftId callId n) (String.ofList call.subject) (String.ofList call.description)
        (String.ofList call.activeForm) [] :: callOps callId (n + 1) calls
    else call.op.toList ++ callOps callId n calls

/-- `taskq_create_ops` -/
def taskqCreateOps (callId : String) (cmd : List Char) : List TaskOp :=
  callOps callId 0 (taskqCalls cmd)

/-- The creates of a command, in order. -/
def creates (cmd : List Char) : List TaskqCall := (taskqCalls cmd).filter (·.verb = .create)

end ClaudeReplay.Taskq
