import ClaudeReplay.Lib.Cut
import ClaudeReplay.Lib.Value
import ClaudeReplay.Taskq.Calls

/-!
# ClaudeReplay.Taskq.Records

The records a task-queue command prints, and the operations they stand for.

A record is a line that opens with the sentinel and goes on with a JSON object. A create's puts its
task on the list and lands the draft of its place among the creates of the shell call; the records
that move a task say where to. A create also prints a line for people, which puts its task on the
list too, without a draft. How JSON is read is a parameter.
-/

namespace ClaudeReplay.Taskq

/-- A record, as far as it is read. An absent field of `changes` is none. -/
structure Record where
  op : String
  task : String
  subject : String
  status : Option String := none
  description : Option String := none
  activeForm : Option String := none
  deriving DecidableEq, Repr

/-- `TASKQ_SENTINEL` -/
def sentinel : List Char := "##taskq/v1".toList

/-- `str_of`: a text field, nothing where it is missing or no text. -/
def strOf (rec : Lib.Value) (k : String) : String := (rec.get k).asStr.getD ""

/-- `/changes/<field>/to` -/
def changedTo (rec : Lib.Value) (field : String) : Option String :=
  (((rec.get "changes").get field).get "to").asStr

/-- A record that has a name of its own and names a task. -/
def Record.read (rec : Lib.Value) : Option Record :=
  if strOf rec "rid" = "" ∨ strOf rec "task" = "" then none
  else some {
    op := strOf rec "op"
    task := strOf rec "task"
    subject := strOf rec "subject"
    status := changedTo rec "status"
    description := changedTo rec "description"
    activeForm := changedTo rec "activeForm" }

/-- The record of a line, which must open with the sentinel. -/
def recordOf (parse : List Char → Option Lib.Value) (line : List Char) : Option Record :=
  if sentinel.isPrefixOf line then (parse (trimChars (line.drop sentinel.length))).bind Record.read
  else none

/-- The line for people of a create: the id and the subject it says. -/
def createdLine (line : List Char) : Option (List Char × List Char) :=
  if "Task #".toList.isPrefixOf line then
    (Lib.splitAt? " created successfully: ".toList (line.drop 6)).filter fun (id, _) =>
      let numeric := if id.head? = some 'u' then id.tail else id
      !numeric.isEmpty && numeric.all Char.isDigit
  else none

/-- What the line for people says. -/
def createdOps (line : List Char) : List TaskOp :=
  (createdLine line).toList.map fun (id, subject) =>
    .update (queueId id) (some "pending") (given (trimChars subject)) none none [] []

namespace Record

/-- A record's subject, if it names one. -/
def titled (r : Record) : Option String := if r.subject = "" then none else some r.subject

/-- The update every record that is read for anything makes of its task. -/
def update (r : Record) : TaskOp :=
  .update (queueId r.task.toList) r.status r.titled r.description r.activeForm [] []

def isCreate (r : Record) : Bool := r.op = "create"

/-- The records that say where a task moved. -/
def isMove (r : Record) : Bool := ["claim", "done", "cancel", "release", "update"].contains r.op

/-- The operations of a record; `n` creates of the shell call came before it. -/
def ops (callId : String) (n : Nat) (r : Record) : List TaskOp :=
  if r.isCreate then [r.update, .resolve (draftId callId n) (some (queueId r.task.toList))]
  else if r.isMove ∧ r.status.isSome then [r.update]
  else []

end Record

variable (parse : List Char → Option Lib.Value)

/-- The operations of some lines; `n` creates of the shell call came before them. -/
def lineOps (callId : String) (n : Nat) : List (List Char) → List TaskOp
  | [] => []
  | line :: lines =>
    createdOps line ++
      match recordOf parse line with
      | some r => r.ops callId n ++ lineOps callId (if r.isCreate then n + 1 else n) lines
      | none => lineOps callId n lines

/-- `taskq_ops` -/
def taskqOps (callId : String) (text : List Char) : List TaskOp :=
  lineOps parse callId 0 (strLines text)

/-- The records of a text, in order. -/
def recordsOf (text : List Char) : List Record := (strLines text).filterMap (recordOf parse)

end ClaudeReplay.Taskq
