import ClaudeReplay.Lib.Run
import Mathlib.Data.List.Lex
import Mathlib.Data.Nat.Digits.Defs
import Mathlib.Logic.Function.Basic

/-!
# ClaudeReplay.Jdi.Backlog

The queue of follow-ups of one session. An item is a file, named by a number of four digits
or more, that moves from `pending/` to `draining/` when a drain claims it and on to
`drained/` when the drain is done.

`add` takes no lock: it lists the three directories for the highest number, and then writes
the next one, which creates the file first and fills it after. The worker claims and
finalizes file by file. Its turns are the agent's: which of them carry the claimed items is
`prompt_for`'s choice, and what they come to is `classify`'s. Everything may stop at any
point, and only one worker runs at a time.

An item has two things no file has: a number of its own, in the order in which the files
were created, and the text its `add` set out to write. `turns` is the record of the turns
there were, and `drain` numbers what was claimed together.
-/

namespace ClaudeReplay.Jdi

open Lib

/-! ## the files -/

inductive Queue
  | pending
  | draining
  | drained
  deriving DecidableEq, Repr

/-- A file of the queue. -/
structure Item where
  queue : Queue
  seq : Nat
  ino : Nat
  text : String
  full : String
  deriving DecidableEq, Repr

/-- A file's name, digit by digit: `{:04}`. -/
def name (seq : Nat) : List Nat :=
  List.replicate (4 - (Nat.digits 10 seq).length) 0 ++ (Nat.digits 10 seq).reverse

namespace Item

/-- The files of one directory. -/
def listed (items : List Item) (q : Queue) : List Item := items.filter (·.queue = q)

/-- The highest number among some files, and `max`. -/
def maxSeq (items : List Item) (max : Nat) : Nat :=
  items.foldl (fun n e => Nat.max n e.seq) max

/-- `rename` from one directory to another, over what has the name there. -/
def move (items : List Item) (src dst : Queue) (seq : Nat) : List Item :=
  if items.any fun e => e.queue = src && e.seq = seq then
    (items.filter fun e => !(e.queue = dst && e.seq = seq)).map fun e =>
      if e.queue = src ∧ e.seq = seq then { e with queue := dst } else e
  else items

/-- A file opened for writing: created, or emptied if the name is there. -/
def create (items : List Item) (seq ino : Nat) (full : String) : List Item :=
  if items.any fun e => e.queue = .pending && e.seq = seq then
    items.map fun e =>
      if e.queue = .pending ∧ e.seq = seq then { e with text := "", full := full } else e
  else items ++ [⟨.pending, seq, ino, "", full⟩]

/-- The file that is open under a name in `pending/`. -/
def opened (items : List Item) (seq ino : Nat) : Nat :=
  match items.find? fun e => e.queue = .pending && e.seq = seq with
  | some e => e.ino
  | none => ino

/-- What is written to an open file, wherever it is by then. -/
def fill (items : List Item) (ino : Nat) (text : String) : List Item :=
  items.map fun e => if e.ino = ino then { e with text := text } else e

/-- `read_dir_sorted`, of the names. -/
def sortedNames (items : List Item) (q : Queue) : List Nat :=
  ((listed items q).map (·.seq)).mergeSort fun a b => name a ≤ name b

end Item

/-! ## the agents -/

inductive Agent
  | claude
  | codex
  deriving DecidableEq, Repr

inductive Mode
  | start
  | execute
  | resumeDump
  | resumeExecute
  | backlogDump
  | backlogExecute
  deriving DecidableEq, Repr

inductive Trigger
  | start
  | resume
  | backlogDrain
  deriving DecidableEq, Repr

inductive TurnOutcome
  | done
  | advanceMode (next : Mode)
  | recreateSession
  | stopped (code : Int)
  | failed (code : Int)
  | retry
  deriving DecidableEq, Repr

/-- What a turn came back with: its exit code, the tasks still open if they can be told, what
its output says, and whether the supervisor's guards let a retry go on. -/
structure TurnEnd where
  rc : Int
  openTasks : Option Nat
  noConversation : Bool
  unrecoverable : Bool
  goesOn : Bool
  deriving DecidableEq, Repr

namespace Agent

def initialMode : Agent → Trigger → Mode
  | _, .start => .start
  | .claude, .resume => .resumeDump
  | .claude, .backlogDrain => .backlogDump
  | .codex, _ => .execute

def continueMode : Agent → Mode
  | .claude => .resumeExecute
  | .codex => .execute

/-- `prompt_for`: the backlog items that the prompt holds. -/
def promptItems (agent : Agent) (mode : Mode) (backlog : List (Nat × String)) :
    List (Nat × String) :=
  match agent, mode with
  | .claude, .resumeDump | .claude, .backlogDump => backlog
  | .claude, _ => []
  | .codex, _ => backlog

/-- `classify`. -/
def classify (agent : Agent) (e : TurnEnd) (mode : Mode) : TurnOutcome :=
  match agent with
  | .claude =>
    if e.rc = 0 then
      match mode with
      | .resumeDump => .advanceMode .resumeExecute
      | .backlogDump => .advanceMode .backlogExecute
      | .start | .resumeExecute | .backlogExecute | .execute =>
        match e.openTasks with
        | some 0 | none => .done
        | some (_ + 1) => .retry
    else if e.rc = 130 ∨ e.rc = 143 then .stopped e.rc
    else if e.noConversation then .recreateSession
    else if e.unrecoverable then .failed e.rc
    else .retry
  | .codex =>
    if e.rc = 0 then .done
    else if e.rc = 130 ∨ e.rc = 143 then .stopped e.rc
    else .retry

end Agent

/-! ## the queue and its processes -/

/-- Where an `add` is: the directories it has still to list, or the file it has open. -/
inductive Add
  | listing (text : String) (rest : List Queue) (max : Nat)
  | filling (text : String) (ino : Nat)
  deriving DecidableEq, Repr

/-- Where the worker is. `first` is the claim at its start, the others follow a turn that was
done. -/
inductive Place
  /-- about to run a turn -/
  | ready
  /-- in `claim`, about to list `pending/` -/
  | claiming (first : Bool)
  /-- in `claim`, with names to move -/
  | moving (first : Bool) (rest : List Nat)
  /-- in `claim`, with names to read -/
  | reading (first : Bool) (rest : List Nat) (read : List (Nat × String))
  /-- in `finalize`, about to list `draining/` -/
  | finalizing
  /-- in `finalize`, with names to move -/
  | confirming (rest : List Nat)
  deriving DecidableEq, Repr

/-- The worker. An item of `backlog` is the text of `Brief::backlog`, with the number of the
file it was read from. -/
structure Worker where
  agent : Agent
  mode : Mode
  fresh : Bool
  draining : Bool
  cycles : Nat
  backlog : List (Nat × String)
  place : Place
  deriving DecidableEq, Repr

/-- A turn that came back. -/
structure Turn where
  drain : Nat
  items : List (Nat × String)
  clean : Bool
  done : Bool
  deriving DecidableEq, Repr

/-- The queue's directories, its `add`s and its worker, with what came of them. -/
structure Backlog where
  items : List Item
  /-- the number of the next file -/
  next : Nat
  adds : Nat → Option Add
  /-- the `add`s that returned: their file, and their text -/
  added : List (Nat × String)
  worker : Option Worker
  drain : Nat
  turns : List Turn

/-- One step of one process. `ok` is whether the file operation succeeds. -/
inductive Event
  /-- `add` begins -/
  | add (p : Nat) (text : String)
  | list (p : Nat)
  | create (p : Nat)
  /-- the text is written, and `add` returns -/
  | fill (p : Nat)
  /-- an `add` dies -/
  | abort (p : Nat)
  | launch (agent : Agent) (trigger : Trigger)
  /-- `claim` cannot make `draining/`, and the worker goes on without items -/
  | claimFails
  | listPending (ok : Bool)
  | claimMove (seq : Nat) (ok : Bool)
  | listDraining (ok : Bool)
  | read (ok : Bool)
  /-- `claim` returns -/
  | claimed
  | turn (e : TurnEnd)
  | listFinal (ok : Bool)
  | confirm (seq : Nat) (ok : Bool)
  | finalized
  /-- the worker dies -/
  | crash
  deriving DecidableEq, Repr

namespace Backlog

/-- `MAX_DRAIN_CYCLES`. -/
def maxDrainCycles : Nat := 25

/-- `run_loop_body` up to its loop. -/
def started (agent : Agent) (trigger : Trigger) : Worker :=
  let mode := agent.initialMode trigger
  let draining := mode = .backlogDump || mode = .backlogExecute
  { agent, mode, fresh := mode = .start, draining, cycles := 0, backlog := [],
    place := if draining then .claiming true else .ready }

end Backlog

namespace Worker

/-- What the worker does with the items it has claimed. -/
def resumed (w : Worker) (first : Bool) (items : List (Nat × String)) : Option Worker :=
  if first then some { w with backlog := items, place := .ready }
  else if items ≠ [] ∧ w.cycles < Backlog.maxDrainCycles then
    some { w with
      cycles := w.cycles + 1, backlog := items, mode := w.agent.initialMode .backlogDrain,
      draining := true, fresh := false, place := .ready }
  else none

/-- The mode a turn is classified in. -/
def turnMode (w : Worker) : Mode := if w.fresh then w.agent.continueMode else w.mode

/-- What the worker does after a turn. A fresh turn whose session id cannot be captured ends
the worker, as its death does. -/
def turned (w : Worker) (e : TurnEnd) : Option Worker :=
  let w := { w with mode := w.turnMode, fresh := false }
  match w.agent.classify e w.mode with
  | .done => some { w with place := if w.draining then .finalizing else .claiming false }
  | .advanceMode next => some { w with mode := next }
  | .recreateSession => some w
  | .stopped _ | .failed _ => none
  | .retry => if e.goesOn then some w else none

/-- The record of a turn. -/
def turn (w : Worker) (drain : Nat) (e : TurnEnd) : Turn :=
  ⟨drain, w.agent.promptItems w.mode w.backlog, e.rc = 0,
    w.agent.classify e w.turnMode = .done⟩

end Worker

namespace Backlog

/-- One process's `add` moves on. -/
def setAdd (s : Backlog) (p : Nat) (x : Option Add) : Backlog :=
  { s with adds := Function.update s.adds p x }

/-- The worker moves on. -/
def goto (s : Backlog) (w : Worker) (x : Place) : Backlog :=
  { s with worker := some { w with place := x } }

/-- A claim returns. -/
def hand (s : Backlog) (w : Worker) (first : Bool) (items : List (Nat × String)) : Backlog :=
  { s with worker := w.resumed first items, drain := s.drain + 1 }

/-- One step of the worker. -/
def work (s : Backlog) (w : Worker) (e : Event) : Option Backlog :=
  match e, w.place with
  | .claimFails, .claiming first => some (s.hand w first [])
  | .listPending ok, .claiming first =>
    some (s.goto w (.moving first (if ok then (Item.listed s.items .pending).map (·.seq) else [])))
  | .claimMove seq ok, .moving first rest =>
    if seq ∈ rest then
      let items := if ok then Item.move s.items .pending .draining seq else s.items
      some ({ s with items }.goto w (.moving first (rest.erase seq)))
    else none
  | .listDraining ok, .moving first [] =>
    if ok then some (s.goto w (.reading first (Item.sortedNames s.items .draining) []))
    else some (s.hand w first [])
  | .read ok, .reading first (seq :: rest) read =>
    match (Item.listed s.items .draining).find? (·.seq = seq) with
    | some e => some (s.goto w (.reading first rest (read ++ if ok then [(e.ino, e.text)] else [])))
    | none => some (s.goto w (.reading first rest read))
  | .claimed, .reading first [] read => some (s.hand w first read)
  | .turn e, .ready =>
    some { s with worker := w.turned e, turns := s.turns ++ [w.turn s.drain e] }
  | .listFinal ok, .finalizing =>
    some (s.goto w
      (if ok then .confirming ((Item.listed s.items .draining).map (·.seq)) else .claiming false))
  | .confirm seq ok, .confirming rest =>
    if seq ∈ rest then
      let items := if ok then Item.move s.items .draining .drained seq else s.items
      some ({ s with items }.goto w (.confirming (rest.erase seq)))
    else none
  | .finalized, .confirming [] => some (s.goto w (.claiming false))
  | .crash, _ => some { s with worker := none }
  | _, _ => none

/-- One step. -/
def step (s : Backlog) (e : Event) : Option Backlog :=
  match e with
  | .add p text =>
    match s.adds p with
    | none => some (s.setAdd p (some (.listing text [.pending, .draining, .drained] 0)))
    | some _ => none
  | .list p =>
    match s.adds p with
    | some (.listing text (q :: rest) max) =>
      some (s.setAdd p (some (.listing text rest (Item.maxSeq (Item.listed s.items q) max))))
    | _ => none
  | .create p =>
    match s.adds p with
    | some (.listing text [] max) =>
      some { s.setAdd p (some (.filling text (Item.opened s.items (max + 1) s.next))) with
        items := Item.create s.items (max + 1) s.next text, next := s.next + 1 }
    | _ => none
  | .fill p =>
    match s.adds p with
    | some (.filling text ino) =>
      some { s.setAdd p none with
        items := Item.fill s.items ino text, added := s.added ++ [(ino, text)] }
    | _ => none
  | .abort p => (s.adds p).map fun _ => s.setAdd p none
  | .launch agent trigger =>
    match s.worker with
    | none => some { s with worker := some (started agent trigger), drain := s.drain + 1 }
    | some _ => none
  | e => s.worker.bind (s.work · e)

/-- A queue nothing was added to yet. -/
def empty : Backlog := ⟨[], 0, fun _ => none, [], none, 0, []⟩

end Backlog

end ClaudeReplay.Jdi
