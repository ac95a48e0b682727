import ClaudeReplay.Lib.Run
import Mathlib.Logic.Function.Basic

/-!
# ClaudeReplay.Jdi.Slot

The slot of a session, as the commands that start a worker use it. `start` and `resume`
take the slot lock, a directory `.lock` with the pid of its owner in it; they let it go
once the worker they spawned is recorded, and from then on the worker is found by the
recorded pid alone. `backlog --drain` looks for a recorded worker and takes no lock.

A command is a few file-system steps with other processes' steps in between:

* `acquire` creates the directory, or reads the owner of the one that is there, twice with
  a wait if there is none, probes it, and removes the directory of a dead one;
* removing a directory empties it first, and fails if something is in it again;
* writing the owner creates the file, and then fills it;
* `meta_set` reads the whole file and writes it back with one key changed, so what it
  writes of the other keys is what it read.

What a probe answers for a process that is gone is up to the environment: its pid may
belong to another process by then. Directories and files bear a serial number, by which
one is told from another of the same name.
-/

namespace ClaudeReplay.Jdi

open Lib

/-- The `owner` file: still empty, or with a pid. -/
structure Owner where
  serial : Nat
  pid : Option Nat
  deriving DecidableEq, Repr

/-- The `.lock` directory. -/
structure LockDir where
  serial : Nat
  owner : Option Owner
  deriving DecidableEq, Repr

namespace LockDir

/-- `read_owner`: the pid in the owner file, if there is one. -/
def readOwner (d : LockDir) : Option Nat := d.owner.bind (·.pid)

/-- The directory with its entries removed. -/
def emptied (d : LockDir) : LockDir := { d with owner := none }

/-- The owner file opened for writing, which creates or empties it. -/
def opened (d : LockDir) (fresh : Nat) : LockDir :=
  { d with owner := some ⟨(d.owner.map (·.serial)).getD fresh, none⟩ }

/-- What is written to an open owner file, if it is still here. -/
def signed (d : LockDir) (file pid : Nat) : LockDir :=
  { d with owner := d.owner.map fun f => if f.serial = file then { f with pid := some pid } else f }

@[simp] theorem emptied_serial (d : LockDir) : d.emptied.serial = d.serial := rfl

@[simp] theorem opened_serial (d : LockDir) (fresh : Nat) : (d.opened fresh).serial = d.serial := rfl

@[simp] theorem signed_serial (d : LockDir) (file pid : Nat) :
    (d.signed file pid).serial = d.serial := rfl

@[simp] theorem emptied_readOwner (d : LockDir) : d.emptied.readOwner = none := rfl

@[simp] theorem opened_readOwner (d : LockDir) (fresh : Nat) :
    (d.opened fresh).readOwner = none := rfl

theorem signed_readOwner {d : LockDir} {file pid o : Nat}
    (h : (d.signed file pid).readOwner = some o) : d.readOwner = some o ∨ o = pid := by
  cases hf : d.owner with
  | none => simp [readOwner, signed, hf] at h
  | some f =>
    simp only [readOwner, signed, hf, Option.map_some, Option.bind_some] at h ⊢
    split at h
    · exact .inr (Option.some.inj h).symm
    · exact .inl h

end LockDir

/-- Where a process is. `k` is the serial of the directory it made, `seen` that of the one it
read the owner of. -/
inductive Phase
  /-- not a process of this slot -/
  | away
  /-- a detached worker -/
  | worker
  /-- in `guard_no_conflict`; of a drain or not -/
  | guarding (drain : Bool)
  /-- in `acquire`, about to create the directory -/
  | trying
  /-- the directory is there; about to read its owner -/
  | blocked
  /-- it named no owner; about to read it again -/
  | grace
  /-- about to probe its owner -/
  | probing (owner : Nat) (seen : Option Nat)
  /-- about to empty it -/
  | reclaiming (seen : Option Nat)
  /-- about to remove it -/
  | removing (seen : Option Nat)
  /-- it is ours; about to read the recorded pid -/
  | made (k : Nat)
  /-- about to probe the recorded pid -/
  | asking (k : Nat) (recorded : Option Nat)
  /-- about to create the owner file -/
  | owning (k : Nat)
  /-- the owner file is open -/
  | signing (k file : Nat)
  /-- `acquire` has returned a `SlotLock` -/
  | held (k : Nat)
  /-- a worker is spawned, and about to be recorded -/
  | launched (k w : Nat)
  /-- it is recorded -/
  | recorded (k : Nat)
  /-- about to empty our directory -/
  | releasing (k : Nat)
  /-- about to remove it -/
  | leaving (k : Nat)
  /-- a drain, about to read the recorded pid -/
  | looking
  /-- a drain, about to probe it -/
  | drainAsking (recorded : Option Nat)
  /-- a drain that has found no worker -/
  | draining
  /-- a drain whose worker is about to be recorded -/
  | drainLaunched (w : Nat)
  /-- a drain whose worker is recorded -/
  | drained
  deriving DecidableEq, Repr

/-- One step of one process. -/
inductive Act
  /-- `start` or `resume` begins -/
  | start
  /-- `backlog --drain` begins -/
  | drain
  /-- what `guard_no_conflict` found among the sessions of all slots -/
  | guard (conflict : Bool)
  | mkdir
  | readOwner
  | readPid
  /-- the probe's answer -/
  | answer (live : Bool)
  /-- `remove_dir_all`, of the entries -/
  | empty
  /-- `remove_dir_all`, of the directory -/
  | rmdir
  | openOwner
  | signOwner
  /-- `meta_set` of a key other than the pid, up to its read -/
  | readMeta
  /-- and the rest of it -/
  | writeMeta
  | spawn (w : Nat)
  /-- `meta_set` of the pid -/
  | record
  /-- the `SlotLock` is dropped, at the end or by an error -/
  | release
  /-- a drain returns -/
  | quit
  | die
  deriving DecidableEq, Repr

/-- The slot and its processes. -/
structure Slot where
  lock : Option LockDir
  /-- the recorded pid -/
  pid : Option Nat
  phase : Nat → Phase
  /-- the recorded pid in the copy of `meta` that a process is about to write back -/
  copy : Nat → Option (Option Nat)
  /-- the next serial -/
  next : Nat

namespace Phase

/-- The process is between `meta_set`s. -/
def setsMeta : Phase → Bool
  | .worker | .held _ | .recorded _ | .draining | .drained => true
  | _ => false

/-- The directory the process made, until it is done with it. -/
def claim? : Phase → Option Nat
  | .made k | .asking k _ | .owning k | .signing k _ | .held k | .launched k _ | .recorded k
  | .releasing k | .leaving k => some k
  | _ => none

/-- The process has a `SlotLock`. -/
def holds : Phase → Bool
  | .held _ | .launched _ _ | .recorded _ | .releasing _ | .leaving _ => true
  | _ => false

/-- A drain, from its look at the recorded pid until its own worker is recorded. -/
def drains : Phase → Bool
  | .drainAsking _ | .guarding true | .draining | .drainLaunched _ => true
  | _ => false

/-- A command, from its look at the recorded pid until its own worker is recorded. -/
def starts : Phase → Bool
  | .asking _ _ | .owning _ | .signing _ _ | .held _ | .launched _ _ => true
  | x => x.drains

/-- The worker that is not yet recorded. -/
def launched? : Phase → Option Nat
  | .launched _ w | .drainLaunched w => some w
  | _ => none

end Phase

namespace Slot

/-- `read_owner`, of whatever directory is there. -/
def readOwner (s : Slot) : Option Nat := s.lock.bind (·.readOwner)

/-- What a liveness test of a recorded pid may answer: a process that runs is alive. -/
def Answers (s : Slot) (pid : Option Nat) (live : Bool) : Prop :=
  match pid with
  | none => live = false
  | some q => s.phase q ≠ .away → live = true

instance (s : Slot) (pid : Option Nat) (live : Bool) : Decidable (s.Answers pid live) := by
  unfold Answers
  cases pid <;> infer_instance

/-- Move one process. -/
def goto (s : Slot) (p : Nat) (x : Phase) : Slot := { s with phase := Function.update s.phase p x }

/-- Drop what a process has read of `meta`. -/
def forget (s : Slot) (p : Nat) : Slot := { s with copy := Function.update s.copy p none }

/-- The directory removed, if it is empty. -/
def rmdir : Option LockDir → Option LockDir
  | some ⟨serial, some f⟩ => some ⟨serial, some f⟩
  | _ => none

/-- One step of process `p`, where it can take it. -/
def step (s : Slot) (p : Nat) (act : Act) : Option Slot :=
  match act, s.phase p with
  | .start, .away => some (s.goto p (.guarding false))
  | .drain, .away => some (s.goto p .looking)
  | .guard conflict, .guarding drain =>
    some (s.goto p (if conflict then .away else if drain then .draining else .trying))
  -- acquire
  | .mkdir, .trying =>
    match s.lock with
    | none =>
      some { s.goto p (.made s.next) with lock := some ⟨s.next, none⟩, next := s.next + 1 }
    | some _ => some (s.goto p .blocked)
  | .readOwner, .blocked =>
    match s.readOwner with
    | some owner => some (s.goto p (.probing owner (s.lock.map (·.serial))))
    | none => some (s.goto p .grace)
  | .readOwner, .grace =>
    match s.readOwner with
    | some owner => some (s.goto p (.probing owner (s.lock.map (·.serial))))
    | none => some (s.goto p (.reclaiming (s.lock.map (·.serial))))
  | .answer live, .probing owner seen =>
    if s.Answers (some owner) live then
      some (s.goto p (if live then .away else .reclaiming seen))
    else none
  | .empty, .reclaiming seen =>
    some { s.goto p (.removing seen) with lock := s.lock.map (·.emptied) }
  | .rmdir, .removing _ => some { s.goto p .trying with lock := rmdir s.lock }
  | .readPid, .made k => some (s.goto p (.asking k s.pid))
  | .answer live, .asking k recorded =>
    if s.Answers recorded live then
      some (s.goto p (if live then .releasing k else .owning k))
    else none
  | .openOwner, .owning k =>
    match s.lock with
    | none => some (s.goto p .away)
    | some d =>
      some { s.goto p (.signing k ((d.owner.map (·.serial)).getD s.next)) with
        lock := some (d.opened s.next), next := s.next + 1 }
  | .signOwner, .signing k file =>
    some { s.goto p (.held k) with lock := s.lock.map (·.signed file p) }
  -- the commands
  | .spawn w, .held k =>
    if s.copy p = none ∧ s.phase w = .away then
      some ((s.goto p (.launched k w)).goto w .worker)
    else none
  | .record, .launched k w => some { s.goto p (.recorded k) with pid := some w }
  | .release, .held k => some ((s.goto p (.releasing k)).forget p)
  | .release, .launched k _ => some ((s.goto p (.releasing k)).forget p)
  | .release, .recorded k => some ((s.goto p (.releasing k)).forget p)
  | .empty, .releasing k => some { s.goto p (.leaving k) with lock := s.lock.map (·.emptied) }
  | .rmdir, .leaving _ => some { s.goto p .away with lock := rmdir s.lock }
  | .readPid, .looking => some (s.goto p (.drainAsking s.pid))
  | .answer live, .drainAsking recorded =>
    if s.Answers recorded live then
      some (s.goto p (if live then .away else .guarding true))
    else none
  | .spawn w, .draining =>
    if s.copy p = none ∧ s.phase w = .away then
      some ((s.goto p (.drainLaunched w)).goto w .worker)
    else none
  | .record, .drainLaunched w => some { s.goto p .drained with pid := some w }
  | .quit, .draining => some ((s.goto p .away).forget p)
  | .quit, .drainLaunched _ => some ((s.goto p .away).forget p)
  | .quit, .drained => some ((s.goto p .away).forget p)
  | .readMeta, x =>
    if x.setsMeta ∧ s.copy p = none then
      some { s with copy := Function.update s.copy p (some s.pid) }
    else none
  | .writeMeta, _ =>
    match s.copy p with
    | some pid => some { s.forget p with pid := pid }
    | none => none
  | .die, _ => some ((s.goto p .away).forget p)
  | _, _ => none

end Slot

end ClaudeReplay.Jdi
