import ClaudeReplay.Gateway.Reduce
import ClaudeReplay.Lib.Run

/-!
# ClaudeReplay.Gateway.Session

What happens to the gateway's state: notifications, snapshots of both kinds, resumes that
begin and finish, connections, and what the native worker writes itself when it reserves a
subscription or recovers one.

A snapshot answers a read that was issued earlier. A session remembers for each read in
flight the last event before it was issued, and whether its thread was archived since.
-/

namespace ClaudeReplay.Gateway

open Lib

namespace State

/-! ## the worker -/

/-- A resume reserves its subscription, so that requests replayed before its reply are kept. -/
def reserve (s : State) (threadId : String) : State :=
  { s with subscribed := insert threadId s.subscribed }

/-- A resume that reserved its subscription failed. -/
def release (s : State) (threadId : String) : State :=
  ({ s with subscribed := s.subscribed.erase threadId }.clearProvisionalStreams
    threadId).dropPending threadId

/-- A new connection was initialized: its requests will be replayed. -/
def clearRequests (s : State) : State := { s with pending := .empty }

/-- Another native client archived the thread while the connection was lost. -/
def recoverArchived (s : State) (threadId : String) : State :=
  let s := { s with archivedThreads := insert threadId s.archivedThreads }
  let s := { s.clearProvisionalStreams threadId with settings := s.settings.erase threadId }
  (s.dropPending threadId).emit "gateway/snapshot-required"
    (.obj [("threadId", .str threadId), ("accessMode", .str "archived")]) none

/-- A thread that cannot be recovered is given up. -/
def recoverFailed (s : State) (threadId message : String) : State :=
  let s := { s with
    threads := s.threads.erase threadId
    settings := s.settings.erase threadId
    subscribed := s.subscribed.erase threadId }
  (s.clearProvisionalStreams threadId).emit "gateway/recoveryError"
    (.obj [("threadId", .str threadId), ("message", .str message)]) none

/-- The gateway is switched off. -/
def deactivate (s : State) : State :=
  { s.emit "gateway/disabled" (.obj []) none with
    threads := .empty, subscribed := ∅, pending := .empty }

end State

/-! ## sessions -/

/-- A read of a thread that is in flight. -/
structure Read where
  threadId : String
  /-- the last event before it was issued -/
  after : Nat
  /-- the thread was archived since -/
  stale : Bool := false
  deriving DecidableEq

structure Session where
  state : State
  reads : List Read := []

/-- What happens to a session. -/
inductive Session.Event
  | notify (message : Value) (scope : DirectoryScope)
  | issue (threadId : String)
  | reply (read : Read) (result : Value) (scope : DirectoryScope)
  | lose (read : Read)
  | archived (thread : Value) (epoch after : Nat) (scope : DirectoryScope)
  | begin (threadId : String)
  | finish (threadId : String)
  | connect (connection : Connection)
  | reconnect (cause : String)
  | reserve (threadId : String)
  | release (threadId : String)
  | clearRequests
  | recoverArchived (threadId : String)
  | recoverFailed (threadId message : String)
  | deactivate

/-- The thread that a notification says was archived. -/
def archivedId (message : Value) : Option String :=
  if isText (message.get "method") "thread/archived" then threadIdOf (message.get "params")
  else none

/-- The thread of the read was archived. -/
def Read.mark (archived : Option String) (read : Read) : Read :=
  if archived = some read.threadId then { read with stale := true } else read

namespace Session

/-- Before the first connection. -/
def start (allowedRoots : List String) (requestNamespace : String) : Session :=
  { state := .connecting allowedRoots requestNamespace }

/-- One event; a reply answers a read in flight, and names its thread. -/
def step (g : Session) : Event → Option Session
  | .notify message scope => some
      { state := g.state.reduceScoped message scope
        reads := g.reads.map (Read.mark (archivedId message)) }
  | .issue threadId => some
      { g with reads := g.reads ++ [{ threadId, after := g.state.sequence }] }
  | .reply read result scope =>
    if read ∈ g.reads ∧ isText ((result.get "thread").get "id") read.threadId then some
      { state := g.state.rememberScoped result (some read.after) scope
        reads := g.reads.erase read }
    else none
  | .lose read => some { g with reads := g.reads.erase read }
  | .archived thread epoch after scope => some
      { g with state := (g.state.rememberArchivedScoped thread epoch after scope).getD g.state }
  | .begin threadId => some { g with state := g.state.beginResume threadId }
  | .finish threadId => some { g with state := g.state.finishResume threadId }
  | .connect connection => some { g with state := g.state.connect connection }
  | .reconnect cause => some { g with state := g.state.reconnect cause }
  | .reserve threadId => some { g with state := g.state.reserve threadId }
  | .release threadId => some { g with state := g.state.release threadId }
  | .clearRequests => some { g with state := g.state.clearRequests }
  | .recoverArchived threadId => some { g with state := g.state.recoverArchived threadId }
  | .recoverFailed threadId message => some
      { g with state := g.state.recoverFailed threadId message }
  | .deactivate => some { g with state := g.state.deactivate }

end Session

end ClaudeReplay.Gateway
