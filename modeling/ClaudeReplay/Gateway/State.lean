import ClaudeReplay.Lib.ListScan
import ClaudeReplay.Lib.Table
import ClaudeReplay.Lib.Value
import Mathlib.Data.Finset.Erase
import Mathlib.Data.Finset.Insert

/-!
# ClaudeReplay.Gateway.State

What the gateway knows of the native runtime: the threads it projects to the browsers,
reduced from the runtime's notifications (`reduceScoped`) and merged with its snapshots
(`rememberScoped`), over connections that come and go (`connection`).

Each hash map is a table; an id is looked up as the JSON value it is. A value that is
written to as an object but is neither one nor `null` is left alone. The bounded channels
of the browsers are one list of what was emitted.
-/

namespace ClaudeReplay.Gateway

open Lib

/-! ## texts and values -/

/-- A fresh directory decision, made before the state is touched. -/
inductive DirectoryScope
  | unrestricted
  | allowed (source : String)
  | rejected (cause : String)

def DirectoryScope.permits : DirectoryScope → String → Bool
  | .unrestricted, _ => true
  | .allowed checked, source => checked = source
  | .rejected _, _ => false

def DirectoryScope.reason : DirectoryScope → String
  | .rejected cause => cause
  | _ => "Execution directory changed during scope validation"

/-- A value that is this text: `v == "…"`. -/
def isText (v : Value) (s : String) : Bool := v.asStr = some s

def canRespond (method : String) : Bool :=
  ["item/commandExecution/requestApproval", "item/fileChange/requestApproval",
    "item/permissions/requestApproval", "item/tool/requestUserInput"].contains method

def legacyAliasType (itemType : Option String) : Bool :=
  itemType.any fun t =>
    ["userMessage", "agentMessage", "reasoning", "contextCompaction"].contains t

/-- Everything of a turn but its items. -/
def copyTurnMetadata (target source : Value) : Value :=
  match target, source with
  | .obj _, .obj fields =>
    (fields.filter fun f => f.1 ≠ "items" ∧ f.1 ≠ "itemsView").foldr
      (fun f target => target.set f.1 f.2) target
  | _, _ => target

/-- The turns of a thread, if it has an array of them. -/
def turnsOf (thread : Value) : List Value := (thread.get "turns").asArray.getD []

/-- The items of a turn, if it has an array of them. -/
def itemsOf (turn : Value) : List Value := (turn.get "items").asArray.getD []

def isLegacy (thread : Value) : Bool := isText (thread.get "historyMode") "legacy"

def inProgress (turn : Value) : Bool := isText (turn.get "status") "inProgress"

/-- The thread a notification is about. -/
def threadIdOf (params : Value) : Option String :=
  (params.get "threadId").asStr <|> ((params.get "thread").get "id").asStr

/-- The turn a notification is about. -/
def turnIdOf (params : Value) : Option String :=
  (params.get "turnId").asStr <|> ((params.get "turn").get "id").asStr

/-- The item a notification is about. -/
def itemIdOf (params : Value) : Option String :=
  (params.get "itemId").asStr <|> ((params.get "item").get "id").asStr

/-- `text` after what the field holds. -/
def appendText (item : Value) (field text : String) : Value :=
  item.write field (.str ((item.get field).asStr.getD "" ++ text))

/-- A field that is to be an array is one. -/
def withArray (item : Value) (field : String) : Value :=
  if (item.get field).asArray.isSome then item else item.write field (.arr [])

/-- At least `index + 1` parts, the new ones empty. -/
def growParts (index : Nat) (parts : List Value) : List Value :=
  resize parts (max parts.length (index + 1)) (.str "")

/-- `delta` after part `index`. -/
def appendPart (index : Nat) (delta : String) (parts : List Value) : List Value :=
  (growParts index parts).modify index fun part => .str (part.asStr.getD "" ++ delta)

/-! ## the state -/

structure LiveItem where
  epoch : Nat
  completed : Bool
  deriving DecidableEq

structure ProvisionalItem where
  epoch : Nat
  sequence : Nat
  item : Value

structure LivePlanUpdate where
  epoch : Nat
  sequence : Nat
  params : Value

inductive Connection
  | connecting | connected | reconnecting
  deriving DecidableEq

def Connection.asStr : Connection → String
  | .connecting => "connecting"
  | .connected => "connected"
  | .reconnecting => "reconnecting"

structure State where
  requestNamespace : String := ""
  connection : Connection := .connecting
  connectionError : Option String := none
  epoch : Nat := 0
  sequence : Nat := 0
  threads : Table String Value := .empty
  settings : Table String Value := .empty
  settingsSequence : Table String Nat := .empty
  queueSequences : Table String Nat := .empty
  pending : Table Value Value := .empty
  subscribed : Finset String := ∅
  archivedThreads : Finset String := ∅
  allowedRoots : List String := []
  turnSequences : Table (String × String) Nat := .empty
  scopeSequences : Table String Nat := .empty
  scopeChangeSequences : Table String Nat := .empty
  statusSequences : Table String Nat := .empty
  accessSequences : Table String Nat := .empty
  archiveSequence : Nat := 0
  resumesInFlight : Table String Nat := .empty
  liveItems : Table (String × String × String) LiveItem := .empty
  provisionalItems : Table (String × String × String) ProvisionalItem := .empty
  legacyHistoryReadSequences : Table String Nat := .empty
  legacyHistoryDirtySequences : Table String Nat := .empty
  planUpdates : Table (String × String) LivePlanUpdate := .empty
  pendingPlanUpdates : Table String LivePlanUpdate := .empty
  events : List Value := []

/-- The request is about the thread. -/
def requestOf (threadId : String) (request : Value) : Bool :=
  isText ((request.get "params").get "threadId") threadId

namespace State

/-- A gateway before its first connection. -/
def connecting (allowedRoots : List String) (requestNamespace : String) : State :=
  { requestNamespace, allowedRoots }

/-! ## what it tells -/

def threadActive (thread : Value) : Bool :=
  isText ((thread.get "status").get "type") "active" || isText (thread.get "status") "active"

def hasActiveWork (s : State) : Bool :=
  s.resumesInFlight.rows ≠ [] || s.pending.rows ≠ [] ||
    s.threads.rows.any fun t => threadActive t.2 || (turnsOf t.2).any inProgress

/-- The turns at work, or the thread itself if none is. -/
def activeTurns (s : State) : List (String × String × Value) :=
  s.threads.rows.flatMap fun t =>
    let name := String.ofList (((t.2.get "name").asStr.getD t.1).toList.take 160)
    let found := (turnsOf t.2).filter inProgress
    if found = [] then
      if threadActive t.2 then [(t.1, name, .null)] else []
    else found.map fun turn => (t.1, name, turn.get "id")

def status (s : State) : Value :=
  let turns := s.activeTurns.mergeSort fun a b =>
    decide (a.1 < b.1) || (a.1 = b.1 && decide (a.2.2.asStr.getD "" ≤ b.2.2.asStr.getD ""))
  .obj
    [("connection", .str s.connection.asStr),
      ("connectionError", (s.connectionError.map Value.str).getD .null),
      ("epoch", .num s.epoch), ("sequence", .num s.sequence),
      ("activeWork", .bool s.hasActiveWork),
      ("activeTurns", .arr (turns.map fun t => .obj
        [("threadId", .str t.1), ("threadName", .str t.2.1), ("turnId", t.2.2)]))]

/-- Number an event and tell the browsers. -/
def emit (s : State) (method : String) (params : Value) (requestId : Option Value) : State :=
  { s with
    sequence := s.sequence + 1
    events := s.events ++ [.obj
      [("epoch", .num s.epoch), ("sequence", .num (s.sequence + 1)), ("method", .str method),
        ("params", params), ("requestId", requestId.getD .null),
        ("request", (requestId.bind s.pending.find?).getD .null)]] }

/-- Events that come before the connection is published belong to the epoch it will have. -/
def nativeEventEpoch (s : State) : Nat :=
  match s.connection with
  | .connected => s.epoch
  | .connecting | .reconnecting => s.epoch + 1

/-- The request the browsers answer, and what else of a thread lives outside its history. -/
def provisionalShown (s : State) (threadId : String) : List (String × ProvisionalItem) :=
  if threadId ∈ s.archivedThreads then []
  else
    ((s.provisionalItems.rows.filter fun p =>
      p.1.1 = threadId && p.2.epoch = s.nativeEventEpoch &&
        (s.threads.find? threadId).any fun thread =>
          isLegacy thread && (turnsOf thread).any fun turn =>
            isText (turn.get "id") p.1.2.1 && inProgress turn).map
      fun p => (p.1.2.1, p.2)).mergeSort fun p q => decide (p.2.sequence ≤ q.2.sequence)

/-- The plan updates of a thread's known turns. -/
def plansShown (s : State) (threadId : String) : List Value :=
  ((s.threads.find? threadId).map turnsOf |>.getD []).filterMap fun turn =>
    (turn.get "id").asStr.bind fun turnId =>
      ((s.planUpdates.find? (threadId, turnId)).filter
        fun update => update.epoch = s.nativeEventEpoch).map (·.params)

/-- Native history changed since it was read. -/
def legacyHistoryDirty (s : State) (threadId : String) : Bool :=
  threadId ∉ s.archivedThreads && (s.threads.find? threadId).any isLegacy &&
    (s.legacyHistoryDirtySequences.find? threadId).any fun dirty =>
      (s.legacyHistoryReadSequences.find? threadId).getD 0 < dirty

/-- The requests a browser may answer for a thread. -/
def pendingShown (s : State) (threadId : String) : List Value :=
  if threadId ∈ s.archivedThreads then []
  else (s.pending.rows.map Prod.snd).filter (requestOf threadId)

/-- `snapshot`: what a browser is told of a thread. -/
def snapshot (s : State) (threadId : String) (queue : Value) : Value :=
  let archived := decide (threadId ∈ s.archivedThreads)
  .obj
    [("thread", (s.threads.find? threadId).getD .null),
      ("settings", if archived then .obj [] else (s.settings.find? threadId).getD .null),
      ("accessMode", .str (if archived then "archived" else "active")),
      ("planUpdates", .arr (s.plansShown threadId)),
      ("provisionalItems", .arr ((s.provisionalShown threadId).map fun p =>
        .obj [("turnId", .str p.1), ("item", p.2.item)])),
      ("legacyHistoryDirty", .bool (s.legacyHistoryDirty threadId)),
      ("pending", .arr (s.pendingShown threadId)),
      ("queue", if archived then .arr [] else queue),
      ("connection", .str s.connection.asStr),
      ("epoch", .num s.epoch), ("sequence", .num s.sequence)]

/-! ## connections -/

/-- A thread without the items an earlier connection was still streaming. -/
def withoutLive (live : Table (String × String × String) LiveItem) (threadId : String)
    (thread : Value) : Value :=
  thread.mapArr "turns" fun turns => turns.map fun turn =>
    match (turn.get "id").asStr with
    | none => turn
    | some turnId => turn.mapArr "items" fun items => items.filter fun item =>
        !(item.get "id").asStr.any fun itemId => (live.find? (threadId, turnId, itemId)).isSome

/-- A connection is replaced: nothing transient of it is kept. -/
def dropTransient (s : State) : State :=
  { s with
    resumesInFlight := .empty
    threads := s.threads.mapRows (withoutLive s.liveItems)
    liveItems := .empty
    provisionalItems := .empty
    legacyHistoryReadSequences := .empty
    legacyHistoryDirtySequences := .empty
    planUpdates := .empty
    pendingPlanUpdates := .empty
    turnSequences := .empty }

/-- The transition replaces a connection. -/
def replaces (s : State) (connection : Connection) : Bool :=
  connection ≠ .connected || s.connection = .connected

/-- `connection` -/
def connect (s : State) (connection : Connection) : State :=
  let dropped := if s.replaces connection then { s with connection }.dropTransient
    else { s with connection }
  let published := if connection = .connected then
      { dropped with connectionError := none, epoch := dropped.epoch + 1 }
    else dropped
  published.emit "gateway/connection" published.status none

def reconnect (s : State) (cause : String) : State :=
  { s with connectionError := some cause }.connect .reconnecting

/-! ## archived threads and resumes -/

/-- Forget the requests of a thread. -/
def dropPending (s : State) (threadId : String) : State :=
  { s with pending := s.pending.retain fun _ request => !requestOf threadId request }

/-- Close the streams of a thread and the fences of its history. -/
def clearProvisionalStreams (s : State) (threadId : String) : State :=
  { s with
    provisionalItems := s.provisionalItems.retain fun k _ => k.1 ≠ threadId
    legacyHistoryReadSequences := s.legacyHistoryReadSequences.erase threadId
    legacyHistoryDirtySequences := s.legacyHistoryDirtySequences.erase threadId }

/-- Plans of this connection for turns the history knows; one that came before its turn
moves to it once it is known. -/
def retainPlansForHistory (s : State) (threadId : String) (after : Option Nat) : State :=
  let known := ((s.threads.find? threadId).map turnsOf |>.getD []).filterMap
    fun turn => (turn.get "id").asStr
  let planUpdates := s.planUpdates.retain fun k update =>
    k.1 ≠ threadId || (update.epoch = s.nativeEventEpoch &&
      (known.contains k.2 || after.any (· < update.sequence)))
  match s.pendingPlanUpdates.find? threadId with
  | none => { s with planUpdates }
  | some update =>
    let turnId := (update.params.get "turnId").asStr.getD ""
    if update.epoch ≠ s.nativeEventEpoch then
      { s with planUpdates, pendingPlanUpdates := s.pendingPlanUpdates.erase threadId }
    else if known.contains turnId then
      { s with
        pendingPlanUpdates := s.pendingPlanUpdates.erase threadId
        turnSequences := s.turnSequences.put (threadId, turnId)
          (max ((s.turnSequences.find? (threadId, turnId)).getD 0) update.sequence)
        planUpdates := planUpdates.put (threadId, turnId) update }
    else { s with planUpdates }

/-- Something of the thread changed after this read was issued. -/
def newerThan (s : State) (threadId : String) (after : Nat) : Bool :=
  [s.scopeChangeSequences, s.statusSequences, s.settingsSequence, s.queueSequences,
    s.accessSequences].any (fun sequences => (sequences.find? threadId).any (after < ·)) ||
  s.turnSequences.rows.any fun t => t.1.1 = threadId && decide (after < t.2)

/-- `remember_archived_scoped`: archived history, while nothing newer is known; refused, the
state stays. -/
def rememberArchivedScoped (s : State) (thread : Value) (epoch after : Nat)
    (scope : DirectoryScope) : Option State :=
  (thread.get "id").asStr.bind fun id =>
    if s.connection ≠ .connected ∨ s.epoch ≠ epoch ∨ after < s.archiveSequence ∨
        s.newerThan id after ∨ ¬(thread.get "cwd").asStr.any scope.permits then none
    else
      let s := ({ s with
        threads := s.threads.put id thread
        settings := s.settings.erase id
        archivedThreads := insert id s.archivedThreads
        liveItems := s.liveItems.retain fun k _ => k.1 ≠ id }.dropPending id)
      let s := (s.clearProvisionalStreams id).retainPlansForHistory id (some after)
      some { s with subscribed := insert id s.subscribed }

def beginResume (s : State) (threadId : String) : State :=
  let s := if threadId ∈ s.archivedThreads ∧ (s.resumesInFlight.find? threadId).isNone then
      s.dropPending threadId
    else s
  { s with resumesInFlight :=
      s.resumesInFlight.put threadId ((s.resumesInFlight.find? threadId).getD 0 + 1) }

def finishResume (s : State) (threadId : String) : State :=
  let s := match s.resumesInFlight.find? threadId with
    | none => s
    | some count =>
      { s with resumesInFlight :=
          if count - 1 = 0 then s.resumesInFlight.erase threadId
          else s.resumesInFlight.put threadId (count - 1) }
  if threadId ∈ s.archivedThreads ∧ (s.resumesInFlight.find? threadId).isNone then
    s.dropPending threadId
  else s

/-! ## snapshots -/

/-- The scope or the archive membership of the thread changed after this read was issued. -/
def snapshotInvalidatedAfter (s : State) (threadId : String) (after : Nat) : Bool :=
  [s.scopeChangeSequences, s.accessSequences].any fun sequences =>
    (sequences.find? threadId).any (after < ·)

/-- The execution left the allowed directories: nothing of the thread is kept. -/
def forgetOutsideScope (s : State) (threadId : String) (scope : DirectoryScope) : State :=
  let s := { s with
    scopeChangeSequences := s.scopeChangeSequences.put threadId (s.sequence + 1)
    scopeSequences := s.scopeSequences.put threadId (s.sequence + 1)
    subscribed := s.subscribed.erase threadId
    threads := s.threads.erase threadId
    settings := s.settings.erase threadId
    settingsSequence := s.settingsSequence.erase threadId
    queueSequences := s.queueSequences.erase threadId
    statusSequences := s.statusSequences.erase threadId
    archivedThreads := s.archivedThreads.erase threadId
    accessSequences := s.accessSequences.erase threadId
    resumesInFlight := s.resumesInFlight.erase threadId
    turnSequences := s.turnSequences.retain fun k _ => k.1 ≠ threadId
    liveItems := s.liveItems.retain fun k _ => k.1 ≠ threadId }
  let s := (s.dropPending threadId).clearProvisionalStreams threadId
  { s with
    planUpdates := s.planUpdates.retain fun k _ => k.1 ≠ threadId
    pendingPlanUpdates := s.pendingPlanUpdates.erase threadId }.emit "gateway/recoveryError"
      (.obj [("threadId", .str threadId), ("message", .str scope.reason)]) none

def scopeClosed (s : State) (threadId : String) : Bool :=
  (s.scopeSequences.find? threadId).isSome

/-- Cached turns that changed after the read: a terminal one stands for the snapshot's, one
the snapshot does not have is added. -/
def mergeNewerTurns (legacy : Bool) (newer : String → Bool) (existing turns : List Value) :
    List Value :=
  existing.foldl (fun turns turn =>
    if (turn.get "id").asStr.any newer then
      if turns.any fun item => item.get "id" = turn.get "id" then
        if inProgress turn then turns
        else modifyFirst (fun item => item.get "id" = turn.get "id")
          (fun item => if legacy then copyTurnMetadata item turn else turn) turns
      else turns ++ [if legacy then turn.write "items" (.arr []) else turn]
    else turns) turns

/-- One cached item of an active turn, if this connection is streaming it. -/
def keepItem (legacy : Bool) (live : String → Option LiveItem) (items : List Value)
    (cached : Value) : List Value :=
  if legacy && legacyAliasType (cached.get "type").asStr then items
  else
    match (cached.get "id").asStr with
    | none => items
    | some itemId =>
      match live itemId with
      | none => items
      | some l =>
        if items.any fun item => isText (item.get "id") itemId then
          if l.completed then items
          else modifyFirst (fun item => isText (item.get "id") itemId) (fun _ => cached) items
        else items ++ [cached]

/-- The items this connection streams, in the turns the snapshot also has at work. -/
def keepLiveItems (legacy : Bool) (live : String → String → Option LiveItem)
    (existing turns : List Value) : List Value :=
  turns.map fun turn =>
    if inProgress turn then
      match (turn.get "id").asStr with
      | none => turn
      | some turnId =>
        match (existing.find? fun t => isText (t.get "id") turnId && inProgress t).bind
            fun t => (t.get "items").asArray with
        | none => turn
        | some cached => turn.mapArr "items" fun items =>
            cached.foldl (keepItem legacy (live turnId)) items
    else turn

/-- The snapshot's thread with what came after the read. -/
def mergeThread (s : State) (id : String) (after : Option Nat) (thread : Value) : Value :=
  match after with
  | none => thread
  | some after =>
    let legacy := isLegacy thread
    let current := s.threads.find? id
    let thread := match (s.statusSequences.find? id).any (after < ·), current with
      | true, some current => thread.write "status" (current.get "status")
      | _, _ => thread
    let newer turnId := (s.turnSequences.find? (id, turnId)).any (after < ·)
    let live turnId itemId := (s.liveItems.find? (id, turnId, itemId)).filter
      fun item => item.epoch = s.nativeEventEpoch
    let existing := current.bind fun current => (current.get "turns").asArray
    thread.mapArr "turns" fun turns =>
      match existing with
      | none => turns
      | some existing =>
        keepLiveItems legacy live existing (mergeNewerTurns legacy newer existing turns)

/-- The settings part of a snapshot. -/
def settingsOf (result : Value) : Value :=
  let settings := result.erase "thread"
  match settings.get? "reasoningEffort" with
  | some effort => (settings.erase "reasoningEffort").write "effort" effort
  | none => settings

/-- The snapshot won over the streamed item. -/
def retired (result : Value) (after : Option Nat) (turnId itemId : String) (live : LiveItem) :
    Bool :=
  ((turnsOf (result.get "thread")).find? fun turn => isText (turn.get "id") turnId).any fun turn =>
    (after.isNone || !inProgress turn || live.completed) &&
      (itemsOf turn).any fun item => isText (item.get "id") itemId

/-- Settings that came after the read stay, and their directory with them. -/
def rememberSettings (s : State) (id : String) (after : Option Nat) (result thread : Value) :
    Table String Value × Value :=
  if after.any fun after => (s.settingsSequence.find? id).any (after < ·) then
    match s.settings.find? id with
    | some current =>
      (s.settings, if (current.get "cwd").asStr.isSome then thread.write "cwd" (current.get "cwd")
        else thread)
    | none => (s.settings, thread)
  else (s.settings.put id (settingsOf result), thread)

/-- Store the merged thread; what streamed of it and is now history is dropped. -/
def storeSnapshot (s : State) (id : String) (result : Value) (after : Option Nat) : State :=
  let thread := s.mergeThread id after (result.get "thread")
  let legacy := isLegacy (result.get "thread")
  let settings := s.rememberSettings id after result thread
  let thread := settings.2
  { s with
    settings := settings.1
    liveItems := s.liveItems.retain fun k live =>
      k.1 ≠ id || !retired result after k.2.1 k.2.2 live
    provisionalItems := s.provisionalItems.retain fun k item =>
      k.1 ≠ id || (legacy && item.epoch = s.nativeEventEpoch && (turnsOf thread).any fun turn =>
        isText (turn.get "id") k.2.1 && inProgress turn)
    legacyHistoryReadSequences :=
      if legacy then s.legacyHistoryReadSequences.put id (after.getD s.sequence)
      else s.legacyHistoryReadSequences.erase id
    legacyHistoryDirtySequences :=
      if legacy then s.legacyHistoryDirtySequences else s.legacyHistoryDirtySequences.erase id
    threads := s.threads.put id thread }

/-- Merge a snapshot that is within scope. -/
def merge (s : State) (id : String) (result : Value) (after : Option Nat) : State :=
  let s := (s.storeSnapshot id result after).retainPlansForHistory id after
  { s with
    scopeSequences := s.scopeSequences.erase id
    archivedThreads := s.archivedThreads.erase id
    subscribed := insert id s.subscribed }

/-- `remember_scoped`: a snapshot whose read was issued at `after`. -/
def rememberScoped (s : State) (result : Value) (after : Option Nat) (scope : DirectoryScope) :
    State :=
  match ((result.get "thread").get "id").asStr with
  | none => s
  | some id =>
    if after.any (s.snapshotInvalidatedAfter id) then s
    else if s.allowedRoots ≠ [] ∧
        ¬((result.get "cwd").asStr <|> ((result.get "thread").get "cwd").asStr).any
          scope.permits then
      s.forgetOutsideScope id scope
    else s.merge id result after

end State

end ClaudeReplay.Gateway
