import ClaudeReplay.Gateway.State

/-!
# ClaudeReplay.Gateway.Reduce

The reduction of the runtime's notifications (`reduceScoped`). A notification is first
held against what the gateway attached; then it changes the sequences, the requests, the
thread and its items; then it is told to the browsers.
-/

namespace ClaudeReplay.Gateway

open Lib

/-! ## a thread -/

/-- Change the first turn with this id. -/
def changeTurn (thread id : Value) (f : Value → Value) : Value :=
  thread.mapArr "turns" (modifyFirst (fun turn => turn.get "id" = id) f)

/-- Change the items of the turn a notification names. -/
def changeItems (thread params : Value) (f : List Value → List Value) : Value :=
  changeTurn thread (params.get "turnId") fun turn => turn.mapArr "items" f

/-- Change the item a notification names. -/
def changeItem (thread params : Value) (f : Value → Value) : Value :=
  changeItems thread params
    (modifyFirst (fun item => item.get "id" = params.get "itemId") f)

/-- A turn in place of an older one, whose items it keeps unless it brings its own. -/
def replaceTurn (turn old : Value) : Value :=
  if itemsOf turn ≠ [] then turn else turn.write "items" (old.get "items")

/-- A turn that started or ended. -/
def placeTurn (turn : Value) (turns : List Value) : List Value :=
  if turns.any fun t => t.get "id" = turn.get "id" then
    modifyFirst (fun t => t.get "id" = turn.get "id") (replaceTurn turn) turns
  else turns ++ [turn]

/-- An item that started or completed. -/
def placeItem (item : Value) (items : List Value) : List Value :=
  if items.any fun i => i.get "id" = item.get "id" then
    modifyFirst (fun i => i.get "id" = item.get "id") (fun _ => item) items
  else items ++ [item]

/-- A late subscriber gets no start of an item: its text is shown from where it joins. -/
def joinItem (itemId : String) (items : List Value) : List Value :=
  if items.any fun item => isText (item.get "id") itemId then items
  else items ++ [.obj [("id", .str itemId), ("type", .str "agentMessage"), ("text", .str ""),
    ("partialFromJoin", .bool true)]]

/-- `joinItem`, in the turn at work that a delta names. -/
def joinTurn (thread params : Value) : Value :=
  match (params.get "itemId").asStr.filter (· ≠ "") with
  | none => thread
  | some itemId => thread.mapArr "turns"
      (modifyFirst (fun turn => turn.get "id" = params.get "turnId" && inProgress turn)
        fun turn => turn.mapArr "items" (joinItem itemId))

/-- The part of a reasoning item that a chunk extends. -/
def reasoningPart (method : String) (params : Value) : String × Nat :=
  if ["item/reasoning/summaryTextDelta", "item/reasoning/summaryPartAdded"].contains method then
    ("summary", (((params.get "summaryIndex").asU64.map UInt64.toNat).getD 0))
  else ("content", (((params.get "contentIndex").asU64.map UInt64.toNat).getD 0))

/-- A reasoning chunk; an index out of reach is ignored. -/
def appendReasoning (part : String × Nat) (params item : Value) : Value :=
  if part.2 ≤ 4096 then
    (withArray item part.1).mapArr part.1
      (appendPart part.2 ((params.get "delta").asStr.getD ""))
  else item

/-- The notifications that change items of a turn. -/
def deltaMethods : List String :=
  ["item/agentMessage/delta", "item/plan/delta", "item/commandExecution/outputDelta",
    "item/fileChange/outputDelta", "item/fileChange/patchUpdated",
    "item/reasoning/summaryTextDelta", "item/reasoning/summaryPartAdded",
    "item/reasoning/textDelta"]

/-- One chunk, applied to its item. -/
def applyDelta (method : String) (params item : Value) : Value :=
  if method = "item/fileChange/patchUpdated" then item.write "changes" (params.get "changes")
  else if ["item/reasoning/summaryTextDelta", "item/reasoning/summaryPartAdded",
      "item/reasoning/textDelta"].contains method then
    appendReasoning (reasoningPart method params) params item
  else
    appendText item
      (if ["item/commandExecution/outputDelta", "item/fileChange/outputDelta"].contains method then
        "aggregatedOutput" else "text")
      ((params.get "delta").asStr.getD "")

/-- What a notification changes in its thread. -/
def projectThread (method : String) (params thread : Value) : Value :=
  if method = "thread/status/changed" then thread.write "status" (params.get "status")
  else if method = "turn/started" ∨ method = "turn/completed" then
    thread.mapArr "turns" (placeTurn (params.get "turn"))
  else if method = "item/started" ∨ method = "item/completed" then
    changeItems thread params (placeItem (params.get "item"))
  else if deltaMethods.contains method then
    changeItem (if method = "item/agentMessage/delta" then joinTurn thread params else thread)
      params (applyDelta method params)
  else thread

namespace State

/-! ## what comes before -/

/-- Archive membership changed natively. -/
def archiveEvent (s : State) (method id : String) : State :=
  if method = "thread/archived" ∨ method = "thread/unarchived" then
    let s := { s with archiveSequence := s.sequence + 1 }
    if (s.threads.find? id).isSome ∨ id ∈ s.subscribed then
      let s := { s with accessSequences := s.accessSequences.put id (s.sequence + 1) }
      if method = "thread/archived" then
        (({ s with archivedThreads := insert id s.archivedThreads }.clearProvisionalStreams
          id).dropPending id)
      else s
    else s
  else s

/-- The thread and the turn of a well-formed plan update within scope. -/
def scopedPlanIds (s : State) (params : Value) (scope : DirectoryScope) :
    Option (String × String) :=
  ((params.get "threadId").asStr.filter (· ≠ "")).bind fun threadId =>
    ((params.get "turnId").asStr.filter (· ≠ "")).bind fun turnId =>
      if threadId ∉ s.subscribed ∨ s.scopeClosed threadId then none
      else
        (s.threads.find? threadId).bind fun thread =>
          if s.allowedRoots ≠ [] ∧ ¬(thread.get "cwd").asStr.any scope.permits then none
          else if (params.get? "explanation").any fun v => v ≠ .null ∧ v.asStr.isNone then none
          else
            (params.get "plan").asArray.bind fun plan =>
              if plan.all fun step => (step.get "step").asStr.isSome &&
                  (step.get "status").asStr.any
                    (["pending", "inProgress", "completed"].contains ·) then
                some (threadId, turnId)
              else none

/-- A plan update; for a turn not yet known it waits. -/
def storePlan (s : State) (params : Value) (threadId turnId : String) : State :=
  let update : LivePlanUpdate :=
    { epoch := s.nativeEventEpoch, sequence := s.sequence + 1, params }
  if ((s.threads.find? threadId).map turnsOf |>.getD []).any
      fun turn => isText (turn.get "id") turnId then
    { s with
      pendingPlanUpdates :=
        if (s.pendingPlanUpdates.find? threadId).any
            fun waiting => isText (waiting.params.get "turnId") turnId then
          s.pendingPlanUpdates.erase threadId
        else s.pendingPlanUpdates
      planUpdates := s.planUpdates.put (threadId, turnId) update }
  else { s with pendingPlanUpdates := s.pendingPlanUpdates.put threadId update }

/-- A native request: one that is replayed unchanged keeps its token. -/
def storeRequest (s : State) (id : Value) (method : String) (params : Value) : State :=
  let generation := s.requestNamespace ++ ":" ++ toString s.nativeEventEpoch ++ ":"
  let kept := (((s.pending.find? id).filter fun request =>
      request.get "id" = id && isText (request.get "method") method &&
        request.get "params" = params &&
        (request.get "canRespond").asBool = some (canRespond method)).bind
      fun request => (request.get "requestToken").asStr).filter (generation.isPrefixOf ·)
  { s with pending := s.pending.put id (.obj
      [("id", id), ("method", .str method), ("params", params),
        ("canRespond", .bool (canRespond method)),
        ("requestToken", .str (kept.getD (generation ++ toString (s.sequence + 1))))]) }

/-- New settings, and the directory they name. -/
def noteSettings (s : State) (method : String) (params : Value) : State :=
  if method = "thread/settings/updated" then
    match (params.get "threadId").asStr with
    | some id =>
      { s with
        settings := s.settings.put id (params.get "threadSettings")
        settingsSequence := s.settingsSequence.put id (s.sequence + 1)
        threads := s.threads.update id fun thread =>
          thread.write "cwd" ((params.get "threadSettings").get "cwd") }
    | none => s
  else s

/-- When the queue and the status last changed. -/
def noteThread (s : State) (method id : String) : State :=
  { s with
    queueSequences :=
      if method = "thread/queue/changed" then s.queueSequences.put id (s.sequence + 1)
      else s.queueSequences
    statusSequences :=
      if method = "thread/status/changed" then s.statusSequences.put id (s.sequence + 1)
      else s.statusSequences }

/-- A request that was answered. -/
def resolveRequest (s : State) (method : String) (params : Value) : State :=
  if method = "serverRequest/resolved" then
    { s with pending := s.pending.erase (params.get "requestId") }
  else s

/-- The requests a completed tool call settles. -/
def settleToolCall (s : State) (method : String) (params : Value) : State :=
  if method = "item/completed" ∧ isText ((params.get "item").get "type") "dynamicToolCall" then
    { s with pending := s.pending.retain fun _ request =>
        !(isText (request.get "method") "item/tool/call" &&
          (request.get "params").get "threadId" = params.get "threadId" &&
          (request.get "params").get "callId" = (params.get "item").get "id") }
  else s

/-- A thread that started. -/
def startThread (s : State) (method : String) (params : Value) : State :=
  if method = "thread/started" then
    match ((params.get "thread").get "id").asStr with
    | some id => { s with threads := s.threads.put id (params.get "thread") }
    | none => s
  else s

/-! ## legacy threads -/

/-- A legacy turn ended: its metadata, and no items but those native history will give. -/
def endLegacyTurn (s : State) (method : String) (params : Value) (threadId turnId : String) :
    State :=
  let s := { s with
    legacyHistoryDirtySequences :=
      if threadId ∈ s.archivedThreads then s.legacyHistoryDirtySequences
      else s.legacyHistoryDirtySequences.put threadId (s.sequence + 1)
    threads := s.threads.update threadId fun thread => thread.mapArr "turns" fun turns =>
      if turns.any fun turn => isText (turn.get "id") turnId then
        modifyFirst (fun turn => isText (turn.get "id") turnId)
          (fun turn => copyTurnMetadata turn (params.get "turn")) turns
      else turns ++ [(params.get "turn").write "items" (.arr [])]
    provisionalItems := s.provisionalItems.retain fun k _ => k.1 ≠ threadId || k.2.1 ≠ turnId
    liveItems := s.liveItems.retain fun k _ => k.1 ≠ threadId || k.2.1 ≠ turnId
    turnSequences := s.turnSequences.put (threadId, turnId) (s.sequence + 1) }
  (s.retainPlansForHistory threadId (some (s.sequence + 1))).emit method
    (params.modify "turn" fun turn => turn.write "items" (.arr [])) none

/-- The type of the item a legacy chunk belongs to. -/
def deltaType (method : String) : Option String :=
  if method = "item/agentMessage/delta" then some "agentMessage"
  else if ["item/reasoning/summaryTextDelta", "item/reasoning/summaryPartAdded",
      "item/reasoning/textDelta"].contains method then some "reasoning"
  else none

/-- A stream that is seen from its middle. -/
def partialItem (itemId itemType : String) : Value :=
  if itemType = "agentMessage" then
    .obj [("id", .str itemId), ("type", .str "agentMessage"), ("text", .str ""), ("phase", .null),
      ("partialFromJoin", .bool true)]
  else
    .obj [("id", .str itemId), ("type", .str "reasoning"), ("summary", .arr []),
      ("content", .arr []), ("partialFromJoin", .bool true)]

/-- A chunk of a stream that is kept apart from history. -/
def applyProvisional (method : String) (params item : Value) : Value :=
  if method = "item/started" then params.get "item"
  else if method = "item/agentMessage/delta" then
    match (params.get "delta").asStr with
    | some delta => appendText item "text" delta
    | none => item
  else
    let part := if method = "item/reasoning/textDelta" then
        ("content", (((params.get "contentIndex").asU64.map UInt64.toNat).getD 0))
      else ("summary", (((params.get "summaryIndex").asU64.map UInt64.toNat).getD 0))
    if part.2 ≤ 4096 then
      (withArray item part.1).mapArr part.1 fun parts =>
        match (params.get "delta").asStr with
        | some delta => appendPart part.2 delta parts
        | none => growParts part.2 parts
    else item

/-- Start or continue a stream that is kept apart. -/
def stream (s : State) (method : String) (params : Value) (key : String × String × String)
    (itemType : Option String) : State :=
  match itemType with
  | some t =>
    if t = "agentMessage" ∨ t = "reasoning" then
      let old := (s.provisionalItems.find? key).getD
        { epoch := s.nativeEventEpoch, sequence := s.sequence + 1, item := partialItem key.2.2 t }
      let item : ProvisionalItem :=
        { old with epoch := s.nativeEventEpoch, item := applyProvisional method params old.item }
      { s with provisionalItems := s.provisionalItems.put key item }
    else s
  | none => s

/-- A completed message is history to read again; any other event continues its stream. -/
def noteAlias (s : State) (method : String) (params : Value) (threadId turnId itemId : String) :
    State :=
  let s := { s with turnSequences := s.turnSequences.put (threadId, turnId) (s.sequence + 1) }
  if method = "item/completed" then
    { s with
      legacyHistoryDirtySequences :=
        if threadId ∈ s.archivedThreads then s.legacyHistoryDirtySequences
        else s.legacyHistoryDirtySequences.put threadId (s.sequence + 1)
      provisionalItems := s.provisionalItems.erase (threadId, turnId, itemId) }
  else if threadId ∈ s.archivedThreads then s
  else s.stream method params (threadId, turnId, itemId)
    ((deltaType method).or ((params.get "item").get "type").asStr)

/-- The life of a message in a legacy thread, or in one that is not loaded yet. -/
def reduceAlias (s : State) (method : String) (params : Value) (threadId turnId itemId : String) :
    State :=
  let itemType := (params.get "item").get "type"
  let s := s.noteAlias method params threadId turnId itemId
  if (s.threads.find? threadId).any isLegacy ∧ (method = "item/completed" ∨
      method = "item/started" ∧ ¬(isText itemType "agentMessage" ∨ isText itemType "reasoning"))
  then
    s.emit "gateway/legacy-history-changed" (.obj
      [("threadId", .str threadId), ("turnId", .str turnId), ("itemId", .str itemId),
        ("reason", .str (if method = "item/completed" then "itemCompleted" else "itemStarted"))])
      none
  else s.emit method params none

/-- `reduce_legacy_projection`: `none` when the notification is not one for it. -/
def reduceLegacyProjection (s : State) (method : String) (params : Value) (threadId : String) :
    Option State :=
  let thread := s.threads.find? threadId
  if thread.any fun thread => !isLegacy thread then none
  else
    ((turnIdOf params).filter (· ≠ "")).bind fun turnId =>
      if method = "turn/completed" ∧ thread.isSome then
        some (s.endLegacyTurn method params threadId turnId)
      else if ((method = "item/started" ∨ method = "item/completed") ∧
          legacyAliasType ((params.get "item").get "type").asStr) ∨ (deltaType method).isSome then
        ((itemIdOf params).filter (· ≠ "")).map fun itemId =>
          if thread.isSome ∧ threadId ∈ s.archivedThreads ∧ method ≠ "item/completed" then s
          else s.reduceAlias method params threadId turnId itemId
      else none

/-! ## turns and items -/

/-- The notifications that change a turn. -/
def turnMethods : List String :=
  ["turn/started", "turn/completed", "turn/plan/updated", "item/started", "item/completed"] ++
    deltaMethods

/-- The item a notification is about is streamed by this connection. -/
def noteItem (s : State) (method : String) (key : String × String × String) : State :=
  let old := (s.liveItems.find? key).getD { epoch := s.nativeEventEpoch, completed := false }
  let live : LiveItem :=
    { epoch := s.nativeEventEpoch
      completed := if method = "item/completed" then true
        else if method = "item/started" then false else old.completed }
  { s with liveItems := s.liveItems.put key live }

/-- When a turn last changed, and which of its items are streamed. -/
def noteChange (s : State) (method : String) (params : Value) (threadId turnId : String) : State :=
  if turnMethods.contains method ∧ (method ≠ "turn/plan/updated" ∨
      (s.planUpdates.find? (threadId, turnId)).isSome) then
    let s := { s with turnSequences := s.turnSequences.put (threadId, turnId) (s.sequence + 1) }
    match itemIdOf params with
    | some itemId => s.noteItem method (threadId, turnId, itemId)
    | none => s
  else s

/-- A turn that ended streams nothing. -/
def endTurn (s : State) (method threadId turnId : String) : State :=
  if method = "turn/completed" then
    { s with
      liveItems := s.liveItems.retain fun k _ => k.1 ≠ threadId || k.2.1 ≠ turnId
      provisionalItems := s.provisionalItems.retain fun k _ => k.1 ≠ threadId || k.2.1 ≠ turnId
      legacyHistoryDirtySequences :=
        if (s.threads.find? threadId).isNone ∧ threadId ∉ s.archivedThreads then
          s.legacyHistoryDirtySequences.put threadId (s.sequence + 1)
        else s.legacyHistoryDirtySequences }
  else s

/-- The turn a notification is about, if it names one. -/
def noteTurn (s : State) (method : String) (params : Value) (threadId : String) : State :=
  match turnIdOf params with
  | none => s
  | some turnId =>
    let s := (s.noteChange method params threadId turnId).endTurn method threadId turnId
    if method = "turn/started" ∨ method = "turn/completed" then
      s.retainPlansForHistory threadId (some (s.sequence + 1))
    else s

/-- The thread, as a notification changes it. -/
def project (s : State) (method : String) (params : Value) (id : String) : State :=
  { s with threads := s.threads.update id (projectThread method params) }

/-! ## the reduction -/

/-- A notification that passed every guard. -/
def reduceKnown (s : State) (message : Value) (method : String) (params : Value) (id : String) :
    State :=
  let s := ((s.noteSettings method params).noteThread method id).resolveRequest method params
  let s := (s.settleToolCall method params).startThread method params
  match s.reduceLegacyProjection method params id with
  | some s => s
  | none =>
    ((s.project method params id).noteTurn method params id).emit method params
      (message.get? "id")

/-- A notification of an attached thread. -/
def reduceAttached (s : State) (message : Value) (method : String) (params : Value) (id : String)
    (scope : DirectoryScope) : State :=
  if method = "thread/settings/updated" ∧ s.allowedRoots ≠ [] ∧
      ¬((params.get "threadSettings").get "cwd").asStr.any scope.permits then
    s.forgetOutsideScope id scope
  else if method = "serverRequest/resolved" ∧ (s.pending.find? (params.get "requestId")).isNone then
    s
  else
    match message.get? "id" with
    | none => s.reduceKnown message method params id
    | some requestId =>
      if id ∈ s.archivedThreads ∧ (s.resumesInFlight.find? id).isNone then s
      else (s.storeRequest requestId method params).reduceKnown message method params id

/-- `reduce_scoped` -/
def reduceScoped (s : State) (message : Value) (scope : DirectoryScope) : State :=
  match (message.get "method").asStr with
  | none => s
  | some method =>
    let params := message.get "params"
    match threadIdOf params with
    | none =>
      -- of the notifications without a thread only the answer to a request owned here is read
      if method ≠ "serverRequest/resolved" ∨ (message.get? "id").isSome ∨
          (s.pending.find? (params.get "requestId")).isNone then s
      else (s.resolveRequest method params).emit method
        (.obj [("requestId", params.get "requestId")]) none
    | some id =>
      let s := s.archiveEvent method id
      if id ∉ s.subscribed then
        if ["thread/started", "thread/archived", "thread/unarchived"].contains method then
          s.emit "gateway/historyChanged" (.obj []) none
        else s
      else if method = "turn/plan/updated" then
        match s.scopedPlanIds params scope with
        | none => s
        | some (threadId, turnId) =>
          (s.storePlan params threadId turnId).reduceAttached message method params id scope
      else s.reduceAttached message method params id scope

end State

end ClaudeReplay.Gateway
