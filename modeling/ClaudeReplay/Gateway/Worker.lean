import ClaudeReplay.Gateway.Session
import ClaudeReplay.Lib.Cut
import Mathlib.Data.Finset.Sort
import Mathlib.Data.String.Basic

/-!
# ClaudeReplay.Gateway.Worker

The native worker: the one thread that talks to the shared server. Callers put commands on a
channel and wait for the answer; the worker connects, recovers the subscriptions, writes each
command under an id of its own, and answers the caller when the reply to that id comes. A reply
that never comes, or a connection that is lost, leaves the caller in doubt (`uncertain`).

The worker goes round: commands, one message, the calls that are overdue. Here its parts may
come in any order (`Worker.step`), between which other threads write the state. What the code
learns from its clock, its socket and the file system comes with the event.

Beside the worker stands what went over its sockets and its answer channels: `wire`, `heard`
and `answers`.
-/

namespace ClaudeReplay.Gateway

open Lib

/-! ## failures -/

/-- How a call fails. -/
inductive Failure
  | rejected (message : String)
  | rpcRejected (details : String) (error : Value)
  | unavailable (message : String)
  | uncertain (message : String)
  deriving DecidableEq

namespace Failure

def message : Failure → String
  | .rejected v | .unavailable v | .uncertain v => v
  | .rpcRejected details _ => details

def code : Failure → String
  | .rejected _ | .rpcRejected _ _ => "rejected"
  | .unavailable _ => "unavailable"
  | .uncertain _ => "uncertain"

/-- The server refused a request; `print` writes a value as JSON. -/
def rpcRejection (print : Value → String) (method : String) (error : Value) : Failure :=
  .rpcRejected (method ++ ": " ++ print error) error

def isRpcRejection (f : Failure) (code : Int) (message : String) : Bool :=
  match f with
  | .rpcRejected _ error =>
    error.get "code" = .num code && isText (error.get "message") message
  | _ => false

/-- Change what a failure says. -/
def mapMessage (f : String → String) : Failure → Failure
  | .rejected message => .rejected (f message)
  | .rpcRejected details error => .rpcRejected (f details) error
  | .unavailable message => .unavailable (f message)
  | .uncertain message => .uncertain (f message)

end Failure

def historyFailure : Failure → Failure :=
  .mapMessage ("thread/resume canonical history: " ++ ·)

def archivedRejection (f : Failure) (threadId : String) : Bool :=
  f.isRpcRejection (-32600) ("session " ++ threadId ++ " is archived. Run `codex unarchive " ++
    threadId ++ "` to unarchive it first.")

/-! ## resumes -/

/-- `Path::is_absolute` -/
def isAbsolute (path : String) : Bool := path.toList.head? = some '/'

/-- The history that came with a resume is numbered anew, so it is read again. -/
def needsCanonicalHistory (result : Value) : Bool :=
  let mode := (result.get "thread").get "historyMode"
  isText mode "legacy" ||
    isText mode "paginated" &&
      (((result.get "thread").get "turns").asArray.any fun turns => turns.any inProgress)

/-- The directory of a resumed thread, if it is the one that was asked for. -/
def resumeIdentity (resume : Value) (threadId : String) : Except Failure String :=
  let cwd := (resume.get "cwd").asStr <|> ((resume.get "thread").get "cwd").asStr
  match cwd.filter fun cwd =>
    isText ((resume.get "thread").get "id") threadId && isAbsolute cwd with
  | some cwd => .ok cwd
  | none => .error (.rejected ("thread/resume canonical history requires the requested thread " ++
      "and an absolute execution directory"))

/-- What was read is the thread that was resumed. -/
def sameHistory (resume thread : Value) (threadId cwd : String) : Bool :=
  let mode := ((resume.get "thread").get "historyMode").asStr
  isText (thread.get "id") threadId && isText (thread.get "cwd") cwd &&
    (mode = some "legacy" || mode = some "paginated") &&
    (thread.get "historyMode").asStr = mode && (thread.get "turns").asArray.isSome

/-- A resume with its history replaced by the one that was read. -/
def canonicalResume (resume read : Value) (threadId : String) : Except Failure Value := do
  let cwd ← resumeIdentity resume threadId
  let thread := read.get "thread"
  if !sameHistory resume thread threadId cwd then
    throw (.rejected ("thread/resume canonical thread/read returned a different thread, " ++
      "execution directory, or invalid native history mode"))
  let active := (turnsOf (resume.get "thread")).filter inProgress
  let has := fun id => (turnsOf thread).any fun turn =>
    isText (turn.get "id") id && (turn.get "items").asArray.isSome
  if !active.all fun turn => (turn.get "id").asStr.any has then
    throw (.rejected ("thread/resume canonical thread/read omitted the active turn " ++
      "or its materialized items"))
  return resume.write "thread" thread

/-- Nothing changed hands since the resume was issued. -/
def resumeFence (s : State) (threadId : String) (epoch after : Nat) : Except Failure Unit :=
  if s.epoch ≠ epoch then
    .error (.unavailable ("thread/resume canonical history belongs to a replaced " ++
      "native connection"))
  else if s.snapshotInvalidatedAfter threadId after then
    .error (.rejected ("thread/resume canonical history was invalidated by a newer " ++
      "execution scope or archive transition"))
  else .ok ()

/-! ## commands -/

/-- What callers ask for. `answer` is the channel that one caller waits at. -/
inductive Command
  | call (method : String) (params : Value) (epoch deadline answer : Nat)
  | respond (id result : Value) (epoch : Nat) (requestToken : String) (answer : Nat)
  | stop

def Command.answer? : Command → Option Nat
  | .call _ _ _ _ answer | .respond _ _ _ _ answer => some answer
  | .stop => none

inductive Continuation
  | direct
  | canonicalResume (resume : Value)

/-- A call that waits for its reply. -/
structure Pending where
  method : String
  threadId : Option String
  reservedSubscription : Bool
  startedSequence : Nat
  deadline : Nat
  epoch : Nat
  continuation : Continuation
  answer : Nat

def Pending.operation (call : Pending) : String :=
  match call.continuation with
  | .direct => call.method
  | .canonicalResume _ => "thread/resume canonical thread/read"

/-- The answer a caller is given. -/
abbrev Answer := Except Failure Value

/-- Settle a call at `now`: what its result does to the state, and what its caller is told. -/
def finalizeResume (s : State) (call : Pending) (result : Answer) (now : Nat)
    (scope : DirectoryScope) : State × Answer :=
  let result := if call.deadline ≤ now then
      .error (.uncertain (call.operation ++ " response timed out after delivery"))
    else result
  let result := if call.method = "thread/resume" then
      result.bind fun result =>
        match call.threadId with
        | none => .error (.rejected "thread/resume has no requested thread ID")
        | some threadId =>
          (resumeFence s threadId call.epoch call.startedSequence).map fun _ => result
    else result
  let s := match result with
    | .ok result =>
      if call.method = "thread/start" ∨ call.method = "thread/resume" then
        s.rememberScoped result (some call.startedSequence) scope
      else s
    | .error _ =>
      match call.threadId with
      | some threadId => if call.reservedSubscription then s.release threadId else s
      | none => s
  let s := match call.threadId with
    | some threadId => if call.method = "thread/resume" then s.finishResume threadId else s
    | none => s
  (s, result)

/-! ## the worker -/

/-- What was handed to a socket, whether or not the socket took it. -/
structure Packet where
  connection : Nat
  body : Value
  /-- the channel of the command that it carries out -/
  command : Option Nat

/-- Where the worker's connection is. -/
inductive Phase
  | setup
  | waiting (message : String)
  | connected
  | ended
  deriving DecidableEq

/-- The worker of `client.rs`, with what its callers have sent. -/
structure Worker where
  endpoint : String
  state : State
  stopping : Bool := false
  /-- sent by callers, not yet taken -/
  commands : List Command := []
  /-- answer channels made so far -/
  channels : Nat := 0
  phase : Phase := .setup
  connection : Nat := 0
  nextId : Nat := 0
  pending : Table String Pending := .empty
  wire : List Packet := []
  heard : List (Nat × Value) := []
  answers : List (Nat × Answer) := []

def request (id method : String) (params : Value) : Value :=
  .obj [("id", .str id), ("method", .str method), ("params", params)]

def gatewayId (n : Nat) : String := "gateway-" ++ toString n

/-- `retry_pause`: after an owner refusal the wait is longer, and no command ends it. -/
def isPatient (message : String) : Bool :=
  occurs "the Monitor credential was not sent".toList message.toList

def archivedMethods : List String :=
  ["thread/settings/update", "thread/queue/add", "thread/queue/start", "thread/queue/delete",
    "turn/steer", "turn/interrupt", "thread/archive"]

def scopedMethods : List String := archivedMethods ++ ["thread/unarchive"]

/-! ## setting up a connection -/

/-- What one look at the socket finds while a connection is set up. -/
inductive Look
  | late
  | closing
  | quiet
  | heard (message : Value) (scope : DirectoryScope)
  | broken (cause : String)

/-- A connection that is set up: the state, what the socket will show, and what was written. -/
structure Boot where
  state : State
  script : List Look
  sent : List Value := []

/-- A message answers the request `id`. -/
def answersTo (id : String) (message : Value) : Bool :=
  isText (message.get "id") id &&
    ((message.get? "result").isSome || (message.get? "error").isSome)

/-- What the server answers. -/
def resultOf (print : Value → String) (operation : String) (message : Value) : Answer :=
  match message.get? "result" with
  | some result => .ok result
  | none => .error (.rpcRejection print operation (message.get "error"))

namespace Boot

variable (print : Value → String)

/-- Wait for the reply to `id`; what comes before it is reduced. -/
def awaitReply (id method : String) : List Look → State → Answer × State × List Look
  | [], s => (.error (.unavailable (method ++ " timed out during native connection setup")), s, [])
  | .late :: rest, s =>
    (.error (.unavailable (method ++ " timed out during native connection setup")), s, rest)
  | .closing :: rest, s => (.error (.unavailable "Native mode is closing"), s, rest)
  | .quiet :: rest, s => awaitReply id method rest s
  | .broken cause :: rest, s => (.error (.unavailable cause), s, rest)
  | .heard message scope :: rest, s =>
    if answersTo id message then (resultOf print method message, s, rest)
    else awaitReply id method rest (s.reduceScoped message scope)

/-- `bootstrap_call` -/
def call (b : Boot) (id method : String) (params : Value) : Answer × Boot :=
  let (result, state, script) := awaitReply print id method b.script b.state
  (result, { state, script, sent := b.sent ++ [request id method params] })

/-- The snapshot of a thread that is recovered. -/
def recovered (b : Boot) (index : Nat) (threadId : String) : Answer × Boot :=
  match b.call print ("gateway-recover-" ++ toString index) "thread/resume"
      (.obj [("threadId", .str threadId)]) with
  | (.error f, b) => (.error f, b)
  | (.ok resume, b) =>
    if needsCanonicalHistory resume then
      match resumeIdentity resume threadId with
      | .error f => (.error f, b)
      | .ok _ =>
        let (read, b) := b.call print ("gateway-recover-history-" ++ toString index) "thread/read"
          (.obj [("threadId", .str threadId), ("includeTurns", .bool true)])
        ((read.mapError historyFailure).bind fun read => canonicalResume resume read threadId, b)
    else (.ok resume, b)

/-- Recover one subscription. -/
def recover (scopeOf : Value → DirectoryScope) (b : Boot) (index : Nat) (threadId : String) :
    Boot :=
  let b : Boot := { b with state := b.state.beginResume threadId }
  let epoch := b.state.epoch
  let startedSequence := b.state.sequence
  let (result, b) := b.recovered print index threadId
  let result := result.bind fun result =>
    (resumeFence b.state threadId epoch startedSequence).map fun _ => result
  let s := b.state.finishResume threadId
  { b with state :=
      match result with
      | .ok result => s.rememberScoped result (some startedSequence) (scopeOf result)
      | .error f =>
        if archivedRejection f threadId then s.recoverArchived threadId
        else s.recoverFailed threadId f.message }

/-- `bootstrap`, once the socket is open: `none` when the connection is published. -/
def bootstrap (scopeOf : Value → DirectoryScope) (hello : Value) (b : Boot) :
    Option String × Boot :=
  match b.call print "gateway-initialize" "initialize" hello with
  | (.error f, b) => (some f.message, b)
  | (.ok _, b) =>
    let b : Boot := { b with sent := b.sent ++ [.obj [("method", .str "initialized")]] }
    match b.script with
    | .broken cause :: rest => (some cause, { b with script := rest })
    | _ =>
      let b : Boot := { b with state := b.state.clearRequests }
      let subscribed := b.state.subscribed.filter (· ∉ b.state.archivedThreads)
      let b := (subscribed.sort (· ≤ ·)).zipIdx.foldl
        (fun (b : Boot) t => b.recover print scopeOf t.2 t.1) b
      (none, { b with state := b.state.connect .connected })

end Boot

/-! ## what the worker does -/

namespace Worker

def start (endpoint : String) (state : State) : Worker := { endpoint, state }

/-- Tell a caller its answer. -/
def tell (w : Worker) (answer : Nat) (a : Answer) : Worker :=
  { w with answers := w.answers ++ [(answer, a)] }

/-- `unavailable` -/
def decline (w : Worker) (command : Command) (message : String) : Worker :=
  match command.answer? with
  | some answer =>
    w.tell answer (.error (.unavailable ("Shared Codex server is disconnected: " ++ message)))
  | none => w

/-- Hand a packet to the socket. -/
def hand (w : Worker) (body : Value) (command : Option Nat) : Worker :=
  { w with wire := w.wire ++ [⟨w.connection, body, command⟩] }

/-- The worker stops; who still waits is not answered. -/
def quit (w : Worker) : Worker := { w with phase := .ended, pending := .empty }

/-- The connection is lost. -/
def disconnect (w : Worker) (message : String) : Worker :=
  { w with
    answers := w.answers ++ w.pending.rows.map fun row => (row.2.answer,
      .error (.uncertain (row.2.operation ++ " disconnected after delivery: " ++ message)))
    pending := .empty
    state := w.state.reconnect ("Codex WebSocket at " ++ w.endpoint ++ ": " ++ message)
    phase := .setup }

/-- What became of a write: `some cause` when the socket failed. -/
def wrote (w : Worker) : Option String → Worker
  | none => w
  | some cause => w.disconnect cause

/-- Settle a call that is no longer pending. -/
def settle (w : Worker) (call : Pending) (result : Answer) (now : Nat) (scope : DirectoryScope) :
    Worker :=
  let (state, a) := finalizeResume w.state call result now scope
  { w with state }.tell call.answer a

/-- Write a call under a new id, and wait for its reply. -/
def deliver (w : Worker) (method : String) (params : Value) (epoch deadline answer : Nat) :
    Worker :=
  let id := gatewayId (w.nextId + 1)
  let threadId := (params.get "threadId").asStr
  let resumed := threadId.filter fun _ => method = "thread/resume"
  let reserved := resumed.any (· ∉ w.state.subscribed)
  let state := match resumed with
    | some threadId => (w.state.reserve threadId).beginResume threadId
    | none => w.state
  let call : Pending :=
    ⟨method, threadId, reserved, state.sequence, deadline, epoch, .direct, answer⟩
  { w with state, nextId := w.nextId + 1, pending := w.pending.put id call }.hand
    (request id method params) (some answer)

/-- A resume whose history is read before it counts. -/
def readHistory (w : Worker) (call : Pending) (resume : Value) (threadId : String) : Worker :=
  let id := gatewayId (w.nextId + 1)
  { w with
    nextId := w.nextId + 1
    pending := w.pending.put id { call with continuation := .canonicalResume resume } }.hand
    (request id "thread/read" (.obj [("threadId", .str threadId), ("includeTurns", .bool true)]))
    none

/-- A browser may answer this request now. -/
def mayRespond (s : State) (id : Value) (epoch : Nat) (requestToken : String) : Bool :=
  s.epoch = epoch && (s.pending.find? id).any fun request =>
    (request.get "canRespond").asBool = some true &&
      isText (request.get "requestToken") requestToken &&
      !((request.get "params").get "threadId").asStr.any (· ∈ s.archivedThreads)

/-- Take the next command; `sent` is what the socket says to it. -/
def take (w : Worker) (now : Nat) (sent : Option String) : Option Worker :=
  match w.commands with
  | [] => none
  | command :: commands =>
    let w := { w with commands }
    if w.stopping then some (w.decline command "Native mode is closing")
    else
      match command with
      | .stop => some w.quit
      | .call method params epoch deadline answer =>
        let threadId := (params.get "threadId").asStr
        if threadId.any (· ∈ w.state.archivedThreads) && archivedMethods.contains method then
          some (w.tell answer (.error (.rejected ("Archived history is read-only; restore and " ++
            "reopen this thread before delivery"))))
        else if threadId.any w.state.scopeClosed && scopedMethods.contains method then
          some (w.tell answer (.error (.rejected ("Shared execution directory moved outside the " ++
            "Gateway's configured project roots before delivery"))))
        else if deadline ≤ now ∨ w.state.epoch ≠ epoch then
          some (w.tell answer (.error (.unavailable ("RPC expired or its native connection " ++
            "changed before delivery"))))
        else some ((w.deliver method params epoch deadline answer).wrote sent)
      | .respond id result epoch requestToken answer =>
        if mayRespond w.state id epoch requestToken then
          let w := w.hand (.obj [("id", id), ("result", result)]) (some answer)
          match sent with
          | none => some (w.tell answer (.ok (.obj [("delivered", .bool true)])))
          | some cause =>
            some ((w.tell answer (.error (.uncertain cause))).disconnect cause)
        else
          some (w.tell answer (.error (.rejected ("Pending runtime request is stale or owned by " ++
            "its tool executor"))))

/-- The reply to a pending call. -/
def reply (print : Value → String) (w : Worker) (call : Pending) (message : Value) (now : Nat)
    (scope : DirectoryScope) (sent : Option String) : Worker :=
  let result := resultOf print call.operation message
  match call.continuation with
  | .canonicalResume resume =>
    let result := result.bind fun read => canonicalResume resume read (call.threadId.getD "")
    w.settle call result now scope
  | .direct =>
    match result with
    | .error _ => w.settle call result now scope
    | .ok resume =>
      if call.method = "thread/resume" ∧ needsCanonicalHistory resume then
        match call.threadId with
        | none =>
          w.settle call (.error (.rejected "thread/resume has no requested thread ID")) now scope
        | some threadId =>
          match (resumeIdentity resume threadId).bind fun _ =>
              resumeFence w.state threadId call.epoch call.startedSequence with
          | .error f => w.settle call (.error f) now scope
          | .ok _ => (w.readHistory call resume threadId).wrote sent
      else w.settle call result now scope

/-- A message of the server. -/
def receive (print : Value → String) (w : Worker) (message : Value) (now : Nat)
    (scope : DirectoryScope) (sent : Option String) : Worker :=
  let w := { w with heard := w.heard ++ [(w.connection, message)] }
  match (message.get "id").asStr.filter fun id => answersTo id message with
  | none => { w with state := w.state.reduceScoped message scope }
  | some id =>
    match w.pending.find? id with
    | none => w
    | some call => { w with pending := w.pending.erase id }.reply print call message now scope sent

/-- Settle calls that are no longer pending, one after another. -/
def settleAll (w : Worker) (calls : List (String × Pending)) (result : Pending → Answer)
    (now : Nat) (scope : DirectoryScope) : Worker :=
  calls.foldl (fun (w : Worker) row => w.settle row.2 (result row.2) now scope) w

/-- The calls whose time is up. -/
def expire (w : Worker) (now : Nat) (scope : DirectoryScope) : Worker :=
  { w with pending := w.pending.retain fun _ call => !decide (call.deadline ≤ now) }.settleAll
    (w.pending.select fun _ call => call.deadline ≤ now)
    (fun call => .error (.uncertain (call.operation ++ " response timed out after delivery")))
    now scope

/-- Give the first `released` subscriptions back to the server. -/
def release (w : Worker) (released : Nat) : Worker :=
  ((w.state.subscribed.sort (· ≤ ·)).zipIdx.take released).foldl
    (fun (w : Worker) t => w.hand (request ("gateway-unsubscribe-" ++ toString t.2)
      "thread/unsubscribe" (.obj [("threadId", .str t.1)])) none) w

/-- The native mode is switched off: every caller that waits is left in doubt. -/
def shutdown (w : Worker) (released now : Nat) (scope : DirectoryScope) : Worker :=
  let w := w.release released
  ({ w with pending := .empty }.settleAll w.pending.rows
    (fun _ => .error (.uncertain ("Native mode closed after delivery; check the saved action " ++
      "receipt before retrying"))) now scope).quit

/-- A connection was set up, or failed. -/
def publish (w : Worker) (failed : Option String) (b : Boot) : Worker :=
  let w := b.sent.foldl (fun (w : Worker) body => w.hand body none) { w with state := b.state }
  match failed with
  | none => { w with phase := .connected }
  | some message => { w with
      state := w.state.reconnect
        ("Initialize/recover Codex RPC at " ++ w.endpoint ++ ": " ++ message)
      phase := .waiting message }

/-- Set up the next connection; `opened` is what opening the socket says. -/
def boot (print : Value → String) (w : Worker) (opened : Option String) (hello : Value)
    (scopeOf : Value → DirectoryScope) (script : List Look) : Worker :=
  let w := { w with connection := w.connection + 1 }
  match opened with
  | some cause => w.publish (some cause) { state := w.state, script := [] }
  | none =>
    let (failed, b) := Boot.bootstrap print scopeOf hello { state := w.state, script }
    w.publish failed b

/-- A command that comes while the worker waits to connect again. -/
def refuse (w : Worker) (message : String) : Option Worker :=
  match w.commands with
  | [] => none
  | .stop :: commands => some { w with commands }.quit
  | command :: commands =>
    let w := { w with commands }.decline command message
    some (if isPatient message then w else { w with phase := .setup })

/-! ## runs -/

/-- What happens to a worker. -/
inductive Event
  /-- a caller asks for a call, or to answer a request of the server -/
  | ask (method : String) (params : Value) (epoch deadline : Nat)
  | respond (id result : Value) (epoch : Nat) (requestToken : String)
  | stop
  /-- another thread writes the state -/
  | write (state : State)
  | close
  | boot (opened : Option String) (hello : Value) (scopeOf : Value → DirectoryScope)
      (script : List Look)
  | refuse
  | wake
  | take (now : Nat) (sent : Option String)
  | receive (message : Value) (now : Nat) (scope : DirectoryScope) (sent : Option String)
  | lose (cause : String)
  | expire (now : Nat) (scope : DirectoryScope)
  | shutdown (released now : Nat) (scope : DirectoryScope)

/-- Put a command on the channel, with a new channel for its answer. -/
def submit (w : Worker) (command : Nat → Command) : Worker :=
  { w with commands := w.commands ++ [command w.channels], channels := w.channels + 1 }

def step (print : Value → String) (w : Worker) : Event → Option Worker
  | .ask method params epoch deadline => some (w.submit (.call method params epoch deadline))
  | .respond id result epoch requestToken => some (w.submit (.respond id result epoch requestToken))
  | .stop => some { w with commands := w.commands ++ [.stop] }
  | .write state => some { w with state }
  | .close => some { w with stopping := true }
  | .boot opened hello scopeOf script =>
    if w.phase = .setup then
      some (if w.stopping then w.quit else w.boot print opened hello scopeOf script)
    else none
  | .refuse =>
    match w.phase with
    | .waiting message => w.refuse message
    | _ => none
  | .wake =>
    match w.phase with
    | .waiting _ => some { w with phase := .setup }
    | _ => none
  | .take now sent => if w.phase = .connected then w.take now sent else none
  | .receive message now scope sent =>
    if w.phase = .connected then some (w.receive print message now scope sent) else none
  | .lose cause => if w.phase = .connected then some (w.disconnect cause) else none
  | .expire now scope => if w.phase = .connected then some (w.expire now scope) else none
  | .shutdown released now scope =>
    if w.phase = .connected ∧ w.stopping then some (w.shutdown released now scope) else none

end Worker

end ClaudeReplay.Gateway
