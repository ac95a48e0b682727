import ClaudeReplay.Lib.Table
import ClaudeReplay.Lib.Value

/-!
# ClaudeReplay.Gateway.Receipts

The gateway's durable submission receipts: one SQLite file shared by every gateway
that runs. An action is claimed before it is delivered, so that a retry finds the
claim and is answered from it instead of being delivered again.

Each method of `Receipts` is one transaction, serialised by SQLite. A run is the
list of the transactions in the order they were serialised, whichever connection
each belongs to, with what became of each: it returned, its answer was lost after
the commit, or it was rolled back (a crash or a failing disk before the commit).
The clock is read anew by every transaction and may go back.

SHA-256 and the JSON library are parameters.
-/

namespace ClaudeReplay.Gateway

open Lib

/-! ## the tables -/

/-- A row of `actions`. A row of a version 0 file has no `updated_at` column; `open`
adds it before anything reads it. -/
structure Action where
  fingerprint : String
  status : String
  response : String
  updatedAt : Int

/-- The primary key of `queue_steers`. -/
structure Submission where
  endpoint : String
  threadId : String
  submissionId : String
  deriving DecidableEq

/-- The receipt database: its schema version and its three tables. A file without
tables is a version 0 database with empty ones. -/
structure Db where
  version : Int
  actions : Table String Action
  retired : Table String String
  steers : Table Submission String

/-- The routes whose requests carry an action id. -/
inductive Route
  | create | settings | send | interrupt | respond | queueCancel | queueSteer | archive
  | projectCreate

/-- The route as it stands in the URL. -/
def Route.name : Route → String
  | .create => "create"
  | .settings => "settings"
  | .send => "send"
  | .interrupt => "interrupt"
  | .respond => "respond"
  | .queueCancel => "queue/cancel"
  | .queueSteer => "queue/steer"
  | .archive => "archive"
  | .projectCreate => "project/create"

/-- What the store takes from its libraries: the hexadecimal SHA-256 digest of a
text and the JSON text of a value, with its reader. -/
structure Libs where
  sha256 : String → String
  print : Value → String
  parse : String → Option Value

/-- Why a request is refused. -/
inductive Refusal
  | actionConflict
  | receiptCapacity
  | unclaimed (id : String)
  | unreadable
  | unsupportedVersion (version : Int)
  | sqlite
  deriving DecidableEq

/-- Thirty days. -/
def retainSeconds : Int := 30 * 24 * 60 * 60

/-- The identities one store may hold. -/
def maxIdentities : Nat := 100000

/-! ## the receipts' texts -/

/-- The first `n` characters of a text. -/
def takeChars (n : Nat) (s : String) : String := String.ofList (s.toList.take n)

/-- The bounded fields of one object of a response. -/
def compactFields (object : Value) : List (String × Value) :=
  ["id", "actionId", "status", "code", "message", "clientUserMessageId", "threadId",
    "turnId"].filterMap fun field =>
      (object.get field).asStr.map fun value =>
        (field, .str (takeChars (if field = "message" then 1024 else 256) value))

/-- Persist only bounded status and identity fields, never native history or queued input. -/
def compact (response : Value) : Value :=
  let result : Value := .obj [("ok", .bool ((response.get "ok").asBool == some true))]
  let result := ["receipt", "error", "queuedSubmission", "thread", "turn", "project"].foldl
    (fun result key =>
      match (response.get key).asObject with
      | some _ =>
        let fields := compactFields (response.get key)
        if fields.isEmpty then result else result.set key (.obj fields)
      | none => result) result
  let result := ["threadId", "turnId", "queuedSubmissionId", "clientUserMessageId",
    "projectId"].foldl
    (fun result key =>
      match (response.get key).asStr with
      | some value => result.set key (.str (takeChars 256 value))
      | none => result) result
  let result := ["deleted", "delivered"].foldl
    (fun result key =>
      match (response.get key).asBool with
      | some value => result.set key (.bool value)
      | none => result) result
  match (((response.get "snapshot").get "thread").get "id").asStr with
  | some id => result.set "threadId" (.str (takeChars 256 id))
  | none => result

/-- A receipt that is not there any more. -/
def receiptExpired (id message : String) : Value :=
  .obj [("ok", .bool false),
    ("error", .obj [("code", .str "receipt_expired"), ("message", .str message)]),
    ("receipt", .obj [("actionId", .str id), ("status", .str "expired")])]

/-- The receipt a claim leaves behind until the delivery is known. -/
def uncertainReceipt (id : String) : Value :=
  .obj [("ok", .bool false),
    ("error", .obj [("code", .str "uncertain"), ("message", .str
      ("Delivery has not been confirmed. Reconcile this action with runtime history; " ++
        "do not resend it with another action ID."))]),
    ("receipt", .obj [("actionId", .str id), ("status", .str "uncertain")])]

/-! ## the transactions -/

/-- The row is settled and older than the cutoff. -/
def Action.expired (cutoff : Int) (a : Action) : Bool :=
  a.status != "uncertain" && decide (a.updatedAt < cutoff)

/-- Retire the identities of the settled rows that are too old: one cutoff for the
copy and for the deletion. -/
def Db.prune (db : Db) (now : Int) : Db :=
  let cutoff := now - retainSeconds
  { db with
    retired := db.retired.insertAllOrIgnore
      ((db.actions.select fun _ a => a.expired cutoff).map fun row => (row.1, row.2.fingerprint))
    actions := db.actions.deleteWhere fun _ a => a.expired cutoff }

variable (libs : Libs)

/-- The text whose digest is the fingerprint of a request. -/
def requestText (endpoint : String) (route : Route) (payload : Value) : String :=
  endpoint ++ "\x00" ++ route.name ++ "\x00" ++ libs.print payload

/-- What a request is recognised by. -/
def fingerprint (endpoint : String) (route : Route) (payload : Value) : String :=
  libs.sha256 (requestText libs endpoint route payload)

/-- A row of a version 0 file after its migration. -/
def Action.migrated (now : Int) (a : Action) : Action :=
  { a with
    updatedAt := now
    response := match libs.parse a.response with
      | some response => libs.print (compact response)
      | none => a.response }

/-- Open the store: migrate a version 0 file, then prune. -/
def Db.open (db : Db) (migrateAt pruneAt : Int) : Except Refusal Unit × Db :=
  if 1 < db.version then (.error (.unsupportedVersion db.version), db)
  else if db.version = 0 then
    if db.actions.rows.all fun row => (libs.parse row.2.response).isSome then
      let actions := db.actions.mapValues (Action.migrated libs migrateAt)
      (.ok (), Db.prune { db with version := 1, actions } pruneAt)
    else (.error .unreadable, db)
  else (.ok (), db.prune pruneAt)

/-- Claim an action before it is delivered: `none` grants the delivery, anything else
is the receipt to answer with. -/
def Db.claim (db : Db) (pruneAt insertAt : Int) (id endpoint : String) (route : Route)
    (payload : Value) : Except Refusal (Option Value) × Db :=
  let fp := fingerprint libs endpoint route payload
  let pruned := db.prune pruneAt
  match pruned.retired.find? id with
  | some previous =>
    if previous ≠ fp then (.error .actionConflict, db)
    else (.ok (some (receiptExpired id
      "The receipt expired. Reconcile native history; this action will not be delivered again.")),
      pruned)
  | none =>
    match pruned.actions.find? id with
    | some prior =>
      if prior.fingerprint ≠ fp then (.error .actionConflict, db)
      else match libs.parse prior.response with
        | some response => (.ok (some response), pruned)
        | none => (.error .unreadable, db)
    | none =>
      -- the pruning is kept although the claim is refused
      if maxIdentities ≤ pruned.actions.count + pruned.retired.count then
        (.error .receiptCapacity, pruned)
      else
        match pruned.actions.insert? id
          { fingerprint := fp, status := "uncertain", updatedAt := insertAt
            response := libs.print (uncertainReceipt id) } with
        | some actions => (.ok none, { pruned with actions })
        | none => (.error .sqlite, db)

/-- Bind a queued submission to the action that steers it. -/
def Db.claimQueueSteer (db : Db) (sub : Submission) (actionId : String) :
    Except Refusal Bool × Db :=
  if (db.steers.find? sub).isSome then (.ok false, db)
  else if maxIdentities ≤ db.steers.count then (.error .receiptCapacity, db)
  else
    match db.steers.insert? sub actionId with
    | some steers => (.ok true, { db with steers })
    | none => (.error .sqlite, db)

/-- A definite rejection unbinds the submission from the action. -/
def Db.releaseQueueSteer (db : Db) (sub : Submission) (actionId : String) :
    Except Refusal Unit × Db :=
  (.ok (), { db with steers := db.steers.deleteWhere fun k a => k = sub && a = actionId })

/-- Store the outcome of a claimed action. -/
def Db.finish (db : Db) (now : Int) (id status : String) (response : Value) :
    Except Refusal Unit × Db :=
  match db.actions.find? id with
  | none => (.error (.unclaimed id), db)
  | some _ =>
    (.ok (), { db with actions := db.actions.update id fun a =>
      { a with status, response := libs.print (compact response), updatedAt := now } })

/-! ## runs -/

/-- A transaction with its arguments and the clock values it reads. -/
inductive Request
  | opened (migrateAt pruneAt : Int)
  | claim (pruneAt insertAt : Int) (id endpoint : String) (route : Route) (payload : Value)
  | claimQueueSteer (sub : Submission) (actionId : String)
  | releaseQueueSteer (sub : Submission) (actionId : String)
  | finish (now : Int) (id status : String) (response : Value)

/-- What a request is answered. -/
inductive Reply
  | opened
  | receipt (found : Option Value)
  | bound (fresh : Bool)
  | done

/-- Only an open connection sends the other requests, and `open` leaves no file at
version 0. -/
def Db.connected (db : Db) (served : Except Refusal Reply × Db) : Except Refusal Reply × Db :=
  if db.version = 0 then (.error .sqlite, db) else served

/-- Serve a request. -/
def Db.serve (db : Db) : Request → Except Refusal Reply × Db
  | .opened migrateAt pruneAt =>
    let (reply, db') := db.open libs migrateAt pruneAt
    (reply.map fun _ => .opened, db')
  | .claim pruneAt insertAt id endpoint route payload =>
    let (reply, db') := db.claim libs pruneAt insertAt id endpoint route payload
    db.connected (reply.map .receipt, db')
  | .claimQueueSteer sub actionId =>
    let (reply, db') := db.claimQueueSteer sub actionId
    db.connected (reply.map .bound, db')
  | .releaseQueueSteer sub actionId =>
    let (reply, db') := db.releaseQueueSteer sub actionId
    db.connected (reply.map fun _ => .done, db')
  | .finish now id status response =>
    let (reply, db') := db.finish libs now id status response
    db.connected (reply.map fun _ => .done, db')

/-- What became of a transaction. -/
inductive Fate
  | returned
  | lost
  | rolledBack
  deriving DecidableEq

/-- A transaction of a run. -/
structure Event where
  request : Request
  fate : Fate

/-- The database after an event. -/
def Event.after (db : Db) (e : Event) : Db :=
  match e.fate with
  | .rolledBack => db
  | _ => (db.serve libs e.request).2

/-- The database after a run. -/
def runFrom (db : Db) (es : List Event) : Db := es.foldl (Event.after libs) db

end ClaudeReplay.Gateway
