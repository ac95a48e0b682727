import ClaudeReplay.Lib.Run
import ClaudeReplay.Lib.Value
import Mathlib.Logic.Function.Basic

/-!
# ClaudeReplay.Monitor.Consent

The owner's consent to injecting keystrokes into a pane: grants for one socket, pane,
session and process each, kept in one file. Every request loads the whole list and, if
it changes it, writes the whole list back.

Nothing locks the file, so a request is modelled as the phases it goes through: it is
called, it loads, it opens the file (which empties it), it writes at its own offset, in
pieces of any size, and it replies. Any number of requests run, and the steps of the
others come between any two of its own.

The JSON library is a parameter.
-/

namespace ClaudeReplay.Monitor

open Lib

/-- `GRANT_TTL_SECS`: a workday. -/
def grantTtlSecs : UInt64 := 8 * 3600

/-- One authorisation to inject into a specific pane running a specific process. -/
structure Grant where
  sock : Option String
  pane : String
  sid : String
  pid : UInt32
  grantedAt : UInt64
  expiresAt : UInt64
  deriving DecidableEq

/-- The process a request is about. -/
structure Target where
  sock : Option String
  pane : String
  sid : String
  pid : UInt32
  deriving DecidableEq

/-! ## grants -/

namespace Grant

/-- A grant as it is stored. -/
def toValue (g : Grant) : Value :=
  .obj [("sock", match g.sock with | some sock => .str sock | none => .null),
    ("pane", .str g.pane), ("sid", .str g.sid), ("pid", .num g.pid.toNat),
    ("granted_at", .num g.grantedAt.toNat), ("expires_at", .num g.expiresAt.toNat)]

/-- Read a stored grant. -/
def fromValue (v : Value) : Option Grant := do
  let sock := (v.get? "sock").bind Value.asStr
  let pane ← (← v.get? "pane").asStr
  let sid ← (← v.get? "sid").asStr
  let pid ← (← v.get? "pid").asU32
  let grantedAt ← (← v.get? "granted_at").asU64
  let expiresAt ← (← v.get? "expires_at").asU64
  return { sock, pane, sid, pid, grantedAt, expiresAt }

/-- The grant is about the target's socket, pane and session. -/
def isFor (g : Grant) (t : Target) : Bool := g.sock = t.sock && g.pane = t.pane && g.sid = t.sid

end Grant

/-- Is there a live grant for exactly this target? -/
def granted (grants : List Grant) (t : Target) (now : UInt64) : Bool :=
  grants.any fun g => g.isFor t && g.pid = t.pid && decide (now < g.expiresAt)

/-- Does an unexpired grant follow a herdr restore of the same session? -/
def carried (grants : List Grant) (t : Target) (follows : Bool) (now : UInt64) : Bool :=
  follows && (t.sock.map fun s => "herdr:".toList.isPrefixOf s.toList).getD false &&
    grants.any fun g => g.isFor t && g.pid ≠ t.pid && decide (now < g.expiresAt)

/-- Would a send to this target find consent? -/
def covers (grants : List Grant) (t : Target) (follows : Bool) (now : UInt64) : Bool :=
  granted grants t now || carried grants t follows now

/-- Drop dead grants. -/
def prune (grants : List Grant) (now : UInt64) : List Grant :=
  grants.filter fun g => decide (now < g.expiresAt)

/-- The grant for a target, made at `now`. -/
def Target.grantAt (t : Target) (now : UInt64) : Grant :=
  { t with grantedAt := now, expiresAt := now + grantTtlSecs }

/-! ## the file -/

/-- The JSON library. -/
structure Json where
  print : Value → List UInt8
  parse : List UInt8 → Option Value

variable (json : Json)

/-- `load`: an absent file, and one that is no JSON array, hold no grant. -/
def load : Option (List UInt8) → List Grant
  | none => []
  | some raw =>
    match json.parse raw with
    | some (.arr items) => items.filterMap Grant.fromValue
    | _ => []

/-- What `save` writes. -/
def encode (grants : List Grant) : List UInt8 := json.print (.arr (grants.map Grant.toValue))

/-- Write a piece at an offset: a hole before it is filled with zeros, what lies behind
it stays. -/
def writeAt (file : List UInt8) (offset : Nat) (piece : List UInt8) : List UInt8 :=
  file.take offset ++ List.replicate (offset - file.length) 0 ++ piece ++
    file.drop (offset + piece.length)

/-! ## requests -/

/-- A request. -/
inductive Op
  | grant (t : Target)
  | revoke (sid : String)
  | consents (t : Target) (follows : Bool)
  deriving DecidableEq

/-- What a request answers. -/
inductive Answer
  | granted (g : Grant)
  | failed
  | revoked
  | consented (b : Bool)
  deriving DecidableEq

namespace Op

/-- The list a request wants the file to hold, given the one it loaded. -/
def edited (op : Op) (now : UInt64) (seen : List Grant) : List Grant :=
  match op with
  | .grant t => ((prune seen now).filter fun g => !g.isFor t) ++ [t.grantAt now]
  | .revoke sid => (prune seen now).filter fun g => g.sid ≠ sid
  | .consents .. => seen

/-- A grant always saves, a revoke only what it changed, a send never. -/
def saves (op : Op) (now : UInt64) (seen : List Grant) : Bool :=
  match op with
  | .grant _ => true
  | .revoke _ => (op.edited now seen).length ≠ seen.length
  | .consents .. => false

/-- The answer of a request whose file work went well. -/
def answer (op : Op) (now : UInt64) (seen : List Grant) : Answer :=
  match op with
  | .grant t => .granted (t.grantAt now)
  | .revoke _ => .revoked
  | .consents t follows => .consented (covers seen t follows now)

/-- The answer of a request whose save failed: only a grant says so. -/
def answerUnsaved : Op → Answer
  | .grant _ => .failed
  | _ => .revoked

end Op

/-- Where a request is. -/
inductive Phase
  | idle
  | called (op : Op)
  /-- about to save what it made of the list it loaded -/
  | editing (op : Op) (now : UInt64) (seen : List Grant)
  /-- the file is open, and written up to the offset -/
  | saving (op : Op) (now : UInt64) (seen : List Grant) (offset : Nat)
  /-- about to reply -/
  | ended (op : Op) (answer : Answer)
  deriving DecidableEq

/-- The request under way. -/
def Phase.op? : Phase → Option Op
  | .idle => none
  | .called op | .editing op _ _ | .saving op _ _ _ | .ended op _ => some op

/-- The request has the file open. -/
def Phase.isSaving : Phase → Bool
  | .saving .. => true
  | _ => false

/-- The file and the requests. -/
structure Store (ι : Type) where
  file : Option (List UInt8)
  phase : ι → Phase

/-- A step of one request. -/
inductive Act
  | call (op : Op)
  | load (now : UInt64)
  /-- the file cannot be read -/
  | loadFails (now : UInt64)
  | openFile
  | openFails
  | write (n : Nat)
  | writeFails
  | reply (op : Op) (answer : Answer)
  deriving DecidableEq

/-- A step of a run: which request, and what it does. -/
structure Event (ι : Type) where
  who : ι
  act : Act

variable {ι : Type} [DecidableEq ι]

/-- Move one request. -/
def Store.goto (s : Store ι) (i : ι) (p : Phase) : Store ι :=
  { s with phase := Function.update s.phase i p }

/-- A request that has loaded the list `seen`. -/
def Op.loaded (op : Op) (now : UInt64) (seen : List Grant) : Phase :=
  if op.saves now seen then .editing op now seen else .ended op (op.answer now seen)

/-- A step, `none` where it is not the request's next one. -/
def Store.step (s : Store ι) (e : Event ι) : Option (Store ι) :=
  match e.act, s.phase e.who with
  | .call op, .idle => some (s.goto e.who (.called op))
  | .load now, .called op => some (s.goto e.who (op.loaded now (load json s.file)))
  | .loadFails now, .called op => some (s.goto e.who (op.loaded now []))
  | .openFile, .editing op now seen =>
    some { (s.goto e.who (.saving op now seen 0)) with file := some [] }
  | .openFails, .editing op _ _ => some (s.goto e.who (.ended op op.answerUnsaved))
  | .write n, .saving op now seen offset =>
    let body := encode json (op.edited now seen)
    let piece := (body.drop offset).take n
    let next := if offset + piece.length < body.length
      then .saving op now seen (offset + piece.length) else .ended op (op.answer now seen)
    some { (s.goto e.who next) with file := some (writeAt (s.file.getD []) offset piece) }
  | .writeFails, .saving op _ _ _ => some (s.goto e.who (.ended op op.answerUnsaved))
  | .reply op answer, .ended op' answer' =>
    if op = op' ∧ answer = answer' then some (s.goto e.who .idle) else none
  | _, _ => none

/-- The step as a relation. -/
def Store.Next (s : Store ι) (e : Event ι) (t : Store ι) : Prop := s.step json e = some t

end ClaudeReplay.Monitor
