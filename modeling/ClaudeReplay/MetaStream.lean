import ClaudeReplay.Lib.ListScan
import ClaudeReplay.Metrics
import ClaudeReplay.Session
import ClaudeReplay.Tasks

/-!
# ClaudeReplay.MetaStream

The frontend-agnostic companion of the content stream. One `MetaRecord` is
written per committing drain: a delta of session facts, a `Resume` payload where
the drain is a resume point, and now and then a checkpoint. `MaterializedMeta` is
the stream's materialized view, the sum of the deltas, and a checkpoint is one of
these written down.

* `MaterializedMeta.pushDelta` — fold a record's deltas: counters add, gauges replace;
* `MaterializedMeta.push` — the same, except that a checkpoint is adopted;
* `align` — what a load recovers from a stream and a committed count. It checks
  each checkpoint against the deltas before it and rejects a disagreement.
-/

namespace ClaudeReplay

open Lib

/-! ## spawn identity -/

/-- Everything known about one sub-agent at spawn time. -/
structure Spawn where
  toolUseId : String
  agentId : AgentId
  agentType : String
  description : String
  status : AgentStatus
  deriving DecidableEq, Repr

/-- The spawn a sub-agent block records. -/
def SubAgent.spawn (sa : SubAgent) : Spawn :=
  ⟨sa.toolUseId, sa.agentId, sa.agentType, sa.description, sa.status⟩

/-- `spawn_keys`: the identity rows a spawn contributes, under both of its keys
once it has both. -/
def spawnKeys (s : Spawn) : List (String × AgentId × String) :=
  (if s.toolUseId.isEmpty then [] else [(s.toolUseId, s.agentId, s.agentType)]) ++
    (if s.agentId.isEmpty then [] else [(s.agentId, s.agentId, s.agentType)])

/-- `agent_pairs`: the identity rows a block contributes. -/
def agentPairs : Block → List (String × AgentId × String)
  | .subAgent sa => spawnKeys sa.spawn
  | _ => []

/-- Sub-agent lifecycle, in order. `finished` clears every spawn with its id. -/
inductive AgentEvent
  | spawned (s : Spawn)
  | finished (id : AgentId)
  deriving DecidableEq, Repr

/-! ## the record -/

/-- What a resume needs beyond the folded facts. `id` is the committed-block
count after the drain, `replayFrom` the offset below which bytes authored only
committed blocks; `pre` and `metricsState` are the adapter's own, uninterpreted. -/
structure Resume where
  id : Nat
  replayFrom : Nat
  prevTs : Option EpochSeconds
  pendingTs : Option EpochSeconds
  pre : Value
  metricsState : Value
  deriving DecidableEq, Repr

/-- The entries of a spawn map are compared as they are. -/
instance lawfulSpawn : LawfulBEq (AgentId × String) := inferInstance

/-- The fold of every record: what a reader reconstructs, and what a checkpoint
stores. -/
structure MaterializedMeta where
  sessionMeta : SessionMeta := {}
  agentIds : StrMap (AgentId × String) := ∅
  userTimes : List (Option EpochSeconds) := []
  turnDurations : List (Option Nat) := []
  tokens : StrMap TokenCounts := ∅
  extra : StrMap Nat := ∅
  tasks : TaskFold := {}
  cwd : String := ""
  span : Option (EpochSeconds × EpochSeconds) := none
  inboxIds : StrMap Unit := ∅
  peerNames : StrMap String := ∅
  sandboxOn : Bool := false
  deriving DecidableEq

/-- One committing drain's contribution. Absent means no update. -/
structure MetaRecord where
  turns : Option Nat := none
  tools : Option Nat := none
  agents : List AgentEvent := []
  userTimes : List (Option EpochSeconds) := []
  turnDurations : List (Option Nat) := []
  tokens : StrMap TokenCounts := ∅
  extra : StrMap Nat := ∅
  taskOps : List TaskOp := []
  inboxIds : List String := []
  peerNames : List (String × String) := []
  cwd : Option String := none
  span : Option (EpochSeconds × EpochSeconds) := none
  sandboxOn : Option Bool := none
  resume : Option Resume := none
  checkpoint : Option MaterializedMeta := none
  deriving DecidableEq

/-! ## the fold -/

/-- The header and the spawn map a lifecycle event is folded into. -/
abbrev AgentState := List ChildMeta × StrMap (AgentId × String)

/-- One lifecycle event of `push_delta`. -/
def AgentState.push (st : AgentState) : AgentEvent → AgentState
  | .spawned s =>
    (if s.agentId.isEmpty then st.1
      else st.1 ++ [⟨s.agentId, s.description, s.agentType, none, !s.status.isTerminal⟩],
    st.2.insertAll (spawnKeys s))
  | .finished id => (finishChildren id st.1, st.2)

namespace MaterializedMeta

/-- `push_delta`: fold a record's deltas, ignoring any checkpoint it carries. -/
def pushDelta (mm : MaterializedMeta) (r : MetaRecord) : MaterializedMeta :=
  let agents := r.agents.foldl AgentState.push (mm.sessionMeta.children, mm.agentIds)
  let userTimes := mm.userTimes ++ r.userTimes
  { sessionMeta :=
      { turns := mm.sessionMeta.turns + r.turns.getD 0
        tools := mm.sessionMeta.tools + r.tools.getD 0
        children := agents.1 }
    agentIds := agents.2
    userTimes
    -- an older record carries no durations: keep the two lists the same length
    turnDurations := resize (mm.turnDurations ++ r.turnDurations) userTimes.length none
    tokens := mm.tokens.addAll r.tokens
    extra := mm.extra.addAll r.extra
    tasks := r.taskOps.foldl TaskFold.applyRecorded mm.tasks
    cwd := r.cwd.getD mm.cwd
    span := r.span.orElse fun _ => mm.span
    inboxIds := mm.inboxIds.insertAll (r.inboxIds.map (·, ()))
    peerNames := mm.peerNames.insertAll r.peerNames
    sandboxOn := r.sandboxOn.getD mm.sandboxOn }

/-- `push`: fold one record in, adopting its checkpoint if it carries one. -/
def push (mm : MaterializedMeta) (r : MetaRecord) : MaterializedMeta :=
  match r.checkpoint with
  | some c => c
  | none => mm.pushDelta r

/-- The deltas of a whole stream. -/
def foldDeltas (mm : MaterializedMeta) (records : List MetaRecord) : MaterializedMeta :=
  records.foldl pushDelta mm

theorem foldDeltas_append (mm : MaterializedMeta) (xs ys : List MetaRecord) :
    mm.foldDeltas (xs ++ ys) = (mm.foldDeltas xs).foldDeltas ys := List.foldl_append

/-- The records' times, one after the other. -/
theorem foldDeltas_userTimes (mm : MaterializedMeta) (rs : List MetaRecord) :
    (mm.foldDeltas rs).userTimes = mm.userTimes ++ rs.flatMap (·.userTimes) := by
  induction rs generalizing mm with
  | nil => simp [foldDeltas]
  | cons r rs ih =>
    rw [foldDeltas, List.foldl_cons, ← foldDeltas, ih]
    simp [pushDelta]

end MaterializedMeta

/-! ## alignment -/

/-- What a load recovered. -/
structure Aligned where
  committed : Nat
  mm : MaterializedMeta
  resume : Resume
  records : Nat
  deriving DecidableEq

/-- Why an otherwise-readable stream is rejected outright. -/
inductive AlignError
  | checkpointMismatch
  deriving DecidableEq, Repr

/-- The record's commit lies beyond what the content stream corroborates. -/
def MetaRecord.isBeyond (r : MetaRecord) (committedLen : Nat) : Bool :=
  r.resume.any fun res => committedLen < res.id

/-- The record's checkpoint disagrees with the state folded up to it. The first
record of a stream has nothing before it to compare with. -/
def MetaRecord.isMismatch (r : MetaRecord) (folded : Nat) (mm : MaterializedMeta) : Bool :=
  r.checkpoint.any fun c => decide (0 < folded) && decide (mm.pushDelta r ≠ c)

/-- The loop of `align`: the records folded so far, their view, the best so far. -/
def alignFrom (committedLen folded : Nat) (mm : MaterializedMeta) (best : Option Aligned) :
    List MetaRecord → Except AlignError (Option Aligned)
  | [] => .ok best
  | r :: rs =>
    if r.isBeyond committedLen then .ok best
    else if r.isMismatch folded mm then .error .checkpointMismatch
    else
      let mm := mm.push r
      let best := match r.resume with
        | some res => some ⟨res.id, mm, res, folded + 1⟩
        | none => best
      alignFrom committedLen (folded + 1) mm best rs

/-- `align`: the last record whose resume payload the content stream
corroborates wins; `none` when no record qualifies. -/
def align (records : List MetaRecord) (committedLen : Nat) :
    Except AlignError (Option Aligned) :=
  alignFrom committedLen 0 {} none records

end ClaudeReplay
