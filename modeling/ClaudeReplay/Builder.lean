import ClaudeReplay.Adapter
import ClaudeReplay.Replay.Safety

/-!
# ClaudeReplay.Builder

The incremental fold orchestrator. One `Accumulator` threads the adapter's
decoder, the shared fold and the metrics accumulator behind `advanceAt`, keeps
the committed prefix, and authors the meta stream.

A committing drain writes one `MetaRecord`:

* `Accumulator.authorResume` — the resume payload and the counter deltas, when
  the front of the boundary queue stands exactly at the frontier;
* `Accumulator.checkpointMaybe` — every `checkpointEvery` resumable drains, the
  state itself, from `Accumulator.materialized`.

`Accumulator.restore` is the inverse of the record stream, and
`Accumulator.reset` the follower's answer to a rewritten file. The committed
blocks are kept as the identity store keeps them.
-/

namespace ClaudeReplay

open Lib

/-! ## spawn links -/

/-- A spawn's identity, recorded beside the transcript. -/
structure SpawnLink where
  toolUseId : String
  agentId : AgentId
  deriving DecidableEq, Repr

/-- The spawn with the id a link gives it, if it has none of its own. -/
def SubAgent.adopt (links : List SpawnLink) (sa : SubAgent) : SubAgent :=
  if sa.agentId.isEmpty then
    match links.find? fun l => l.toolUseId = sa.toolUseId with
    | some link => { sa with agentId := link.agentId }
    | none => sa
  else sa

/-- `apply_spawn_links`: adopt the links into the anonymous spawns. -/
def applySpawnLinks (links : List SpawnLink) (blocks : List Block) : List Block :=
  blocks.map fun
    | .subAgent sa => .subAgent (sa.adopt links)
    | b => b

/-! ## the accumulator -/

/-- A turn-opening line's state, captured before the line is folded: the
candidate resume point and what a resume from there must be seeded with. -/
structure Boundary where
  logical : Nat
  offset : Nat
  prevTs : Option EpochSeconds
  pendingTs : Option EpochSeconds
  totals : MetricsTotals
  cwd : String
  sandboxOn : Bool
  pre : Value
  metricsState : Value
  deriving DecidableEq

/-- `Boundary::default()`. -/
def Boundary.default : Boundary :=
  ⟨0, 0, none, none, .empty, "", false, .null, .null⟩

/-- `CHECKPOINT_EVERY`: how many resumable drains between checkpoints. -/
def checkpointEvery : Nat := 64

/-- The state of the incremental fold. -/
structure Accumulator (ad : Adapter) where
  fold : Fold ad.shaping
  cwd : String
  pre : ad.Pre
  metrics : ad.Acc
  committed : List Block
  committedMeta : SessionMeta
  taskFold : TaskFold
  boundary : List Boundary
  emitted : Boundary
  metaOut : List MetaRecord
  links : List SpawnLink
  committedAgents : StrMap (AgentId × String)
  committedInbox : StrMap Unit
  committedPeers : StrMap String
  sinceCheckpoint : Nat

/-! ## the record of a drain -/

/-- `count_into`: one committed block's contribution to a record's counters. -/
def countInto (rec_ : MetaRecord) (b : Block) : MetaRecord :=
  if b.opensTurn then { rec_ with turns := some (rec_.turns.getD 0 + 1) }
  else
    match b with
    | .toolUse _ => { rec_ with tools := some (rec_.tools.getD 0 + 1) }
    | .thinking _ _ tools =>
      if tools.isEmpty then rec_
      else { rec_ with tools := some (rec_.tools.getD 0 + tools.length) }
    | .subAgent sa => { rec_ with agents := rec_.agents ++ [.spawned sa.spawn] }
    | .agentDone agentId _ _ _ _ =>
      if agentId.isEmpty then rec_
      else { rec_ with agents := rec_.agents ++ [.finished agentId] }
    | _ => rec_

namespace Accumulator

variable {ad : Adapter}

/-- `with_store`: a fresh accumulator. -/
def new (ad : Adapter) : Accumulator ad where
  fold := Fold.start ad.shaping .cold
  cwd := ""
  pre := ad.linePreprocessor
  metrics := ad.metricsAcc
  committed := []
  committedMeta := {}
  taskFold := {}
  boundary := []
  emitted := .default
  metaOut := []
  links := []
  committedAgents := ∅
  committedInbox := ∅
  committedPeers := ∅
  sinceCheckpoint := 0

/-- `materialized`: the absolute state as of the last authored resume point,
from the accumulator's own maintained state and not from the records. -/
def materialized (acc : Accumulator ad) : MaterializedMeta where
  sessionMeta := acc.committedMeta
  agentIds := acc.committedAgents
  inboxIds := acc.committedInbox
  peerNames := acc.committedPeers
  turnDurations := acc.fold.r.turnDurations.take acc.committedMeta.turns
  userTimes := acc.fold.r.userTimes.take acc.committedMeta.turns
  -- a zero counter never reaches a delta, so a checkpoint must not hold one
  tokens := acc.emitted.totals.tokens.nonzero
  extra := acc.emitted.totals.extra.nonzero
  tasks := acc.taskFold
  cwd := acc.emitted.cwd
  span := acc.emitted.totals.span
  sandboxOn := acc.emitted.sandboxOn

/-- Fold the drained blocks into the committed prefix and its maintained facts. -/
def absorb (acc : Accumulator ad) (drained : List Block) : Accumulator ad :=
  { acc with
    committed := acc.committed ++ drained
    committedMeta := drained.foldl SessionMeta.push acc.committedMeta
    committedAgents := acc.committedAgents.insertAll (drained.flatMap agentPairs)
    committedInbox := acc.committedInbox.insertAll ((drained.filterMap Block.inboxId?).map (·, ()))
    committedPeers := acc.committedPeers.insertAll (drained.filterMap Block.peer?) }

/-- The facts of a drain's record that do not depend on a resume point: `acc` is
the accumulator with `drained` absorbed, `turns0` its turns before. -/
def drainRecord (acc : Accumulator ad) (drained : List Block) (turns0 : Nat) : MetaRecord :=
  { drained.foldl countInto {} with
    inboxIds := drained.filterMap Block.inboxId?
    peerNames := drained.filterMap Block.peer?
    userTimes := (acc.fold.r.userTimes.take acc.committedMeta.turns).drop turns0
    turnDurations :=
      if acc.committedMeta.turns ≤ acc.fold.r.turnDurations.length then
        (acc.fold.r.turnDurations.take acc.committedMeta.turns).drop turns0
      else []
    taskOps := acc.taskFold.recorded }

/-- The resume payload and the deltas a boundary adds to a record. -/
def resumeRecord (acc : Accumulator ad) (e : Boundary) (rec_ : MetaRecord) : MetaRecord :=
  { rec_ with
    tokens := e.totals.tokens.delta acc.emitted.totals.tokens
    extra := e.totals.extra.delta acc.emitted.totals.extra
    span := if e.totals.span = acc.emitted.totals.span then none else e.totals.span
    cwd := if e.cwd = acc.emitted.cwd then none else some e.cwd
    sandboxOn := if e.sandboxOn = acc.emitted.sandboxOn then none else some e.sandboxOn
    resume := some ⟨acc.committed.length, e.offset, e.prevTs, e.pendingTs, e.pre, e.metricsState⟩ }

/-- `author_resume`: attach the resume payload iff the queue's front stands at
the frontier. -/
def authorResume (acc : Accumulator ad) (rec_ : MetaRecord) : Accumulator ad × MetaRecord :=
  match acc.boundary.head? with
  | none => (acc, rec_)
  | some e =>
    if e.logical = acc.fold.r.base then
      ({ acc with emitted := e }, acc.resumeRecord e rec_)
    else (acc, rec_)

/-- `checkpoint_maybe`: attach a checkpoint when one is due. Only a record with a
resume payload may carry one. -/
def checkpointMaybe (acc : Accumulator ad) (rec_ : MetaRecord) : Accumulator ad × MetaRecord :=
  if rec_.resume.isNone then (acc, rec_)
  else if checkpointEvery ≤ acc.sinceCheckpoint + 1 then
    ({ acc with sinceCheckpoint := 0 }, { rec_ with checkpoint := some acc.materialized })
  else ({ acc with sinceCheckpoint := acc.sinceCheckpoint + 1 }, rec_)

/-- The part of a drain that does not depend on a resume point: take the drained
turns in, and retire the boundaries they passed. -/
def settle (acc : Accumulator ad) : Accumulator ad × MetaRecord :=
  let (drained, fold) := acc.fold.drainCommitted
  let drained := applySpawnLinks acc.links drained
  let turns0 := acc.committedMeta.turns
  let acc := ({ acc with fold } : Accumulator ad).absorb drained
  ({ acc with
    taskFold := acc.taskFold.drainRecorded.2
    boundary := acc.boundary.filter fun e => acc.fold.r.base ≤ e.logical },
  acc.drainRecord drained turns0)

/-- The accumulator after a drain and the record the drain writes. -/
def authored (acc : Accumulator ad) : Accumulator ad × MetaRecord :=
  let (acc, rec_) := acc.settle
  let (acc, rec_) := acc.authorResume rec_
  acc.checkpointMaybe rec_

/-- Drain the turns that just crossed the frontier, and author their record. -/
def drain (acc : Accumulator ad) : Accumulator ad :=
  if acc.fold.r.durable.isEmpty then acc
  else
    let (acc, rec_) := acc.authored
    { acc with metaOut := acc.metaOut ++ [rec_] }

/-! ## one line -/

/-- Stamp the line's offset and a per-line ordinal onto every content-bearing
attachment among its messages, the first taking `index`. -/
def stampOffsets (offset : Nat) : Nat → List Message → List Message
  | _, [] => []
  | index, .attachment a :: ms =>
    match a.content with
    | .deferred _ _ span =>
      .attachment { a with content := .deferred offset index span } ::
        stampOffsets offset (index + 1) ms
    | .none => .attachment a :: stampOffsets offset index ms
  | index, m :: ms => m :: stampOffsets offset index ms

/-- What the preprocessor and the decoder make of a line: the working directory
after it, and its messages unless it is ignored. -/
def decoded (acc : Accumulator ad) (line : String) : String × Option (List Message) :=
  match (ad.process acc.pre line).2 with
  | .include =>
    let (cwd, ms) := ad.decodeLine line acc.cwd
    (cwd, some ms)
  | .ignore => (acc.cwd, none)
  | .messages ms => (acc.cwd, some ms)

/-- The boundary a line would be resumed at: the state from before it, except
for the working directory, which its decoding has already moved. -/
def candidate (acc : Accumulator ad) (offset : Nat) (cwd : String) : Boundary where
  logical := acc.fold.r.rawLen
  offset := offset
  prevTs := acc.fold.r.prevTs
  pendingTs := acc.fold.r.pendingTs
  totals := ad.totals acc.metrics
  cwd := cwd
  sandboxOn := acc.fold.r.sandboxOn
  pre := ad.preState acc.pre
  metricsState := ad.metricsState acc.metrics

/-- The task op-log's share of one message. -/
def taskStep (f : TaskFold) : Message → TaskFold
  | .taskOp op => f.apply op
  | .toolResult toolUseId text _ isError =>
    (f.onToolOutcome toolUseId isError).onToolResult toolUseId text
  | _ => f

/-- Fold a line's usage into the metrics. -/
def pushMetrics (ad : Adapter) (m : ad.Acc) (line : String) : ad.Acc :=
  match ad.fromStr line with
  | some v => ad.push m v
  | none => if isBlank line then m else ad.malformedLine m

/-- Fold a line's messages: tasks, blocks, and the boundary it may have opened. -/
def foldMessages (acc : Accumulator ad) (offset : Nat) (cwd : String) (ms : List Message) :
    Accumulator ad × Option Nat :=
  let cand := acc.candidate offset cwd
  let (fold, patched) := acc.fold.apply ms
  ({ acc with
    cwd, fold
    taskFold := ms.foldl taskStep acc.taskFold
    boundary :=
      if ms.any Message.canOpenTurn && decide (cand.logical < fold.r.rawLen) then
        acc.boundary ++ [cand]
      else acc.boundary }, patched)

/-- `advance_at`: fold one line, whose start byte offset is `offset`. Returns the
lowest already-emitted block it patched. -/
def advanceAt (acc : Accumulator ad) (offset : Nat) (line : String) :
    Accumulator ad × Option Nat :=
  let pre := (ad.process acc.pre line).1
  match acc.decoded line with
  | (_, none) => ({ acc with pre }, none)
  | (cwd, some ms) =>
    let (acc, patched) := acc.foldMessages offset cwd (stampOffsets offset 0 ms)
    let acc := acc.drain
    ({ acc with pre, metrics := pushMetrics ad acc.metrics line }, patched)

/-- Fold a sequence of lines with their offsets. -/
def advanceAll (acc : Accumulator ad) (lines : List (Nat × String)) : Accumulator ad :=
  lines.foldl (fun acc l => (acc.advanceAt l.1 l.2).1) acc

/-! ## around the fold -/

/-- `set_spawn_links`. -/
def setSpawnLinks (acc : Accumulator ad) (links : List SpawnLink) : Accumulator ad :=
  { acc with links }

/-- `bank_elision`: bank the read layer's gauges; a zero is never banked. -/
def bankElision (acc : Accumulator ad) (elidedLines elidedBytes skippedLines : Nat) :
    Accumulator ad :=
  let bump := fun m (g : String × Nat) => if 0 < g.2 then ad.bumpExtra m g.1 g.2 else m
  { acc with metrics :=
      [("elided_lines", elidedLines), ("elided_bytes", elidedBytes),
        ("skipped_lines", skippedLines)].foldl bump acc.metrics }

/-- `drain_meta`: take the records authored since the last call. -/
def drainMeta (acc : Accumulator ad) : List MetaRecord × Accumulator ad :=
  (acc.metaOut, { acc with metaOut := [] })

/-- `restore`: rebuild an accumulator from its committed blocks, the meta
materialized to the same point, and the resume payload. -/
def restore (ad : Adapter) (committed : List Block) (mm : MaterializedMeta) (resume : Resume) :
    Accumulator ad :=
  let totals : MetricsTotals := ⟨mm.tokens, mm.extra, mm.span⟩
  { new ad with
    committed
    committedAgents := mm.agentIds
    committedInbox := mm.inboxIds
    committedPeers := mm.peerNames
    committedMeta := mm.sessionMeta
    cwd := mm.cwd
    taskFold := mm.tasks
    metrics := ad.metricsRestore (ad.reseed ad.metricsAcc totals) resume.metricsState
    fold := Fold.start ad.shaping (.resumed mm resume.prevTs resume.pendingTs)
    pre := ad.preRestore ad.linePreprocessor resume.pre
    emitted :=
      { logical := 0, offset := resume.replayFrom, prevTs := resume.prevTs,
        pendingTs := resume.pendingTs, totals, cwd := mm.cwd, sandboxOn := mm.sandboxOn,
        pre := resume.pre, metricsState := resume.metricsState } }

/-- `reset`: the follower's rebuild on a truncated or replaced file. -/
def reset (acc : Accumulator ad) : Accumulator ad :=
  { acc with
    fold := Fold.start ad.shaping .cold
    cwd := ""
    pre := ad.linePreprocessor
    metrics := ad.metricsAcc
    committed := []
    committedMeta := {}
    committedAgents := ∅
    committedInbox := ∅
    committedPeers := ∅
    sinceCheckpoint := 0
    taskFold := {} }

/-- `open_snapshot`: the finalized open turn with spawn identity adopted, and the
whole session's times. -/
def openSnapshot (acc : Accumulator ad) : List Block × List (Option EpochSeconds) :=
  let (open_, times) := acc.fold.openSnapshot
  (applySpawnLinks acc.links open_, times)

/-- The provisional zone. -/
def provisional (acc : Accumulator ad) : List Block := acc.openSnapshot.1

/-- The whole session's times, with the open turn's stamps. -/
def userTimes (acc : Accumulator ad) : List (Option EpochSeconds) := acc.openSnapshot.2

/-- The durations, padded to the times. -/
def turnDurations (acc : Accumulator ad) : List (Option Nat) :=
  resize acc.fold.r.turnDurations acc.userTimes.length none

/-- The presentable stream: committed blocks, then the open turn. -/
def blocks (acc : Accumulator ad) : List Block := acc.committed ++ acc.provisional

/-- The metric totals. -/
def totals (acc : Accumulator ad) : MetricsTotals := ad.totals acc.metrics

/-- The task list. -/
def tasks (acc : Accumulator ad) : List TaskItem := acc.taskFold.items

/-! ## what a drain writes -/

/-- Authoring a record writes nothing but the accumulator's own bookkeeping. -/
theorem authorResume_fst (acc : Accumulator ad) (rec_ : MetaRecord) :
    ∃ emitted, (acc.authorResume rec_).1 = { acc with emitted } := by
  unfold authorResume
  split
  · exact ⟨acc.emitted, rfl⟩
  · next e _ =>
    split
    · exact ⟨e, rfl⟩
    · exact ⟨acc.emitted, rfl⟩

theorem checkpointMaybe_fst (acc : Accumulator ad) (rec_ : MetaRecord) :
    ∃ sinceCheckpoint, (acc.checkpointMaybe rec_).1 = { acc with sinceCheckpoint } := by
  unfold checkpointMaybe
  split
  · exact ⟨acc.sinceCheckpoint, rfl⟩
  · split
    · exact ⟨0, rfl⟩
    · exact ⟨acc.sinceCheckpoint + 1, rfl⟩

/-- A drain that has something to drain is `settle`, and the record it authors. -/
theorem drain_eq (acc : Accumulator ad) (h : acc.fold.r.durable.isEmpty = false) :
    ∃ emitted sinceCheckpoint, acc.drain =
      { acc.settle.1 with
        emitted, sinceCheckpoint, metaOut := acc.metaOut ++ [acc.authored.2] } := by
  obtain ⟨emitted, he⟩ := acc.settle.1.authorResume_fst acc.settle.2
  obtain ⟨n, hn⟩ := (acc.settle.1.authorResume acc.settle.2).1.checkpointMaybe_fst
    (acc.settle.1.authorResume acc.settle.2).2
  have hauth : acc.authored.1 = { acc.settle.1 with emitted, sinceCheckpoint := n } := by
    unfold authored
    rw [hn, he]
  refine ⟨emitted, n, ?_⟩
  rw [drain, if_neg (by simp [h])]
  show { acc.authored.1 with metaOut := acc.authored.1.metaOut ++ [acc.authored.2] } = _
  rw [hauth]
  rfl

theorem drain_metrics (acc : Accumulator ad) : acc.drain.metrics = acc.metrics := by
  cases hd : acc.fold.r.durable.isEmpty with
  | true => simp [drain, hd]
  | false =>
    obtain ⟨emitted, n, heq⟩ := acc.drain_eq hd
    rw [heq]
    rfl

end Accumulator

end ClaudeReplay
