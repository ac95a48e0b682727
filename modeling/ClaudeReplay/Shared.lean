import ClaudeReplay.Follow
import ClaudeReplay.Lib.Splice
import ClaudeReplay.Pull

/-!
# ClaudeReplay.Shared

The shared session: one follower, the protocol's two counters, and the finalized
open turn of the last tick. Every function here runs under the session's lock, so
a schedule of callers is a sequence of these steps.

* `SharedSession.advance` — tail the source and move `epoch` / `provisionalGen`;
* `SharedSession.pollView` — the in-process tick, `advance` with a splice delta;
* `SharedSession.pull` — serve a cursor from the current zones;
* `SharedSession.start` — a cold session, or one restored from a durable cache.
-/

namespace ClaudeReplay

open Lib

/-- One in-process tick's payload. -/
structure ViewDelta where
  reset : Bool
  committedDelta : List Block
  committedLen : Nat
  provisional : List Block
  changedFrom : Nat
  userTimes : List (Option EpochSeconds)
  metrics : MetricsTotals
  tasks : List TaskItem
  deriving DecidableEq

/-- The mutable state of one followed session. `writer` is the record stream of a
durable cache, `frozen` the mark of a session that is resident but released. -/
structure SharedSession (ad : Adapter) where
  follower : Accumulator ad
  epoch : Nat := 1
  provisionalGen : Nat := 0
  nProvisional : Nat := 0
  prevProvisional : List Block := []
  writer : Option (List MetaRecord) := none
  frozen : Bool := false

/-- How a session is opened: cold, or restored from a committed prefix, the meta
materialized to it and its resume payload. `links` is the spawn table of the time. -/
inductive Open
  | withStore (links : List SpawnLink)
  | resume (committed : List Block) (mm : MaterializedMeta) (res : Resume)
      (links : List SpawnLink)

namespace SharedSession

variable {ad : Adapter}

/-- `with_store` and `resume`: both start their counters afresh. -/
def start (ad : Adapter) : Open → SharedSession ad
  | .withStore links => { follower := (Accumulator.new ad).setSpawnLinks links }
  | .resume committed mm res links =>
    { follower := (Accumulator.restore ad committed mm res).setSpawnLinks links }

/-- `record`: append whatever the fold just authored. -/
def record (s : SharedSession ad) : SharedSession ad :=
  match s.writer with
  | none => s
  | some w =>
    let (authored, follower) := s.follower.drainMeta
    { s with follower, writer := some (w ++ authored) }

/-- `attach_writer`: make the session durable, and thaw it. -/
def attachWriter (s : SharedSession ad) (w : List MetaRecord) : SharedSession ad :=
  ({ s with writer := some w, frozen := false } : SharedSession ad).record

/-- `quiesce`: record, detach the writer, and stop folding. -/
def quiesce (s : SharedSession ad) : SharedSession ad :=
  { s.record with writer := none, frozen := true }

/-- `thaw`: resume folding with no writer. -/
def thaw (s : SharedSession ad) : SharedSession ad := { s with frozen := false }

/-- The counters after an advancing tick, from what it did and from whether the
open turn of the tick before is still a prefix of this one's. -/
def bump (s : SharedSession ad) (tick : Tick) (grew : Bool) (provisional : List Block) :
    Nat × Nat :=
  if tick.reset then (s.epoch + 1, s.provisionalGen + 1)
  else if grew || tick.patchFloor.isSome || !intact s.prevProvisional provisional then
    (s.epoch, s.provisionalGen + 1)
  else (s.epoch, s.provisionalGen)

/-- The state after an advancing tick has folded into `follower`. -/
def afterTick (s : SharedSession ad) (follower : Accumulator ad) (tick : Tick) :
    SharedSession ad :=
  let grew := decide (s.follower.committed.length < follower.committed.length)
  let provisional := follower.provisional
  let (epoch, provisionalGen) := s.bump tick grew provisional
  ({ s with
    follower, epoch, provisionalGen
    nProvisional := provisional.length
    prevProvisional := provisional } : SharedSession ad).record

/-- `advance`: tail the source. Returns whether content advanced. -/
def advance (s : SharedSession ad) (poll : Poll) : SharedSession ad × Bool :=
  if s.frozen then (s, false)
  else
    let (follower, tick) := s.follower.advanceFromSource poll
    if tick.advanced then (s.afterTick follower tick, true)
    else ({ s with follower }, false)

/-- The first block of the joined view an in-process consumer must re-derive. -/
def changedFrom (s : SharedSession ad) (tick : Tick) (committedDelta provisional : List Block) :
    Nat :=
  if tick.reset then 0
  else s.follower.committed.length + agree s.prevProvisional (committedDelta ++ provisional)

/-- `poll_view`: `advance`, and the splice-shaped delta of the tick. -/
def pollView (s : SharedSession ad) (poll : Poll) : SharedSession ad × Option ViewDelta :=
  if s.frozen then (s, none)
  else
    let (follower, tick) := s.follower.advanceFromSource poll
    if tick.advanced then
      let prevCommitted := s.follower.committed.length
      let committedLen := follower.committed.length
      let committedDelta := follower.committed.drop (min prevCommitted committedLen)
      (s.afterTick follower tick, some
        { reset := tick.reset
          committedDelta, committedLen
          provisional := follower.provisional
          changedFrom := s.changedFrom tick committedDelta follower.provisional
          userTimes := follower.userTimes
          metrics := follower.totals
          tasks := follower.tasks })
    else ({ s with follower }, none)

/-- What a pull reads. -/
def view (s : SharedSession ad) : ServerView where
  epoch := s.epoch
  gen := s.provisionalGen
  committed := s.follower.committed
  provisional := s.follower.provisional

/-- `SharedSession::pull`: serve a cursor against the current zones. -/
def pull (s : SharedSession ad) (cursor : Cursor) : PullReply := ClaudeReplay.pull s.view cursor

/-- The joined view. -/
def blocks (s : SharedSession ad) : List Block := s.follower.committed ++ s.follower.provisional

/-! ## what a tick can do -/

@[simp] theorem record_view (s : SharedSession ad) : s.record.view = s.view := by
  unfold record
  split <;> rfl

@[simp] theorem record_prevProvisional (s : SharedSession ad) :
    s.record.prevProvisional = s.prevProvisional := by
  unfold record
  split <;> rfl

@[simp] theorem record_frozen (s : SharedSession ad) : s.record.frozen = s.frozen := by
  unfold record
  split <;> rfl

/-- Attaching and releasing a writer changes nothing that is served. -/
@[simp] theorem attachWriter_view (s : SharedSession ad) (w : List MetaRecord) :
    (s.attachWriter w).view = s.view :=
  record_view ({ s with writer := some w, frozen := false } : SharedSession ad)

@[simp] theorem quiesce_view (s : SharedSession ad) : s.quiesce.view = s.view := s.record_view

/-- The open turn of the last tick is the one the session serves. -/
def Settled (s : SharedSession ad) : Prop := s.prevProvisional = s.follower.provisional

theorem Settled.record {s : SharedSession ad} (h : s.Settled) : s.record.Settled := by
  have hview := congrArg ServerView.provisional s.record_view
  exact s.record_prevProvisional.trans (h.trans hview.symm)

theorem Settled.attachWriter {s : SharedSession ad} (h : s.Settled) (w : List MetaRecord) :
    (s.attachWriter w).Settled :=
  Settled.record (s := { s with writer := some w, frozen := false }) h

theorem Settled.quiesce {s : SharedSession ad} (h : s.Settled) : s.quiesce.Settled := h.record

/-- How one tick may move what a session serves: not at all; to a new epoch; or,
within the epoch, by a commit or a rewrite under a new generation, or by
extending the open turn. -/
inductive Moves (v v' : ServerView) : Prop
  | idle (h : v' = v)
  | reset (hepoch : v'.epoch = v.epoch + 1)
  | regen (hepoch : v'.epoch = v.epoch) (hgen : v'.gen = v.gen + 1)
      (hcommitted : v.committed <+: v'.committed)
  | extend (hepoch : v'.epoch = v.epoch) (hgen : v'.gen = v.gen)
      (hcommitted : v'.committed = v.committed) (hprovisional : v.provisional <+: v'.provisional)

theorem afterTick_view (s : SharedSession ad) (follower : Accumulator ad) (tick : Tick) :
    (s.afterTick follower tick).view =
      { epoch := (s.bump tick
          (decide (s.follower.committed.length < follower.committed.length)) follower.provisional).1
        gen := (s.bump tick
          (decide (s.follower.committed.length < follower.committed.length)) follower.provisional).2
        committed := follower.committed
        provisional := follower.provisional } := by
  simp only [afterTick, record_view]
  rfl

theorem afterTick_blocks (s : SharedSession ad) (follower : Accumulator ad) (tick : Tick) :
    (s.afterTick follower tick).blocks = follower.committed ++ follower.provisional := by
  have hview := s.afterTick_view follower tick
  rw [view] at hview
  injection hview with _ _ hcommitted hprovisional
  rw [blocks, hcommitted, hprovisional]

theorem afterTick_frozen (s : SharedSession ad) (follower : Accumulator ad) (tick : Tick) :
    (s.afterTick follower tick).frozen = s.frozen := by
  simp only [afterTick, record_frozen]

theorem afterTick_settled (s : SharedSession ad) (follower : Accumulator ad) (tick : Tick) :
    (s.afterTick follower tick).Settled := by
  have hview := congrArg ServerView.provisional (s.afterTick_view follower tick)
  simp only [view] at hview
  rw [Settled, hview]
  simp only [afterTick, record_prevProvisional]

/-- **What an advance can do** to the served view of a settled session. -/
theorem advance_moves (s : SharedSession ad) (poll : Poll) (h : s.Settled) :
    Moves s.view (s.advance poll).1.view ∧ (s.advance poll).1.Settled := by
  unfold advance
  split
  · exact ⟨.idle rfl, h⟩
  · cases htick : s.follower.advanceFromSource poll with
    | mk follower tick =>
      have hreset := (s.follower.advanceFromSource_reset poll).1
      have hidle := s.follower.advanceFromSource_idle poll
      have hgrow := s.follower.advanceFromSource_committed poll
      simp only [htick] at hreset hidle hgrow ⊢
      cases hadv : tick.advanced with
      | false =>
        obtain ⟨hc, hp⟩ := hidle hadv
        refine ⟨.idle ?_, ?_⟩
        · simp only [Bool.false_eq_true, if_false, view, hc, hp]
        · simpa only [Bool.false_eq_true, if_false, Settled, hp] using h
      | true =>
        simp only [if_true]
        refine ⟨?_, s.afterTick_settled follower tick⟩
        rw [afterTick_view]
        simp only [bump]
        cases hr : tick.reset with
        | true => exact .reset rfl
        | false =>
          have hpre := hgrow (by rw [← hreset, hr])
          simp only [Bool.false_eq_true, if_false]
          split
          · exact .regen rfl rfl hpre
          · next hsame =>
            simp only [Bool.or_eq_true, decide_eq_true_eq, Bool.not_eq_true', not_or, Nat.not_lt,
              Bool.not_eq_false] at hsame
            refine .extend rfl rfl (hpre.eq_of_length ?_).symm ?_
            · exact le_antisymm hpre.length_le hsame.1.1
            · rw [show s.view.provisional = s.prevProvisional from h.symm]
              exact intact_iff.mp hsame.2

/-- A session opens settled: nothing is open in an empty window. -/
theorem start_settled (had : ad.shaping.Lawful) (o : Open) : (start ad o).Settled := by
  have hempty : ∀ st, (Fold.start ad.shaping st).openSnapshot.1 = [] := fun st => by
    cases st <;> exact had.finishTurns_nil
  cases o with
  | withStore links =>
    show [] = applySpawnLinks links (Fold.start ad.shaping .cold).openSnapshot.1
    rw [hempty]
    rfl
  | resume committed mm res links =>
    show [] = applySpawnLinks links
      (Fold.start ad.shaping (.resumed mm res.prevTs res.pendingTs)).openSnapshot.1
    rw [hempty]
    rfl

end SharedSession

end ClaudeReplay
