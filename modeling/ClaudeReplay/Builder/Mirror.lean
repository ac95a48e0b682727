import ClaudeReplay.Builder.Line

/-!
# ClaudeReplay.Builder.Mirror

The accumulator and its record stream say the same thing twice. A checkpoint is
read off the accumulator's maintained state (`Accumulator.materialized`); a
reader sums the deltas (`MaterializedMeta.pushDelta`). `Accumulator.Mirrors`
equates the two field by field, and `Accumulator.Sound` adds what keeps them
equal: the clocks of the window and the boundaries' captures.

The counters are `u64` sums and can wrap, and a counter that falls has no delta. So
what is said of them, and of the observed span beside them, is said under a premise,
`growing`: that no counter fell so far. The rest needs no such thing.

* `foldMessages_sound` — a line's messages leave the sum alone;
* `settle_sound`, `authorResume_sound` — a drain's record moves it along;
* `drain_sound` — so every record is `Faithful` to the sum before it.
-/

namespace ClaudeReplay

open Lib Replayer

/-! ## spawn links -/

theorem applySpawnLinks_countP (links : List SpawnLink) (bs : List Block) :
    (applySpawnLinks links bs).countP Block.opensTurn = bs.countP Block.opensTurn := by
  rw [applySpawnLinks, List.countP_map]
  refine List.countP_congr fun b _ => ?_
  cases b <;> rfl

theorem applySpawnLinks_phase (links : List SpawnLink) {bs : List Block}
    (h : ∀ b ∈ bs, b.phase = none) : ∀ b ∈ applySpawnLinks links bs, b.phase = none := by
  intro b hb
  obtain ⟨b₀, hb₀, rfl⟩ := List.mem_map.mp hb
  have hphase := h b₀ hb₀
  cases b₀ with
  | subAgent sa =>
    simp only [Block.phase, SubAgent.adopt] at hphase ⊢
    split
    · split <;> exact hphase
    · exact hphase
  | _ => rfl

/-! ## the counters of a record -/

/-- The header and the spawn map after a record's deltas. -/
def MetaRecord.header (rec_ : MetaRecord) (m : SessionMeta) (ids : StrMap (AgentId × String)) :
    SessionMeta × StrMap (AgentId × String) :=
  let agents := rec_.agents.foldl AgentState.push (m.children, ids)
  (⟨m.turns + rec_.turns.getD 0, m.tools + rec_.tools.getD 0, agents.1⟩, agents.2)

/-- `countInto` says of a block what `SessionMeta.push` does with it. -/
theorem countInto_header (rec_ : MetaRecord) {b : Block} (hb : b.phase = none) (m : SessionMeta)
    (ids : StrMap (AgentId × String)) :
    (countInto rec_ b).header m ids =
      ((rec_.header m ids).1.push b, (rec_.header m ids).2.insertAll (agentPairs b)) := by
  cases b with
  | thinking text dur tools =>
    cases tools with
    | nil => simp [countInto, MetaRecord.header, SessionMeta.push, Block.opensTurn, agentPairs]
    | cons t ts =>
      simp only [countInto, MetaRecord.header, SessionMeta.push, Block.opensTurn, agentPairs,
        List.isEmpty_cons, Option.getD_some, Bool.false_eq_true, if_false, StrMap.insertAll_nil,
        Nat.add_assoc]
  | subAgent sa =>
    simp only [Block.phase] at hb
    by_cases hid : sa.agentId.isEmpty = true
    · simp [countInto, MetaRecord.header, SessionMeta.push, Block.opensTurn, agentPairs,
        AgentState.push, SubAgent.spawn, hid, List.foldl_append]
    · simp [countInto, MetaRecord.header, SessionMeta.push, Block.opensTurn, agentPairs,
        AgentState.push, SubAgent.spawn, hid, hb, List.foldl_append]
  | agentDone agentId agentType description status result =>
    by_cases hid : agentId.isEmpty = true
    · simp [countInto, MetaRecord.header, SessionMeta.push, Block.opensTurn, agentPairs, hid]
    · simp [countInto, MetaRecord.header, SessionMeta.push, Block.opensTurn, agentPairs,
        AgentState.push, hid, List.foldl_append]
  | _ =>
    simp [countInto, MetaRecord.header, SessionMeta.push, Block.opensTurn, agentPairs,
      Nat.add_assoc]

theorem foldl_countInto_header {bs : List Block} (hbs : ∀ b ∈ bs, b.phase = none)
    (rec_ : MetaRecord) (m : SessionMeta) (ids : StrMap (AgentId × String)) :
    (bs.foldl countInto rec_).header m ids =
      (bs.foldl SessionMeta.push (rec_.header m ids).1,
        (rec_.header m ids).2.insertAll (bs.flatMap agentPairs)) := by
  induction bs generalizing rec_ with
  | nil => rfl
  | cons b bs ih =>
    rw [List.forall_mem_cons] at hbs
    rw [List.foldl_cons, ih hbs.2, countInto_header rec_ hbs.1, List.foldl_cons,
      List.flatMap_cons, StrMap.insertAll_append]

/-- Counting writes the counters and nothing else. -/
theorem countInto_eq (rec_ : MetaRecord) (b : Block) :
    ∃ turns tools agents, countInto rec_ b = { rec_ with turns, tools, agents } := by
  unfold countInto
  split
  · exact ⟨_, rec_.tools, rec_.agents, rfl⟩
  · split
    · exact ⟨rec_.turns, _, rec_.agents, rfl⟩
    · split
      · exact ⟨rec_.turns, rec_.tools, rec_.agents, rfl⟩
      · exact ⟨rec_.turns, _, rec_.agents, rfl⟩
    · exact ⟨rec_.turns, rec_.tools, _, rfl⟩
    · split
      · exact ⟨rec_.turns, rec_.tools, rec_.agents, rfl⟩
      · exact ⟨rec_.turns, rec_.tools, _, rfl⟩
    · exact ⟨rec_.turns, rec_.tools, rec_.agents, rfl⟩

theorem foldl_countInto_eq (bs : List Block) (rec_ : MetaRecord) :
    ∃ turns tools agents, bs.foldl countInto rec_ = { rec_ with turns, tools, agents } := by
  induction bs generalizing rec_ with
  | nil => exact ⟨rec_.turns, rec_.tools, rec_.agents, rfl⟩
  | cons b bs ih =>
    obtain ⟨turns, tools, agents, h⟩ := countInto_eq rec_ b
    obtain ⟨turns', tools', agents', h'⟩ := ih (countInto rec_ b)
    exact ⟨turns', tools', agents', by rw [List.foldl_cons, h', h]⟩

/-! ## transcripts -/

/-- A transcript: its complete lines, each with the offset it starts at. -/
structure Transcript where
  lines : List (Nat × String)
  sorted : lines.Pairwise (·.1 < ·.1)

/-- The lines from a byte offset on. -/
def Transcript.from (T : Transcript) (offset : Nat) : List (Nat × String) :=
  T.lines.dropWhile (·.1 < offset)

/-- Reading from a line's offset starts at that line. -/
theorem Transcript.from_of_suffix {T : Transcript} {offset : Nat} {line : String}
    {rest : List (Nat × String)} (h : (offset, line) :: rest <:+ T.lines) :
    T.from offset = (offset, line) :: rest := by
  obtain ⟨before, hlines⟩ := h
  have hsorted := T.sorted
  rw [← hlines, List.pairwise_append] at hsorted
  rw [Transcript.from, ← hlines, List.dropWhile_append_of_pos]
  · simp
  · exact fun l hl => by simpa using hsorted.2.2 l hl _ List.mem_cons_self

/-- The line at `offset`, met with this preprocessor and working directory, can
open a turn, and `ms` are its messages. -/
def Transcript.OpensAt (T : Transcript) (ad : Adapter) (pre : ad.Pre) (cwd : String)
    (offset : Nat) (ms : List Message) : Prop :=
  ms.any Message.canOpenTurn = true ∧ ∃ line rest, (offset, line) :: rest <:+ T.lines ∧
    ad.messagesAt pre cwd offset line = some ms

/-! ## what is said of the counters -/

/-- A view without its counters. -/
def MaterializedMeta.uncounted (mm : MaterializedMeta) : MaterializedMeta :=
  { mm with tokens := ∅, extra := ∅, span := none }

/-- Two views that say the same, of the counters if these grow. -/
structure MaterializedMeta.Agrees (growing : Prop) (mm mm' : MaterializedMeta) : Prop where
  uncounted : mm.uncounted = mm'.uncounted
  counted : growing → mm = mm'

namespace MaterializedMeta.Agrees

variable {growing : Prop} {mm mm' : MaterializedMeta}

theorem refl (mm : MaterializedMeta) : mm.Agrees growing mm := ⟨rfl, fun _ => rfl⟩

theorem symm (h : mm.Agrees growing mm') : mm'.Agrees growing mm :=
  ⟨h.uncounted.symm, fun hg => (h.counted hg).symm⟩

/-- The same record moves them along. -/
theorem pushDelta (h : mm.Agrees growing mm') (r : MetaRecord) :
    (mm.pushDelta r).Agrees growing (mm'.pushDelta r) where
  uncounted := congrArg (fun mm => (mm.pushDelta r).uncounted) h.uncounted
  counted hg := by rw [h.counted hg]

/-- They agree on what is no counter. -/
theorem congr (h : mm.Agrees growing mm') {β : Type} (g : MaterializedMeta → β)
    (hg : ∀ mm, g mm = g mm.uncounted) : g mm = g mm' := by
  rw [hg, h.uncounted, ← hg]

end MaterializedMeta.Agrees

/-! ## captures -/

variable {ad : Adapter} {T : Transcript} {growing : Prop}

/-- A boundary holds the state its line was met in, and its line has settled the
turns before it. -/
def Boundary.Captured (T : Transcript) (ad : Adapter) (r : Replayer) (n : Nat) (e : Boundary) :
    Prop :=
  e.logical < r.rawLen ∧ ∃ pre m ms, e.pre = ad.preState pre ∧
    e.metricsState = ad.metricsState m ∧ e.totals = ad.totals m ∧
    T.OpensAt ad pre e.cwd e.offset ms ∧ r.Settles n e.logical ms

/-- What a resume point must be for a fold to continue from it. -/
structure Resume.Resumes (growing : Prop) (T : Transcript) (ad : Adapter) (res : Resume)
    (mm : MaterializedMeta) : Prop where
  metrics : growing → ∃ m, res.metricsState = ad.metricsState m ∧
    ⟨mm.tokens, mm.extra, mm.span⟩ = (ad.totals m).nonzero
  line : ∃ pre ms, res.pre = ad.preState pre ∧ T.OpensAt ad pre mm.cwd res.replayFrom ms ∧
    ms.foldl (durationStep mm.userTimes) mm.turnDurations = mm.turnDurations
  times : mm.userTimes.length = mm.sessionMeta.turns
  durations : mm.turnDurations.length = mm.userTimes.length
  recorded : mm.tasks.recorded = []

theorem Resume.Resumes.agrees {res : Resume} {mm mm' : MaterializedMeta}
    (h : res.Resumes growing T ad mm) (ha : mm.Agrees growing mm') :
    res.Resumes growing T ad mm' where
  metrics hg := ha.counted hg ▸ h.metrics hg
  line := by
    rw [← ha.congr (·.cwd) fun _ => rfl, ← ha.congr (·.userTimes) fun _ => rfl,
      ← ha.congr (·.turnDurations) fun _ => rfl]
    exact h.line
  times := by
    rw [← ha.congr (·.userTimes) fun _ => rfl, ← ha.congr (·.sessionMeta) fun _ => rfl]
    exact h.times
  durations := by
    rw [← ha.congr (·.turnDurations) fun _ => rfl, ← ha.congr (·.userTimes) fun _ => rfl]
    exact h.durations
  recorded := (ha.congr (·.tasks) fun _ => rfl) ▸ h.recorded

/-- A record is faithful to the sum of the records before it: a checkpoint it
carries is that sum with its own deltas, and its resume point continues it. -/
structure MetaRecord.Faithful (growing : Prop) (T : Transcript) (ad : Adapter)
    (mm : MaterializedMeta) (rec_ : MetaRecord) : Prop where
  checkpoint : ∀ c, rec_.checkpoint = some c → c.Agrees growing (mm.pushDelta rec_)
  resume : ∀ res, rec_.resume = some res → res.Resumes growing T ad (mm.pushDelta rec_)

/-! ## the mirror -/

/-- The facts a resume payload carries, on both sides. -/
structure Boundary.Mirrored (growing : Prop) (e : Boundary) (mm : MaterializedMeta) : Prop where
  tokens : growing → mm.tokens = e.totals.tokens.nonzero
  extra : growing → mm.extra = e.totals.extra.nonzero
  span : growing → mm.span = e.totals.span
  cwd : mm.cwd = e.cwd
  sandboxOn : mm.sandboxOn = e.sandboxOn

/-- The payload of a later boundary moves them along. -/
theorem Boundary.Mirrored.resumeRecord {acc : Accumulator ad} {mm : MaterializedMeta}
    (h : acc.emitted.Mirrored growing mm) {e : Boundary}
    (hg : growing → acc.emitted.totals.Grows e.totals) (rec_ : MetaRecord) :
    e.Mirrored growing (mm.pushDelta (acc.resumeRecord e rec_)) where
  tokens hgr := by
    rw [← StrMap.addAll_delta _ _ (hg hgr).tokens, ← h.tokens hgr]
    rfl
  extra hgr := by
    rw [← StrMap.addAll_delta _ _ (hg hgr).extra, ← h.extra hgr]
    rfl
  span hgr := by
    simp only [MaterializedMeta.pushDelta, Accumulator.resumeRecord, h.span hgr]
    split
    · next heq => simp [heq]
    · next hne =>
      -- a span once observed is not unobserved
      cases hspan : e.totals.span with
      | some s => rfl
      | none =>
        cases hbefore : acc.emitted.totals.span with
        | none => rw [hspan, hbefore] at hne; exact absurd rfl hne
        | some s => have := (hg hgr).span (by rw [hbefore]; rfl); simp [hspan] at this
  cwd := by
    simp only [MaterializedMeta.pushDelta, Accumulator.resumeRecord, h.cwd]
    split
    · next heq => exact heq.symm
    · rfl
  sandboxOn := by
    simp only [MaterializedMeta.pushDelta, Accumulator.resumeRecord, h.sandboxOn]
    split
    · next heq => exact heq.symm
    · rfl

namespace Accumulator

variable {acc : Accumulator ad} {mm : MaterializedMeta}

/-- The turns out of the window: the committed ones and those about to be. -/
def turns (acc : Accumulator ad) : Nat :=
  acc.committedMeta.turns + acc.fold.r.durable.countP Block.opensTurn

/-- The metric captures a later record is measured against, oldest first. -/
def captures (acc : Accumulator ad) : List MetricsTotals :=
  acc.emitted.totals :: acc.boundary.map (·.totals)

/-- The accumulator's maintained state is what its records sum to. -/
structure Mirrors (growing : Prop) (acc : Accumulator ad) (mm : MaterializedMeta) : Prop where
  sessionMeta : mm.sessionMeta = acc.committedMeta
  agentIds : mm.agentIds = acc.committedAgents
  inboxIds : mm.inboxIds = acc.committedInbox
  peerNames : mm.peerNames = acc.committedPeers
  userTimes : mm.userTimes = acc.fold.r.userTimes.take acc.committedMeta.turns
  turnDurations : mm.turnDurations = acc.fold.r.turnDurations.take acc.committedMeta.turns
  emitted : acc.emitted.Mirrored growing mm
  tasks : TaskFold.Logged mm.tasks acc.taskFold
  recorded : mm.tasks.recorded = []

/-- **The accumulator's invariant**, against the sum of its records. -/
structure Sound (growing : Prop) (T : Transcript) (acc : Accumulator ad) (mm : MaterializedMeta) :
    Prop where
  mirrors : acc.Mirrors growing mm
  timed : acc.fold.r.Timed acc.turns
  phases : ∀ b ∈ acc.fold.r.durable, b.phase = none
  captured : ∀ e ∈ acc.boundary, e.Captured T ad acc.fold.r acc.turns
  ordered : growing → acc.captures.Pairwise MetricsTotals.Grows
  current : growing → ∀ t ∈ acc.captures, t.Grows (ad.totals acc.metrics)

/-- A view that agrees with the sum will do. -/
theorem Sound.agrees (h : acc.Sound growing T mm) {mm' : MaterializedMeta}
    (ha : mm.Agrees growing mm') : acc.Sound growing T mm' where
  mirrors :=
    { sessionMeta := (ha.congr (·.sessionMeta) fun _ => rfl) ▸ h.mirrors.sessionMeta
      agentIds := (ha.congr (·.agentIds) fun _ => rfl) ▸ h.mirrors.agentIds
      inboxIds := (ha.congr (·.inboxIds) fun _ => rfl) ▸ h.mirrors.inboxIds
      peerNames := (ha.congr (·.peerNames) fun _ => rfl) ▸ h.mirrors.peerNames
      userTimes := (ha.congr (·.userTimes) fun _ => rfl) ▸ h.mirrors.userTimes
      turnDurations := (ha.congr (·.turnDurations) fun _ => rfl) ▸ h.mirrors.turnDurations
      emitted :=
        { tokens := fun hg => ha.counted hg ▸ h.mirrors.emitted.tokens hg
          extra := fun hg => ha.counted hg ▸ h.mirrors.emitted.extra hg
          span := fun hg => ha.counted hg ▸ h.mirrors.emitted.span hg
          cwd := (ha.congr (·.cwd) fun _ => rfl) ▸ h.mirrors.emitted.cwd
          sandboxOn := (ha.congr (·.sandboxOn) fun _ => rfl) ▸ h.mirrors.emitted.sandboxOn }
      tasks := (ha.congr (·.tasks) fun _ => rfl) ▸ h.mirrors.tasks
      recorded := (ha.congr (·.tasks) fun _ => rfl) ▸ h.mirrors.recorded }
  timed := h.timed
  phases := h.phases
  captured := h.captured
  ordered := h.ordered
  current := h.current

/-- The fields the invariant does not look at. -/
theorem Sound.update (h : acc.Sound growing T mm) (cwd : String) (pre : ad.Pre)
    (committed : List Block) (metaOut : List MetaRecord) (links : List SpawnLink)
    (sinceCheckpoint : Nat) :
    ({ acc with cwd, pre, committed, metaOut, links, sinceCheckpoint } : Accumulator ad).Sound
      growing T mm :=
  ⟨⟨h.mirrors.sessionMeta, h.mirrors.agentIds, h.mirrors.inboxIds, h.mirrors.peerNames,
      h.mirrors.userTimes, h.mirrors.turnDurations, h.mirrors.emitted, h.mirrors.tasks,
      h.mirrors.recorded⟩,
    h.timed, h.phases, h.captured, h.ordered, h.current⟩

/-- Counters that grow leave the captures behind. -/
theorem Sound.metrics (h : acc.Sound growing T mm) {m : ad.Acc}
    (hg : growing → (ad.totals acc.metrics).Grows (ad.totals m)) :
    ({ acc with metrics := m } : Accumulator ad).Sound growing T mm :=
  ⟨⟨h.mirrors.sessionMeta, h.mirrors.agentIds, h.mirrors.inboxIds, h.mirrors.peerNames,
      h.mirrors.userTimes, h.mirrors.turnDurations, h.mirrors.emitted, h.mirrors.tasks,
      h.mirrors.recorded⟩,
    h.timed, h.phases, h.captured, h.ordered, fun hgr t ht => (h.current hgr t ht).trans (hg hgr)⟩

/-- A checkpoint of a mirrored accumulator is the sum of its records. -/
theorem Mirrors.materialized (h : acc.Mirrors growing mm) (hrec : acc.taskFold.recorded = []) :
    acc.materialized.Agrees growing mm := by
  have htasks : acc.taskFold = mm.tasks := by
    have hlog := h.tasks
    rwa [TaskFold.Logged, hrec, TaskFold.value_of_recorded _ hrec] at hlog
  rw [Accumulator.materialized, htasks, ← h.sessionMeta, ← h.agentIds, ← h.inboxIds,
    ← h.peerNames, ← h.emitted.cwd, ← h.emitted.sandboxOn, h.sessionMeta, ← h.userTimes,
    ← h.turnDurations, ← h.sessionMeta]
  exact ⟨rfl, fun hg => by
    rw [← h.emitted.tokens hg, ← h.emitted.extra hg, ← h.emitted.span hg]⟩

/-! ## a line's messages -/

theorem finalize_rawLen (sh : Shaping) (r : Replayer) : (r.finalize sh).rawLen = r.rawLen := by
  unfold finalize
  split
  · rfl
  · have hle := r.cut_le
    simp only [rawLen, retire, stamp, List.length_drop]
    omega

theorem taskStep_logged (start : TaskFold) {f : TaskFold} (h : TaskFold.Logged start f)
    (m : Message) : TaskFold.Logged start (taskStep f m) := by
  cases m with
  | taskOp op => exact TaskFold.apply_logged start f op h
  | toolResult id text tur isError =>
    exact TaskFold.onToolResult_logged start _ id text
      (TaskFold.onToolOutcome_logged start f id isError h)
  | _ => exact h

theorem foldl_taskStep_logged (start : TaskFold) {f : TaskFold} (h : TaskFold.Logged start f)
    (ms : List Message) : TaskFold.Logged start (ms.foldl taskStep f) := by
  induction ms generalizing f with
  | nil => exact h
  | cons m ms ih => exact ih (taskStep_logged start h m)

/-- A commit that committed something leaves a turn opener in front. -/
def Fronted (r : Replayer) : Prop :=
  r.durable = [] ∨ ∃ b, r.out[0]? = some b ∧ b.opensTurn = true

theorem finalize_fronted (sh : Shaping) {r : Replayer} (h : r.durable = []) :
    Fronted (r.finalize sh) := by
  unfold finalize
  split
  · exact .inl h
  · next hcut =>
    obtain ⟨b, hb, ho⟩ := opensTurn_at_cut hcut
    exact .inr ⟨b, by simpa [retire, stamp] using hb, ho⟩

/-- **A line's messages leave the sum alone**, as long as the committed turns keep
their times and durations. -/
theorem foldMessages_sound (had : ad.Lawful) (h : acc.Sound growing T mm)
    (hd : acc.fold.r.durable = []) (offset : Nat) (cwd : String) {ms : List Message}
    (hms : LineShape ms)
    (hsame : ∀ r₁, acc.fold.r.Folded ms r₁ → SameTurns acc.committedMeta.turns acc.fold.r r₁)
    (hopen : ms.any Message.canOpenTurn = true → T.OpensAt ad acc.pre cwd offset ms) :
    (acc.foldMessages offset cwd ms).1.Sound growing T mm ∧
      Fronted (acc.foldMessages offset cwd ms).1.fold.r := by
  have hsh := had.shaping
  obtain ⟨r₁, floor, hfold, hwf, hok⟩ := apply_folded hsh acc.fold.wf hms
  have hr : (acc.foldMessages offset cwd ms).1.fold.r = r₁.finalize ad.shaping := by
    have happly := acc.fold.apply_eq ms
    rw [hok, Except.ok.injEq, Prod.mk.injEq] at happly
    exact happly.1.symm
  have hturns : acc.turns = acc.committedMeta.turns := by simp [turns, hd]
  have htimed : r₁.Timed acc.turns := hfold.timed acc.fold.wf h.timed
  have hd₁ : r₁.durable = [] := hfold.durable.trans hd
  have hturns' : (acc.foldMessages offset cwd ms).1.turns =
      acc.turns + (r₁.out.take r₁.cut).countP Block.opensTurn := by
    rw [turns, hr, finalize_countP hsh hwf, hd₁, hturns]
    simp [foldMessages]
  have hraw : acc.fold.r.rawLen ≤ r₁.rawLen := by
    obtain ⟨edited, added, hout, hkin⟩ := hfold.grow
    have := hkin.length_eq
    simp only [rawLen, hfold.base, hout, List.length_append]
    omega
  have hkeep : SameTurns acc.committedMeta.turns acc.fold.r (r₁.finalize ad.shaping) :=
    (hsame r₁ hfold).trans (htimed.same_finalize (hturns ▸ htimed.le))
  refine ⟨⟨⟨h.mirrors.sessionMeta, h.mirrors.agentIds, h.mirrors.inboxIds, h.mirrors.peerNames,
    ?_, ?_, h.mirrors.emitted, foldl_taskStep_logged _ h.mirrors.tasks ms, h.mirrors.recorded⟩,
    ?_, ?_, ?_, ?_, ?_⟩, ?_⟩
  · rw [hr, h.mirrors.userTimes]
    exact hkeep.times.symm
  · rw [hr, h.mirrors.turnDurations]
    exact hkeep.durations.symm
  · rw [hr, hturns']
    exact htimed.finalize
  · rw [hr]
    exact finalize_phase hsh (by simp [hd₁]) htimed.phases
  · -- the boundaries before this line, and the one it may have opened
    have hold : ∀ e ∈ acc.boundary,
        e.Captured T ad (r₁.finalize ad.shaping) (acc.foldMessages offset cwd ms).1.turns := by
      intro e he
      obtain ⟨hlt, pre, m, ms₀, hpre, hm, htot, hline, hset⟩ := h.captured e he
      refine ⟨by rw [finalize_rawLen]; omega, pre, m, ms₀, hpre, hm, htot, hline, ?_⟩
      rw [hturns']
      exact (hset.folded hlt hfold h.timed).finalize htimed
    intro e he
    rw [hr]
    simp only [foldMessages] at he
    split at he
    · next hcond =>
      obtain he | he := List.mem_append.mp he
      · exact hold e he
      · rw [List.mem_singleton] at he
        subst he
        rw [Bool.and_eq_true, decide_eq_true_eq] at hcond
        have hnew : acc.fold.r.rawLen < (acc.foldMessages offset cwd ms).1.fold.r.rawLen := hcond.2
        rw [hr] at hnew
        refine ⟨hnew, acc.pre, acc.metrics, ms, rfl, rfl, rfl, hopen hcond.1, ?_⟩
        rw [hturns']
        exact (hfold.settles h.timed hcond.1).finalize htimed
    · exact hold e he
  · -- the new capture is the current one
    intro hg
    simp only [captures, foldMessages]
    split
    · rw [List.map_append, ← List.cons_append, List.pairwise_append]
      exact ⟨h.ordered hg, List.pairwise_singleton _ _, fun t ht t' ht' => by
        rw [List.map_cons, List.map_nil, List.mem_singleton] at ht'
        exact ht' ▸ h.current hg t ht⟩
    · exact h.ordered hg
  · intro hg
    simp only [captures, foldMessages]
    split
    · intro t ht
      rw [List.map_append, ← List.cons_append, List.mem_append] at ht
      obtain ht | ht := ht
      · exact h.current hg t ht
      · rw [List.map_cons, List.map_nil, List.mem_singleton] at ht
        exact ht ▸ .refl _
    · exact h.current hg
  · rw [hr]
    exact finalize_fronted ad.shaping hd₁

/-! ## a drain -/

theorem take_append_drop_take {α : Type} (xs : List α) {m n : Nat} (h : m ≤ n) :
    xs.take m ++ (xs.take n).drop m = xs.take n := by
  conv_rhs => rw [← List.take_append_drop m (xs.take n)]
  rw [List.take_take, Nat.min_eq_left h]

/-- The record of a drain, before its resume payload, carries none. -/
theorem settle_resume (acc : Accumulator ad) :
    acc.settle.2.resume = none ∧ acc.settle.2.checkpoint = none := by
  obtain ⟨turns, tools, agents, heq⟩ :=
    foldl_countInto_eq (applySpawnLinks acc.links acc.fold.r.durable) {}
  simp only [settle, drainRecord, Fold.drainCommitted, heq, and_self]

/-- A drain takes the turns that are about to be committed in. -/
theorem settle_turns (acc : Accumulator ad) :
    acc.settle.1.committedMeta.turns = acc.turns := by
  simp only [settle, absorb, Fold.drainCommitted, SessionMeta.foldl_push_turns,
    applySpawnLinks_countP, turns]

/-- **A drain's record moves the sum along**: taking the drained turns in is
summing the record. -/
theorem settle_sound (h : acc.Sound growing T mm) :
    acc.settle.1.Sound growing T (mm.pushDelta acc.settle.2) ∧
      acc.settle.1.taskFold.recorded = [] ∧ acc.settle.1.fold.r.durable = [] := by
  have hphases := applySpawnLinks_phase acc.links h.phases
  have hcount := applySpawnLinks_countP acc.links acc.fold.r.durable
  have hheader := foldl_countInto_header hphases {} mm.sessionMeta mm.agentIds
  obtain ⟨turns, tools, agents, heq⟩ :=
    foldl_countInto_eq (applySpawnLinks acc.links acc.fold.r.durable) {}
  have hturns := acc.settle_turns
  have hturns' : acc.settle.1.turns = acc.turns := by
    rw [Accumulator.turns, hturns]
    simp [settle, absorb, Fold.drainCommitted, drainCommitted]
  have hle : acc.committedMeta.turns ≤ acc.turns := Nat.le_add_right _ _
  have htimes : (mm.pushDelta acc.settle.2).userTimes = acc.fold.r.userTimes.take acc.turns := by
    rw [← take_append_drop_take acc.fold.r.userTimes hle, ← h.mirrors.userTimes, ← hturns]
    rfl
  have hdur : (mm.pushDelta acc.settle.2).turnDurations =
      acc.fold.r.turnDurations.take acc.turns := by
    have hin : acc.turns ≤ acc.fold.r.turnDurations.length := by
      rw [h.timed.durations]
      exact h.timed.le
    have hrec : acc.settle.2.turnDurations =
        (acc.fold.r.turnDurations.take acc.turns).drop acc.committedMeta.turns := by
      rw [← hturns] at hin ⊢
      exact if_pos hin
    have hlen : (acc.fold.r.turnDurations.take acc.turns).length =
        (mm.pushDelta acc.settle.2).userTimes.length := by
      rw [htimes, List.length_take, List.length_take, h.timed.durations]
    have hsum : mm.turnDurations ++ acc.settle.2.turnDurations =
        acc.fold.r.turnDurations.take acc.turns := by
      rw [hrec, h.mirrors.turnDurations, take_append_drop_take _ hle]
    rw [← resize_of_length hlen none, ← hsum]
    rfl
  have hplain : acc.settle.2.tokens = ∅ ∧ acc.settle.2.extra = ∅ ∧ acc.settle.2.span = none ∧
      acc.settle.2.cwd = none ∧ acc.settle.2.sandboxOn = none := by
    simp only [settle, drainRecord, Fold.drainCommitted, heq, and_self]
  obtain ⟨htok, hext, hspan, hcwd, hsand⟩ := hplain
  have hstart : MetaRecord.header {} mm.sessionMeta mm.agentIds = (mm.sessionMeta, mm.agentIds) := by
    simp [MetaRecord.header]
  rw [hstart] at hheader
  refine ⟨⟨⟨?_, ?_, ?_, ?_, by rw [hturns]; exact htimes, by rw [hturns]; exact hdur,
    ⟨?_, ?_, ?_, ?_, ?_⟩, ?_, ?_⟩, ?_, ?_, ?_, ?_, ?_⟩, rfl, rfl⟩
  · exact (congrArg Prod.fst hheader).trans (by rw [h.mirrors.sessionMeta]; rfl)
  · exact (congrArg Prod.snd hheader).trans (by rw [h.mirrors.agentIds]; rfl)
  · simp only [MaterializedMeta.pushDelta, h.mirrors.inboxIds]
    rfl
  · simp only [MaterializedMeta.pushDelta, h.mirrors.peerNames]
    rfl
  · simp only [MaterializedMeta.pushDelta, htok]
    exact h.mirrors.emitted.tokens
  · simp only [MaterializedMeta.pushDelta, hext]
    exact h.mirrors.emitted.extra
  · simp only [MaterializedMeta.pushDelta, hspan]
    exact h.mirrors.emitted.span
  · simp only [MaterializedMeta.pushDelta, hcwd]
    exact h.mirrors.emitted.cwd
  · simp only [MaterializedMeta.pushDelta, hsand]
    exact h.mirrors.emitted.sandboxOn
  · exact h.mirrors.tasks
  · simp only [MaterializedMeta.pushDelta]
    exact (TaskFold.replay_recorded _ _).trans h.mirrors.recorded
  · rw [hturns']
    exact ⟨h.timed.times, h.timed.durations, h.timed.phases⟩
  · simp [settle, absorb, Fold.drainCommitted, drainCommitted]
  · intro e he
    rw [hturns']
    exact h.captured e (List.mem_of_mem_filter he)
  · exact fun hg => (h.ordered hg).sublist (List.filter_sublist.map _ |>.cons_cons _)
  · intro hg t ht
    exact h.current hg t ((List.filter_sublist.map _ |>.cons_cons _).subset ht)

/-- **A resume point continues the sum**, and the accumulator measures its next
record from it. -/
theorem authorResume_sound {rec_ : MetaRecord} (hem : acc.emitted.Mirrored growing mm)
    (h : acc.Sound growing T (mm.pushDelta rec_)) (hd : acc.fold.r.durable = [])
    (hfront : ∃ b, acc.fold.r.out[0]? = some b ∧ b.opensTurn = true)
    (hrec : rec_.resume = none) :
    (acc.authorResume rec_).1.Sound growing T (mm.pushDelta (acc.authorResume rec_).2) ∧
      ∀ res, (acc.authorResume rec_).2.resume = some res →
        res.Resumes growing T ad (mm.pushDelta (acc.authorResume rec_).2) := by
  unfold authorResume
  cases hhead : acc.boundary.head? with
  | none => exact ⟨h, fun res hres => by simp [hrec] at hres⟩
  | some e =>
    obtain ⟨rest, hbound⟩ : ∃ rest, acc.boundary = e :: rest := List.head?_eq_some_iff.mp hhead
    by_cases hlog : e.logical = acc.fold.r.base
    · simp only [hlog, if_true]
      have hmem : e ∈ acc.boundary := by simp [hbound]
      have hordered : growing →
          (∀ t ∈ e.totals :: rest.map (·.totals), acc.emitted.totals.Grows t) ∧
            (e.totals :: rest.map (·.totals)).Pairwise MetricsTotals.Grows := by
        intro hg
        have hordered := h.ordered hg
        rwa [captures, hbound, List.map_cons, List.pairwise_cons] at hordered
      have hmir := hem.resumeRecord (fun hg => (hordered hg).1 e.totals List.mem_cons_self) rec_
      have htail : growing → ∀ t ∈ acc.boundary.map (·.totals), e.totals.Grows t := by
        intro hg t ht
        rw [hbound, List.map_cons, List.mem_cons] at ht
        obtain rfl | ht := ht
        · exact .refl _
        · exact (List.pairwise_cons.mp (hordered hg).2).1 t ht
      refine ⟨⟨⟨h.mirrors.sessionMeta, h.mirrors.agentIds, h.mirrors.inboxIds,
        h.mirrors.peerNames, h.mirrors.userTimes, h.mirrors.turnDurations, hmir,
        h.mirrors.tasks, h.mirrors.recorded⟩, h.timed, h.phases, h.captured, ?_, ?_⟩, ?_⟩
      · intro hg
        rw [captures, List.pairwise_cons]
        exact ⟨htail hg, by rw [hbound, List.map_cons]; exact (hordered hg).2⟩
      · intro hg t ht
        obtain rfl | ht := List.mem_cons.mp ht
        · exact h.current hg _ (List.mem_cons_of_mem _ (List.mem_map_of_mem hmem))
        · exact h.current hg t (List.mem_cons_of_mem _ ht)
      · intro res hres
        obtain rfl : _ = res := Option.some.inj hres
        obtain ⟨-, pre, m, ms, hpre, hm, htot, hline, hset⟩ := h.captured e hmem
        obtain ⟨b, hb, ho⟩ := hfront
        have hturns : acc.turns = acc.committedMeta.turns := by simp [turns, hd]
        obtain ⟨hle, hidem⟩ := hset acc.turns b (by omega) (by simpa [hlog] using hb) ho
          (by simp [hlog])
        have htimes : (mm.pushDelta (acc.resumeRecord e rec_)).userTimes =
            acc.fold.r.userTimes.take acc.turns := hturns ▸ h.mirrors.userTimes
        have hdur : (mm.pushDelta (acc.resumeRecord e rec_)).turnDurations =
            acc.fold.r.turnDurations.take acc.turns := hturns ▸ h.mirrors.turnDurations
        have hlen : (acc.fold.r.userTimes.take acc.turns).length = acc.turns := by
          rw [List.length_take]
          omega
        have hmeta : (mm.pushDelta (acc.resumeRecord e rec_)).sessionMeta = acc.committedMeta :=
          h.mirrors.sessionMeta
        refine ⟨fun hg => ⟨m, hm, ?_⟩, ⟨pre, ms, hpre, ?_, ?_⟩, ?_, ?_, h.mirrors.recorded⟩
        · rw [hmir.tokens hg, hmir.extra hg, hmir.span hg, htot]
          rfl
        · rw [hmir.cwd]
          exact hline
        · rw [htimes, hdur]
          exact hidem
        · rw [htimes, hlen, hmeta, hturns]
        · rw [htimes, hdur, List.length_take, List.length_take, h.timed.durations]
    · simp only [hlog, if_false]
      exact ⟨h, fun res hres => by simp [hrec] at hres⟩

/-- **Every drain authors a faithful record.** -/
theorem drain_sound (h : acc.Sound growing T mm) (hfront : Fronted acc.fold.r) :
    ∃ records, acc.drain.metaOut = acc.metaOut ++ records ∧
      acc.drain.Sound growing T (mm.foldDeltas records) ∧ acc.drain.fold.r.durable = [] ∧
      (records = [] ∨ ∃ rec_, records = [rec_] ∧ rec_.Faithful growing T ad mm) := by
  cases hd : acc.fold.r.durable.isEmpty with
  | true =>
    have hidle : acc.drain = acc := by simp [drain, hd]
    rw [hidle]
    exact ⟨[], by simp, h, List.isEmpty_iff.mp hd, .inl rfl⟩
  | false =>
    obtain ⟨hs, hlog, hdur⟩ := settle_sound h
    have hf : ∃ b, acc.settle.1.fold.r.out[0]? = some b ∧ b.opensTurn = true := by
      obtain hnil | hf := hfront
      · rw [hnil] at hd
        contradiction
      · exact hf
    obtain ⟨hres, hcheck⟩ := acc.settle_resume
    have hem : acc.settle.1.emitted.Mirrored growing mm := h.mirrors.emitted
    obtain ⟨hsound, hresume⟩ := authorResume_sound hem hs hdur hf hres
    obtain ⟨e, he⟩ := acc.settle.1.authorResume_fst acc.settle.2
    have hrec : (acc.settle.1.authorResume acc.settle.2).2.checkpoint = none := by
      unfold authorResume
      split
      · exact hcheck
      · split <;> exact hcheck
    have hmat : (acc.settle.1.authorResume acc.settle.2).1.materialized.Agrees growing
        (mm.pushDelta (acc.settle.1.authorResume acc.settle.2).2) := by
      refine hsound.mirrors.materialized ?_
      rw [he]
      exact hlog
    obtain ⟨n, hn⟩ := (acc.settle.1.authorResume acc.settle.2).1.checkpointMaybe_fst
      (acc.settle.1.authorResume acc.settle.2).2
    -- a checkpoint is no delta
    have hpush : ∃ checkpoint, acc.authored.2 =
        { (acc.settle.1.authorResume acc.settle.2).2 with checkpoint } ∧
        ∀ c, checkpoint = some c →
          c.Agrees growing (mm.pushDelta (acc.settle.1.authorResume acc.settle.2).2) := by
      unfold authored
      simp only
      unfold checkpointMaybe
      split
      · exact ⟨none, by rw [← hrec], by simp⟩
      · split
        · exact ⟨_, rfl, fun c hc => Option.some.inj hc ▸ hmat⟩
        · exact ⟨none, by rw [← hrec], by simp⟩
    obtain ⟨checkpoint, hauth, hc⟩ := hpush
    have hdelta : mm.pushDelta acc.authored.2 =
        mm.pushDelta (acc.settle.1.authorResume acc.settle.2).2 := by rw [hauth]; rfl
    have hdrain : acc.drain =
        { acc.authored.1 with metaOut := acc.authored.1.metaOut ++ [acc.authored.2] } := by
      rw [drain, if_neg (by simp [hd])]
    have hacc : acc.authored.1 =
        { (acc.settle.1.authorResume acc.settle.2).1 with sinceCheckpoint := n } := hn
    refine ⟨[acc.authored.2], ?_, ?_, ?_, .inr ⟨_, rfl, ?_, ?_⟩⟩
    · rw [hdrain, hacc, he]
      rfl
    · rw [hdrain, hacc, MaterializedMeta.foldDeltas, List.foldl_cons, List.foldl_nil, hdelta]
      exact hsound.update _ _ _ _ _ n
    · rw [hdrain, hacc, he]
      exact hdur
    · intro c hcp
      rw [hdelta]
      rw [hauth] at hcp
      exact hc c hcp
    · intro res hcp
      rw [hdelta]
      rw [hauth] at hcp
      exact hresume res hcp

end Accumulator

end ClaudeReplay
