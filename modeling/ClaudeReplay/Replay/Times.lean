import ClaudeReplay.Replay.Batch

/-!
# ClaudeReplay.Replay.Times

The user times run parallel to the turns. The fold stamps lazily: a line's openers get
their time at the next line's head, or when they are committed, over a window whose base
moves with the commits. `authored` says what the times should be, without any of that: it
reads off each message the openers it appends and pairs them with the time of the line
the message is of.

A `Life` is a session as its blocks and its fold: batches, drains, and resumes from a
prefix of the committed blocks with the times recorded for it. Beside them it carries
what the lines authored. `Life.Timely` is the invariant, and the result is
`Life.times_parallel`.
-/

namespace ClaudeReplay

open Lib

/-- The time of the line in force from a message on. -/
def Message.lineTime (ts : Option EpochSeconds) : Message → Option EpochSeconds
  | .lineStart t => t
  | _ => ts

/-- The turn openers among the blocks. -/
def openers (bs : List Block) : List Block := bs.filterMap Block.opener?

@[simp] theorem openers_append (xs ys : List Block) :
    openers (xs ++ ys) = openers xs ++ openers ys := List.filterMap_append

theorem openers_filter (bs : List Block) : openers (bs.filter Block.opensTurn) = openers bs := by
  rw [openers, openers, List.filterMap_filter]
  refine List.filterMap_congr fun b _ => ?_
  have hsome := b.opener?_isSome
  split
  · rfl
  · next hclosed =>
    rw [Bool.not_eq_true] at hclosed
    rw [hclosed] at hsome
    exact (Option.not_isSome_iff_eq_none.mp (by simp [hsome])).symm

/-- Two lists with the same turn openers, as they were opened. -/
theorem openers_of_filter {xs ys : List Block}
    (h : xs.filter Block.opensTurn = ys.filter Block.opensTurn) : openers xs = openers ys := by
  rw [← openers_filter, h, openers_filter]

theorem length_openers (bs : List Block) : (openers bs).length = bs.countP Block.opensTurn := by
  rw [openers, List.length_filterMap_eq_countP]
  exact List.countP_congr fun b _ => by rw [b.opener?_isSome]

theorem kinAll_openers {xs ys : List Block} (h : KinAll xs ys) : openers ys = openers xs := by
  induction h with
  | nil => rfl
  | cons hb _ ih =>
    simp only [openers, List.filterMap_cons, hb.opener] at ih ⊢
    rw [ih]

namespace Replayer

variable {sh : Shaping} {r r' : Replayer}

/-- The turn openers the messages append, each with the time of the line it is of; `ts` is
the time of the line in force before them. -/
def authored (sh : Shaping) (r : Replayer) (ts : Option EpochSeconds) :
    List Message → List (Block × Option EpochSeconds)
  | [] => []
  | m :: ms =>
    match r.step sh m with
    | .ok (r', _) =>
      (openers (r'.out.drop r.out.length)).map (·, m.lineTime ts) ++
        authored sh r' (m.lineTime ts) ms
    | .error _ => []

/-! ## a message -/

/-- What a message does to the openers and to the times. -/
structure Stamps (m : Message) (r r' : Replayer) : Prop where
  opened : openers r'.out = openers r.out ++ openers (r'.out.drop r.out.length)
  times : r'.stampedTimes = r.stampedTimes ++
    (openers (r'.out.drop r.out.length)).map fun _ => m.lineTime r.pendingTs
  clock : r'.pendingTs = m.lineTime r.pendingTs
  durable : r'.durable = r.durable

theorem lineTime_of_not {m : Message} (hm : m.isLineStart = false) (ts : Option EpochSeconds) :
    m.lineTime ts = ts := by
  cases m <;> first | rfl | simp [Message.isLineStart] at hm

theorem Effect.stamps {m : Message} (h : Effect m r r') (hm : m.isLineStart = false)
    (hwf : Wf sh r.window r.indices) : Stamps m r r' := by
  have htimes := h.stampedTimes hwf
  obtain ⟨edited, added, hout, hkin, -⟩ := h.grow
  have hdrop : r'.out.drop r.out.length = added := by
    rw [hout, hkin.length_eq, List.drop_left]
  have hcount : r'.out.countP Block.opensTurn - r.out.countP Block.opensTurn =
      (openers added).length := by
    rw [hout, List.countP_append, kinAll_countP hkin, Nat.add_sub_cancel_left, length_openers]
  constructor
  · rw [hdrop, hout, openers_append, kinAll_openers hkin]
  · rw [htimes, hcount, hdrop, lineTime_of_not hm, List.map_const']
  · rw [h.pendingTs, lineTime_of_not hm]
  · exact h.durable

/-- **What a message does to the times.** -/
theorem step_stamps (had : sh.Lawful) (h : Wf sh r.window r.indices) {m : Message}
    {p : Option Nat} (hok : r.step sh m = .ok (r', p)) : Stamps m r r' := by
  cases hm : m.isLineStart with
  | false => exact (step_effect had h hm hok).stamps hm h
  | true =>
    cases m with
    | lineStart ts =>
      rw [step, lineStart_ok h, Except.ok.injEq, Prod.mk.injEq] at hok
      obtain ⟨rfl, -⟩ := hok
      have hdrop : (r.headed ts).out.drop r.out.length = [] := List.drop_length
      constructor
      · rw [hdrop]
        exact (List.append_nil _).symm
      · rw [hdrop, stampedTimes_headed]
        exact (List.append_nil _).symm
      · rfl
      · rfl
    | _ => simp [Message.isLineStart] at hm

theorem step_timed (had : sh.Lawful) (h : Wf sh r.window r.indices) {m : Message} {n : Nat}
    {p : Option Nat} (hok : r.step sh m = .ok (r', p)) (ht : Timed r n) : Timed r' n := by
  cases hm : m.isLineStart with
  | false => exact ht.effects h (Effects.cons (step_effect had h hm hok) (effects_nil r'))
  | true =>
    cases m with
    | lineStart ts =>
      rw [step, lineStart_ok h, Except.ok.injEq, Prod.mk.injEq] at hok
      obtain ⟨rfl, -⟩ := hok
      exact ht.headed ts
    | _ => simp [Message.isLineStart] at hm

/-! ## a batch -/

/-- What the messages of a batch do to the openers and to the times. -/
structure StampsAll (sh : Shaping) (ms : List Message) (r r' : Replayer) : Prop where
  opened : openers r'.out = openers r.out ++ (authored sh r r.pendingTs ms).map (·.1)
  times : r'.stampedTimes = r.stampedTimes ++ (authored sh r r.pendingTs ms).map (·.2)
  clock : r'.pendingTs = ms.foldl Message.lineTime r.pendingTs
  durable : r'.durable = r.durable
  timed : ∀ n, Timed r n → Timed r' n

theorem steps_stamps (had : sh.Lawful) (h : Wf sh r.window r.indices) {ms : List Message}
    (hok : r.steps sh ms = .ok r') : StampsAll sh ms r r' := by
  induction ms generalizing r with
  | nil =>
    obtain rfl : r = r' := Except.ok.inj hok
    exact ⟨by simp [authored], by simp [authored], rfl, rfl, fun _ => id⟩
  | cons m ms ih =>
    obtain ⟨r₁, patched, hstep, hkept, -⟩ := step_safe h m
    have hrest : r₁.steps sh ms = .ok r' := by
      simp only [steps, List.foldlM_cons, hstep, Except.map, bind_ok] at hok
      exact hok
    have hm := step_stamps had h hstep
    have hms := ih hkept.wf hrest
    have hauthored : authored sh r r.pendingTs (m :: ms) =
        (openers (r₁.out.drop r.out.length)).map (·, m.lineTime r.pendingTs) ++
          authored sh r₁ r₁.pendingTs ms := by
      rw [authored, hstep, hm.clock]
    constructor
    · rw [hms.opened, hm.opened, hauthored]
      simp [Function.comp_def]
    · rw [hms.times, hm.times, hauthored]
      simp [Function.comp_def]
    · rw [hms.clock, hm.clock, List.foldl_cons]
    · rw [hms.durable, hm.durable]
    · exact fun n ht => hms.timed n (step_timed had h hstep ht)

/-- A commit moves openers from the window to the committed blocks, and loses none. -/
theorem openers_finalize (had : sh.Lawful) (h : Wf sh r.window r.indices) :
    openers ((r.finalize sh).durable ++ (r.finalize sh).out) = openers (r.durable ++ r.out) := by
  have hdurable := finalize_filter had h (p := Block.opensTurn)
    (fun b hb => Block.isLandmark_of_opensTurn hb) (fun _ => rfl)
  have hout : (r.finalize sh).out = r.out.drop r.cut := by
    unfold finalize
    split
    · next hzero => rw [hzero, List.drop_zero]
    · rfl
  refine openers_of_filter ?_
  rw [List.filter_append, List.filter_append, hdurable, hout, List.append_assoc,
    ← List.filter_append, List.take_append_drop]

theorem openers_openBlocks (had : sh.Lawful) (h : Wf sh r.window r.indices) :
    openers (r.openBlocks sh) = openers r.out :=
  openers_of_filter <|
    openBlocks_filter had h (fun _ hb => Block.isLandmark_of_opensTurn hb) fun _ => rfl

theorem finalize_pendingTs (sh : Shaping) (r : Replayer) :
    (r.finalize sh).pendingTs = r.pendingTs := by
  unfold finalize
  split
  · rfl
  · rfl

end Replayer

/-! ## lives -/

/-- A session: its fold and the blocks it has committed. `log` is what its lines authored,
each opener with the time of its line, and `ts` the time of the line in force. -/
structure Life where
  r : Replayer := .new
  committed : List Block := []
  log : List (Block × Option EpochSeconds) := []
  ts : Option EpochSeconds := none

namespace Life

open Replayer

variable {sh : Shaping}

/-- What can happen to a session. A resume keeps a prefix of the committed blocks; its meta
holds the time of each turn of them. -/
inductive Step (sh : Shaping) : Life → Life → Prop
  /-- a batch of messages, and the commit of what it completed -/
  | batch {l : Life} {ms : List Message} {r : Replayer} {floor : Option Nat}
      (h : l.r.apply sh ms = .ok (r, floor)) :
      Step sh l {
        r
        committed := l.committed
        log := l.log ++ authored sh l.r l.ts ms
        ts := ms.foldl Message.lineTime l.ts }
  /-- the committed blocks are drained -/
  | drain (l : Life) :
      Step sh l { l with
        r := l.r.drainCommitted.2
        committed := l.committed ++ l.r.drainCommitted.1 }
  /-- another process resumes from a prefix of the committed blocks -/
  | resume (l : Life) (keep : Nat) (mm : MaterializedMeta) (prevTs pendingTs : Option EpochSeconds)
      (h : mm.userTimes = l.r.userTimes.take ((l.committed.take keep).countP Block.opensTurn)) :
      Step sh l {
        r := Replayer.new.reseed mm prevTs pendingTs
        committed := l.committed.take keep
        log := l.log.take ((l.committed.take keep).countP Block.opensTurn)
        ts := pendingTs }

/-- A life of a session. -/
abbrev Lived (sh : Shaping) (l : Life) : Prop := Relation.ReflTransGen (Step sh) {} l

/-- **The invariant of a life**: the openers of its blocks are the authored ones, and their
times are the times. -/
structure Timely (sh : Shaping) (l : Life) : Prop where
  wf : Wf sh l.r.window l.r.indices
  clock : l.r.pendingTs = l.ts
  opened : openers (l.committed ++ (l.r.durable ++ l.r.out)) = l.log.map (·.1)
  times : l.r.stampedTimes = l.log.map (·.2)
  timed : Timed l.r ((l.committed ++ l.r.durable).countP Block.opensTurn)

theorem timely_start (sh : Shaping) : Timely sh {} where
  wf := wf_empty sh
  clock := rfl
  opened := rfl
  times := rfl
  timed := ⟨rfl, rfl, by simp [Replayer.new]⟩

theorem Timely.batch (had : sh.Lawful) {l : Life} (h : Timely sh l) {ms : List Message}
    {r : Replayer} {floor : Option Nat} (hok : l.r.apply sh ms = .ok (r, floor)) :
    Timely sh {
      r
      committed := l.committed
      log := l.log ++ authored sh l.r l.ts ms
      ts := ms.foldl Message.lineTime l.ts } := by
  obtain ⟨r₁, floor', hsteps, hwf, happly, hwf', -⟩ := apply_ok h.wf ms
  obtain ⟨rfl, -⟩ : r₁.finalize sh = r ∧ floor' = floor := by
    rw [happly, Except.ok.injEq, Prod.mk.injEq] at hok
    exact hok
  have hms := steps_stamps had h.wf hsteps
  have hbefore : Timed r₁ ((l.committed ++ l.r.durable).countP Block.opensTurn) :=
    hms.timed _ h.timed
  constructor
  case wf => exact hwf'
  case clock => rw [finalize_pendingTs, hms.clock, h.clock]
  case opened =>
    rw [openers_append, openers_finalize had hwf, hms.durable, openers_append, hms.opened,
      List.map_append, ← h.opened, h.clock]
    simp only [openers_append, List.append_assoc]
  case times => rw [stampedTimes_finalize, hms.times, h.times, h.clock, List.map_append]
  case timed =>
    have hcommit : Timed (r₁.finalize sh) _ := hbefore.finalize
    rwa [← hms.durable, List.countP_append, Nat.add_assoc, ← finalize_countP had hwf,
      ← List.countP_append] at hcommit

theorem Timely.drain {l : Life} (h : Timely sh l) :
    Timely sh { l with
      r := l.r.drainCommitted.2
      committed := l.committed ++ l.r.drainCommitted.1 } := by
  constructor
  case wf => exact h.wf
  case clock => exact h.clock
  case opened =>
    rw [← h.opened]
    simp only [drainCommitted, List.nil_append, List.append_assoc]
  case times => exact h.times
  case timed =>
    have htimed := h.timed
    simp only [drainCommitted, List.append_nil]
    exact ⟨htimed.times, htimed.durations, htimed.phases⟩

theorem Timely.resume {l : Life} (h : Timely sh l) (keep : Nat) {mm : MaterializedMeta}
    (prevTs pendingTs : Option EpochSeconds)
    (hmm : mm.userTimes = l.r.userTimes.take ((l.committed.take keep).countP Block.opensTurn)) :
    Timely sh {
      r := Replayer.new.reseed mm prevTs pendingTs
      committed := l.committed.take keep
      log := l.log.take ((l.committed.take keep).countP Block.opensTurn)
      ts := pendingTs } := by
  have hle : (l.committed.take keep).countP Block.opensTurn ≤ l.r.userTimes.length := by
    have hcommitted := (List.take_sublist keep l.committed).countP_le (p := Block.opensTurn)
    have hall := h.timed.le
    rw [List.countP_append] at hall
    omega
  constructor
  case wf => exact wf_start sh (.resumed mm prevTs pendingTs)
  case clock => rfl
  case opened =>
    have hsplit : openers (l.committed ++ (l.r.durable ++ l.r.out)) =
        openers (l.committed.take keep) ++
          openers (l.committed.drop keep ++ (l.r.durable ++ l.r.out)) := by
      rw [← openers_append, ← List.append_assoc (l.committed.take keep), List.take_append_drop]
    rw [List.map_take, ← h.opened, hsplit, List.take_left' (length_openers _)]
    simp [Replayer.reseed, openers]
  case times =>
    have hnew : (Replayer.new.reseed mm prevTs pendingTs).stampedTimes = mm.userTimes := by
      simp [stampedTimes, Replayer.reseed]
    rw [hnew, hmm, List.map_take, ← h.times, stampedTimes, List.take_append_of_le_length hle]
  case timed =>
    refine ⟨?_, by simp [Replayer.reseed, length_resize], by simp [Replayer.reseed]⟩
    simp only [Replayer.reseed, Replayer.new, hmm, List.length_take, Nat.min_eq_left hle]
    simp

/-- **Every life keeps the invariant.** -/
theorem Lived.timely (had : sh.Lawful) {l : Life} (h : Lived sh l) : Timely sh l := by
  induction h with
  | refl => exact timely_start sh
  | tail _ hs ih =>
    cases hs with
    | batch hok => exact ih.batch had hok
    | drain => exact ih.drain
    | resume keep mm prevTs pendingTs hmm => exact ih.resume keep prevTs pendingTs hmm

/-- **User times stay parallel to the turns.** In every life of a session, over any batches
and resumes, both readers of the fold succeed; the times they give are those of the lines
that authored the openers, and the openers of the assembled blocks are those, in order. The
fold holds as many durations as times. -/
theorem times_parallel (had : sh.Lawful) {l : Life} (h : Lived sh l) :
    (∃ open_, l.r.openSnapshot sh = .ok (open_, l.log.map (·.2)) ∧
      openers (l.committed ++ l.r.durable ++ open_) = l.log.map (·.1)) ∧
    (∃ blocks, l.r.intoBlocks sh = .ok (blocks, l.log.map (·.2)) ∧
      openers (l.committed ++ blocks) = l.log.map (·.1)) ∧
    l.r.turnDurations.length = l.r.userTimes.length := by
  have hlife := h.timely had
  have hopen := openers_openBlocks had hlife.wf
  constructor
  · refine ⟨l.r.openBlocks sh, ?_, ?_⟩
    · rw [openSnapshot_ok hlife.wf, hlife.times]
    · rw [← hlife.opened]
      simp only [openers_append, hopen, List.append_assoc]
  constructor
  · refine ⟨l.r.durable ++ l.r.openBlocks sh, ?_, ?_⟩
    · rw [intoBlocks_ok hlife.wf, hlife.times]
    · rw [← hlife.opened]
      simp only [openers_append, hopen]
  · exact hlife.timed.durations

/-- One line with two prompts, of which the first is committed in the line's own batch;
then a resume behind it, and a prompt more. -/
theorem times_parallel_twoPrompts :
    ∃ l, Lived .scripted l ∧ l.log = [(.userText "a", some 5), (.userText "c", some 9)] ∧
      ∃ open_, l.r.openSnapshot .scripted = .ok (open_, [some 5, some 9]) ∧
        openers (l.committed ++ l.r.durable ++ open_) = [.userText "a", .userText "c"] := by
  let first : List Message := [.lineStart (some 5), .userText "a", .userText "b"]
  let second : List Message := [.lineStart (some 9), .userText "c"]
  let mm : MaterializedMeta := { userTimes := [some 5] }
  let resumed : Replayer := Replayer.new.reseed mm none (some 5)
  have hfirst : ((Replayer.new.apply .scripted first).toOption.map fun arm =>
      (arm.1.userTimes, arm.1.durable)) = some ([some 5, some 5], [.userText "a"]) := by
    decide +kernel
  have hlog₁ : authored .scripted Replayer.new none first =
      [(.userText "a", some 5), (.userText "b", some 5)] := by decide +kernel
  have hlog₂ : authored .scripted resumed (some 5) second = [(.userText "c", some 9)] := by
    decide +kernel
  obtain ⟨r₁, floor₁, -, -, happly₁, -⟩ := apply_ok (wf_start .scripted .cold) first
  obtain ⟨r₂, floor₂, -, -, happly₂, -⟩ :=
    apply_ok (wf_start .scripted (.resumed mm none (some 5))) second
  have hmoved : (r₁.finalize .scripted).userTimes = [some 5, some 5] ∧
      (r₁.finalize .scripted).durable = [.userText "a"] := by
    rw [show Replayer.new = Start.cold.replayer from rfl, happly₁] at hfirst
    simpa only [Except.toOption, Option.map_some, Option.some.injEq, Prod.mk.injEq] using hfirst
  generalize r₁.finalize .scripted = r₁ at happly₁ hmoved
  generalize r₂.finalize .scripted = r₂ at happly₂
  let l₁ : Life := ⟨r₁, [], [(.userText "a", some 5), (.userText "b", some 5)], some 5⟩
  let l₂ : Life := ⟨r₁.drainCommitted.2, [.userText "a"], l₁.log, some 5⟩
  let l₃ : Life := ⟨resumed, [.userText "a"], [(.userText "a", some 5)], some 5⟩
  let l₄ : Life := ⟨r₂, [.userText "a"], [(.userText "a", some 5), (.userText "c", some 9)], some 9⟩
  have h₁ : Step .scripted {} l₁ := by
    have hstep := Step.batch (l := {}) happly₁
    rwa [hlog₁] at hstep
  have h₂ : Step .scripted l₁ l₂ := by
    have hstep := @Step.drain .scripted l₁
    rwa [show l₁.committed ++ l₁.r.drainCommitted.1 = [.userText "a"] from hmoved.2] at hstep
  have h₃ : Step .scripted l₂ l₃ := by
    have hkept : mm.userTimes = l₂.r.userTimes.take
        ((l₂.committed.take 1).countP Block.opensTurn) := by
      show [some 5] = r₁.userTimes.take 1
      rw [hmoved.1]
      rfl
    exact Step.resume l₂ 1 mm none (some 5) hkept
  have h₄ : Step .scripted l₃ l₄ := by
    have hstep := Step.batch (l := l₃) happly₂
    rwa [hlog₂] at hstep
  have hlife : Lived .scripted l₄ := (((Relation.ReflTransGen.refl.tail h₁).tail h₂).tail h₃).tail h₄
  exact ⟨l₄, hlife, rfl, (times_parallel Shaping.scripted_lawful hlife).1⟩

end Life

end ClaudeReplay
