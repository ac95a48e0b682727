import ClaudeReplay.Adapter
import ClaudeReplay.Replay.Past

/-!
# ClaudeReplay.Replay.Batch

Where a batch ends decides what the fold commits, and a block once committed is
durable: no later message joins a result to it, nests a body into it or takes a
marker out of it. So the batches matter exactly through the messages that refer
back over a commit.

`RefersBack` says that some message does. The result is `replayBatches_eq`: when
none does, the blocks the batches return, the open snapshot behind them and the
times are those of the one-shot `replay`, whatever the cut. Both are compared to
a third fold, which never commits: `Behind` relates it to the batched one.
-/

namespace ClaudeReplay

open Lib

namespace Replayer

/-! ## the batched fold -/

/-- One batch: its messages, its commit, and the blocks it returned. -/
def batch (sh : Shaping) (acc : Replayer × List Block) (messages : List Message) :
    Except Fault (Replayer × List Block) := do
  let (r, _) ← acc.1.apply sh messages
  let (fresh, r) := r.drainCommitted
  return (r, acc.2 ++ fresh)

/-- One batch after another. -/
def batches (sh : Shaping) (acc : Replayer × List Block) (bs : List (List Message)) :
    Except Fault (Replayer × List Block) := bs.foldlM (batch sh) acc

/-- Some message refers back to a block that an earlier batch has committed: `u`
holds every block before the message, and those below the base its batch began
with are gone from the batched fold. -/
def RefersBack (sh : Shaping) (u : Replayer) (acc : Replayer × List Block)
    (bs : List (List Message)) : Prop :=
  ∃ before pre m post after acc' u', bs = before ++ (pre ++ m :: post) :: after ∧
    batches sh acc before = .ok acc' ∧ u.steps sh (before.flatten ++ pre) = .ok u' ∧
    u'.Reaches acc'.1.base 0 m

/-! ## what a message reads -/

/-- A replayer without the blocks and the times it only writes. -/
def body (r : Replayer) : Replayer :=
  { r with durable := [], userTimes := [], turnDurations := [], stamped := 0 }

variable {sh : Shaping} {u u' r r' : Replayer} {c : List Block}

theorem body_past (r : Replayer) (d q : Nat) : (r.past d q).body = r.body.past d q := rfl

/-- Two cuts are one. -/
theorem past_past (r : Replayer) (d k : Nat) : (r.past d 0).past k 0 = r.past (d + k) 0 := by
  have hboth : ∀ i, (r.base + (d + k) ≤ i ∧ r.base + d ≤ i) ↔ r.base + (d + k) ≤ i := fun i => by
    omega
  have hsuppress : (r.suppress.filter (r.base + d ≤ ·)).filter (r.base + (d + k) ≤ ·) =
      r.suppress.filter (r.base + (d + k) ≤ ·) := by
    rw [List.filter_filter]
    exact List.filter_congr fun i _ => by rw [← Bool.decide_and, decide_eq_decide, hboth]
  have hslot : (r.toolSlot.retain (r.base + d ≤ ·)).retain (r.base + (d + k) ≤ ·) =
      r.toolSlot.retain (r.base + (d + k) ≤ ·) := by
    refine StrMap.ext fun id => ?_
    simp only [StrMap.getElem?_retain]
    cases r.toolSlot[id]? with
    | none => rfl
    | some i => grind
  have hskill : (r.lastSkill.filter (r.base + d ≤ ·)).filter (r.base + (d + k) ≤ ·) =
      r.lastSkill.filter (r.base + (d + k) ≤ ·) := by
    cases r.lastSkill with
    | none => rfl
    | some i => grind
  simp only [past, List.drop_drop, List.drop_zero, Nat.add_assoc, hsuppress, hslot, hskill]

theorem body_popQueue (r : Replayer) (p : QueueItem → Bool) :
    r.body.popQueue p = (r.popQueue p).body := by
  simp only [popQueue, body]
  cases r.queue.find? p with
  | none => rfl
  | some item => rfl

theorem body_userTurn (r : Replayer) (text : String) (b : Block) :
    r.body.userTurn text b = ((r.userTurn text b).1.body, (r.userTurn text b).2) := by
  simp only [userTurn, popPending, body_popQueue]
  rfl

theorem body_userInbox (r : Replayer) (text words : String) (inbox : Inbox)
    (images : List Attachment) : r.body.userInbox text words inbox images =
      ((r.userInbox text words inbox images).1.body, (r.userInbox text words inbox images).2) := by
  simp only [userInbox, popPending, body_popQueue]
  have hids : (r.popQueue fun q => q.content = trim text).body.inboxIds =
      (r.popQueue fun q => q.content = trim text).inboxIds := rfl
  by_cases hseen : ((r.popQueue fun q => q.content = trim text).inboxIds[inbox.id]?).isSome = true
  · simp only [hids, hseen, if_true]
    rfl
  · simp only [hids, hseen]
    rfl

theorem body_peerText (r : Replayer) (sender : String) (mode : Option String) (text : String)
    (queued addr : Option String) : r.body.peerText sender mode text queued addr =
      ((r.peerText sender mode text queued addr).1.body,
        (r.peerText sender mode text queued addr).2) := by
  have hpeers : ∀ peers, ({ r.body with peerNames := peers } : Replayer) =
      ({ r with peerNames := peers } : Replayer).body := fun peers => rfl
  cases addr <;> cases queued <;>
    simp only [peerText, popPending, body_popQueue, hpeers] <;> rfl

/-- A message other than a line's head does the same whatever is written. -/
theorem step_body (r : Replayer) {m : Message} (hm : m.isLineStart = false) :
    r.body.step sh m = (r.step sh m).map fun arm => (arm.1.body, arm.2) := by
  have hout : r.body.out = r.out := rfl
  have hslots : r.body.toolSlot = r.toolSlot := rfl
  have hbase : r.body.base = r.base := rfl
  cases m with
  | lineStart ts => simp [Message.isLineStart] at hm
  | toolResult id text tur e =>
    simp only [step, toolResult, hslots, hout, hbase]
    cases r.toolSlot[id]? with
    | none =>
      simp only
      split <;> rfl
    | some i =>
      cases hsub : checkedSub i r.base with
      | error f => simp only [hsub, bind, Except.bind, Except.map]
      | ok rel =>
        cases hidx : indexAt r.out rel with
        | error f => simp only [hsub, hidx, bind, Except.bind, Except.map]
        | ok b =>
          simp only [hsub, hidx, bind, Except.bind, Except.map]
          rfl
  | userText text => exact congrArg Except.ok (body_userTurn r text _)
  | userReply text context => exact congrArg Except.ok (body_userTurn r text _)
  | attachmentPrompt text => exact congrArg Except.ok (body_userTurn r text _)
  | userInbox text words inbox images =>
    exact congrArg Except.ok (body_userInbox r text words inbox images)
  | peerText sender mode text queued addr =>
    exact congrArg Except.ok (body_peerText r sender mode text queued addr)
  | refusedNote id text =>
    simp only [step, refusedNote, body]
    cases r.refused[id]? <;> rfl
  | sandboxRun id inside =>
    cases inside with
    | true => rfl
    | false =>
      have hon : r.body.sandboxOn = r.sandboxOn := rfl
      simp only [step, sandboxRun, hslots, hout, hbase, hon]
      cases r.sandboxOn with
      | false => rfl
      | true =>
        cases r.toolSlot[id]? with
        | none => rfl
        | some i =>
          cases hsub : checkedSub i r.base with
          | error f => simp only [Bool.false_eq_true, if_false, if_true, hsub, bind, Except.bind,
              Except.map]
          | ok rel =>
            cases hidx : indexAt r.out rel with
            | error f => simp only [Bool.false_eq_true, if_false, if_true, hsub, hidx, bind,
                Except.bind, Except.map]
            | ok b =>
              simp only [Bool.false_eq_true, if_false, if_true, hsub, hidx, bind, Except.bind]
              cases b <;> rfl
  | skillBody text fallback =>
    have htarget : r.body.skillTarget = r.skillTarget := rfl
    simp only [step, skillBody, hout, htarget]
    cases r.skillTarget with
    | error f => rfl
    | ok rel =>
      simp only [bind, Except.bind]
      cases attachSkillBody r.out _ text with
      | some out => rfl
      | none =>
        simp only
        split <;> rfl
  | commandStdout text =>
    simp only [step, commandStdout, hout]
    cases r.out.getLast? with
    | none => rfl
    | some b => cases b <;> rfl
  | imagePaths paths =>
    simp only [step, patchImagePaths, hout]
    cases rposition Block.isPrompt r.out with
    | none => rfl
    | some prompt =>
      simp only
      split <;> rfl
  | turnDuration secs at_ =>
    have hwritten : (r.turnDuration secs at_).1.body = r.body := by
      unfold turnDuration
      split
      · rfl
      · split <;> rfl
    have hnone : (r.turnDuration secs at_).2 = none := by
      unfold turnDuration
      split
      · rfl
      · split <;> rfl
    have hbody : r.body.turnDuration secs at_ = (r.body, none) := by
      unfold turnDuration
      split <;> rfl
    simp only [step, hbody, Except.map, hwritten, hnone]
  | queueOp op content prose =>
    cases op with
    | enqueue =>
      cases content with
      | none => rfl
      | some c => cases prose <;> rfl
    | remove => cases content <;> simp only [step, queueOp, popPending, body_popQueue] <;> rfl
    | dequeue => cases content <;> simp only [step, queueOp, popPending, body_popQueue] <;> rfl
    | popAll => rfl
  | compactUsage pre post =>
    simp only [step, compactUsage, hout]
    cases r.out.getLast? with
    | none => rfl
    | some b => cases b <;> rfl
  | compactSummary text =>
    simp only [step, compactSummary, hout]
    cases r.out.getLast? with
    | none => rfl
    | some b =>
      cases b with
      | compaction trigger pre post summary =>
        simp only
        split <;> rfl
      | _ => rfl
  | _ => rfl

/-! ## times -/

/-- The times, when every opener behind the stamped ones gets the line in force. -/
theorem stampedTimes_eq (r : Replayer) : r.stampedTimes = r.userTimes ++
    List.replicate ((r.out.drop (r.stamped - r.base)).countP Block.opensTurn) r.pendingTs := by
  rw [stampedTimes, List.countP_eq_length_filter, List.map_const']

/-- A message other than a line's head adds one time, that of its line, for each turn it opens. -/
theorem Effect.stampedTimes {m : Message} (h : Effect m r r') (hwf : Wf sh r.window r.indices) :
    r'.stampedTimes = r.stampedTimes ++ List.replicate
      (r'.out.countP Block.opensTurn - r.out.countP Block.opensTurn) r.pendingTs := by
  obtain ⟨edited, added, hout, hkin, -⟩ := h.grow
  have hle : r.stamped - r.base ≤ edited.length := by
    have hst : r.stamped ≤ r.base + r.out.length := hwf.stamped_le
    rw [← hkin.length_eq]
    omega
  have hcount : r'.out.countP Block.opensTurn - r.out.countP Block.opensTurn =
      added.countP Block.opensTurn := by
    rw [hout, List.countP_append, kinAll_countP hkin, Nat.add_sub_cancel_left]
  rw [stampedTimes_eq, stampedTimes_eq, h.userTimes, h.stamped, h.base, h.pendingTs, hcount, hout,
    List.drop_append_of_le_length hle, List.countP_append, List.append_assoc,
    List.replicate_append_replicate, kinAll_countP (List.forall₂_drop _ hkin)]

theorem stampedTimes_headed (r : Replayer) (ts : Option EpochSeconds) :
    (r.headed ts).stampedTimes = r.stampedTimes := by
  have hall : r.out.length ≤ r.rawLen - r.base := by
    simp only [rawLen]
    omega
  simp only [stampedTimes, headed, stamp, List.drop_eq_nil_of_le hall, List.filter_nil,
    List.map_nil, List.append_nil]

/-- A commit stamps first. -/
theorem stampedTimes_finalize (r : Replayer) : (r.finalize sh).stampedTimes = r.stampedTimes := by
  unfold finalize
  split
  · rfl
  · have hall : (r.out.drop r.cut).length ≤ r.rawLen - (r.base + r.cut) := by
      simp only [rawLen, List.length_drop]
      omega
    simp only [retire, stamp, stampedTimes, List.drop_eq_nil_of_le hall, List.filter_nil,
      List.map_nil, List.append_nil]

/-! ## the batched fold, seen from one that never commits -/

/-- What the blocks below `d` finish as. -/
def settledTo (sh : Shaping) (u : Replayer) (d : Nat) : List Block :=
  sh.finishTurns (dropAt u.suppress 0 (u.out.take d))

/-- The batched fold `r`, having returned `c`, is behind `u`, which holds every
block: it has what `u` has past its base, its base is at a turn, and it returned
what `u` has below. -/
structure Behind (sh : Shaping) (u r : Replayer) (c : List Block) : Prop where
  whole : Wf sh u.window u.indices
  wf : Wf sh r.window r.indices
  start : u.base = 0
  fits : r.base ≤ u.out.length
  body : r.body = (u.past r.base 0).body
  head : r.base = 0 ∨ ∃ b, u.out[r.base]? = some b ∧ b.opensTurn = true
  blank : ∀ b ∈ u.out, b.isBlankThinking = false
  times : r.stampedTimes = u.stampedTimes
  taken : c ++ r.durable = settledTo sh u r.base

theorem Behind.new (had : sh.Lawful) : Behind sh new new [] where
  whole := wf_empty sh
  wf := wf_empty sh
  start := rfl
  fits := le_rfl
  body := rfl
  head := .inl rfl
  blank := by simp [Replayer.new]
  times := rfl
  taken := had.finishTurns_nil.symm

/-- The blocks from the base on, up to any later point, finish by themselves. -/
theorem Behind.settled_append (had : sh.Lawful) (h : Behind sh u r c) (k : Nat) :
    settledTo sh u (r.base + k) = settledTo sh u r.base ++
      sh.finishTurns (dropAt u.suppress r.base ((u.out.drop r.base).take k)) := by
  have hlen : (u.out.take r.base).length = r.base := by
    rw [List.length_take, Nat.min_eq_left h.fits]
  have hsplit : dropAt u.suppress 0 (u.out.take (r.base + k)) =
      dropAt u.suppress 0 (u.out.take r.base) ++
        dropAt u.suppress r.base ((u.out.drop r.base).take k) := by
    rw [List.take_add, dropAt_append, hlen, Nat.zero_add]
  rw [settledTo, hsplit, settledTo]
  obtain hzero | ⟨b, hb, ho⟩ := h.head
  · simp only [hzero, List.take_zero, dropAt, List.nil_append, had.finishTurns_nil]
  · cases k with
    | zero => simp only [List.take_zero, dropAt, List.append_nil, had.finishTurns_nil]
    | succ k =>
      have hcons : u.out.drop r.base = b :: u.out.drop (r.base + 1) := by
        obtain ⟨hlt, rfl⟩ := List.getElem?_eq_some_iff.mp hb
        exact List.drop_eq_getElem_cons hlt
      -- only markers are suppressed, and no marker opens a turn
      have hkept : r.base ∉ u.suppress := by
        intro hmem
        obtain ⟨-, hat⟩ := h.whole.suppressed _ hmem
        obtain ⟨text, ht⟩ := hat (by simp only [window, h.start]; omega)
        have hget := (Window.at?_eq_some.mp ht).2
        simp only [window, h.start, Nat.sub_zero, hb, Option.some.injEq] at hget
        rw [hget] at ho
        exact absurd ho (by simp [Block.opensTurn])
      rw [hcons, List.take_succ_cons, dropAt_cons_of_notMem hkept]
      refine had.finishTurns_append _ b _ (fun x hx => ?_) ho
      exact h.blank x (List.mem_of_mem_take ((dropAt_sublist _ _ _).subset hx))

theorem Behind.out_eq (h : Behind sh u r c) : r.out = u.out.drop r.base :=
  congrArg Replayer.out h.body

theorem Behind.dropAt_suppress (h : Behind sh u r c) (xs : List Block) :
    dropAt r.suppress r.base xs = dropAt u.suppress r.base xs := by
  refine dropAt_congr xs fun i hi _ => ?_
  have hfilter : r.suppress = u.suppress.filter (u.base + r.base ≤ ·) :=
    congrArg Replayer.suppress h.body
  rw [hfilter, List.mem_filter, h.start]
  simp [hi]

theorem Behind.pendingTs_eq (h : Behind sh u r c) : r.pendingTs = u.pendingTs := by
  have hts := congrArg Replayer.pendingTs h.body
  exact hts

/-- An edited block opens a turn when it did. -/
theorem Effect.opensTurn_at {m : Message} (h : Effect m r r') {i : Nat} {b : Block}
    (hb : r.out[i]? = some b) (ho : b.opensTurn = true) :
    ∃ b', r'.out[i]? = some b' ∧ b'.opensTurn = true := by
  obtain ⟨edited, added, hout, hkin, -⟩ := h.grow
  obtain ⟨hlt, rfl⟩ := List.getElem?_eq_some_iff.mp hb
  have hlt' : i < edited.length := hkin.length_eq ▸ hlt
  refine ⟨edited[i], ?_, ?_⟩
  · rw [hout, List.getElem?_append_left hlt', List.getElem?_eq_getElem hlt']
  · have hk := (List.forall₂_iff_get.mp hkin).2 i hlt hlt'
    simp only [List.get_eq_getElem] at hk
    rw [hk.opensTurn, ho]

theorem Effect.blank {m : Message} (h : Effect m r r') (hm : m.isBlankThinking = false)
    (hr : ∀ b ∈ r.out, b.isBlankThinking = false) : ∀ b ∈ r'.out, b.isBlankThinking = false := by
  obtain ⟨edited, added, hout, hkin, hadded⟩ := h.grow
  intro b hb
  rw [hout] at hb
  obtain hb | hb := List.mem_append.mp hb
  · obtain ⟨b₀, hb₀, hk⟩ := kinAll_mem hkin hb
    rw [hk.blank, hr b₀ hb₀]
  · by_contra hne
    rw [Bool.not_eq_false] at hne
    rw [(hadded b hb).2 hne] at hm
    contradiction

/-- A line's head keeps the batched fold behind. -/
theorem Behind.headed (h : Behind sh u r c) (ts : Option EpochSeconds) :
    Behind sh (u.headed ts) (r.headed ts) c where
  whole := headed_wf h.whole ts
  wf := headed_wf h.wf ts
  start := h.start
  fits := h.fits
  body := by
    have hhead : ∀ x : Replayer, (x.headed ts).body = { x.body with
        prevTs := if x.body.pendingTs.isSome then x.body.pendingTs else x.body.prevTs
        pendingTs := ts } := fun x => rfl
    have hpast : ((u.headed ts).past r.base 0).body = ((u.past r.base 0).headed ts).body := rfl
    rw [show (r.headed ts).base = r.base from rfl, hpast, hhead, hhead, h.body]
  head := h.head
  blank := h.blank
  times := by rw [stampedTimes_headed, stampedTimes_headed, h.times]
  taken := h.taken

/-- **One message keeps the batched fold behind**, when it refers to nothing below the base. -/
theorem Behind.step (had : sh.Lawful) (h : Behind sh u r c) {m : Message}
    (hm : m.isBlankThinking = false) (hr : ¬u.Reaches r.base 0 m) :
    ∃ u' r' p, u.step sh m = .ok (u', p) ∧ r.step sh m = .ok (r', p) ∧ Behind sh u' r' c ∧
      r'.base = r.base := by
  cases hls : m.isLineStart with
  | true =>
    cases m with
    | lineStart ts =>
      exact ⟨_, _, none, lineStart_ok h.whole ts, lineStart_ok h.wf ts, h.headed ts, rfl⟩
    | _ => simp [Message.isLineStart] at hls
  | false =>
    have hne : ∀ ts, m ≠ .lineStart ts := by
      rintro ts rfl
      simp [Message.isLineStart] at hls
    obtain ⟨u', p, hu, hukept, -⟩ := step_safe h.whole m
    obtain ⟨r', p', hr', hrkept, -⟩ := step_safe h.wf m
    obtain ⟨x, hx, hpassed⟩ := step_past h.whole h.fits (by simp [Old]) hne hr hu
    obtain ⟨q, hq, rfl, -⟩ := hpassed.same
    obtain rfl : q = 0 := by omega
    have hue := step_effect had h.whole hls hu
    have hre := step_effect had h.wf hls hr'
    -- both windows without what they only write take the same step
    have hbody : (.ok (r'.body, p') : Except Fault Arm) = .ok ((u'.past r.base 0).body, p) := by
      have h₁ : r.body.step sh m = _ := step_body r hls
      have h₂ : (u.past r.base 0).body.step sh m = _ := step_body (u.past r.base 0) hls
      rw [hr', h.body] at h₁
      rw [hx, h₁] at h₂
      exact h₂
    rw [Except.ok.injEq, Prod.mk.injEq] at hbody
    obtain ⟨hbody, rfl⟩ := hbody
    have hbelow := hpassed.below rfl
    have hbase : r'.base = r.base := hre.base
    refine ⟨u', r', p', hu, hr', ⟨hukept.wf, hrkept.wf, hue.base.trans h.start, ?_, ?_, ?_,
      hue.blank hm h.blank, ?_, ?_⟩, hbase⟩
    · exact hbase ▸ hpassed.fits
    · rw [hbase, hbody]
    · rw [hbase]
      obtain hzero | ⟨b, hb, ho⟩ := h.head
      · exact .inl hzero
      · exact .inr (hue.opensTurn_at hb ho)
    · have hcount : ∀ xs : List Block, xs.countP Block.opensTurn =
          (xs.take r.base).countP Block.opensTurn + (xs.drop r.base).countP Block.opensTurn := by
        intro xs
        conv_lhs => rw [← List.take_append_drop r.base xs, List.countP_append]
      have hout : r'.out = u'.out.drop r.base := congrArg Replayer.out hbody
      rw [hre.stampedTimes h.wf, hue.stampedTimes h.whole, h.times, h.pendingTs_eq, hout, h.out_eq,
        hcount u'.out, hcount u.out, hbelow.out, Nat.add_sub_add_left]
    · rw [hre.durable, h.taken, hbase, settledTo, settledTo, hbelow.out]
      congr 1
      refine dropAt_congr _ fun i _ hi => (hbelow.suppress i ?_).symm
      rw [List.length_take, Nat.min_eq_left h.fits] at hi
      rw [h.start]
      omega

/-- A commit keeps the batched fold behind. -/
theorem Behind.finalize (had : sh.Lawful) (h : Behind sh u r c) :
    Behind sh u (r.finalize sh) c := by
  have htimes : (r.finalize sh).stampedTimes = r.stampedTimes := stampedTimes_finalize r
  have hwf := (finalize_advanced h.wf).1
  unfold Replayer.finalize at htimes hwf ⊢
  split
  · exact h
  · next hcut =>
    rw [if_neg hcut] at htimes hwf
    have hlen : r.out.length = u.out.length - r.base := by rw [h.out_eq, List.length_drop]
    have hbody : (r.stamp.retire sh r.cut).body = (r.body.past r.cut 0) := rfl
    refine ⟨h.whole, hwf, h.start, ?_, ?_, .inr ?_, h.blank, htimes.trans h.times, ?_⟩
    · have := r.cut_le
      have := h.fits
      simp only [retire, stamp]
      omega
    · rw [hbody, h.body, ← body_past, past_past]
      rfl
    · obtain ⟨b, hb, ho⟩ := opensTurn_at_cut hcut
      rw [h.out_eq, List.getElem?_drop] at hb
      exact ⟨b, hb, ho⟩
    · have hsuppress : dropAt r.suppress r.base (r.out.take r.cut) =
          dropAt u.suppress r.base ((u.out.drop r.base).take r.cut) := by
        rw [h.out_eq, h.dropAt_suppress]
      simp only [retire, stamp]
      rw [h.settled_append had r.cut, ← h.taken, hsuppress, List.append_assoc]

/-- Taking what was committed. -/
theorem Behind.drained (h : Behind sh u r c) :
    Behind sh u r.drainCommitted.2 (c ++ r.drainCommitted.1) :=
  ⟨h.whole, h.wf, h.start, h.fits, h.body, h.head, h.blank, h.times, by
    simp only [drainCommitted, List.append_nil, h.taken]⟩

/-! ## runs -/

/-- Below an empty prefix there is nothing to refer back to. -/
theorem not_reaches_zero (h : u.base = 0) (m : Message) : ¬u.Reaches 0 0 m := by
  have hpop : ∀ p, ¬u.PopReaches 0 0 p := by
    intro p hp
    unfold PopReaches at hp
    rw [List.take_zero, List.find?_nil, List.drop_zero] at hp
    cases hfind : u.queue.find? p with
    | none => simp only [hfind] at hp
    | some item =>
      simp only [hfind, h] at hp
      obtain ⟨i, -, hi⟩ := hp
      omega
  have hlast : ∀ p, ¬u.LastReaches 0 p := by
    rintro p ⟨hlen, b, hb, -⟩
    rw [List.eq_nil_of_length_eq_zero (Nat.le_zero.mp hlen)] at hb
    simp at hb
  have hslot : ∀ id, ¬u.SlotReaches 0 id := by
    rintro id ⟨i, -, hi⟩
    omega
  intro hr
  cases m with
  | toolResult id text tur e => exact hslot id hr
  | sandboxRun id inside => exact hslot id hr.2.2
  | userText text => exact hpop _ hr
  | userReply text context => exact hpop _ hr
  | userInbox text words inbox images => exact hpop _ hr
  | attachmentPrompt text => exact hpop _ hr
  | peerText sender mode text queued addr =>
    obtain ⟨raw, -, hraw⟩ := hr
    exact hpop _ hraw
  | queueOp op content prose =>
    cases op with
    | enqueue => exact hr
    | remove => exact hpop _ hr
    | dequeue => exact hpop _ hr
    | popAll =>
      obtain ⟨item, -, i, -, hi⟩ := hr
      omega
  | compactUsage pre post => exact hlast _ hr
  | compactSummary text => exact hlast _ hr
  | commandStdout text => exact hlast _ hr
  | skillBody text fallback =>
    obtain ⟨j, -, hj, -⟩ := hr
    omega
  | imagePaths paths =>
    obtain ⟨prompt, -, hlt⟩ := hr
    omega
  | _ => exact hr

/-- **The messages of a batch keep the batched fold behind.** -/
theorem Behind.steps (had : sh.Lawful) (h : Behind sh u r c) {ms : List Message}
    (hblank : ∀ m ∈ ms, m.isBlankThinking = false)
    (hr : ∀ pre m post v, ms = pre ++ m :: post → u.steps sh pre = .ok v → v.base = 0 →
      ¬v.Reaches r.base 0 m) :
    ∃ u' r', u.steps sh ms = .ok u' ∧ r.steps sh ms = .ok r' ∧ Behind sh u' r' c := by
  induction ms generalizing u r with
  | nil => exact ⟨u, r, rfl, rfl, h⟩
  | cons m ms ih =>
    rw [List.forall_mem_cons] at hblank
    obtain ⟨u₁, r₁, p, hu, hr₁, h₁, hbase⟩ := h.step had hblank.1 (hr [] m ms u rfl rfl h.start)
    have hstep : ∀ {x x₁ : Replayer}, x.step sh m = .ok (x₁, p) → ∀ rest,
        x.steps sh (m :: rest) = x₁.steps sh rest := by
      intro x x₁ hx rest
      simp only [Replayer.steps, List.foldlM_cons, hx, Except.map, bind_ok]
    obtain ⟨u', r', hu', hr', h'⟩ := ih h₁ hblank.2 fun pre m' post v heq hv => by
      rw [hbase]
      exact hr (m :: pre) m' post v (by rw [heq, List.cons_append]) ((hstep hu pre).trans hv)
    exact ⟨u', r', (hstep hu ms).trans hu', (hstep hr₁ ms).trans hr', h'⟩

/-- **One batch keeps the batched fold behind.** -/
theorem Behind.batch (had : sh.Lawful) (h : Behind sh u r c) {ms : List Message}
    (hblank : ∀ m ∈ ms, m.isBlankThinking = false)
    (hr : ∀ pre m post v, ms = pre ++ m :: post → u.steps sh pre = .ok v → v.base = 0 →
      ¬v.Reaches r.base 0 m) :
    ∃ u' acc', u.steps sh ms = .ok u' ∧ Replayer.batch sh (r, c) ms = .ok acc' ∧
      Behind sh u' acc'.1 acc'.2 ∧ acc'.1.durable = [] := by
  obtain ⟨u', r₁, hu, hr₁, h₁⟩ := h.steps had hblank hr
  obtain ⟨r₂, floor, hr₂, -, happly, -⟩ := apply_ok h.wf ms
  obtain rfl : r₁ = r₂ := Except.ok.inj (hr₁.symm.trans hr₂)
  refine ⟨u', ((r₁.finalize sh).drainCommitted.2, c ++ (r₁.finalize sh).drainCommitted.1), hu, ?_,
    (h₁.finalize had).drained, rfl⟩
  simp only [Replayer.batch, happly, bind_ok]
  rfl

/-- **A run of batches keeps the batched fold behind.** -/
theorem Behind.batches (had : sh.Lawful) (h : Behind sh u r c) (hdurable : r.durable = [])
    {bs : List (List Message)} (hblank : ∀ m ∈ bs.flatten, m.isBlankThinking = false)
    (hr : ¬RefersBack sh u (r, c) bs) :
    ∃ u' acc', u.steps sh bs.flatten = .ok u' ∧ Replayer.batches sh (r, c) bs = .ok acc' ∧
      Behind sh u' acc'.1 acc'.2 ∧ acc'.1.durable = [] := by
  induction bs generalizing u r c with
  | nil => exact ⟨u, (r, c), rfl, rfl, h, hdurable⟩
  | cons ms rest ih =>
    simp only [List.flatten_cons, List.mem_append] at hblank
    obtain ⟨u₁, acc₁, hu₁, hacc₁, h₁, hnone⟩ := h.batch had (fun m hm => hblank m (.inl hm))
      fun pre m post v heq hv _ hreach =>
        hr ⟨[], pre, m, post, rest, (r, c), v, by rw [heq, List.nil_append], rfl, hv, hreach⟩
    obtain ⟨u', acc', hu', hacc', h'⟩ := ih h₁ hnone (fun m hm => hblank m (.inr hm)) <| by
      rintro ⟨before, pre, m, post, after, acc, v, heq, hacc, hv, hreach⟩
      refine hr ⟨ms :: before, pre, m, post, after, acc, v, by rw [heq, List.cons_append], ?_, ?_,
        hreach⟩
      · simp only [Replayer.batches, List.foldlM_cons, hacc₁, bind_ok]
        exact hacc
      · rw [List.flatten_cons, List.append_assoc, steps_append, hu₁, bind_ok, hv]
    refine ⟨u', acc', ?_, ?_, h'⟩
    · rw [List.flatten_cons, steps_append, hu₁, bind_ok, hu']
    · simp only [Replayer.batches, List.foldlM_cons, hacc₁, bind_ok]
      exact hacc'

/-- **What a batched fold returned, and shows, is what the uncommitted blocks finish as.** -/
theorem Behind.shown (had : sh.Lawful) (h : Behind sh u r c) :
    c ++ r.durable ++ r.openBlocks sh = settledTo sh u u.out.length := by
  have hopen : r.openBlocks sh = sh.finishTurns (dropAt u.suppress r.base (u.out.drop r.base)) := by
    rw [openBlocks_eq, h.out_eq, h.dropAt_suppress]
  have hlen : r.base + (u.out.length - r.base) = u.out.length := by
    have := h.fits
    omega
  have happend := h.settled_append had (u.out.length - r.base)
  rw [hlen, List.take_of_length_le (by rw [List.length_drop])] at happend
  rw [happend, h.taken, hopen]

end Replayer

/-- The batched fold over a whole sequence: what the batches returned, the open
snapshot behind it, and the times. -/
def replayBatches (sh : Shaping) (bs : List (List Message)) :
    Except Fault (List Block × List (Option EpochSeconds)) := do
  let (r, committed) ← Replayer.batches sh (.new, []) bs
  let (open_, userTimes) ← r.openSnapshot sh
  return (committed ++ open_, userTimes)

variable {sh : Shaping}

/-- The one-shot fold is the uncommitted one, finished. -/
theorem replay_eq (had : sh.Lawful) {ms : List Message}
    (hblank : ∀ m ∈ ms, m.isBlankThinking = false) :
    ∃ u, Replayer.new.steps sh ms = .ok u ∧
      replay sh ms = .ok (Replayer.settledTo sh u u.out.length, u.stampedTimes) := by
  obtain ⟨u, r, hu, hr, h⟩ := (Replayer.Behind.new had).steps had hblank
    fun pre m post v _ _ hbase => Replayer.not_reaches_zero hbase m
  obtain ⟨r₁, floor, hr₁, -, happly, -⟩ := Replayer.apply_ok (Replayer.wf_start sh .cold) ms
  simp only [Replayer.Start.replayer] at hr₁ happly
  obtain rfl : r = r₁ := Except.ok.inj (hr.symm.trans hr₁)
  have hfinal := h.finalize had
  refine ⟨u, hu, ?_⟩
  rw [replay]
  simp only [happly, bind_ok, Replayer.intoBlocks_ok hfinal.wf, hfinal.times]
  rw [← hfinal.shown had, List.nil_append]

/-- **Batches do not matter to what refers to no committed block.** However a
sequence is cut into batches, if no message refers back to a block an earlier
batch has committed, then what the batches return, with the open snapshot, and
the times are those of the one-shot fold. -/
theorem replayBatches_eq (had : sh.Lawful) (bs : List (List Message))
    (hblank : ∀ m ∈ bs.flatten, m.isBlankThinking = false)
    (hback : ¬Replayer.RefersBack sh .new (.new, []) bs) :
    replayBatches sh bs = replay sh bs.flatten := by
  obtain ⟨u, hu, honce⟩ := replay_eq had hblank
  obtain ⟨u', acc', hu', hacc, h, hnone⟩ := (Replayer.Behind.new had).batches had rfl hblank hback
  obtain rfl : u = u' := Except.ok.inj (hu.symm.trans hu')
  rw [honce, ← h.shown had, hnone, List.append_nil, ← h.times]
  simp only [replayBatches, hacc, bind_ok, Replayer.openSnapshot_ok h.wf]
  rfl

/-- A commit behind the open turn, and a result of the open turn in a batch of its own. -/
theorem replayBatches_eq_openTurn :
    let first : List Message := [.command "init" "" [], .assistantText "ready",
      .command "test" "" [], .toolUse "t1" "Bash" .null ""]
    let second : List Message := [.toolResult "t1" "done" .null none]
    replayBatches .scripted [first, second] = replay .scripted (first ++ second) := by
  intro first second
  have hbase : ((Replayer.batches .scripted (.new, []) [first]).toOption.map (·.1.base)) =
      some 2 := by decide +kernel
  have hslot : ((Replayer.new.steps .scripted first).toOption.bind (·.toolSlot["t1"]?)) =
      some 3 := by decide +kernel
  have hstart : ((Replayer.new.steps .scripted first).toOption.map (·.base)) = some 0 := by
    decide +kernel
  refine replayBatches_eq Shaping.scripted_lawful [first, second] (by decide) ?_
  rintro ⟨before, pre, m, post, after, acc, u, heq, hacc, hu, hreach⟩
  cases before with
  | nil =>
    rw [List.nil_append, List.cons.injEq] at heq
    have hm : m ∈ first := by simp [heq.1]
    simp only [first, List.mem_cons, List.not_mem_nil, or_false] at hm
    rcases hm with rfl | rfl | rfl | rfl <;> exact hreach
  | cons b rest =>
    rw [List.cons_append, List.cons.injEq] at heq
    obtain ⟨rfl, heq⟩ := heq
    cases rest with
    | cons b' rest => simp at heq
    | nil =>
      rw [List.nil_append, List.cons.injEq] at heq
      cases pre with
      | cons m' pre => simp [second] at heq
      | nil =>
        -- the one message of the second batch: its call is past the base
        simp only [second, List.nil_append, List.cons.injEq] at heq
        obtain ⟨⟨rfl, -⟩, -⟩ := heq
        simp only [List.flatten_cons, List.flatten_nil, List.append_nil] at hu
        rw [hacc] at hbase
        rw [hu] at hslot hstart
        simp only [Except.toOption, Option.map_some, Option.some.injEq] at hbase hstart
        simp only [Except.toOption, Option.bind_some] at hslot
        obtain ⟨i, hi, hlt⟩ := hreach
        rw [hslot, Option.some.injEq] at hi
        omega

/-- A prompt, a call and the next prompt, then the call's result. -/
def lateResult : List (List Message) :=
  [[.userText "a", .toolUse "t1" "Bash" .null "", .userText "b"],
    [.toolResult "t1" "done" .null none]]

/-- A thinking without text, in a turn that ends before the next thinking comes. -/
def blankThinking : List (List Message) :=
  [[.lineStart (some 0), .lineStart (some 5), .userText "a", .thinking " " (some 5), .userText "b"],
    [.thinking "so" none, .assistantText "c", .userText "d"]]

/-- Where a batch ends decides two things: whether a result that comes after its
call is committed is joined to it, and whose the duration of a thinking without
text is, which the finisher carries on to the next thinking it meets. -/
theorem batch_boundary_decides :
    replayBatches .scripted lateResult ≠ replay .scripted lateResult.flatten ∧
      replayBatches .scripted blankThinking ≠ replay .scripted blankThinking.flatten := by
  decide +kernel

end ClaudeReplay
