import ClaudeReplay.Builder
import ClaudeReplay.Replay.Effect

/-!
# ClaudeReplay.Builder.Line

One line of the accumulator, taken apart. A line's messages are its head and the
rest, or a batch that neither opens nor closes a turn (`LineShape`); what folding
them does to the replayer is `Replayer.Folded`.

`Replayer.Settles` is what a line that opens a turn leaves behind for a resume
from it: the durations of the turns before it are settled, and folding the line's
own duration messages over them again changes nothing. It outlives every later
line, since a later line has a later turn to give its durations to.
-/

namespace ClaudeReplay

open Lib

/-! ## a line's messages -/

/-- A property that attachments have and the decoded messages have, the stamped
messages have. -/
theorem stampOffsets_forall {P : Message → Prop} (ha : ∀ a, P (.attachment a)) (offset : Nat)
    (ms : List Message) : ∀ index, (∀ m ∈ ms, P m) →
      ∀ m ∈ Accumulator.stampOffsets offset index ms, P m := by
  induction ms with
  | nil => exact fun _ h => h
  | cons m ms ih =>
    intro index h
    rw [List.forall_mem_cons] at h
    cases m with
    | attachment a =>
      simp only [Accumulator.stampOffsets]
      split
      · exact List.forall_mem_cons.mpr ⟨ha _, ih _ h.2⟩
      · exact List.forall_mem_cons.mpr ⟨ha _, ih _ h.2⟩
    | _ => exact List.forall_mem_cons.mpr ⟨h.1, ih _ h.2⟩

/-- Stamping offsets keeps the shape of a line. -/
theorem LineShape.stampOffsets {ms : List Message} (h : LineShape ms) (offset : Nat) :
    LineShape (Accumulator.stampOffsets offset 0 ms) := by
  cases h with
  | headed ts rest h => exact .headed ts _ (stampOffsets_forall (fun _ => rfl) offset rest 0 h)
  | headless ms h =>
    exact .headless _ (stampOffsets_forall (fun _ => ⟨rfl, rfl, rfl⟩) offset ms 0 h)

/-- The messages a line folds, given the preprocessor's state and the working
directory before it: none when the preprocessor ignores it. -/
def Adapter.messagesAt (ad : Adapter) (pre : ad.Pre) (cwd : String) (offset : Nat)
    (line : String) : Option (List Message) :=
  match (ad.process pre line).2 with
  | .include => some (Accumulator.stampOffsets offset 0 (ad.decodeLine line cwd).2)
  | .ignore => none
  | .messages ms => some (Accumulator.stampOffsets offset 0 ms)

/-- The working directory a line leaves. -/
def Adapter.cwdAfter (ad : Adapter) (pre : ad.Pre) (cwd : String) (line : String) : String :=
  match (ad.process pre line).2 with
  | .include => (ad.decodeLine line cwd).1
  | _ => cwd

theorem Adapter.Lawful.messagesAt_shape {ad : Adapter} (had : ad.Lawful) {pre : ad.Pre}
    {cwd : String} {offset : Nat} {line : String} {ms : List Message}
    (h : ad.messagesAt pre cwd offset line = some ms) : LineShape ms := by
  unfold messagesAt at h
  split at h
  · rw [Option.some.injEq] at h
    exact h ▸ (had.decodeLine_shape line cwd).stampOffsets offset
  · contradiction
  · next ms₀ hp =>
    rw [Option.some.injEq] at h
    exact h ▸ (had.process_shape pre line ms₀ hp).stampOffsets offset

/-- A line folds the same messages under the working directory it leaves behind. -/
theorem Adapter.Lawful.messagesAt_cwdAfter {ad : Adapter} (had : ad.Lawful) (pre : ad.Pre)
    (cwd : String) (offset : Nat) (line : String) :
    ad.messagesAt pre (ad.cwdAfter pre cwd line) offset line =
      ad.messagesAt pre cwd offset line := by
  unfold messagesAt cwdAfter
  cases (ad.process pre line).2 with
  | «include» => simp only [had.decodeLine_cwd]
  | ignore => rfl
  | messages ms => rfl

namespace Replayer

variable {sh : Shaping} {r r₁ : Replayer}

/-! ## a line's fold -/

theorem Effects.any {ms : List Message} (h : Effects ms r r₁)
    (hany : r.out.any Block.opensTurn = true) : r₁.out.any Block.opensTurn = true := by
  obtain ⟨edited, added, hout, hkin, -⟩ := h.grow
  rw [hout, List.any_append, kinAll_any hkin, hany, Bool.true_or]

theorem append_opens (r : Replayer) {b : Block} (hb : b.opensTurn = true) :
    (r.append b).1.out.any Block.opensTurn = true := by
  simp [append, push, hb]

theorem commandStdout_opens (r : Replayer) (text : String) :
    (r.commandStdout text).1.out.any Block.opensTurn = true := by
  unfold commandStdout
  simp only
  split
  · simp [setLast, Block.opensTurn]
  · exact r.append_opens rfl

theorem userInbox_opens (r : Replayer) (text words : String) (inbox : Inbox)
    (images : List Attachment) :
    (r.userInbox text words inbox images).1.out.any Block.opensTurn = true := by
  unfold userInbox
  simp only
  split
  · exact (r.popPending (trim text)).append_opens rfl
  · simp [Block.opensTurn]

/-- A message that can open a turn leaves an opener in the window. -/
theorem step_opens {m : Message} (hm : m.canOpenTurn = true) {p : Option Nat}
    (hok : r.step sh m = .ok (r₁, p)) : r₁.out.any Block.opensTurn = true := by
  cases m with
  | commandStdout text =>
    obtain ⟨rfl, -⟩ := Prod.mk.injEq .. ▸ Except.ok.inj hok
    exact r.commandStdout_opens text
  | userInbox text words inbox images =>
    obtain ⟨rfl, -⟩ := Prod.mk.injEq .. ▸ Except.ok.inj hok
    exact r.userInbox_opens text words inbox images
  | userText text | userReply text context | peerText sender mode text queued addr
  | command name args output | attachmentPrompt text =>
    obtain ⟨rfl, -⟩ := Prod.mk.injEq .. ▸ Except.ok.inj hok
    exact append_opens _ rfl
  | _ => simp [Message.canOpenTurn] at hm

theorem steps_opens (had : sh.Lawful) (h : Wf sh r.window r.indices) {ms : List Message}
    (hms : ∀ m ∈ ms, m.isLineStart = false) (hok : r.steps sh ms = .ok r₁)
    (hopen : ms.any Message.canOpenTurn = true) : r₁.out.any Block.opensTurn = true := by
  induction ms generalizing r with
  | nil => simp at hopen
  | cons m ms ih =>
    rw [List.forall_mem_cons] at hms
    obtain ⟨r', patched, hstep, hkept, -⟩ := step_safe h m
    have hrest : r'.steps sh ms = .ok r₁ := by
      simp only [steps, List.foldlM_cons, hstep, Except.map, bind_ok] at hok
      exact hok
    cases hm : m.canOpenTurn with
    | true => exact (steps_effects had hkept.wf hms.2 hrest).any (step_opens hm hstep)
    | false =>
      rw [List.any_cons, hm, Bool.false_or] at hopen
      exact ih hkept.wf hms.2 hrest hopen

/-- What the messages of a line leave of a replayer, before the commit. -/
inductive Folded (r : Replayer) : List Message → Replayer → Prop
  | headed {ts : Option EpochSeconds} {rest : List Message} {r₁ : Replayer}
      (h : Effects rest (r.headed ts) r₁)
      (hopen : rest.any Message.canOpenTurn = true → r₁.out.any Block.opensTurn = true) :
      Folded r (.lineStart ts :: rest) r₁
  | headless {ms : List Message} {r₁ : Replayer}
      (hms : ∀ m ∈ ms, m.isDuration = false ∧ m.canOpenTurn = false) (h : Effects ms r r₁) :
      Folded r ms r₁

/-- **A line is folded, then committed.** -/
theorem apply_folded (had : sh.Lawful) (h : Wf sh r.window r.indices) {ms : List Message}
    (hms : LineShape ms) : ∃ r₁ floor, Folded r ms r₁ ∧ Wf sh r₁.window r₁.indices ∧
      r.apply sh ms = .ok (r₁.finalize sh, floor) := by
  obtain ⟨r₁, floor, hsteps, hwf, happly, -⟩ := apply_ok h ms
  refine ⟨r₁, floor, ?_, hwf, happly⟩
  cases hms with
  | headed ts rest hrest =>
    have hsteps' : (r.headed ts).steps sh rest = .ok r₁ := by
      simp only [steps, List.foldlM_cons, step, lineStart_ok h, Except.map, bind_ok] at hsteps
      exact hsteps
    have hwf' := headed_wf h ts
    exact .headed (steps_effects had hwf' hrest hsteps')
      (steps_opens had hwf' hrest hsteps')
  | headless ms hms =>
    exact .headless (fun m hm => (hms m hm).2)
      (steps_effects had h (fun m hm => (hms m hm).1) hsteps)

/-! ## times and durations across a line -/

/-- The first `k` turns have the same times and durations in both. -/
structure SameTurns (k : Nat) (r r' : Replayer) : Prop where
  times : r'.userTimes.take k = r.userTimes.take k
  durations : r'.turnDurations.take k = r.turnDurations.take k

theorem SameTurns.trans {k : Nat} {r₂ : Replayer} (h : SameTurns k r r₁)
    (h' : SameTurns k r₁ r₂) : SameTurns k r r₂ :=
  ⟨h'.times.trans h.times, h'.durations.trans h.durations⟩

theorem take_prefix_eq {α : Type} {xs ys : List α} {k : Nat} (h : xs <+: ys)
    (hk : k ≤ xs.length) : ys.take k = xs.take k := by
  obtain ⟨zs, rfl⟩ := h
  exact List.take_append_of_le_length hk

/-- Stamping keeps the turns there are. -/
theorem Timed.same_stamp {n k : Nat} (h : Timed r n) (hk : k ≤ r.userTimes.length) :
    SameTurns k r r.stamp :=
  ⟨take_prefix_eq r.stampedTimes_prefix hk,
    take_prefix_eq h.durations_prefix (h.durations ▸ hk)⟩

theorem Timed.same_finalize {n k : Nat} (h : Timed r n) (hk : k ≤ r.userTimes.length) :
    SameTurns k r (r.finalize sh) := by
  unfold Replayer.finalize
  split
  · exact ⟨rfl, rfl⟩
  · exact ⟨(h.same_stamp hk).times, (h.same_stamp hk).durations⟩

theorem foldl_durationStep_of_not {ms : List Message} (h : ∀ m ∈ ms, m.isDuration = false)
    (times : List (Option EpochSeconds)) (ds : List (Option Nat)) :
    ms.foldl (durationStep times) ds = ds := by
  induction ms with
  | nil => rfl
  | cons m ms ih =>
    rw [List.forall_mem_cons] at h
    rw [List.foldl_cons, durationStep_of_not h.1, ih h.2]

namespace Folded

variable {ms : List Message}

theorem base (h : Folded r ms r₁) : r₁.base = r.base := by
  cases h with
  | headed h _ => exact h.base
  | headless _ h => exact h.base

theorem durable (h : Folded r ms r₁) : r₁.durable = r.durable := by
  cases h with
  | headed h _ => exact h.durable
  | headless _ h => exact h.durable

theorem grow (h : Folded r ms r₁) :
    ∃ edited added, r₁.out = edited ++ added ∧ KinAll r.out edited := by
  cases h with
  | headed h _ =>
    obtain ⟨edited, added, hout, hkin, -⟩ := h.grow
    exact ⟨edited, added, hout, hkin⟩
  | headless _ h =>
    obtain ⟨edited, added, hout, hkin, -⟩ := h.grow
    exact ⟨edited, added, hout, hkin⟩

theorem timed {n : Nat} (h : Folded r ms r₁) (hwf : Wf sh r.window r.indices) (ht : Timed r n) :
    Timed r₁ n := by
  cases h with
  | @headed ts _ _ h _ => exact (ht.headed ts).effects (headed_wf hwf ts) h
  | headless _ h => exact ht.effects hwf h

theorem any (h : Folded r ms r₁) (hany : r.out.any Block.opensTurn = true) :
    r₁.out.any Block.opensTurn = true := by
  cases h with
  | headed h _ => exact h.any hany
  | headless _ h => exact h.any hany

/-- A line that can open a turn leaves an opener in the window. -/
theorem opens (h : Folded r ms r₁) (hopen : ms.any Message.canOpenTurn = true) :
    r₁.out.any Block.opensTurn = true := by
  cases h with
  | headed _ h => exact h (by simpa [Message.canOpenTurn] using hopen)
  | headless hms _ =>
    obtain ⟨m, hm, hopen⟩ := List.any_eq_true.mp hopen
    rw [(hms m hm).2] at hopen
    contradiction

/-- A line keeps the turns before the last one of the window. -/
theorem same {n k : Nat} (h : Folded r ms r₁) (ht : Timed r n) (hk : k ≤ r.userTimes.length)
    (hlt : k < r.stampedTimes.length) : SameTurns k r r₁ := by
  cases h with
  | @headed ts rest _ h _ =>
    have hstamp := ht.same_stamp hk
    refine ⟨by rw [h.userTimes]; exact hstamp.times, ?_⟩
    rw [h.turnDurations]
    have hall : k < (r.headed ts).turnDurations.length := by
      rw [(ht.headed ts).durations]
      exact hlt
    exact (take_foldl_durationStep _ hall rest).trans hstamp.durations
  | headless hms h =>
    refine ⟨by rw [h.userTimes], ?_⟩
    rw [h.turnDurations, foldl_durationStep_of_not fun m hm => (hms m hm).1]

end Folded

/-! ## settled boundaries -/

/-- A line whose first block is at `logical`, with messages `ms`, has settled the
turns before it: folding its durations over them again changes nothing. Said of
lines that opened a turn with their first block. -/
def Settles (r : Replayer) (n logical : Nat) (ms : List Message) : Prop :=
  ∀ k b, r.base ≤ logical → r.out[logical - r.base]? = some b → b.opensTurn = true →
    k = n + (r.out.take (logical - r.base)).countP Block.opensTurn →
    k ≤ r.userTimes.length ∧
      ms.foldl (durationStep (r.userTimes.take k)) (r.turnDurations.take k) =
        r.turnDurations.take k

/-- **A line settles the turns before it.** -/
theorem Folded.settles {n : Nat} {ms : List Message} (h : Folded r ms r₁) (ht : Timed r n)
    (hopen : ms.any Message.canOpenTurn = true) : Settles r₁ n r.rawLen ms := by
  intro k b _ _ _ hk
  obtain ⟨edited, added, hout, hkin⟩ := h.grow
  have hlen : r.rawLen - r₁.base = edited.length := by
    rw [h.base, rawLen, ← hkin.length_eq]
    omega
  have hcount : k = r.stampedTimes.length := by
    rw [hk, hlen, hout, List.take_left', kinAll_countP hkin, ht.length_stampedTimes]
    rfl
  cases h with
  | @headed ts rest _ he _ =>
    have htimes : r₁.userTimes = r.stampedTimes := he.userTimes
    have hdur : r₁.turnDurations =
        rest.foldl (durationStep r.stampedTimes) r.stamp.turnDurations := he.turnDurations
    have hall : r₁.turnDurations.length = r.stampedTimes.length := by
      rw [hdur, length_foldl_durationStep, ht.stamp.durations]
      rfl
    refine ⟨by rw [htimes, hcount], ?_⟩
    rw [hcount, htimes, List.take_length, ← hall, List.take_length, hdur]
    exact foldl_durationStep_idem _ rest _
  | headless hms _ =>
    obtain ⟨m, hm, hopen⟩ := List.any_eq_true.mp hopen
    rw [(hms m hm).2] at hopen
    contradiction

/-- Two states that agree on the turns a boundary has settled. -/
theorem Settles.of_same {n n' logical : Nat} {ms : List Message} {r' : Replayer}
    (h : Settles r n logical ms)
    (hres : ∀ b', r'.base ≤ logical → r'.out[logical - r'.base]? = some b' → b'.opensTurn = true →
      ∃ b, r.base ≤ logical ∧ r.out[logical - r.base]? = some b ∧ b.opensTurn = true ∧
        n' + (r'.out.take (logical - r'.base)).countP Block.opensTurn =
          n + (r.out.take (logical - r.base)).countP Block.opensTurn)
    (hsame : ∀ k, n + (r.out.take (logical - r.base)).countP Block.opensTurn = k →
      k ≤ r.userTimes.length → k < n + r.out.countP Block.opensTurn →
      SameTurns k r r' ∧ k ≤ r'.userTimes.length) :
    Settles r' n' logical ms := by
  intro k b' hbase' hb' ho' hk
  obtain ⟨b, hbase, hb, ho, hcount⟩ := hres b' hbase' hb' ho'
  obtain ⟨hle, hidem⟩ := h k b hbase hb ho (hk.trans hcount)
  have hlt : k < n + r.out.countP Block.opensTurn := by
    have hj := (List.getElem?_eq_some_iff.mp hb).1
    have hsplit : r.out.countP Block.opensTurn =
        (r.out.take (logical - r.base)).countP Block.opensTurn +
          (r.out.drop (logical - r.base)).countP Block.opensTurn := by
      conv_lhs => rw [← List.take_append_drop (logical - r.base) r.out, List.countP_append]
    have hpos : 0 < (r.out.drop (logical - r.base)).countP Block.opensTurn := by
      rw [List.countP_pos_iff]
      refine ⟨b, ?_, ho⟩
      rw [List.mem_iff_getElem?]
      exact ⟨0, by rw [List.getElem?_drop, Nat.add_zero, hb]⟩
    omega
  obtain ⟨hs, hle'⟩ := hsame k (hk.trans hcount).symm hle hlt
  exact ⟨hle', by rw [hs.times, hs.durations]; exact hidem⟩

/-- A later line leaves it settled. -/
theorem Settles.folded {n logical : Nat} {ms ms' : List Message} (h : Settles r n logical ms)
    (hlt : logical < r.rawLen) (hf : Folded r ms' r₁) (ht : Timed r n) :
    Settles r₁ n logical ms := by
  obtain ⟨edited, added, hout, hkin⟩ := hf.grow
  have hlen : logical - r.base < edited.length ∨ logical < r.base := by
    have := hkin.length_eq
    simp only [rawLen] at hlt
    omega
  refine h.of_same ?_ ?_
  · intro b' hbase hb' ho'
    rw [hf.base] at hbase hb' ⊢
    have hj : logical - r.base < edited.length := by omega
    rw [hout, List.getElem?_append_left hj] at hb'
    obtain ⟨b, hb, hk⟩ : ∃ b, r.out[logical - r.base]? = some b ∧ b.Kin b' := by
      have hj' : logical - r.base < r.out.length := by rw [hkin.length_eq]; exact hj
      refine ⟨_, List.getElem?_eq_getElem hj', ?_⟩
      rw [List.getElem?_eq_getElem hj, Option.some.injEq] at hb'
      exact hb' ▸ (List.forall₂_iff_get.mp hkin).2 _ hj' hj
    refine ⟨b, hbase, hb, hk.opensTurn ▸ ho', ?_⟩
    rw [hout, List.take_append_of_le_length hj.le, kinAll_countP (List.forall₂_take _ hkin)]
  · intro k hk hle hlt'
    have hst : k < r.stampedTimes.length := by rwa [ht.length_stampedTimes]
    have hs := hf.same ht hle hst
    refine ⟨hs, ?_⟩
    have hmono : (r.userTimes.take k).length = (r₁.userTimes.take k).length := by rw [hs.times]
    rw [List.length_take, List.length_take] at hmono
    omega

/-- So does a commit. -/
theorem Settles.finalize {n logical : Nat} {ms : List Message} (h : Settles r n logical ms)
    (ht : Timed r n) :
    Settles (r.finalize sh) (n + (r.out.take r.cut).countP Block.opensTurn) logical ms := by
  refine h.of_same ?_ ?_
  · intro b' hbase hb' ho'
    unfold Replayer.finalize at hbase hb' ⊢
    split at hbase
    · next hcut =>
      rw [if_pos hcut] at hb' ⊢
      exact ⟨b', hbase, hb', ho', by simp [hcut]⟩
    · next hcut =>
      rw [if_neg hcut] at hb' ⊢
      simp only [retire, stamp] at hbase hb' ⊢
      have hj : r.cut + (logical - (r.base + r.cut)) = logical - r.base := by omega
      rw [List.getElem?_drop, hj] at hb'
      refine ⟨b', by omega, hb', ho', ?_⟩
      have hsplit : r.out.take (logical - r.base) =
          r.out.take r.cut ++ (r.out.drop r.cut).take (logical - (r.base + r.cut)) := by
        rw [← hj, List.take_add]
      rw [hsplit, List.countP_append]
      omega
  · intro k _ hle _
    have hs : SameTurns k r (r.finalize sh) := ht.same_finalize hle
    refine ⟨hs, ?_⟩
    have hmono : (r.userTimes.take k).length = ((r.finalize sh).userTimes.take k).length := by
      rw [hs.times]
    rw [List.length_take, List.length_take] at hmono
    omega

end Replayer

namespace Accumulator

variable {ad : Adapter}

/-- A line the preprocessor ignores moves the preprocessor alone. -/
theorem advanceAt_ignored (acc : Accumulator ad) {offset : Nat} {line : String}
    (h : ad.messagesAt acc.pre acc.cwd offset line = none) :
    (acc.advanceAt offset line).1 = { acc with pre := (ad.process acc.pre line).1 } := by
  unfold Adapter.messagesAt at h
  unfold advanceAt decoded
  cases hp : (ad.process acc.pre line).2 with
  | «include» => simp [hp] at h
  | ignore => rfl
  | messages ms => simp [hp] at h

/-- Any other line folds its messages, drains, and folds its usage. -/
theorem advanceAt_folded (acc : Accumulator ad) {offset : Nat} {line : String}
    {ms : List Message} (h : ad.messagesAt acc.pre acc.cwd offset line = some ms) :
    (acc.advanceAt offset line).1 =
      { (acc.foldMessages offset (ad.cwdAfter acc.pre acc.cwd line) ms).1.drain with
        pre := (ad.process acc.pre line).1
        metrics := pushMetrics ad acc.metrics line } := by
  unfold Adapter.messagesAt at h
  unfold advanceAt decoded Adapter.cwdAfter
  cases hp : (ad.process acc.pre line).2 with
  | «include» =>
    simp only [hp, Option.some.injEq] at h
    simp only [h, drain_metrics]
    rfl
  | ignore => simp [hp] at h
  | messages ms₀ =>
    simp only [hp, Option.some.injEq] at h
    simp only [h, drain_metrics]
    rfl

end Accumulator

end ClaudeReplay
