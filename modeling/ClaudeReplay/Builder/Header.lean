import ClaudeReplay.Builder.Compact

/-!
# ClaudeReplay.Builder.Header

The live header is the batch header. An accumulator counts a block once, when it
commits it (`committedMeta`), and counts the open turn afresh on every read
(`Accumulator.sessionMeta`); a resumed one takes the counts over from the records
and the blocks from the content log. `Writer.Headed` says that at every commit
the records speak for exactly the blocks below it, which is what a resume that
cuts both needs; `session_meta_eq_build` is the result.
-/

namespace ClaudeReplay

open Lib

variable {ad : Adapter} {T : Transcript}

namespace Accumulator

/-- `session_meta`: the committed header with the finalized open turn folded on top. -/
def sessionMeta (acc : Accumulator ad) : SessionMeta :=
  acc.provisional.foldl SessionMeta.push acc.committedMeta

theorem sessionMeta_eq_build {acc : Accumulator ad}
    (h : acc.committedMeta = SessionMeta.build acc.committed) :
    acc.sessionMeta = SessionMeta.build acc.blocks := by
  rw [sessionMeta, blocks, SessionMeta.build_append, h]

end Accumulator

namespace Writer

/-- A step of a session whose content log is its own committed blocks: appends
extend it and a crash cuts it, so of the committed zones before and after, one is
a prefix of the other. -/
def Lives (T : Transcript) (w w' : Writer ad) : Prop :=
  Step T w w' ∧ (w.acc.committed <+: w'.acc.committed ∨ w'.acc.committed <+: w.acc.committed)

/-- A session over its own content log reads as any session does. -/
theorem Lives.read {w : Writer ad} {offset : Nat} {line : String} {rest : List (Nat × String)}
    (h : w.rest = (offset, line) :: rest) :
    Lives T w { w with acc := (w.acc.advanceAt offset line).1, rest } := by
  obtain ⟨drained, records, hadds⟩ := w.acc.advanceAt_adds offset line
  refine ⟨.read h, .inl ?_⟩
  simp only [hadds.committed]
  exact List.prefix_append _ _

theorem Lives.flush (w : Writer ad) :
    Lives T w { w with acc := w.acc.drainMeta.2, log := w.log ++ w.acc.drainMeta.1 } :=
  ⟨.flush w, .inl (List.prefix_refl _)⟩

/-- Whatever is left of its content log, and of its stream, it resumes from that. -/
theorem Lives.resume (w : Writer ad) (keep kept : Nat) (a : Aligned)
    (h : align (w.stream.take keep) (w.acc.committed.take kept).length = .ok (some a)) :
    Lives T w {
      acc := .restore ad ((w.acc.committed.take kept).take a.committed) a.mm a.resume
      rest := T.from a.resume.replayFrom
      log := w.log.take (w.dropped + a.records)
      dropped := w.dropped } :=
  ⟨.resume w keep _ a h, .inr ((List.take_prefix _ _).trans (List.take_prefix _ _))⟩

/-- A state some life of a session leads to. -/
abbrev Lived (T : Transcript) (w : Writer ad) : Prop :=
  Relation.ReflTransGen (Lives T) (start T ad) w

theorem Lived.reachable {w : Writer ad} (h : Lived T w) : Reachable T w :=
  Relation.ReflTransGen.mono (fun _ _ hs => hs.1) _ _ h

/-! ## what the records say of the blocks -/

/-- The committed header counts the committed blocks, and so does the sum of the
records at every resume point, for the blocks below it. -/
structure Headed (w : Writer ad) : Prop where
  committed : w.acc.committedMeta = SessionMeta.build w.acc.committed
  resumes : ∀ before r after res, w.log ++ w.acc.metaOut = before ++ r :: after →
    r.resume = some res → (({} : MaterializedMeta).foldDeltas (before ++ [r])).sessionMeta =
      SessionMeta.build (w.acc.committed.take res.id)

/-- The records that were there already still speak for the same blocks. -/
theorem Headed.resumes_of_prefix {w : Writer ad} (h : w.Headed) (hn : w.Numbered)
    {before after : List MetaRecord} {r : MetaRecord} {res : Resume}
    (hsplit : w.log ++ w.acc.metaOut = before ++ r :: after) (hres : r.resume = some res)
    (drained : List Block) :
    (({} : MaterializedMeta).foldDeltas (before ++ [r])).sessionMeta =
      SessionMeta.build ((w.acc.committed ++ drained).take res.id) := by
  have hle : res.id ≤ w.acc.committed.length :=
    hn.le _ (mem_resumeIds (by simp [hsplit]) hres)
  rw [List.take_append_of_le_length hle]
  exact h.resumes before r after res hsplit hres

/-- A split of a list with at most one more element is one of the list, or the
element itself. -/
theorem split_append_single {α : Type} {xs more before after : List α} {x : α}
    (h : xs ++ more = before ++ x :: after) (hmore : more.length ≤ 1) :
    (∃ after', xs = before ++ x :: after') ∨ (before = xs ∧ more = [x]) := by
  match more, hmore with
  | [], _ => exact .inl ⟨after, by rw [← h, List.append_nil]⟩
  | [y], _ =>
    obtain rfl | ⟨init, z, rfl⟩ := List.eq_nil_or_concat after
    · obtain ⟨rfl, hy⟩ := List.append_inj' h rfl
      exact .inr ⟨rfl, hy⟩
    · have hlast : xs ++ [y] = (before ++ x :: init) ++ [z] := by simpa using h
      exact .inl ⟨init, (List.append_inj' hlast rfl).1⟩

theorem Headed.step (had : ad.Lawful) {w w' : Writer ad} (hreach : Reachable T w) (h : w.Headed)
    (hs : Lives T w w') : w'.Headed := by
  have hn := hreach.numbered
  -- after the step too, the sum of the records is the committed header
  have hmirror := ((hreach.inv had).step had hs.1 False.elim).sound.mirrors.sessionMeta
  obtain ⟨hs, hzones⟩ := hs
  cases hs with
  | @read offset line rest hrest =>
    obtain ⟨drained, records, hadds⟩ := w.acc.advanceAt_adds offset line
    have hbuild : (w.acc.advanceAt offset line).1.committedMeta =
        SessionMeta.build (w.acc.advanceAt offset line).1.committed := by
      rw [hadds.committedMeta, hadds.committed, SessionMeta.build_append, h.committed]
    refine ⟨hbuild, fun before r after res hsplit hres => ?_⟩
    simp only [hadds.metaOut, ← List.append_assoc] at hsplit
    obtain ⟨after', hold⟩ | ⟨rfl, rfl⟩ := split_append_single hsplit hadds.single
    · rw [hadds.committed]
      exact h.resumes_of_prefix hn hold hres drained
    · have hid := hadds.numbered res.id (by simp [resumeIds, hres])
      simp only [hadds.metaOut, ← List.append_assoc] at hmirror
      rw [hmirror, hbuild, hid, List.take_length]
  | bank => exact ⟨h.committed, h.resumes⟩
  | links => exact ⟨h.committed, h.resumes⟩
  | flush =>
    refine ⟨h.committed, fun before r after res hsplit hres => ?_⟩
    exact h.resumes before r after res (by simpa [Accumulator.drainMeta] using hsplit) hres
  | compact => exact ⟨h.committed, h.resumes⟩
  | resume keep content a halign =>
    obtain ⟨before, r, after, hlog, hr, hid, hle, hle', htake⟩ := hn.resume halign
    have hlen : (content.take a.committed).length = a.committed := by
      rw [List.length_take, Nat.min_eq_left hle]
    -- the blocks kept are those the last record kept was written for
    have hkept : content.take a.committed = w.acc.committed.take a.committed := by
      have hzones : w.acc.committed <+: content.take a.committed ∨
          content.take a.committed <+: w.acc.committed := hzones
      obtain hpre | hpre := hzones
      · have heq := hpre.eq_of_length_le (by omega)
        rw [← heq, List.take_of_length_le (by rw [heq]; omega)]
      · have heq := List.prefix_iff_eq_take.mp hpre
        rwa [hlen] at heq
    simp only [Accumulator.restore, Accumulator.new, List.append_nil, htake] at hmirror
    refine ⟨?_, fun before' r' after' res' hsplit hres' => ?_⟩
    · have hbuild := h.resumes before r (after ++ w.acc.metaOut) a.resume (by rw [hlog]; simp) hr
      rw [hmirror, ← hid, ← hkept] at hbuild
      exact hbuild
    · simp only [Accumulator.restore, Accumulator.new, List.append_nil, htake] at hsplit ⊢
      have hwhole : w.log ++ w.acc.metaOut = before' ++ r' :: (after' ++ (after ++ w.acc.metaOut)) := by
        rw [hlog, ← List.cons_append, ← List.append_assoc before', ← hsplit]
        simp
      have hin : res'.id ≤ a.committed := by
        rw [hid]
        exact (hn.upTo hlog hr).2 _ (mem_resumeIds (by simp [hsplit]) hres')
      rw [hkept, List.take_take, Nat.min_eq_left hin]
      exact h.resumes before' r' _ res' hwhole hres'
  | cold =>
    refine ⟨rfl, fun before r after res hsplit _ => ?_⟩
    simp [start, Accumulator.new] at hsplit

theorem Lived.headed (had : ad.Lawful) {w : Writer ad} (h : Lived T w) : w.Headed := by
  induction h with
  | refl =>
    refine ⟨rfl, fun before r after res hsplit _ => ?_⟩
    simp [start, Accumulator.new] at hsplit
  | tail hprev hs ih => exact Headed.step had (Lived.reachable hprev) ih hs

/-- **What a session resumes with**: the header of the blocks that are kept, and the times its
fold had for their turns. -/
theorem Lived.resume_times (had : ad.Lawful) {w : Writer ad} (h : Lived T w) {keep kept : Nat}
    {a : Aligned}
    (halign : align (w.stream.take keep) (w.acc.committed.take kept).length = .ok (some a)) :
    a.mm.sessionMeta = SessionMeta.build ((w.acc.committed.take kept).take a.committed) ∧
    a.mm.userTimes = w.acc.fold.r.userTimes.take
      (((w.acc.committed.take kept).take a.committed).countP Block.opensTurn) := by
  have hreach := Lived.reachable h
  have hstep := Lives.resume (T := T) w keep kept a halign
  have hnext := (Lived.headed had (h.tail hstep)).committed
  have hsound := ((hreach.inv had).step had hstep.1 False.elim).sound
  have hnow := (hreach.inv had).sound.mirrors.userTimes
  obtain ⟨before, r, after, hlog, -, -, -, -, htake⟩ := hreach.numbered.resume halign
  simp only [Accumulator.restore, Accumulator.new] at hnext
  -- the resumed fold holds a time for each turn kept, and no others
  have hturns : a.mm.sessionMeta.turns =
      ((w.acc.committed.take kept).take a.committed).countP Block.opensTurn := by
    rw [hnext, SessionMeta.build, SessionMeta.foldl_push_turns]
    exact Nat.zero_add _
  have hlen : a.mm.userTimes.length = a.mm.sessionMeta.turns := by
    have htimes := hsound.timed.times
    simpa [Accumulator.restore, Accumulator.new, Accumulator.turns, Fold.start,
      Replayer.Start.replayer, Replayer.reseed, Replayer.new] using htimes
  have hkept : (({} : MaterializedMeta).foldDeltas (before ++ [r])).userTimes =
      a.mm.userTimes := by
    have hmirror := hsound.mirrors.userTimes
    simp only [Accumulator.restore, Accumulator.new, List.append_nil, htake, Fold.start,
      Replayer.Start.replayer, Replayer.reseed] at hmirror
    rw [hmirror, ← hlen, List.take_length]
  -- and they are the first ones of the fold that wrote the records
  have hfirst : a.mm.userTimes <+: w.acc.fold.r.userTimes := by
    have hall : (({} : MaterializedMeta).foldDeltas (w.log ++ w.acc.metaOut)).userTimes =
        a.mm.userTimes ++ (after ++ w.acc.metaOut).flatMap (·.userTimes) := by
      rw [← hkept, hlog, MaterializedMeta.foldDeltas_userTimes,
        MaterializedMeta.foldDeltas_userTimes]
      simp
    rw [hnow] at hall
    have hpre : a.mm.userTimes <+: w.acc.fold.r.userTimes.take w.acc.committedMeta.turns :=
      ⟨_, hall.symm⟩
    exact hpre.trans (List.take_prefix _ _)
  have heq := List.prefix_iff_eq_take.mp hfirst
  rw [hlen, hturns] at heq
  exact ⟨hnext, heq⟩

/-- Three prompts. -/
def prompts : Transcript := ⟨[(0, "a"), (9, "b"), (18, "c")], by decide⟩

def prompter : Adapter := .scripted fun line => [.lineStart none, .userText line]

theorem prompter_lawful : prompter.Lawful :=
  Adapter.scripted_lawful fun line => .headed none _ (by simp [Message.isLineStart])

/-- The session of the prompts, all of them read. -/
def prompted : Writer prompter :=
  { start prompts prompter with
    acc := (start prompts prompter).acc.advanceAll prompts.lines, rest := [] }

/-- And flushed. -/
def flushed : Writer prompter :=
  { prompted with acc := prompted.acc.drainMeta.2, log := prompted.log ++ prompted.acc.drainMeta.1 }

theorem lived_flushed : Lived prompts flushed :=
  .tail (reads (fun _ _ _ _ => .read) (List.append_nil _).symm) (.flush prompted)

/-- What is kept where a crash leaves one record and one block. -/
def oneKept : Aligned :=
  ⟨1, { sessionMeta := ⟨1, 0, []⟩, userTimes := [none], turnDurations := [none] },
    ⟨1, 9, none, none, .null, .null⟩, 1⟩

theorem align_flushed :
    align (flushed.stream.take 1) (flushed.acc.committed.take 1).length = .ok (some oneKept) := by
  decide +kernel

/-- Three prompts, of which a crash leaves one record and one block. -/
theorem resume_times_prompts :
    ∃ (w : Writer (.scripted fun line => [.lineStart none, .userText line])) (a : Aligned),
      w.acc.fold.r.userTimes = [none, none, none] ∧
      align (w.stream.take 1) (w.acc.committed.take 1).length = .ok (some a) ∧
      a.mm.sessionMeta = SessionMeta.build ((w.acc.committed.take 1).take a.committed) ∧
      a.mm.userTimes = w.acc.fold.r.userTimes.take
        (((w.acc.committed.take 1).take a.committed).countP Block.opensTurn) := by
  exact ⟨flushed, oneKept, by decide +kernel, align_flushed,
    lived_flushed.resume_times prompter_lawful align_flushed⟩

/-- **The live header is the batch header.** At every point of every life of a
session over its own content log, lines read one by one with commits in between,
records flushed and compacted, the session resumed from whatever a crash left of
both files: the maintained header is the header built over the committed blocks
and the open turn. -/
theorem session_meta_eq_build (had : ad.Lawful) {w : Writer ad} (h : Lived T w) :
    w.acc.sessionMeta = SessionMeta.build w.acc.blocks :=
  Accumulator.sessionMeta_eq_build (h.headed had).committed

/-- Three prompts, resumed after the second commit from one record and one block:
the header counts the committed prompt and the open one again. -/
theorem session_meta_eq_build_resumed :
    ∃ w : Writer (.scripted fun line => [.lineStart none, .userText line]),
      Lived ⟨[(0, "a"), (9, "b"), (18, "c")], by decide⟩ w ∧
      w.acc.committed = [.userText "a"] ∧ w.acc.sessionMeta.turns = 2 ∧
      w.acc.sessionMeta = SessionMeta.build w.acc.blocks := by
  let w : Writer prompter := {
    acc := .restore prompter ((flushed.acc.committed.take 1).take 1) oneKept.mm oneKept.resume
    rest := prompts.from oneKept.resume.replayFrom
    log := flushed.log.take (flushed.dropped + 1)
    dropped := flushed.dropped }
  have hresumed : Lived prompts w := lived_flushed.tail (.resume flushed 1 1 oneKept align_flushed)
  have hlived : Lived prompts { w with acc := (w.acc.advanceAt 9 "b").1, rest := [(18, "c")] } :=
    hresumed.tail (.read (by decide +kernel))
  exact ⟨_, hlived, by decide +kernel, by decide +kernel,
    session_meta_eq_build prompter_lawful hlived⟩

end Writer

end ClaudeReplay
