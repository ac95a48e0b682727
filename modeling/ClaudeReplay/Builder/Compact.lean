import ClaudeReplay.Builder.Checkpoint

/-!
# ClaudeReplay.Builder.Compact

Compaction is transparent. A checkpoint says everything the records before it
say, so a stream may open on one; `compact` drops what is before the newest
checkpoint the content stream corroborates. A reader must not be able to tell:
`align` finds the same view, the same committed count and the same resume point
in what is left.

`WellFormed` is what a reader may rely on, and all it needs to: the commit counts
never fall, and a checkpoint that has records before it is what they sum to. It
says nothing about the session that wrote the stream, and every stream of every
session has it whose counters never fall (`Writer.Risen.wellFormed`).

* `alignFrom_append` — alignment folds a prefix it has no reason to stop in;
* `align_rebase` — past a checkpoint, the fold has forgotten what was before it;
* `compact_transparent` — compaction, recovery and the appends after it.
-/

namespace ClaudeReplay

open Lib

/-! ## well-formed streams -/

/-- The view after a stream: its records pushed one by one. -/
def viewOf (records : List MetaRecord) : MaterializedMeta :=
  records.foldl MaterializedMeta.push {}

/-- The committed counts a stream's resume points carry, in order. -/
def resumeIds (records : List MetaRecord) : List Nat :=
  records.filterMap fun r => r.resume.map (·.id)

theorem resumeIds_append (xs ys : List MetaRecord) :
    resumeIds (xs ++ ys) = resumeIds xs ++ resumeIds ys := List.filterMap_append

theorem mem_resumeIds {records : List MetaRecord} {r : MetaRecord} {res : Resume} (h : r ∈ records)
    (hres : r.resume = some res) : res.id ∈ resumeIds records :=
  List.mem_filterMap.mpr ⟨r, h, by rw [hres]; rfl⟩

/-- A stream a reader can trust. -/
structure WellFormed (records : List MetaRecord) : Prop where
  /-- the committed count never falls -/
  ordered : (resumeIds records).Pairwise (· ≤ ·)
  /-- a checkpoint with records before it is what they sum to with its own deltas -/
  honest : ∀ before r after c, records = before ++ r :: after → r.checkpoint = some c →
    before = [] ∨ c = (viewOf before).pushDelta r

/-- No record of a well-formed stream is rejected. -/
theorem WellFormed.not_mismatch {records before after : List MetaRecord} {r : MetaRecord}
    (h : WellFormed records) (hsplit : records = before ++ r :: after) :
    r.isMismatch before.length (viewOf before) = false := by
  unfold MetaRecord.isMismatch
  cases hc : r.checkpoint with
  | none => rfl
  | some c =>
    obtain rfl | hsum := h.honest before r after c hsplit hc
    · simp
    · simp [hsum]

/-- Every resume point before a record stands at or below that record's own. -/
theorem WellFormed.le_id {before after : List MetaRecord} {r : MetaRecord} {res : Resume}
    (h : WellFormed (before ++ r :: after)) (hres : r.resume = some res) :
    ∀ x ∈ before, ∀ res' ∈ x.resume, res'.id ≤ res.id := by
  intro x hx res' hres'
  have hord := h.ordered
  rw [resumeIds_append, List.pairwise_append] at hord
  exact hord.2.2 res'.id (mem_resumeIds hx hres') res.id (mem_resumeIds List.mem_cons_self hres)

/-! ## alignment past a prefix -/

/-- **Alignment folds a prefix** that holds nothing to stop at. -/
theorem alignFrom_append {n folded : Nat} {mm : MaterializedMeta} (best : Option Aligned)
    {xs : List MetaRecord} (ys : List MetaRecord) (hb : ∀ r ∈ xs, r.isBeyond n = false)
    (hm : ∀ before r after, xs = before ++ r :: after →
      r.isMismatch (folded + before.length) (before.foldl MaterializedMeta.push mm) = false) :
    ∃ best', alignFrom n folded mm best (xs ++ ys) =
      alignFrom n (folded + xs.length) (xs.foldl MaterializedMeta.push mm) best' ys := by
  induction xs generalizing folded mm best with
  | nil => exact ⟨best, rfl⟩
  | cons x xs ih =>
    rw [List.forall_mem_cons] at hb
    have hx : x.isMismatch folded mm = false := hm [] x xs rfl
    have hxs : ∀ before r after, xs = before ++ r :: after →
        r.isMismatch (folded + 1 + before.length)
          (before.foldl MaterializedMeta.push (mm.push x)) = false := by
      intro before r after hsplit
      have := hm (x :: before) r after (by rw [hsplit]; rfl)
      rwa [List.length_cons, Nat.add_comm before.length, ← Nat.add_assoc] at this
    have hrest : ∀ best, ∃ best', alignFrom n (folded + 1) (mm.push x) best (xs ++ ys) =
        alignFrom n (folded + (x :: xs).length) ((x :: xs).foldl MaterializedMeta.push mm) best'
          ys := by
      intro best
      obtain ⟨best', hbest⟩ := ih best hb.2 hxs
      refine ⟨best', hbest.trans ?_⟩
      rw [List.length_cons, List.foldl_cons, Nat.add_comm xs.length, Nat.add_assoc]
    rw [List.cons_append, alignFrom]
    simp only [hb.1, hx, Bool.false_eq_true, if_false]
    exact hrest _

/-- What a load recovered, its records counted from the `k`-th on. -/
def Aligned.rebase (k : Nat) (a : Aligned) : Aligned := { a with records := a.records - k }

/-- Where the count of the folded records starts does not matter, past the first. -/
theorem alignFrom_rebase (n k : Nat) {folded : Nat} (hpos : 0 < folded) (mm : MaterializedMeta)
    (best : Option Aligned) (rs : List MetaRecord) :
    alignFrom n folded mm (best.map (Aligned.rebase k)) rs =
      (alignFrom n (folded + k) mm best rs).map (Option.map (Aligned.rebase k)) := by
  induction rs generalizing folded mm best with
  | nil => rfl
  | cons r rs ih =>
    have hsame : r.isMismatch (folded + k) mm = r.isMismatch folded mm := by
      simp [MetaRecord.isMismatch, hpos, Nat.add_pos_left hpos k]
    rw [alignFrom, alignFrom, hsame]
    cases r.isBeyond n with
    | true => rfl
    | false =>
      cases r.isMismatch folded mm with
      | true => rfl
      | false =>
        simp only [Bool.false_eq_true, if_false]
        have hcomm : folded + k + 1 = folded + 1 + k := by omega
        cases r.resume with
        | none => rw [ih (Nat.succ_pos folded), hcomm]
        | some res =>
          have hbest : some (⟨res.id, mm.push r, res, folded + 1⟩ : Aligned) =
              (some ⟨res.id, mm.push r, res, folded + k + 1⟩).map (Aligned.rebase k) := by
            rw [Option.map_some, Aligned.rebase]
            simp only [hcomm, Nat.add_sub_cancel]
          simp only
          rw [hbest, ih (Nat.succ_pos folded), hcomm]

/-- **Past a checkpoint the fold has forgotten what was before it**: a stream that
opens on a corroborated checkpoint aligns as the whole one does. -/
theorem align_rebase {before after : List MetaRecord} {r : MetaRecord} {res : Resume}
    (h : WellFormed (before ++ r :: after)) (hc : r.checkpoint.isSome = true)
    (hres : r.resume = some res) {n : Nat} (hn : res.id ≤ n) :
    align (r :: after) n =
      (align (before ++ r :: after) n).map (Option.map (Aligned.rebase before.length)) := by
  obtain ⟨c, hc⟩ := Option.isSome_iff_exists.mp hc
  have hbefore : ∀ x ∈ before, x.isBeyond n = false := by
    intro x hx
    cases hxr : x.resume with
    | none => simp [MetaRecord.isBeyond, hxr]
    | some res' =>
      have hle := h.le_id hres x hx res' hxr
      simp only [MetaRecord.isBeyond, hxr, Option.any_some, decide_eq_false_iff_not]
      omega
  have hbeyond : r.isBeyond n = false := by
    simp only [MetaRecord.isBeyond, hres, Option.any_some, decide_eq_false_iff_not]
    omega
  have hmiss : ∀ pre x post, before = pre ++ x :: post →
      x.isMismatch (0 + pre.length) (pre.foldl MaterializedMeta.push {}) = false := by
    intro pre x post hsplit
    rw [Nat.zero_add]
    exact @WellFormed.not_mismatch _ pre (post ++ r :: after) x h (by rw [hsplit]; simp)
  obtain ⟨best, hbest⟩ := alignFrom_append none (r :: after) hbefore hmiss
  have hr : r.isMismatch (0 + before.length) (viewOf before) = false := by
    rw [Nat.zero_add]
    exact h.not_mismatch rfl
  have hfirst : r.isMismatch 0 {} = false := by simp [MetaRecord.isMismatch]
  have hpush : ∀ mm : MaterializedMeta, mm.push r = c := fun mm => by
    rw [MaterializedMeta.push, hc]
  rw [align, align, hbest, alignFrom, alignFrom]
  change _ = Except.map _ (if r.isBeyond n then _ else if r.isMismatch _ (viewOf before) then _
    else _)
  simp only [hbeyond, hfirst, hr, hpush, hres, Bool.false_eq_true, if_false]
  have hshift := alignFrom_rebase n before.length Nat.one_pos c
    (some ⟨res.id, c, res, 0 + before.length + 1⟩) after
  rw [Option.map_some, Aligned.rebase] at hshift
  simpa [Nat.add_comm, Nat.add_left_comm] using hshift

/-! ## compaction -/

/-- `compact`: the stream that is left. -/
def compact (records : List MetaRecord) (committedLen compactAfter : Nat) : List MetaRecord :=
  records.drop (compactAt records committedLen compactAfter)

theorem Aligned.rebase_zero : Aligned.rebase 0 = id := rfl

/-- Pushing past a checkpoint starts again from it. -/
theorem viewOf_append_checkpoint {r : MetaRecord} (hc : r.checkpoint.isSome = true)
    (before after : List MetaRecord) : viewOf (before ++ r :: after) = viewOf (r :: after) := by
  obtain ⟨c, hc⟩ := Option.isSome_iff_exists.mp hc
  simp only [viewOf, List.foldl_append, List.foldl_cons, MaterializedMeta.push, hc]

/-- A well-formed stream cut back to one of its checkpoints is well formed. -/
theorem WellFormed.rebase {before after : List MetaRecord} {r : MetaRecord}
    (h : WellFormed (before ++ r :: after)) (hc : r.checkpoint.isSome = true) :
    WellFormed (r :: after) where
  ordered := by
    have hord := h.ordered
    rw [resumeIds_append, List.pairwise_append] at hord
    exact hord.2.1
  honest := by
    intro pre x post c hsplit hx
    cases pre with
    | nil => exact .inl rfl
    | cons y pre =>
      obtain ⟨rfl, rfl⟩ : r = y ∧ after = pre ++ x :: post := by simpa using hsplit
      right
      obtain hnil | hsum := h.honest (before ++ r :: pre) x post c (by simp) hx
      · simp at hnil
      · rwa [viewOf_append_checkpoint hc] at hsum

/-- Alignment ends on a record of the stream that carries a resume point the
content corroborates, with the view after it. -/
theorem alignFrom_found {n folded : Nat} {mm : MaterializedMeta} {best : Option Aligned}
    {rs : List MetaRecord} {a : Aligned} (h : alignFrom n folded mm best rs = .ok (some a)) :
    best = some a ∨ ∃ before r after, rs = before ++ r :: after ∧ r.resume = some a.resume ∧
      a.committed = a.resume.id ∧ a.committed ≤ n ∧ a.records = folded + (before.length + 1) := by
  induction rs generalizing folded mm best with
  | nil =>
    rw [alignFrom, Except.ok.injEq] at h
    exact .inl h
  | cons r rs ih =>
    rw [alignFrom] at h
    split at h
    · rw [Except.ok.injEq] at h
      exact .inl h
    · next hbeyond =>
      split at h
      · contradiction
      · obtain hbest | ⟨before, x, after, rfl, hx, hid, hn, hrec⟩ := ih h
        · cases hres : r.resume with
          | none =>
            rw [hres] at hbest
            exact .inl hbest
          | some res =>
            rw [hres, Option.some.injEq] at hbest
            subst hbest
            simp only [MetaRecord.isBeyond, hres, Option.any_some, decide_eq_true_eq,
              Nat.not_lt] at hbeyond
            exact .inr ⟨[], r, rs, rfl, hres, rfl, hbeyond, rfl⟩
        · refine .inr ⟨r :: before, x, after, rfl, hx, hid, hn, ?_⟩
          rw [hrec, List.length_cons]
          omega

/-! ## the streams of a session -/

variable {ad : Adapter} {T : Transcript}

namespace Accumulator

/-- The resume point a drain authors is numbered by the blocks committed by then. -/
theorem authored_resume (acc : Accumulator ad) :
    ∀ res ∈ acc.authored.2.resume, res.id = acc.settle.1.committed.length := by
  have hauthor : ∀ res ∈ (acc.settle.1.authorResume acc.settle.2).2.resume,
      res.id = acc.settle.1.committed.length := by
    intro res hres
    unfold authorResume at hres
    split at hres
    · rw [acc.settle_resume.1] at hres
      contradiction
    · split at hres
      · obtain rfl := Option.some.inj hres
        rfl
      · rw [acc.settle_resume.1] at hres
        contradiction
  intro res hres
  refine hauthor res ?_
  unfold authored checkpointMaybe at hres
  simp only at hres
  split at hres
  · exact hres
  · split at hres <;> exact hres

/-- What one line adds: committed blocks, taken into the header, and at most one
record, numbered by all of them. -/
structure Adds (acc acc' : Accumulator ad) (drained : List Block) (records : List MetaRecord) :
    Prop where
  committed : acc'.committed = acc.committed ++ drained
  committedMeta : acc'.committedMeta = drained.foldl SessionMeta.push acc.committedMeta
  metaOut : acc'.metaOut = acc.metaOut ++ records
  single : records.length ≤ 1
  numbered : ∀ i ∈ resumeIds records, i = acc'.committed.length

theorem drain_adds (acc : Accumulator ad) : ∃ drained records, acc.Adds acc.drain drained records := by
  cases hd : acc.fold.r.durable.isEmpty with
  | true =>
    have hidle : acc.drain = acc := by simp [drain, hd]
    rw [hidle]
    exact ⟨[], [], by simp, rfl, by simp, by simp, by simp [resumeIds]⟩
  | false =>
    obtain ⟨emitted, n, heq⟩ := acc.drain_eq hd
    rw [heq]
    refine ⟨applySpawnLinks acc.links acc.fold.r.durable, [acc.authored.2], rfl, rfl, rfl,
      Nat.le_refl 1, fun i hi => ?_⟩
    obtain ⟨r, hr, hi⟩ := List.mem_filterMap.mp hi
    obtain rfl := List.mem_singleton.mp hr
    obtain ⟨res, hres, rfl⟩ := Option.map_eq_some_iff.mp hi
    exact acc.authored_resume res hres

theorem advanceAt_adds (acc : Accumulator ad) (offset : Nat) (line : String) :
    ∃ drained records, acc.Adds (acc.advanceAt offset line).1 drained records := by
  cases hms : ad.messagesAt acc.pre acc.cwd offset line with
  | none =>
    rw [acc.advanceAt_ignored hms]
    exact ⟨[], [], by simp, rfl, by simp, by simp, by simp [resumeIds]⟩
  | some ms =>
    rw [acc.advanceAt_folded hms]
    obtain ⟨drained, records, h⟩ :=
      (acc.foldMessages offset (ad.cwdAfter acc.pre acc.cwd line) ms).1.drain_adds
    exact ⟨drained, records, h.committed, h.committedMeta, h.metaOut, h.single, h.numbered⟩

end Accumulator

namespace Writer

/-- The records of a session, flushed or not, are numbered in the order of its
committed blocks. -/
structure Numbered (w : Writer ad) : Prop where
  ordered : (resumeIds (w.log ++ w.acc.metaOut)).Pairwise (· ≤ ·)
  le : ∀ i ∈ resumeIds (w.log ++ w.acc.metaOut), i ≤ w.acc.committed.length

/-- What a resume cuts the records and the blocks to. -/
theorem Numbered.resume {w : Writer ad} (h : w.Numbered) {keep : Nat} {content : List Block}
    {a : Aligned} (halign : align (w.stream.take keep) content.length = .ok (some a)) :
    ∃ before r after, w.log = before ++ r :: after ∧ r.resume = some a.resume ∧
      a.committed = a.resume.id ∧ a.committed ≤ content.length ∧
      a.committed ≤ w.acc.committed.length ∧
      w.log.take (w.dropped + a.records) = before ++ [r] := by
  obtain hnone | ⟨before, r, after, hsplit, hr, hid, hn, hrec⟩ := alignFrom_found halign
  · contradiction
  · have hlog : w.log = (w.log.take w.dropped ++ before) ++
        r :: (after ++ w.stream.drop keep) := by
      have := List.take_append_drop keep w.stream
      rw [hsplit] at this
      rw [List.append_assoc, List.cons_append.symm, ← List.append_assoc before, this, stream,
        List.take_append_drop]
    refine ⟨w.log.take w.dropped ++ before, r, after ++ w.stream.drop keep, hlog, hr, hid, hn,
      ?_, ?_⟩
    · rw [hid]
      refine h.le _ ?_
      have hmem : r ∈ w.log := hlog ▸ List.mem_append_right _ List.mem_cons_self
      exact mem_resumeIds (List.mem_append_left _ hmem) hr
    · have hdropped : (w.log.take w.dropped).length = w.dropped := by
        rw [List.length_take, Nat.min_eq_left]
        by_contra hlt
        have hnil : w.stream = [] := List.drop_eq_nil_of_le (by omega)
        rw [hnil] at hsplit
        simp at hsplit
      have hlen : w.dropped + a.records = (w.log.take w.dropped ++ before).length + 1 := by
        rw [List.length_append, hdropped, hrec]
        omega
      rw [hlen]
      generalize w.log.take w.dropped ++ before = kept at hlog ⊢
      rw [hlog, List.take_length_add_append, List.take_succ_cons, List.take_zero]

/-- The records up to one that a resume aligns on are numbered in order, and by no more blocks. -/
theorem Numbered.upTo {w : Writer ad} (h : w.Numbered) {before after : List MetaRecord}
    {r : MetaRecord} {res : Resume} (hlog : w.log = before ++ r :: after)
    (hr : r.resume = some res) :
    (resumeIds (before ++ [r])).Pairwise (· ≤ ·) ∧ ∀ i ∈ resumeIds (before ++ [r]), i ≤ res.id := by
  have hord := h.ordered
  have hsplit : w.log ++ w.acc.metaOut = (before ++ [r]) ++ (after ++ w.acc.metaOut) := by
    rw [hlog]
    simp
  rw [hsplit, resumeIds_append, List.pairwise_append] at hord
  have hids : resumeIds (before ++ [r]) = resumeIds before ++ [res.id] := by
    rw [resumeIds_append]
    simp [resumeIds, hr]
  have hbefore := hord.1
  rw [hids, List.pairwise_append] at hbefore
  refine ⟨hord.1, fun i hi => ?_⟩
  rw [hids, List.mem_append, List.mem_singleton] at hi
  obtain hi | rfl := hi
  · exact hbefore.2.2 i hi _ (List.mem_singleton_self _)
  · exact Nat.le_refl _

theorem Numbered.step {w w' : Writer ad} (h : w.Numbered) (hs : Step T w w') : w'.Numbered := by
  cases hs with
  | @read offset line rest hrest =>
    obtain ⟨drained, records, hadds⟩ := w.acc.advanceAt_adds offset line
    refine ⟨?_, ?_⟩
    all_goals simp only [hadds.metaOut, ← List.append_assoc]
    all_goals rw [resumeIds_append]
    · rw [List.pairwise_append]
      refine ⟨h.ordered, ?_, fun i hi j hj => ?_⟩
      · exact List.pairwise_of_forall_mem_list fun i hi j hj => by
          rw [hadds.numbered i hi, hadds.numbered j hj]
      · have hle := h.le i hi
        rw [hadds.numbered j hj, hadds.committed, List.length_append]
        omega
    · intro i hi
      obtain hi | hi := List.mem_append.mp hi
      · have hle := h.le i hi
        rw [hadds.committed, List.length_append]
        omega
      · exact (hadds.numbered i hi).le
  | bank => exact ⟨h.ordered, h.le⟩
  | links => exact ⟨h.ordered, h.le⟩
  | flush => exact ⟨by simpa [Accumulator.drainMeta] using h.ordered,
      by simpa [Accumulator.drainMeta] using h.le⟩
  | compact => exact ⟨h.ordered, h.le⟩
  | resume keep content a halign =>
    obtain ⟨before, r, after, hlog, hr, hid, hn, hle, htake⟩ := h.resume halign
    obtain ⟨hordered, hbelow⟩ := h.upTo hlog hr
    have hlen : (content.take a.committed).length = a.committed := by
      rw [List.length_take, Nat.min_eq_left hn]
    refine ⟨?_, ?_⟩
    all_goals simp only [htake, Accumulator.restore, Accumulator.new, List.append_nil]
    · exact hordered
    · rw [hlen, hid]
      exact hbelow
  | cold => exact ⟨.nil, fun i hi => by simp [start, Accumulator.new, resumeIds] at hi⟩

theorem Reachable.numbered {w : Writer ad} (h : Reachable T w) : w.Numbered := by
  induction h with
  | refl => exact ⟨.nil, fun i hi => by simp [start, Accumulator.new, resumeIds] at hi⟩
  | tail _ hs ih => exact ih.step hs

end Writer

/-- The view of a genuine stream is the sum of its deltas. -/
theorem Genuine.foldl_push {mm : MaterializedMeta} {records : List MetaRecord}
    (h : Genuine True T ad mm records) :
    records.foldl MaterializedMeta.push mm = mm.foldDeltas records := by
  induction records generalizing mm with
  | nil => rfl
  | cons r rs ih =>
    rw [List.foldl_cons, (h.1.push (.refl mm)).counted trivial, ih h.2]
    rfl

theorem WellFormed.left {xs ys : List MetaRecord} (h : WellFormed (xs ++ ys)) : WellFormed xs where
  ordered := by
    have hordered := h.ordered
    rw [resumeIds_append, List.pairwise_append] at hordered
    exact hordered.1
  honest before r after c hsplit hc := by
    refine h.honest before r (after ++ ys) c ?_ hc
    rw [hsplit, List.append_assoc, List.cons_append]

namespace Writer

/-- All that a session has flushed is well formed. -/
theorem Risen.log_wellFormed (had : ad.Lawful) {w : Writer ad} (h : Risen T w) :
    WellFormed w.log := by
  have hgen := (genuine_append.mp (h.inv had).genuine).1
  refine ⟨?_, fun before r after c hsplit hc => .inr ?_⟩
  · have hord := h.reachable.numbered.ordered
    rw [resumeIds_append, List.pairwise_append] at hord
    exact hord.1
  · rw [hsplit] at hgen
    have hbefore := (genuine_append.mp hgen).1.foldl_push
    rw [viewOf, hbefore, hgen.checkpoint trivial hc, MaterializedMeta.foldDeltas_append]
    rfl

/-- **Every stream a session leaves on the disk is well formed**, as long as no counter falls. -/
theorem Risen.wellFormed (had : ad.Lawful) {w : Writer ad} (h : Risen T w) :
    WellFormed w.stream := by
  have hlog := h.log_wellFormed had
  obtain hzero | ⟨r, rest, hdrop, hc⟩ := (h.inv had).compacted
  · rw [stream, hzero]
    exact hlog
  · rw [stream, hdrop]
    rw [← List.take_append_drop w.dropped w.log, hdrop] at hlog
    exact hlog.rebase hc

/-- **Compaction is never told.** However a session was cut, resumed, compacted and begun anew, if
no counter fell: what a crash leaves of its stream aligns as it would had nothing ever been dropped,
for content that holds what the stream opens on. -/
theorem stream_align (had : ad.Lawful) {w : Writer ad} (h : Risen T w) {r : MetaRecord}
    {rest : List MetaRecord} {res : Resume} {n : Nat} (hopen : w.stream = r :: rest)
    (hres : r.resume = some res) (hn : res.id ≤ n) (keep : Nat) :
    align (w.stream.take (keep + 1)) n =
      (align (w.log.take (w.dropped + (keep + 1))) n).map
        (Option.map (Aligned.rebase w.dropped)) := by
  obtain hzero | ⟨r', rest', hdrop, hc⟩ := (h.inv had).compacted
  · rw [stream, hzero, List.drop_zero, Nat.zero_add, Aligned.rebase_zero, Option.map_id]
    cases align (w.log.take (keep + 1)) n <;> rfl
  · obtain ⟨rfl, rfl⟩ := List.cons.inj (hdrop.symm.trans hopen)
    have hlen : (w.log.take w.dropped).length = w.dropped := by
      rw [List.length_take, Nat.min_eq_left]
      by_contra hlt
      rw [List.drop_eq_nil_of_le (by omega)] at hdrop
      cases hdrop
    have hsplit : w.log.take (w.dropped + (keep + 1)) =
        w.log.take w.dropped ++ r' :: rest'.take keep := by
      rw [List.take_add, hdrop, List.take_succ_cons]
    have hwell := h.log_wellFormed had
    rw [← List.take_append_drop (w.dropped + (keep + 1)) w.log] at hwell
    have hsame := align_rebase (hsplit ▸ hwell.left) hc hres hn
    rw [hlen] at hsame
    rw [hopen, List.take_succ_cons, hsplit, hsame]

theorem stream_align_compacted :
    ∃ w : Writer .metered, Risen (metered 1) w ∧ w.dropped = 63 ∧
      align (w.stream.take 2) 65 =
        (align (w.log.take 65) 65).map (Option.map (Aligned.rebase 63)) := by
  let w := meteredOnce
  let w' : Writer .metered := { w with dropped := w.dropped + compactAt w.stream 65 1 }
  have hrisen : Risen (metered 1) w' := meteredOnce_risen.tail (.compact w 65 1)
  have hdropped : w'.dropped = 63 := by decide +kernel
  have hopen : (w'.stream.head?.bind fun r => r.resume).any (·.id ≤ 65) = true := by
    decide +kernel
  obtain ⟨res, hres, hn⟩ := (Option.any_eq_true _ _).mp hopen
  obtain ⟨r, hr, hres⟩ := Option.bind_eq_some_iff.mp hres
  obtain ⟨rest, hstream⟩ := List.head?_eq_some_iff.mp hr
  have hsame := stream_align Adapter.metered_lawful hrisen hstream hres (by simpa using hn) 1
  rw [hdropped] at hsame
  exact ⟨w', hrisen, hdropped, hsame⟩

end Writer

end ClaudeReplay
