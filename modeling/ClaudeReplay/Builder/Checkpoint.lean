import ClaudeReplay.Builder.Mirror

/-!
# ClaudeReplay.Builder.Checkpoint

Checkpoint agreement, over the whole life of a meta stream. `Writer` is a session
and its stream: the accumulator, the lines it has not read yet, the records that
reached the disk, and how many of them a compaction has dropped since.

`Writer.Step` is everything that happens to it. The follower reads a line, banks
the read layer's gauges, takes fresh spawn links, or flushes the drained records;
the housekeeper compacts; a crash loses a tail of the stream, and the next
process resumes from what `align` finds in the rest, or starts over.

`Writer.Inv` says that every record is faithful to the sum of those before it. A
record's deltas are saturating differences, so what it says of the counters rests
on none of them falling; they are machine words, and wrap. The invariant holds of
every reachable state for the rest (`Reachable.inv`), and for the counters too of
every run in which none falls (`Risen.inv`). In such a run no alignment ever meets
a checkpoint that disagrees (`checkpoint_agreement`); in one that wraps a counter it
does (`checkpoint_disagrees`).
-/

namespace ClaudeReplay

open Lib Replayer

variable {ad : Adapter} {T : Transcript} {growing : Prop}

/-! ## genuine streams -/

/-- A stream each of whose records is faithful to the sum before it, from `mm` on. -/
def Genuine (growing : Prop) (T : Transcript) (ad : Adapter) :
    MaterializedMeta → List MetaRecord → Prop
  | _, [] => True
  | mm, r :: rs => r.Faithful growing T ad mm ∧ Genuine growing T ad (mm.pushDelta r) rs

theorem genuine_append {mm : MaterializedMeta} {xs ys : List MetaRecord} :
    Genuine growing T ad mm (xs ++ ys) ↔
      Genuine growing T ad mm xs ∧ Genuine growing T ad (mm.foldDeltas xs) ys := by
  induction xs generalizing mm with
  | nil => exact ⟨fun h => ⟨trivial, h⟩, fun h => h.2⟩
  | cons x xs ih =>
    rw [List.cons_append, Genuine, ih, Genuine, and_assoc]
    rfl

theorem Genuine.take {mm : MaterializedMeta} {xs : List MetaRecord}
    (h : Genuine growing T ad mm xs) (n : Nat) : Genuine growing T ad mm (xs.take n) := by
  rw [← List.take_append_drop n xs, genuine_append] at h
  exact h.1

/-- Every checkpoint of a genuine stream is the sum of the records up to its own. -/
theorem Genuine.checkpoint {mm : MaterializedMeta} {before after : List MetaRecord}
    {r : MetaRecord} {c : MaterializedMeta} (h : Genuine growing T ad mm (before ++ r :: after))
    (hg : growing) (hc : r.checkpoint = some c) : c = mm.foldDeltas (before ++ [r]) := by
  rw [genuine_append] at h
  rw [MaterializedMeta.foldDeltas_append]
  exact (h.2.1.checkpoint c hc).counted hg

/-- Folding a faithful record is summing it, whether its checkpoint is adopted or not. -/
theorem MetaRecord.Faithful.push {mm mm' : MaterializedMeta} {r : MetaRecord}
    (h : r.Faithful growing T ad mm) (ha : mm'.Agrees growing mm) :
    (mm'.push r).Agrees growing (mm.pushDelta r) := by
  unfold MaterializedMeta.push
  split
  · next c hc => exact h.checkpoint c hc
  · exact ha.pushDelta r

theorem MetaRecord.Faithful.not_mismatch {mm : MaterializedMeta} {r : MetaRecord}
    (h : r.Faithful growing T ad mm) (hg : growing) (folded : Nat) :
    r.isMismatch folded mm = false := by
  unfold isMismatch
  cases hc : r.checkpoint with
  | none => rfl
  | some c => simp [(h.checkpoint c hc).counted hg]

/-- What an alignment of a genuine stream finds: the sum up to some record, and a
resume point that continues it. -/
def Found (growing : Prop) (T : Transcript) (ad : Adapter) (mm : MaterializedMeta) (folded : Nat)
    (rs : List MetaRecord) (a : Aligned) : Prop :=
  a.resume.Resumes growing T ad a.mm ∧ ∃ k, k < rs.length ∧ a.records = folded + (k + 1) ∧
    a.mm.Agrees growing (mm.foldDeltas (rs.take (k + 1)))

theorem Found.cons {mm : MaterializedMeta} {folded : Nat} {r : MetaRecord} {rs : List MetaRecord}
    {a : Aligned} (h : Found growing T ad (mm.pushDelta r) (folded + 1) rs a) :
    Found growing T ad mm folded (r :: rs) a := by
  obtain ⟨hres, k, hk, hrec, hmm⟩ := h
  exact ⟨hres, k + 1, by rw [List.length_cons]; omega, by rw [hrec]; omega, hmm⟩

theorem MetaRecord.Faithful.found {mm view : MaterializedMeta} {r : MetaRecord}
    (h : r.Faithful growing T ad mm) (ha : view.Agrees growing (mm.pushDelta r)) {res : Resume}
    (hres : r.resume = some res) (folded : Nat) (rs : List MetaRecord) :
    Found growing T ad mm folded (r :: rs) ⟨res.id, view, res, folded + 1⟩ :=
  ⟨(h.resume res hres).agrees ha.symm, 0, by simp, rfl, ha⟩

/-- **Alignment accepts a genuine stream** of growing counters, and finds nothing
but its records. -/
theorem alignFrom_genuine {mm view : MaterializedMeta} {rs : List MetaRecord}
    (h : Genuine growing T ad mm rs) (ha : view.Agrees growing mm) (n folded : Nat)
    (best : Option Aligned) :
    (growing → ∃ best', alignFrom n folded view best rs = .ok best') ∧
      ∀ a, alignFrom n folded view best rs = .ok (some a) →
        best = some a ∨ Found growing T ad mm folded rs a := by
  induction rs generalizing mm view folded best with
  | nil => exact ⟨fun _ => ⟨best, rfl⟩, fun a ha => .inl (Except.ok.inj ha)⟩
  | cons r rs ih =>
    obtain ⟨hr, hrs⟩ := h
    have hpush := hr.push ha
    unfold alignFrom
    cases r.isBeyond n with
    | true => exact ⟨fun _ => ⟨best, by simp⟩, fun a ha => .inl (by simpa using ha)⟩
    | false =>
      cases hm : r.isMismatch folded view with
      | true =>
        refine ⟨fun hg => ?_, fun a ha => by simp at ha⟩
        rw [ha.counted hg, hr.not_mismatch hg] at hm
        contradiction
      | false =>
        simp only [Bool.false_eq_true, if_false]
        cases hres : r.resume with
        | none =>
          obtain ⟨hok, hfound⟩ := ih hrs hpush (folded + 1) best
          exact ⟨hok, fun a ha => (hfound a ha).imp_right .cons⟩
        | some res =>
          obtain ⟨hok, hfound⟩ := ih hrs hpush (folded + 1)
            (some ⟨res.id, view.push r, res, folded + 1⟩)
          refine ⟨hok, fun a ha => ?_⟩
          obtain heq | hf := hfound a ha
          · exact .inr (Option.some.inj heq ▸ hr.found hpush hres folded rs)
          · exact .inr hf.cons

/-! ## compacted streams -/

/-- A stream as it stands on the disk: the records of `log` but for the first
`dropped`, and those only where a checkpoint has taken their place. -/
def Compacted (dropped : Nat) (log : List MetaRecord) : Prop :=
  dropped = 0 ∨ ∃ r rest, log.drop dropped = r :: rest ∧ r.checkpoint.isSome = true

/-- A compacted stream aligns as the whole one would. -/
theorem align_genuine {log : List MetaRecord} (h : Genuine growing T ad {} log) {dropped : Nat}
    (hc : Compacted dropped log) (keep n : Nat) :
    (growing → ∃ best, align ((log.drop dropped).take keep) n = .ok best) ∧
      ∀ a, align ((log.drop dropped).take keep) n = .ok (some a) →
        Found growing T ad (({} : MaterializedMeta).foldDeltas (log.take dropped)) 0
          ((log.drop dropped).take keep) a := by
  have hsplit := h
  rw [← List.take_append_drop dropped log, genuine_append] at hsplit
  have hrest := hsplit.2.take keep
  obtain hzero | ⟨r, rest, hdrop, hcheck⟩ := hc
  · subst hzero
    rw [List.drop_zero, List.take_zero] at hrest ⊢
    obtain ⟨hok, hfound⟩ := alignFrom_genuine hrest (.refl _) n 0 none
    exact ⟨hok, fun a ha => (hfound a ha).resolve_left (by simp)⟩
  · rw [hdrop] at hrest ⊢
    cases keep with
    | zero => exact ⟨fun _ => ⟨none, rfl⟩, fun a ha => by simp [align, alignFrom] at ha⟩
    | succ keep =>
      rw [List.take_succ_cons] at hrest ⊢
      obtain ⟨hr, hrs⟩ := hrest
      obtain ⟨c, hcp⟩ := Option.isSome_iff_exists.mp hcheck
      -- the first record's checkpoint is adopted, whatever the view before it
      have hpush : (({} : MaterializedMeta).push r).Agrees growing
          ((({} : MaterializedMeta).foldDeltas (log.take dropped)).pushDelta r) := by
        rw [MaterializedMeta.push, hcp]
        exact hr.checkpoint c hcp
      have hfirst : r.isMismatch 0 {} = false := by simp [MetaRecord.isMismatch]
      unfold align alignFrom
      cases r.isBeyond n with
      | true => exact ⟨fun _ => ⟨none, by simp⟩, fun a ha => by simp at ha⟩
      | false =>
        simp only [hfirst, Bool.false_eq_true, if_false]
        cases hres : r.resume with
        | none =>
          obtain ⟨hok, hfound⟩ := alignFrom_genuine hrs hpush n 1 none
          exact ⟨hok, fun a ha => ((hfound a ha).resolve_left (by simp)).cons⟩
        | some res =>
          obtain ⟨hok, hfound⟩ := alignFrom_genuine hrs hpush n 1
            (some ⟨res.id, _, res, 1⟩)
          refine ⟨hok, fun a ha => ?_⟩
          obtain heq | hf := hfound a ha
          · exact Option.some.inj heq ▸ hr.found hpush hres 0 (rest.take keep)
          · exact hf.cons

/-- `compact`: how many records of a stream a compaction drops, those before the
newest checkpoint the content stream corroborates, once they are enough. -/
def compactAt (records : List MetaRecord) (committedLen compactAfter : Nat) : Nat :=
  match rposition (fun r => r.checkpoint.isSome &&
      r.resume.any fun res => decide (res.id ≤ committedLen)) records with
  | some at_ => if at_ < compactAfter then 0 else at_
  | none => 0

theorem Compacted.compactAt {dropped : Nat} {log : List MetaRecord} (h : Compacted dropped log)
    (n after : Nat) : Compacted (dropped + compactAt (log.drop dropped) n after) log := by
  unfold ClaudeReplay.compactAt
  cases hpos : rposition _ (log.drop dropped) with
  | none => exact h
  | some i =>
    simp only
    split
    · exact h
    · obtain ⟨pre, r, post, hlog, rfl, hr, -⟩ := rposition_eq_some hpos
      refine .inr ⟨r, post, ?_, (Bool.and_eq_true_iff.mp hr).1⟩
      rw [← List.drop_drop, hlog, List.drop_left]

theorem Compacted.append {dropped : Nat} {log : List MetaRecord} (h : Compacted dropped log)
    (more : List MetaRecord) : Compacted dropped (log ++ more) := by
  obtain hzero | ⟨r, rest, hdrop, hr⟩ := h
  · exact .inl hzero
  · refine .inr ⟨r, rest ++ more, ?_, hr⟩
    have hlt : dropped < log.length := by
      have := congrArg List.length hdrop
      rw [List.length_drop, List.length_cons] at this
      omega
    rw [List.drop_append_of_le_length hlt.le, hdrop, List.cons_append]

theorem Compacted.take {dropped : Nat} {log : List MetaRecord} (h : Compacted dropped log)
    (k : Nat) : Compacted dropped (log.take (dropped + (k + 1))) := by
  obtain hzero | ⟨r, rest, hdrop, hr⟩ := h
  · exact .inl hzero
  · refine .inr ⟨r, rest.take k, ?_, hr⟩
    rw [← List.take_drop, hdrop, List.take_succ_cons]

/-! ## the accumulator between two lines -/

namespace Accumulator

variable {acc : Accumulator ad} {mm : MaterializedMeta}

/-- The next line is the one the fold was resumed at: its window is still empty,
and the line's durations are already settled. -/
def Rereads (acc : Accumulator ad) (rest : List (Nat × String)) : Prop :=
  acc.fold.r.out = [] ∧ ∃ offset line after ms, rest = (offset, line) :: after ∧
    ad.messagesAt acc.pre acc.cwd offset line = some ms ∧ ms.any Message.canOpenTurn = true ∧
    ms.foldl (durationStep acc.fold.r.userTimes) acc.fold.r.turnDurations =
      acc.fold.r.turnDurations

/-- The next line cannot reach the committed turns' durations: there are none, or
a later turn is open, or the line has settled them before. -/
def Ready (acc : Accumulator ad) (rest : List (Nat × String)) : Prop :=
  acc.turns = 0 ∨ acc.fold.r.out.any Block.opensTurn = true ∨ acc.Rereads rest

/-- Stamping an empty window does nothing. -/
theorem stamp_turnDurations_of_nil {r : Replayer} {n : Nat} (ht : r.Timed n) (h : r.out = []) :
    r.stampedTimes = r.userTimes ∧ r.stamp.turnDurations = r.turnDurations := by
  have htimes : r.stampedTimes = r.userTimes := by simp [stampedTimes, h]
  refine ⟨htimes, ?_⟩
  simp only [stamp, htimes]
  exact resize_of_length ht.durations none

/-- **A line keeps the committed turns.** -/
theorem Ready.same {rest : List (Nat × String)} {offset : Nat} {line : String}
    {after : List (Nat × String)} {ms : List Message} (h : acc.Ready rest) (hs : acc.Sound growing T mm)
    (hd : acc.fold.r.durable = []) (hrest : rest = (offset, line) :: after)
    (hms : ad.messagesAt acc.pre acc.cwd offset line = some ms) (r₁ : Replayer)
    (hf : acc.fold.r.Folded ms r₁) :
    SameTurns acc.committedMeta.turns acc.fold.r r₁ := by
  have hturns : acc.turns = acc.committedMeta.turns := by simp [turns, hd]
  have ht := hs.timed
  rw [hturns] at ht
  obtain hzero | hany | ⟨hout, offset', line', after', ms', hrest', hms', -, hidem⟩ := h
  · rw [hturns] at hzero
    rw [hzero]
    exact ⟨by simp, by simp⟩
  · have hpos : 0 < acc.fold.r.out.countP Block.opensTurn := by
      rw [List.countP_pos_iff]
      exact List.any_eq_true.mp hany
    exact hf.same ht ht.le (by rw [ht.length_stampedTimes]; omega)
  · obtain ⟨⟨rfl, rfl⟩, rfl⟩ : ((offset', line') = (offset, line)) ∧ after' = after := by
      simpa using hrest'.symm.trans hrest
    obtain rfl := Option.some.inj (hms'.symm.trans hms)
    obtain ⟨htimes, hdur⟩ := stamp_turnDurations_of_nil ht hout
    cases hf with
    | @headed ts ms _ he _ =>
      refine ⟨by rw [he.userTimes]; exact congrArg _ htimes, congrArg _ ?_⟩
      have hfold : r₁.turnDurations =
          ms.foldl (durationStep acc.fold.r.stampedTimes) acc.fold.r.stamp.turnDurations :=
        he.turnDurations
      rw [hfold, htimes, hdur]
      exact hidem
    | headless hnone he =>
      refine ⟨by rw [he.userTimes], ?_⟩
      rw [he.turnDurations, foldl_durationStep_of_not fun m hm => (hnone m hm).1]

theorem drain_fold (acc : Accumulator ad) :
    acc.drain.fold.r = { acc.fold.r with durable := [] } := by
  cases hd : acc.fold.r.durable.isEmpty with
  | true =>
    have hnil := List.isEmpty_iff.mp hd
    simp only [drain, hd, if_true]
    rw [← hnil]
  | false =>
    obtain ⟨emitted, n, heq⟩ := acc.drain_eq hd
    rw [heq]
    rfl

theorem drain_turns (acc : Accumulator ad) : acc.drain.turns = acc.turns := by
  cases hd : acc.fold.r.durable.isEmpty with
  | true => simp [drain, hd]
  | false =>
    have hdur : acc.drain.fold.r.durable = [] := by rw [drain_fold]
    obtain ⟨emitted, n, heq⟩ := acc.drain_eq hd
    rw [turns, hdur, heq]
    exact acc.settle_turns

/-- A line leaves no committed turn without an open one after it. -/
theorem foldMessages_ready (had : ad.Lawful) (offset : Nat) (cwd : String) {ms : List Message}
    (hms : LineShape ms) (hd : acc.fold.r.durable = [])
    (hfront : Fronted (acc.foldMessages offset cwd ms).1.fold.r)
    (h : acc.turns = 0 ∨ acc.fold.r.out.any Block.opensTurn = true ∨
      ms.any Message.canOpenTurn = true) :
    (acc.foldMessages offset cwd ms).1.turns = 0 ∨
      (acc.foldMessages offset cwd ms).1.fold.r.out.any Block.opensTurn = true := by
  obtain ⟨r₁, floor, hfold, -, hok⟩ := apply_folded had.shaping acc.fold.wf hms
  have hr : (acc.foldMessages offset cwd ms).1.fold.r = r₁.finalize ad.shaping := by
    have happly := acc.fold.apply_eq ms
    rw [hok, Except.ok.injEq, Prod.mk.injEq] at happly
    exact happly.1.symm
  obtain hzero | hany | hopen := h
  · obtain hnil | ⟨b, hb, ho⟩ := hfront
    · left
      have hturns : acc.committedMeta.turns = 0 := by simpa [turns, hd] using hzero
      rw [turns, hnil]
      exact hturns
    · right
      rw [List.any_eq_true]
      exact ⟨b, List.mem_iff_getElem?.mpr ⟨0, hb⟩, ho⟩
  · rw [hr]
    exact .inr (finalize_any (hfold.any hany))
  · rw [hr]
    exact .inr (finalize_any (hfold.opens hopen))

/-- **A line keeps the invariant**, and the records it authors are faithful. -/
theorem advanceAt_sound (had : ad.Lawful) {offset : Nat} {line : String}
    {rest : List (Nat × String)} (hsuf : (offset, line) :: rest <:+ T.lines)
    (h : acc.Sound growing T mm) (hd : acc.fold.r.durable = [])
    (hready : acc.Ready ((offset, line) :: rest))
    (hgrows : growing →
      (ad.totals acc.metrics).Grows (ad.totals (acc.advanceAt offset line).1.metrics)) :
    ∃ records, (acc.advanceAt offset line).1.metaOut = acc.metaOut ++ records ∧
      (acc.advanceAt offset line).1.Sound growing T (mm.foldDeltas records) ∧
      (acc.advanceAt offset line).1.fold.r.durable = [] ∧
      (acc.advanceAt offset line).1.Ready rest ∧ Genuine growing T ad mm records := by
  cases hms : ad.messagesAt acc.pre acc.cwd offset line with
  | none =>
    rw [acc.advanceAt_ignored hms]
    refine ⟨[], by simp, h.update _ _ _ _ _ _, hd, ?_, trivial⟩
    obtain hzero | hany | ⟨-, offset', line', after, ms, hrest, hms', -⟩ := hready
    · exact .inl hzero
    · exact .inr (.inl hany)
    · obtain ⟨⟨rfl, rfl⟩, -⟩ : ((offset, line) = (offset', line')) ∧ rest = after := by
        simpa using hrest
      rw [hms] at hms'
      contradiction
  | some ms =>
    rw [acc.advanceAt_folded hms] at hgrows ⊢
    have hshape := had.messagesAt_shape hms
    obtain ⟨hfold, hfront⟩ := foldMessages_sound had h hd offset
      (ad.cwdAfter acc.pre acc.cwd line) hshape
      (hready.same h hd rfl hms) fun hopen =>
        ⟨hopen, line, rest, hsuf, by rw [had.messagesAt_cwdAfter]; exact hms⟩
    have hopen : acc.turns = 0 ∨ acc.fold.r.out.any Block.opensTurn = true ∨
        ms.any Message.canOpenTurn = true := by
      obtain hzero | hany | ⟨-, offset', line', after, ms', hrest, hms', hopen, -⟩ := hready
      · exact .inl hzero
      · exact .inr (.inl hany)
      · obtain ⟨⟨rfl, rfl⟩, -⟩ : ((offset, line) = (offset', line')) ∧ rest = after := by
          simpa using hrest
        obtain rfl := Option.some.inj (hms.symm.trans hms')
        exact .inr (.inr hopen)
    have hany := foldMessages_ready had offset (ad.cwdAfter acc.pre acc.cwd line)
      hshape hd hfront hopen
    obtain ⟨records, hout, hsound, hdur, hrec⟩ := drain_sound hfold hfront
    have hmetrics : (acc.foldMessages offset (ad.cwdAfter acc.pre acc.cwd line) ms).1.drain.metrics =
        acc.metrics := drain_metrics _
    refine ⟨records, hout, ?_, hdur, ?_, ?_⟩
    · have hm := hsound.metrics (m := pushMetrics ad acc.metrics line) (hmetrics ▸ hgrows)
      exact hm.update _ (ad.process acc.pre line).1 _ _ _ _
    · obtain hzero | hany := hany
      · left
        rw [← drain_turns] at hzero
        exact hzero
      · right; left
        rw [drain_fold]
        exact hany
    · obtain rfl | ⟨r, rfl, hr⟩ := hrec
      · trivial
      · exact ⟨hr, trivial⟩

/-- The metrics of a line. -/
theorem advanceAt_metrics (acc : Accumulator ad) (offset : Nat) (line : String) :
    (acc.advanceAt offset line).1.metrics =
      if (ad.messagesAt acc.pre acc.cwd offset line).isSome then pushMetrics ad acc.metrics line
      else acc.metrics := by
  cases h : ad.messagesAt acc.pre acc.cwd offset line with
  | none =>
    rw [acc.advanceAt_ignored h]
    rfl
  | some ms =>
    rw [acc.advanceAt_folded h]
    rfl

theorem nonzero_grows (t : MetricsTotals) : t.nonzero.Grows t := by
  refine ⟨fun k c hc => ⟨c, ?_, le_rfl⟩, fun k c hc => ⟨c, ?_, le_rfl⟩, id⟩
  all_goals exact (StrMap.getElem?_retain_eq_some.mp hc).1

/-- **A resumed accumulator is sound**, against the sum it was restored from. -/
theorem restore_sound (had : ad.Lawful) {res : Resume} (h : res.Resumes growing T ad mm)
    (committed : List Block) :
    (restore ad committed mm res).Sound growing T mm ∧
      (restore ad committed mm res).Ready (T.from res.replayFrom) := by
  obtain ⟨hmet, ⟨pre, ms, hpre, ⟨hopen, line, rest, hsuf, hms⟩, hidem⟩, htimes, hdur,
    hrec⟩ := h
  have hdurations : (restore ad committed mm res).fold.r.turnDurations = mm.turnDurations :=
    resize_of_length hdur none
  refine ⟨⟨⟨rfl, rfl, rfl, rfl, ?_, ?_, ⟨?_, ?_, fun _ => rfl, rfl, rfl⟩, ?_, hrec⟩, ⟨?_, ?_, ?_⟩, ?_,
    ?_, ?_, ?_⟩, .inr (.inr ⟨rfl, res.replayFrom, line, rest, ms, ?_, ?_, hopen, ?_⟩)⟩
  · show mm.userTimes = mm.userTimes.take mm.sessionMeta.turns
    rw [← htimes, List.take_length]
  · show mm.turnDurations = List.take mm.sessionMeta.turns _
    rw [hdurations, ← htimes, ← hdur, List.take_length]
  · intro hg
    obtain ⟨m, -, htot⟩ := hmet hg
    have htok : mm.tokens = (ad.totals m).tokens.nonzero := congrArg MetricsTotals.tokens htot
    show mm.tokens = mm.tokens.nonzero
    rw [htok, StrMap.nonzero_nonzero]
  · intro hg
    obtain ⟨m, -, htot⟩ := hmet hg
    have hext : mm.extra = (ad.totals m).extra.nonzero := congrArg MetricsTotals.extra htot
    show mm.extra = mm.extra.nonzero
    rw [hext, StrMap.nonzero_nonzero]
  · exact TaskFold.logged_self _ hrec
  · exact htimes
  · rw [hdurations]
    exact hdur
  · exact fun b hb => by simp [restore, Fold.start, Start.replayer, reseed] at hb
  · exact fun b hb => by simp [restore, Fold.start, Start.replayer, reseed] at hb
  · exact fun e he => by simp [restore, new] at he
  · exact fun _ => List.pairwise_singleton _ _
  · intro hg t ht
    obtain ⟨m, hm, htot⟩ := hmet hg
    obtain rfl : t = _ := by simpa [captures, restore, new] using ht
    have hmetrics : ad.totals (restore ad committed mm res).metrics = ad.totals m := by
      simp only [restore, hm, had.metricsRestore]
    rw [hmetrics, htot]
    exact nonzero_grows _
  · exact Transcript.from_of_suffix hsuf
  · simpa only [restore, hpre, had.preRestore] using hms
  · rw [hdurations]
    exact hidem

/-- A new accumulator has nothing to say. -/
theorem new_sound (growing : Prop) (T : Transcript) (ad : Adapter) :
    (new ad).Sound growing T {} ∧ ∀ rest, (new ad).Ready rest := by
  have hzero : (∅ : StrMap TokenCounts) = StrMap.nonzero ∅ ∧
      (∅ : StrMap Nat) = StrMap.nonzero ∅ := by
    constructor <;> exact StrMap.ext fun k => by simp [StrMap.getElem?_nonzero]
  refine ⟨⟨⟨rfl, rfl, rfl, rfl, rfl, rfl, ⟨fun _ => hzero.1, fun _ => hzero.2, fun _ => rfl, rfl, rfl⟩,
    TaskFold.logged_self _ rfl, rfl⟩, ⟨rfl, rfl, fun b hb => ?_⟩, fun b hb => ?_, fun e he => ?_,
    fun _ => List.pairwise_singleton _ _, fun _ t ht => ?_⟩, fun rest => .inl rfl⟩
  · simp [new, Fold.start, Start.replayer, Replayer.new] at hb
  · simp [new, Fold.start, Start.replayer, Replayer.new] at hb
  · simp [new] at he
  · obtain rfl : t = _ := by simpa [captures, new] using ht
    exact ⟨fun k c hc => by simp [Boundary.default, MetricsTotals.empty] at hc,
      fun k c hc => by simp [Boundary.default, MetricsTotals.empty] at hc,
      fun hs => by simp [Boundary.default, MetricsTotals.empty] at hs⟩

end Accumulator

/-! ## the life of a stream -/

/-- A session and its meta stream: the accumulator, the lines it has not read yet,
the records that were written and still count, and how many of those a compaction
has dropped from the disk. -/
structure Writer (ad : Adapter) where
  acc : Accumulator ad
  rest : List (Nat × String)
  log : List MetaRecord
  dropped : Nat

namespace Writer

/-- The records on the disk. -/
def stream (w : Writer ad) : List MetaRecord := w.log.drop w.dropped

/-- A session that starts cold, on a fresh stream. -/
def start (T : Transcript) (ad : Adapter) : Writer ad := ⟨.new ad, T.lines, [], 0⟩

/-- What can happen to a session whose transcript only grows. -/
inductive Step (T : Transcript) : Writer ad → Writer ad → Prop
  /-- the follower folds the next line -/
  | read {w : Writer ad} {offset : Nat} {line : String} {rest : List (Nat × String)}
      (h : w.rest = (offset, line) :: rest) :
      Step T w { w with acc := (w.acc.advanceAt offset line).1, rest }
  /-- the follower banks what the read layer elided -/
  | bank (w : Writer ad) (elidedLines elidedBytes skippedLines : Nat) :
      Step T w { w with acc := w.acc.bankElision elidedLines elidedBytes skippedLines }
  /-- fresh spawn links -/
  | links (w : Writer ad) (links : List SpawnLink) :
      Step T w { w with acc := w.acc.setSpawnLinks links }
  /-- the drained records reach the disk -/
  | flush (w : Writer ad) :
      Step T w { w with acc := w.acc.drainMeta.2, log := w.log ++ w.acc.drainMeta.1 }
  /-- the stream is compacted -/
  | compact (w : Writer ad) (committedLen compactAfter : Nat) :
      Step T w { w with dropped := w.dropped + compactAt w.stream committedLen compactAfter }
  /-- another process resumes from what a crash left of the two streams -/
  | resume (w : Writer ad) (keep : Nat) (content : List Block) (a : Aligned)
      (h : align (w.stream.take keep) content.length = .ok (some a)) :
      Step T w {
        acc := .restore ad (content.take a.committed) a.mm a.resume
        rest := T.from a.resume.replayFrom
        log := w.log.take (w.dropped + a.records)
        dropped := w.dropped }
  /-- another process starts cold -/
  | cold (w : Writer ad) : Step T w (start T ad)

/-- The session of a process that resumes from what an alignment found. -/
def resumed (T : Transcript) (w : Writer ad) (content : List Block) (a : Aligned) : Writer ad where
  acc := .restore ad (content.take a.committed) a.mm a.resume
  rest := T.from a.resume.replayFrom
  log := w.log.take (w.dropped + a.records)
  dropped := w.dropped

/-- No counter falls from one state to the other. -/
def Grows (w w' : Writer ad) : Prop :=
  (ad.totals w.acc.metrics).Grows (ad.totals w'.acc.metrics)

/-- A step on which no counter of the session falls. A process that takes over, resuming
or cold, counts from what it starts with. -/
inductive Rise (T : Transcript) : Writer ad → Writer ad → Prop
  | on {w w' : Writer ad} (h : Step T w w') (hgrows : w.Grows w') : Rise T w w'
  | resume (w : Writer ad) (keep : Nat) (content : List Block) (a : Aligned)
      (h : align (w.stream.take keep) content.length = .ok (some a)) :
      Rise T w (w.resumed T content a)
  | cold (w : Writer ad) : Rise T w (start T ad)

/-- A state some run leads to in which no counter falls. -/
abbrev Risen (T : Transcript) (w : Writer ad) : Prop :=
  Relation.ReflTransGen (Rise T) (start T ad) w

/-- Such a run is a run. -/
theorem Rise.step {w w' : Writer ad} (h : Rise T w w') : Step T w w' := by
  cases h with
  | on h _ => exact h
  | resume keep content a h => exact .resume w keep content a h
  | cold => exact .cold w

/-- A state some run leads to. -/
abbrev Reachable (T : Transcript) (w : Writer ad) : Prop :=
  Relation.ReflTransGen (Step T) (start T ad) w

theorem Risen.reachable {w : Writer ad} (h : Risen T w) : Reachable T w :=
  Relation.ReflTransGen.mono (fun _ _ => Rise.step) _ _ h

/-- **The stream invariant.** -/
structure Inv (growing : Prop) (T : Transcript) (w : Writer ad) : Prop where
  genuine : Genuine growing T ad {} (w.log ++ w.acc.metaOut)
  compacted : Compacted w.dropped w.log
  sound : w.acc.Sound growing T (({} : MaterializedMeta).foldDeltas (w.log ++ w.acc.metaOut))
  drained : w.acc.fold.r.durable = []
  ready : w.acc.Ready w.rest
  suffix : w.rest <:+ T.lines

theorem start_inv (growing : Prop) (T : Transcript) (ad : Adapter) : Inv growing T (start T ad) :=
  ⟨trivial, .inl rfl, (Accumulator.new_sound growing T ad).1, rfl,
    (Accumulator.new_sound growing T ad).2 _, List.suffix_refl _⟩

/-- A process that resumes keeps the records its alignment folded. -/
theorem Inv.resumed (had : ad.Lawful) {w : Writer ad} (h : Inv growing T w) {keep : Nat}
    {content : List Block} {a : Aligned}
    (halign : align (w.stream.take keep) content.length = .ok (some a)) :
    Inv growing T (w.resumed T content a) := by
  have hgen := (genuine_append.mp h.genuine).1
  obtain ⟨-, hfound⟩ := align_genuine hgen h.compacted keep content.length
  obtain ⟨hres, k, hk, hrec, hmm⟩ := hfound a halign
  rw [Nat.zero_add] at hrec
  have hkept : w.log.take (w.dropped + a.records) =
      w.log.take w.dropped ++ ((w.log.drop w.dropped).take keep).take (k + 1) := by
    rw [List.length_take] at hk
    rw [List.take_add, List.take_take, Nat.min_eq_left (by omega), hrec]
  have hsum : a.mm.Agrees growing
      (({} : MaterializedMeta).foldDeltas (w.log.take (w.dropped + a.records))) := by
    rw [hkept, MaterializedMeta.foldDeltas_append]
    exact hmm
  obtain ⟨hsound, hready⟩ := Accumulator.restore_sound had hres (content.take a.committed)
  have hcompacted : Compacted w.dropped (w.log.take (w.dropped + a.records)) := by
    rw [hrec]
    exact h.compacted.take k
  refine ⟨?_, hcompacted, ?_, rfl, hready, List.dropWhile_suffix _⟩
  · simpa [Writer.resumed, Accumulator.restore, Accumulator.new] using hgen.take (w.dropped + a.records)
  · simpa [Writer.resumed, Accumulator.restore, Accumulator.new] using hsound.agrees hsum

/-- A step keeps the invariant, and what it says of the counters where no counter falls. -/
theorem Inv.step (had : ad.Lawful) {w w' : Writer ad} (h : Inv growing T w) (hs : Step T w w')
    (hgrows : growing → w.Grows w') : Inv growing T w' := by
  cases hs with
  | @read offset line rest hrest =>
    obtain ⟨records, hout, hsound, hd, hready, hgen⟩ :=
      Accumulator.advanceAt_sound had (hrest ▸ h.suffix) h.sound h.drained (hrest ▸ h.ready) hgrows
    refine ⟨?_, h.compacted, ?_, hd, hready, ?_⟩
    · simp only
      rw [hout, ← List.append_assoc, genuine_append]
      exact ⟨h.genuine, hgen⟩
    · simp only
      rw [hout, ← List.append_assoc, MaterializedMeta.foldDeltas_append]
      exact hsound
    · exact (List.suffix_cons _ _).trans (hrest ▸ h.suffix)
  | bank a b c =>
    exact ⟨h.genuine, h.compacted, h.sound.metrics hgrows, h.drained, h.ready, h.suffix⟩
  | links links =>
    exact ⟨h.genuine, h.compacted, h.sound.update _ _ _ _ links _, h.drained, h.ready, h.suffix⟩
  | flush =>
    refine ⟨?_, h.compacted.append _, ?_, h.drained, h.ready, h.suffix⟩
    · simpa [Accumulator.drainMeta] using h.genuine
    · have hsound := h.sound.update w.acc.cwd w.acc.pre w.acc.committed [] w.acc.links
        w.acc.sinceCheckpoint
      simpa [Accumulator.drainMeta] using hsound
  | compact n after =>
    exact ⟨h.genuine, h.compacted.compactAt n after, h.sound, h.drained, h.ready, h.suffix⟩
  | resume keep content a halign => exact h.resumed had halign
  | cold => exact start_inv growing T ad

/-- What does not depend on the counters holds in every run. -/
theorem Reachable.inv (had : ad.Lawful) {w : Writer ad} (h : Reachable T w) : Inv False T w := by
  induction h with
  | refl => exact start_inv False T ad
  | tail _ hs ih => exact ih.step had hs False.elim

theorem Risen.inv (had : ad.Lawful) {w : Writer ad} (h : Risen T w) : Inv True T w := by
  induction h with
  | refl => exact start_inv True T ad
  | tail _ hs ih =>
    cases hs with
    | on hs hgrows => exact ih.step had hs fun _ => hgrows
    | resume keep content a halign => exact ih.resumed had halign
    | cold => exact start_inv True T ad

/-- **Checkpoint agreement.** In every state of every run in which no counter
falls, each checkpoint written so far, on the disk or still to be flushed, is what
summing the deltas of the records up to its own gives; and whatever prefix of the
stream on the disk is read against whatever length of the content, alignment
accepts it. -/
theorem checkpoint_agreement (had : ad.Lawful) {w : Writer ad} (h : Risen T w) :
    (∀ before r after c, w.log ++ w.acc.metaOut = before ++ r :: after →
      r.checkpoint = some c → c = ({} : MaterializedMeta).foldDeltas (before ++ [r])) ∧
    ∀ keep committedLen, align (w.stream.take keep) committedLen ≠ .error .checkpointMismatch := by
  have hinv := h.inv had
  refine ⟨fun before r after c hlog hc => ?_, fun keep n => ?_⟩
  · have hgen := hinv.genuine
    rw [hlog] at hgen
    exact hgen.checkpoint trivial hc
  · obtain ⟨best, hok⟩ :=
      (align_genuine (genuine_append.mp hinv.genuine).1 hinv.compacted keep n).1 trivial
    rw [stream, hok]
    exact fun heq => nomatch heq

/-! ## a counter that wraps -/

/-- Lines are read one after the other. -/
theorem reads {R : Writer ad → Writer ad → Prop} {w : Writer ad} {lines rest : List (Nat × String)}
    (hread : ∀ (w : Writer ad) line rest, line ∈ lines → w.rest = line :: rest →
      R w { w with acc := (w.acc.advanceAt line.1 line.2).1, rest })
    (h : w.rest = lines ++ rest) :
    Relation.ReflTransGen R w { w with acc := w.acc.advanceAll lines, rest } := by
  induction lines generalizing w with
  | nil =>
    obtain rfl : w.rest = rest := h
    exact .refl
  | cons line lines ih =>
    exact .head (hread w line (lines ++ rest) List.mem_cons_self h)
      (ih (fun w line rest hl => hread w line rest (List.mem_cons_of_mem _ hl)) rfl)

/-- A line whose usage raises the counters is read with none falling. -/
theorem Rise.read {w : Writer ad} {line : Nat × String} {rest : List (Nat × String)}
    (hraises : (ad.totals w.acc.metrics).Grows
      (ad.totals (Accumulator.pushMetrics ad w.acc.metrics line.2)))
    (h : w.rest = line :: rest) :
    Rise T w { w with acc := (w.acc.advanceAt line.1 line.2).1, rest } := by
  refine .on (.read h) ?_
  rw [Grows, Accumulator.advanceAt_metrics]
  split
  · exact hraises
  · exact .refl _

theorem Rise.flush (w : Writer ad) :
    Rise T w { w with acc := w.acc.drainMeta.2, log := w.log ++ w.acc.drainMeta.1 } :=
  .on (.flush w) (.refl _)

theorem Rise.compact (w : Writer ad) (n after : Nat) :
    Rise T w { w with dropped := w.dropped + compactAt w.stream n after } :=
  .on (.compact w n after) (.refl _)

end Writer

/-- A scripted adapter whose lines `u` each bill half the range of a counter, which wraps. -/
def Adapter.metered : Adapter :=
  { Adapter.scripted fun line => [.lineStart none, .userText line] with
    Acc := Nat
    metricsAcc := 0
    push := fun calls _ => calls + 1
    malformedLine := fun calls => calls
    bumpExtra := fun calls _ _ => calls
    totals := fun calls =>
      { MetricsTotals.empty with
        tokens := (∅ : StrMap TokenCounts).insert "m" { input := calls * 2 ^ 63 % 2 ^ 64 } }
    metricsState := fun calls => ⟨String.ofList (List.replicate calls 'u')⟩
    metricsRestore := fun _ v => v.text.length
    reseed := fun calls _ => calls
    fromStr := fun line => if line = "u" then some .null else none }

theorem Adapter.metered_lawful : Adapter.metered.Lawful where
  shaping := Shaping.scripted_lawful
  preRestore _ _ := rfl
  metricsRestore _ _ := String.length_ofList.trans List.length_replicate
  decodeLine_cwd _ _ := rfl
  decodeLine_shape line _ := .headed none _ (by simp [Message.isLineStart])
  process_shape _ _ _ hp := by simp [Adapter.metered, Adapter.scripted] at hp

/-- The first billed line only adds. -/
theorem Adapter.metered_grows : (Adapter.metered.totals (0 : Nat)).Grows
    (Adapter.metered.totals (1 : Nat)) := by
  refine ⟨fun k c hc => ?_, .refl _, id⟩
  simp only [Adapter.metered, StrMap.getElem?_insert] at hc ⊢
  split at hc
  · next hk => exact ⟨_, if_pos hk, by simp [← Option.some.inj hc, TokenCounts.le_def]⟩
  · simp at hc

/-- Prompts enough for a checkpoint and one more, the first `billed` of them billed. -/
def metered (billed : Nat) : Transcript where
  lines := (List.range 66).map fun i => (9 * i, if i < billed then "u" else "p")
  sorted := by
    rw [List.pairwise_map]
    exact List.pairwise_lt_range.imp fun h => by simpa using h

namespace Writer

/-- The session of one billed prompt, all of it read. -/
def meteredRead : Writer .metered where
  acc := ((start (metered 1) .metered).acc.advanceAt 0 "u").1.advanceAll (metered 1).lines.tail
  rest := []
  log := []
  dropped := 0

/-- And flushed. -/
def meteredOnce : Writer .metered :=
  { meteredRead with
    acc := meteredRead.acc.drainMeta.2, log := meteredRead.log ++ meteredRead.acc.drainMeta.1 }

theorem meteredOnce_risen : Risen (metered 1) meteredOnce := by
  let w₀ := start (metered 1) .metered
  let w₁ : Writer .metered :=
    { w₀ with acc := (w₀.acc.advanceAt 0 "u").1, rest := (metered 1).lines.tail }
  have hpush : Accumulator.pushMetrics .metered w₀.acc.metrics "u" = (1 : Nat) := by
    simp [Accumulator.pushMetrics, Adapter.metered, w₀, start, Accumulator.new]
  have h₁ : Rise (metered 1) w₀ w₁ :=
    @Rise.read _ _ w₀ (0, "u") (metered 1).lines.tail (hpush ▸ Adapter.metered_grows)
      (by decide +kernel)
  have h₂ : Relation.ReflTransGen (Rise (metered 1)) w₁ meteredRead := by
    refine reads (fun w line rest hl hrest => .read ?_ hrest) (List.append_nil _).symm
    have hall : ∀ line ∈ (metered 1).lines.tail, line.2 = "p" := by decide +kernel
    rw [hall line hl]
    exact .refl _
  exact (h₂.head h₁).tail (.flush meteredRead)

theorem checkpoint_agreement_metered :
    (meteredOnce.log.filterMap (·.checkpoint)).map (fun c => (c.tokens.count "m").input) =
        [2 ^ 63] ∧
      (∀ before r after c, meteredOnce.log ++ meteredOnce.acc.metaOut = before ++ r :: after →
        r.checkpoint = some c → c = ({} : MaterializedMeta).foldDeltas (before ++ [r])) ∧
      ∀ keep n, align (meteredOnce.stream.take keep) n ≠ .error .checkpointMismatch :=
  ⟨by decide +kernel, checkpoint_agreement Adapter.metered_lawful meteredOnce_risen⟩

/-- **A checkpoint that disagrees**: the second billed prompt wraps the counter, the records never
say so, the checkpoint does. -/
theorem checkpoint_disagrees :
    ∃ w : Writer .metered, Adapter.metered.Lawful ∧ Reachable (metered 2) w ∧
      align (w.stream.take 65) 65 = .error .checkpointMismatch := by
  let w₀ := start (metered 2) .metered
  let w₁ : Writer .metered := { w₀ with acc := w₀.acc.advanceAll (metered 2).lines, rest := [] }
  have hread : Reachable (metered 2) w₁ :=
    reads (fun _ _ _ _ => .read) (List.append_nil _).symm
  exact ⟨_, Adapter.metered_lawful, hread.tail (.flush w₁), by decide +kernel⟩

end Writer

end ClaudeReplay
