import ClaudeReplay.Builder.Checkpoint
import ClaudeReplay.Follow
import ClaudeReplay.Reader

/-!
# ClaudeReplay.Follow.Parser

The follower over a growing file, and the one-shot parse it agrees with.

`FollowParser.poll` opens the file or walks its reader back to the cursor, takes the
lines that are complete, folds them, and banks what the read layer elided since the
poll before; `parse` folds the file at once and banks at its end. The two folds see the
same lines but bank at other moments, so the accumulators are compared beside their
metrics (`InStep`), and the metrics up to the gauges banked (`Banked`).

The follower reads the sidecar of spawn ids at every poll and never goes back to what is
committed: a sidecar that comes late leaves a spawn without its id which the batch parse
gives it. The blocks are compared without the ids, and with them under one sidecar.
-/

namespace ClaudeReplay

open Lib

/-! ## the gauges add up -/

namespace ElisionCounts

instance : Add ElisionCounts where
  add a b := ⟨a.elidedLines + b.elidedLines, a.elidedBytes + b.elidedBytes,
    a.skippedLines + b.skippedLines⟩

instance : Sub ElisionCounts where
  sub a b := ⟨a.elidedLines - b.elidedLines, a.elidedBytes - b.elidedBytes,
    a.skippedLines - b.skippedLines⟩

theorem add_def (a b : ElisionCounts) : a + b =
    ⟨a.elidedLines + b.elidedLines, a.elidedBytes + b.elidedBytes,
      a.skippedLines + b.skippedLines⟩ := rfl

theorem sub_def (a b : ElisionCounts) : a - b =
    ⟨a.elidedLines - b.elidedLines, a.elidedBytes - b.elidedBytes,
      a.skippedLines - b.skippedLines⟩ := rfl

theorem add_zero (c : ElisionCounts) : c + {} = c := by
  simp [add_def]

theorem add_sub_cancel (a b : ElisionCounts) : a + b - a = b := by
  simp [add_def, sub_def]

end ElisionCounts

theorem gauge_add (policy : Elision) (off : Nat) (a b : ElisionCounts) (l : List UInt8) :
    gauge policy off (a + b) l = a + gauge policy off b l := by
  unfold gauge ElisionCounts.note
  split
  · split
    · simp only [ElisionCounts.add_def, Nat.add_assoc]
    · rfl
  · simp only [ElisionCounts.add_def, Nat.add_assoc]

/-- **Counting goes on** from any count. -/
theorem gauges_add (policy : Elision) (off : Nat) (a b : ElisionCounts) (ls : List (List UInt8)) :
    gauges policy off (a + b) ls = a + gauges policy off b ls := by
  induction ls generalizing off b with
  | nil => rfl
  | cons l ls ih =>
    rw [gauges, gauges, gauge_add, ih]

/-! ## banking them -/

/-- An accumulator's bag of counters is a sum by key, which the fold of a line does not
read. -/
structure Adapter.Banks (ad : Adapter) : Prop where
  add : ∀ m k n i, ad.bumpExtra (ad.bumpExtra m k n) k i = ad.bumpExtra m k (n + i)
  comm : ∀ m k n j i,
    ad.bumpExtra (ad.bumpExtra m k n) j i = ad.bumpExtra (ad.bumpExtra m j i) k n
  push : ∀ m k n v, ad.push (ad.bumpExtra m k n) v = ad.bumpExtra (ad.push m v) k n
  malformedLine : ∀ m k n, ad.malformedLine (ad.bumpExtra m k n) =
    ad.bumpExtra (ad.malformedLine m) k n

section Bank

open Accumulator (pushMetrics)

variable {ad : Adapter}

/-- One gauge; a zero is never banked. -/
def bankOne (ad : Adapter) (k : String) (n : Nat) (m : ad.Acc) : ad.Acc :=
  if 0 < n then ad.bumpExtra m k n else m

/-- The three of them. -/
def bank (ad : Adapter) (c : ElisionCounts) (m : ad.Acc) : ad.Acc :=
  bankOne ad "skipped_lines" c.skippedLines
    (bankOne ad "elided_bytes" c.elidedBytes (bankOne ad "elided_lines" c.elidedLines m))

theorem bankElision_eq (acc : Accumulator ad) (c : ElisionCounts) :
    acc.bankElision c.elidedLines c.elidedBytes c.skippedLines =
      { acc with metrics := bank ad c acc.metrics } := rfl

theorem bankOne_add (hb : ad.Banks) (k : String) (n i : Nat) (m : ad.Acc) :
    bankOne ad k i (bankOne ad k n m) = bankOne ad k (n + i) m := by
  unfold bankOne
  by_cases hn : 0 < n
  · by_cases hi : 0 < i
    · rw [if_pos hi, if_pos hn, if_pos (by omega), hb.add]
    · obtain rfl : i = 0 := by omega
      simp
  · obtain rfl : n = 0 := by omega
    simp

theorem bankOne_comm (hb : ad.Banks) (k j : String) (n i : Nat) (m : ad.Acc) :
    bankOne ad j i (bankOne ad k n m) = bankOne ad k n (bankOne ad j i m) := by
  unfold bankOne
  split
  · split
    · rw [hb.comm]
    · rfl
  · rfl

/-- **Banking twice** banks the sum. -/
theorem bank_add (hb : ad.Banks) (c d : ElisionCounts) (m : ad.Acc) :
    bank ad d (bank ad c m) = bank ad (c + d) m := by
  simp only [bank, ElisionCounts.add_def]
  rw [bankOne_comm hb "skipped_lines" "elided_lines", bankOne_comm hb "elided_bytes" "elided_lines",
    bankOne_add hb "elided_lines", bankOne_comm hb "skipped_lines" "elided_bytes",
    bankOne_add hb "elided_bytes", bankOne_add hb "skipped_lines"]

/-- What commutes with one counter commutes with the gauges. -/
theorem bank_comm {g : ad.Acc → ad.Acc}
    (hg : ∀ m k n, g (ad.bumpExtra m k n) = ad.bumpExtra (g m) k n) (c : ElisionCounts)
    (m : ad.Acc) : g (bank ad c m) = bank ad c (g m) := by
  have hone : ∀ k n m, g (bankOne ad k n m) = bankOne ad k n (g m) := by
    intro k n m
    unfold bankOne
    split
    · exact hg m k n
    · rfl
  simp only [bank, hone]

theorem bank_pushMetrics (hb : ad.Banks) (c : ElisionCounts) (m : ad.Acc) (line : String) :
    pushMetrics ad (bank ad c m) line = bank ad c (pushMetrics ad m line) := by
  apply bank_comm (g := fun m => pushMetrics ad m line)
  intro m k n
  simp only [pushMetrics]
  split
  · exact hb.push ..
  · split
    · rfl
    · exact hb.malformedLine ..

end Bank

/-! ## two folds that bank at other moments -/

/-- A block without the id of the agent it spawned. -/
def Block.unnamed : Block → Block
  | .subAgent sa => .subAgent { sa with agentId := "" }
  | b => b

/-- Links give ids and nothing else. -/
theorem applySpawnLinks_unnamed (links : List SpawnLink) (bs : List Block) :
    (applySpawnLinks links bs).map Block.unnamed = bs.map Block.unnamed := by
  rw [applySpawnLinks, List.map_map]
  refine List.map_congr_left fun b _ => ?_
  cases b with
  | subAgent sa =>
    simp only [Function.comp_apply, Block.unnamed, SubAgent.adopt]
    split
    · split <;> rfl
    · rfl
  | _ => rfl

namespace Accumulator

variable {ad : Adapter}

/-- Two accumulators that stand at the same point of a transcript, their metrics and
what they write of them aside; with the same spawn ids if the sidecar was the `same`. -/
structure InStep (same : Prop) (acc acc' : Accumulator ad) : Prop where
  fold : acc.fold = acc'.fold
  cwd : acc.cwd = acc'.cwd
  pre : acc.pre = acc'.pre
  taskFold : acc.taskFold = acc'.taskFold
  unnamed : acc.committed.map Block.unnamed = acc'.committed.map Block.unnamed
  named : same → acc.committed = acc'.committed ∧ acc.links = acc'.links

variable {same : Prop}

/-- New links name no other block. -/
theorem InStep.setSpawnLinks {acc acc' : Accumulator ad} (h : acc.InStep same acc')
    {links : List SpawnLink} (hlinks : same → links = acc'.links) :
    (acc.setSpawnLinks links).InStep same acc' :=
  ⟨h.fold, h.cwd, h.pre, h.taskFold, h.unnamed, fun hs => ⟨(h.named hs).1, hlinks hs⟩⟩

/-- What a drain does to the fields two accumulators in step share. -/
theorem drain_shared (acc : Accumulator ad) :
    acc.drain.fold = (if acc.fold.r.durable.isEmpty then acc.fold else acc.fold.drainCommitted.2) ∧
      acc.drain.cwd = acc.cwd ∧ acc.drain.pre = acc.pre ∧ acc.drain.links = acc.links ∧
      acc.drain.taskFold = (if acc.fold.r.durable.isEmpty then acc.taskFold
        else acc.taskFold.drainRecorded.2) := by
  cases h : acc.fold.r.durable.isEmpty with
  | true => simp [drain, h]
  | false =>
    obtain ⟨emitted, n, heq⟩ := acc.drain_eq h
    rw [heq]
    exact ⟨rfl, rfl, rfl, rfl, rfl⟩

theorem InStep.drain {acc acc' : Accumulator ad} (h : acc.InStep same acc') :
    acc.drain.InStep same acc'.drain := by
  obtain ⟨hfold, hcwd, hpre, hlinks, htasks⟩ := acc.drain_shared
  obtain ⟨hfold', hcwd', hpre', hlinks', htasks'⟩ := acc'.drain_shared
  refine ⟨?_, ?_, ?_, ?_, ?_, fun hs => ?_⟩
  · rw [hfold, hfold', h.fold]
  · rw [hcwd, hcwd', h.cwd]
  · rw [hpre, hpre', h.pre]
  · rw [htasks, htasks', h.taskFold, h.fold]
  · rw [drain_committed, drain_committed, List.map_append, List.map_append, h.unnamed,
      applySpawnLinks_unnamed, applySpawnLinks_unnamed, h.fold]
  · rw [drain_committed, drain_committed, hlinks, hlinks', (h.named hs).1, (h.named hs).2, h.fold]
    exact ⟨rfl, rfl⟩

theorem InStep.foldMessages {acc acc' : Accumulator ad} (h : acc.InStep same acc') (offset : Nat)
    (cwd : String) (ms : List Message) :
    (acc.foldMessages offset cwd ms).1.InStep same (acc'.foldMessages offset cwd ms).1 where
  fold := by simp only [Accumulator.foldMessages, h.fold]
  cwd := rfl
  pre := h.pre
  taskFold := by simp only [Accumulator.foldMessages, h.taskFold]
  unnamed := h.unnamed
  named := h.named

theorem InStep.advanceAt {acc acc' : Accumulator ad} (h : acc.InStep same acc') (offset : Nat)
    (line : String) : (acc.advanceAt offset line).1.InStep same (acc'.advanceAt offset line).1 := by
  have hms : ad.messagesAt acc.pre acc.cwd offset line =
      ad.messagesAt acc'.pre acc'.cwd offset line := by rw [h.pre, h.cwd]
  cases hline : ad.messagesAt acc.pre acc.cwd offset line with
  | none =>
    rw [acc.advanceAt_ignored hline, acc'.advanceAt_ignored (hms ▸ hline)]
    exact ⟨h.fold, h.cwd, by rw [h.pre], h.taskFold, h.unnamed, h.named⟩
  | some ms =>
    rw [acc.advanceAt_folded hline, acc'.advanceAt_folded (hms ▸ hline), h.pre, h.cwd]
    have hd := (h.foldMessages offset (ad.cwdAfter acc'.pre acc'.cwd line) ms).drain
    exact ⟨hd.fold, hd.cwd, rfl, hd.taskFold, hd.unnamed, hd.named⟩

/-- InStep accumulators show the same session. -/
theorem InStep.shown {acc acc' : Accumulator ad} (h : acc.InStep same acc') :
    acc.blocks.map Block.unnamed = acc'.blocks.map Block.unnamed ∧
      (same → acc.blocks = acc'.blocks) ∧ acc.userTimes = acc'.userTimes ∧
      acc.turnDurations = acc'.turnDurations ∧ acc.tasks = acc'.tasks := by
  refine ⟨?_, fun hs => ?_, ?_⟩
  · simp only [blocks, provisional, openSnapshot, List.map_append, applySpawnLinks_unnamed,
      h.unnamed, h.fold]
  · simp only [blocks, provisional, openSnapshot, h.fold, (h.named hs).1, (h.named hs).2]
  · simp only [userTimes, turnDurations, tasks, openSnapshot, h.fold, h.taskFold, and_self]

/-- The first has banked these gauges more than the second. -/
structure Banked (same : Prop) (c : ElisionCounts) (acc acc' : Accumulator ad) : Prop extends
    InStep same acc acc' where
  metrics : acc.metrics = bank ad c acc'.metrics

theorem Banked.advanceAt (hb : ad.Banks) {c : ElisionCounts} {acc acc' : Accumulator ad}
    (h : acc.Banked same c acc') (offset : Nat) (line : String) :
    (acc.advanceAt offset line).1.Banked same c (acc'.advanceAt offset line).1 := by
  refine ⟨h.toInStep.advanceAt offset line, ?_⟩
  rw [advanceAt_metrics, advanceAt_metrics, h.pre, h.cwd, h.metrics]
  split
  · exact bank_pushMetrics hb c acc'.metrics line
  · rfl

/-- **A run of lines** carries what was banked along. -/
theorem Banked.advanceAll (hb : ad.Banks) {c : ElisionCounts} {acc acc' : Accumulator ad}
    (h : acc.Banked same c acc') (lines : List (Nat × String)) :
    (acc.advanceAll lines).Banked same c (acc'.advanceAll lines) := by
  induction lines generalizing acc acc' with
  | nil => exact h
  | cons l lines ih => exact ih (h.advanceAt hb l.1 l.2)

theorem Banked.bankElision (hb : ad.Banks) {c : ElisionCounts} {acc acc' : Accumulator ad}
    (h : acc.Banked same c acc') (d : ElisionCounts) :
    (acc.bankElision d.elidedLines d.elidedBytes d.skippedLines).Banked same (c + d) acc' := by
  rw [bankElision_eq]
  refine ⟨⟨h.fold, h.cwd, h.pre, h.taskFold, h.unnamed, h.named⟩, ?_⟩
  simp only [h.metrics, bank_add hb]

theorem foldLines_fst (acc : Accumulator ad) (lines : List (Nat × String)) :
    (acc.foldLines lines).1 = acc.advanceAll lines := by
  suffices h : ∀ floor, (lines.foldl (fun (p : Accumulator ad × Option Nat) l =>
      ((p.1.advanceAt l.1 l.2).1, minPatch p.2 (p.1.advanceAt l.1 l.2).2)) (acc, floor)).1 =
        acc.advanceAll lines from h none
  intro floor
  induction lines generalizing acc floor with
  | nil => rfl
  | cons l lines ih => exact ih (acc.advanceAt l.1 l.2).1 _

end Accumulator

/-! ## the file under the follower -/

/-- A file at one poll. -/
structure Disk where
  content : List UInt8
  /-- the buffers a reader hands it out in, from an offset on -/
  chunks : Nat → List (List UInt8)
  flatten_chunks : ∀ at_, (chunks at_).flatten = content.drop at_
  /-- it is the file the follower's reader holds -/
  reads : Bool
  /-- it can be opened -/
  opens : Bool
  /-- the sidecar spawn ids beside it -/
  links : List SpawnLink

/-- The text of a line. -/
def lineText (l : Nat × List UInt8) : Nat × String :=
  (l.1, (String.fromUTF8? ⟨l.2.toArray⟩).getD "")

/-- The follower. -/
structure FollowParser (ad : Adapter) where
  /-- the adapter's `elision` -/
  policy : Elision
  builder : Accumulator ad
  cursor : Nat := 0
  src : Option LineSource := none
  banked : ElisionCounts := {}

namespace FollowParser

variable {ad : Adapter}

/-- `with_store`: the follower of a file from its beginning. -/
def start (ad : Adapter) (policy : Elision) (links : List SpawnLink) : FollowParser ad where
  policy
  builder := (Accumulator.new ad).setSpawnLinks links

/-- The next byte to read. -/
def position (fp : FollowParser ad) : Nat := (fp.src.map LineSource.offset).getD fp.cursor

/-- The file is shorter than what was read. -/
def shrunk (fp : FollowParser ad) (d : Disk) : Bool := decide (d.content.length < fp.position)

/-- Before a read: a shrunken file is read from its start, another file than the one
held is opened again at the cursor, and either is counted from zero. -/
def prepare (fp : FollowParser ad) (d : Disk) : FollowParser ad :=
  if fp.shrunk d then { fp with src := none, cursor := 0, banked := {} }
  else if fp.src.isSome && !d.reads then
    { fp with src := none, cursor := fp.position, banked := {} }
  else fp

/-- The source to read: opened at the cursor, or the one held, walked back to its own. -/
def source (fp : FollowParser ad) (d : Disk) : Option LineSource :=
  match fp.src with
  | some s => some (s.rewindToCursor (d.chunks s.offset))
  | none =>
    if d.opens then some (.new (d.chunks fp.cursor) fp.cursor .stop fp.policy) else none

/-- The end of a poll whose file is open: fold the lines, and bank what was elided. -/
def take (fp : FollowParser ad) (reset : Bool) (links : List SpawnLink) (src : LineSource) :
    FollowParser ad × List (Nat × List UInt8) × Tick :=
  let (lines, src) := src.drain
  let delta := src.elided - fp.banked
  let (builder, tick) := fp.builder.advanceFromSource
    { reset
      lines := lines.map lineText
      elidedLines := delta.elidedLines
      elidedBytes := delta.elidedBytes
      skippedLines := delta.skippedLines
      links }
  ({ fp with builder, cursor := src.offset, src := some src, banked := src.elided }, lines, tick)

/-- `advance_from_source`, with the lines it hands to the fold. -/
def poll (fp : FollowParser ad) (d : Disk) : FollowParser ad × List (Nat × List UInt8) × Tick :=
  let reset := fp.shrunk d
  let fp := fp.prepare d
  match fp.source d with
  | some src => fp.take reset d.links src
  | none =>
    let (builder, tick) := fp.builder.advanceFromSource { reset, opened := false, lines := [] }
    ({ fp with builder }, [], tick)

/-- A run of polls, and all the lines they hand out. -/
def polls (fp : FollowParser ad) : List Disk → FollowParser ad × List (Nat × List UInt8)
  | [] => (fp, [])
  | d :: ds =>
    let (fp', lines, _) := fp.poll d
    let (fp'', more) := fp'.polls ds
    (fp'', lines ++ more)

end FollowParser

/-- `Transcript::parse`: the one-shot fold of a file. -/
def parse (ad : Adapter) (policy : Elision) (links : List SpawnLink) (reader : List (List UInt8)) :
    Accumulator ad :=
  let (lines, src) := (LineSource.new reader 0 .yield policy).drain
  (((Accumulator.new ad).setSpawnLinks links).advanceAll (lines.map lineText)).bankElision
    src.elided.elidedLines src.elided.elidedBytes src.elided.skippedLines

/-! ## one poll of a grown file -/

namespace Accumulator

variable {ad : Adapter}

theorem advanceAll_append (acc : Accumulator ad) (xs ys : List (Nat × String)) :
    acc.advanceAll (xs ++ ys) = (acc.advanceAll xs).advanceAll ys := List.foldl_append

theorem advanceAt_links (acc : Accumulator ad) (offset : Nat) (line : String) :
    (acc.advanceAt offset line).1.links = acc.links := by
  cases h : ad.messagesAt acc.pre acc.cwd offset line with
  | none => rw [acc.advanceAt_ignored h]
  | some ms =>
    rw [acc.advanceAt_folded h]
    exact (drain_shared _).2.2.2.1

theorem advanceAll_links (acc : Accumulator ad) (lines : List (Nat × String)) :
    (acc.advanceAll lines).links = acc.links := by
  induction lines generalizing acc with
  | nil => rfl
  | cons l lines ih => exact (ih _).trans (acc.advanceAt_links l.1 l.2)

/-- A poll that resets nothing folds its lines, banks its gauges, and takes the sidecar if
there were lines. -/
theorem advanceFromSource_fold (acc : Accumulator ad) {p : Poll} (hreset : p.reset = false)
    (hopened : p.opened = true) : ∃ links, (links = acc.links ∨ links = p.links) ∧
      (acc.advanceFromSource p).1 = ((acc.advanceAll p.lines).bankElision p.elidedLines
        p.elidedBytes p.skippedLines).setSpawnLinks links := by
  unfold advanceFromSource
  simp only [hreset, hopened, foldLines_fst, Bool.false_eq_true, if_false, Bool.not_true,
    Bool.not_false, Bool.true_and]
  split
  · refine ⟨acc.links, .inl rfl, ?_⟩
    rw [← acc.advanceAll_links p.lines]
    rfl
  · exact ⟨p.links, .inr rfl, rfl⟩

end Accumulator

namespace FollowParser

variable {ad : Adapter} {policy : Elision} {links : List SpawnLink}

/-- The fold of these lines of a file, nothing banked. -/
def folded (ad : Adapter) (policy : Elision) (links : List SpawnLink) (ls : List (List UInt8)) :
    Accumulator ad :=
  ((Accumulator.new ad).setSpawnLinks links).advanceAll ((handed policy 0 ls).map lineText)

/-- The follower has read these lines of its file, its sidecar the `same` as the parse's. -/
structure Follows (same : Prop) (policy : Elision) (links : List SpawnLink)
    (ls : List (List UInt8)) (fp : FollowParser ad) : Prop where
  whole : ∀ l ∈ ls, newline ∉ l
  elision : fp.policy = policy
  position : fp.position = (unlines newline ls).length
  held : ∀ s ∈ fp.src, s.tail = .stop ∧ s.policy = policy ∧ s.elided = fp.banked
  fresh : fp.src = none → fp.banked = {}
  builder : fp.builder.Banked same (gauges policy 0 {} ls) (folded ad policy links ls)

variable {same : Prop}

/-- A file that has not shrunk is read on where it was left. -/
theorem Follows.prepare {ls : List (List UInt8)} {fp : FollowParser ad}
    (h : Follows same policy links ls fp) {d : Disk} (hd : unlines newline ls <+: d.content) :
    fp.shrunk d = false ∧ Follows same policy links ls (fp.prepare d) := by
  have hlen := hd.length_le
  have hshrunk : fp.shrunk d = false := by
    rw [shrunk, h.position, decide_eq_false_iff_not]
    omega
  refine ⟨hshrunk, ?_⟩
  rw [FollowParser.prepare, hshrunk, if_neg Bool.false_ne_true]
  split
  · exact ⟨h.whole, h.elision, h.position, (fun _ hs => nomatch hs), fun _ => rfl, h.builder⟩
  · exact h

/-- A source that stands behind these lines, and has counted what was banked. -/
structure Stands (policy : Elision) (ls : List (List UInt8)) (fp : FollowParser ad)
    (src : LineSource) : Prop where
  offset : src.offset = (unlines newline ls).length
  tail : src.tail = .stop
  elision : src.policy = policy
  elided : src.elided = fp.banked

/-- There is a source to read unless the file has to be opened and cannot be. -/
theorem Follows.source {ls : List (List UInt8)} {fp : FollowParser ad}
    (h : Follows same policy links ls fp) (d : Disk) :
    (fp.source d = none ∧ d.opens = false) ∨ ∃ src, fp.source d = some src ∧
      Stands policy ls fp src ∧ src.reader.flatten = d.content.drop (unlines newline ls).length := by
  have hpos := h.position
  unfold FollowParser.source
  cases hsrc : fp.src with
  | some s =>
    obtain ⟨htail, hpolicy, hbanked⟩ := h.held s (by rw [hsrc]; rfl)
    have hoff : s.offset = (unlines newline ls).length := by
      simpa [FollowParser.position, hsrc] using hpos
    exact .inr ⟨_, rfl, ⟨hoff, htail, hpolicy, hbanked⟩, by rw [← hoff]; exact d.flatten_chunks _⟩
  | none =>
    have hcur : fp.cursor = (unlines newline ls).length := by
      simpa [FollowParser.position, hsrc] using hpos
    cases hopens : d.opens with
    | false => exact .inl ⟨rfl, rfl⟩
    | true =>
      exact .inr ⟨_, rfl, ⟨hcur, rfl, h.elision, (h.fresh hsrc).symm⟩,
        by rw [← hcur]; exact d.flatten_chunks _⟩

/-- What a poll with no reset makes of the fold. -/
theorem take_fold (fp : FollowParser ad) (links : List SpawnLink) (src : LineSource) :
    ∃ newer, (newer = fp.builder.links ∨ newer = links) ∧
      (fp.take false links src).1.builder =
        ((fp.builder.advanceAll (src.drain.1.map lineText)).bankElision
          (src.drain.2.elided - fp.banked).elidedLines (src.drain.2.elided - fp.banked).elidedBytes
          (src.drain.2.elided - fp.banked).skippedLines).setSpawnLinks newer :=
  fp.builder.advanceFromSource_fold (p := ⟨false, true, _, _, _, _, links⟩) rfl rfl

/-- **The lines a source adds.** -/
theorem Follows.take (hb : ad.Banks) {ls : List (List UInt8)} {fp : FollowParser ad}
    (h : Follows same policy links ls fp) {src : LineSource} (hsrc : Stands policy ls fp src)
    {links' : List SpawnLink} (hsame : same → links' = links) :
    Follows same policy links (ls ++ (splitLines newline src.reader.flatten).1)
        (fp.take false links' src).1 ∧
      (fp.take false links' src).2.1 =
        handed policy (unlines newline ls).length (splitLines newline src.reader.flatten).1 := by
  obtain ⟨hjoin, hls, ht⟩ := unlines_splitLines newline src.reader.flatten
  obtain ⟨hlines, hoff, hel, hpolicy, htail⟩ :=
    LineSource.drain_lines hls ht (.inl hsrc.tail) hjoin.symm
  generalize (splitLines newline src.reader.flatten).1 = more at hls hlines hoff hel
  rw [hsrc.elision, hsrc.offset] at hlines hel
  rw [hsrc.offset] at hoff
  rw [hsrc.elision] at hpolicy
  -- what the source has counted beyond the follower's last poll
  have hdelta : src.drain.2.elided - fp.banked =
      gauges policy (unlines newline ls).length {} more := by
    rw [hel, hsrc.elided, ← ElisionCounts.add_zero fp.banked, gauges_add,
      ElisionCounts.add_zero, ElisionCounts.add_sub_cancel]
  have hfolded : ∀ ls, (folded ad policy links ls).links = links :=
    fun ls => Accumulator.advanceAll_links _ _
  refine ⟨⟨?_, h.elision, ?_, ?_, (fun hnone => nomatch hnone), ?_⟩, hlines⟩
  · exact List.forall_mem_append.mpr ⟨h.whole, hls⟩
  · rw [unlines_append, List.length_append]
    exact hoff
  · intro s hs
    obtain rfl := Option.some.inj hs
    exact ⟨htail.trans hsrc.tail, hpolicy, rfl⟩
  · have hmore : folded ad policy links (ls ++ more) = (folded ad policy links ls).advanceAll
        ((handed policy (unlines newline ls).length more).map lineText) := by
      rw [folded, handed_append, List.map_append, Accumulator.advanceAll_append, Nat.zero_add]
      rfl
    have hbank := (h.builder.advanceAll hb
      ((handed policy (unlines newline ls).length more).map lineText)).bankElision hb
        (gauges policy (unlines newline ls).length {} more)
    rw [← gauges_add, ElisionCounts.add_zero, ← hmore] at hbank
    obtain ⟨newer, hnewer, hfold⟩ := fp.take_fold links' src
    rw [hfold, hdelta, hlines, gauges_append, Nat.zero_add]
    refine ⟨hbank.setSpawnLinks fun hs => ?_, hbank.metrics⟩
    rw [hfolded]
    obtain rfl | rfl := hnewer
    · exact (h.builder.named hs).2.trans (hfolded ls)
    · exact hsame hs

/-- **One poll of a grown file.** -/
theorem Follows.poll (hb : ad.Banks) {ls : List (List UInt8)} {fp : FollowParser ad}
    (h : Follows same policy links ls fp) {d : Disk} {rest : List UInt8}
    (hd : d.content = unlines newline ls ++ rest) (hlinks : same → d.links = links) :
    ∃ more, (more = (splitLines newline rest).1 ∨ more = [] ∧ d.opens = false) ∧
      Follows same policy links (ls ++ more) (fp.poll d).1 ∧
      (fp.poll d).2.1 = handed policy (unlines newline ls).length more := by
  obtain ⟨hreset, hprep⟩ := h.prepare (d := d) ⟨rest, hd.symm⟩
  rw [FollowParser.poll, hreset]
  obtain ⟨hsource, hopens⟩ | ⟨src, hsource, hsrc, hread⟩ := hprep.source d
  · refine ⟨[], .inr ⟨rfl, hopens⟩, ?_⟩
    rw [hsource, List.append_nil]
    exact ⟨⟨hprep.whole, hprep.elision, hprep.position, hprep.held, hprep.fresh, hprep.builder⟩, rfl⟩
  · rw [hd, List.drop_left] at hread
    refine ⟨(splitLines newline rest).1, .inl rfl, ?_⟩
    rw [hsource, ← hread]
    exact hprep.take hb hsrc hlinks

/-! ## following equals batch -/

/-- A schedule: at each poll the file holds what it held at the poll before, and
perhaps more behind it. -/
def Growth : List UInt8 → List Disk → Prop
  | _, [] => True
  | content, d :: ds => content <+: d.content ∧ Growth d.content ds

/-- **A run of polls.** What it hands out is the lines it has read, and the file still
begins with them. -/
theorem Follows.polls (hb : ad.Banks) {ls : List (List UInt8)} {fp : FollowParser ad}
    (h : Follows same policy links ls fp) {content : List UInt8} {ds : List Disk} {d : Disk}
    (hls : unlines newline ls <+: content) (hgrow : Growth content (ds ++ [d]))
    (hlinks : same → ∀ e ∈ ds, e.links = links) :
    ∃ more, Follows same policy links (ls ++ more) (fp.polls ds).1 ∧
      (fp.polls ds).2 = handed policy (unlines newline ls).length more ∧
      unlines newline (ls ++ more) <+: d.content := by
  induction ds generalizing ls fp content with
  | nil =>
    refine ⟨[], ?_, rfl, ?_⟩
    · rw [List.append_nil]
      exact h
    · rw [List.append_nil]
      exact hls.trans hgrow.1
  | cons e ds ih =>
    obtain ⟨hpre, hgrow⟩ := hgrow
    obtain ⟨rest, hrest⟩ := hls.trans hpre
    obtain ⟨more, hmore, hpoll, hlines⟩ := h.poll hb hrest.symm fun hs => hlinks hs e List.mem_cons_self
    have hjoin := (unlines_splitLines newline rest).1
    have hls' : unlines newline (ls ++ more) <+: e.content := by
      rw [unlines_append, ← hrest, List.prefix_append_right_inj]
      obtain rfl | ⟨rfl, -⟩ := hmore
      · exact ⟨_, hjoin⟩
      · exact List.nil_prefix
    obtain ⟨more', hrun, hlines', hfile⟩ :=
      ih hpoll hls' hgrow fun hs e' he' => hlinks hs e' (List.mem_cons_of_mem _ he')
    refine ⟨more ++ more', ?_, ?_, ?_⟩
    · rw [← List.append_assoc]
      exact hrun
    · rw [handed_append, ← hlines, FollowParser.polls, ← List.length_append, ← unlines_append,
        ← hlines']
    · rw [← List.append_assoc]
      exact hfile

end FollowParser

/-! ## a bag of counters -/

namespace Lib.StrMap

/-- `*entry(key).or_default() += n`. -/
def bump (m : StrMap Nat) (k : String) (n : Nat) : StrMap Nat := m.insert k (m.count k + n)

end Lib.StrMap

/-- A file that is handed out in one buffer. -/
def Disk.whole (content : List UInt8) : Disk where
  content
  chunks at_ := [content.drop at_]
  flatten_chunks _ := List.flatten_singleton
  reads := true
  opens := true
  links := []

/-- A prompt, a spawn and another prompt, with a sidecar that names the spawn. -/
def Disk.spawned : Disk :=
  { Disk.whole [0x61, newline, 0x73, newline, 0x62, newline] with links := [⟨"t", "k"⟩] }

end ClaudeReplay
