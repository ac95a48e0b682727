import ClaudeReplay.Adapter
import ClaudeReplay.Replay.Effect
import ClaudeReplay.Replay.Frontier

/-!
# ClaudeReplay.Replay.Markers

The life of a queue marker.

An enqueued prompt shows as a marker block, and the block is to be gone once the prompt is
picked up. The fold cannot remove a block of its window without moving the others, so it
notes the block's logical index and leaves it out when the block is finished. `Queued` is
what a message may do to the queue: an item that leaves it has its marker noted, and nothing
else is noted.

A `Watch` is a fold with a record of what happened to it: which markers left the queue while
they were resident, which blocks each commit drained, and the state each commit found.
`Watched` ties the record to the fold. From it comes the result (`markers_lifecycle`): the
finished stream is what the fold appended without exactly those markers, and a commit keeps
every marker it should when the queue has no stale one.
-/

namespace ClaudeReplay

open Lib

namespace Replayer

variable {sh : Shaping} {r r₁ r₂ r' : Replayer}

/-! ## what a message does to the queue -/

/-- What a message does to the pending markers: some leave and are suppressed, and at most
the block just appended joins. -/
structure Queued (r r' : Replayer) : Prop where
  base : r'.base = r.base
  durable : r'.durable = r.durable
  moved : ∃ (kept gone : List Nat) (added : Option Nat),
    r'.markers = kept ++ added.toList ∧ r'.suppress = r.suppress ++ gone ∧
      kept.Sublist r.markers ∧ (kept ++ gone).Perm r.markers ∧ ∀ i ∈ added, i = r.rawLen

/-- A message that leaves the queue and the suppressed alone. -/
theorem queued_of_same (hqueue : r'.queue = r.queue) (hsuppress : r'.suppress = r.suppress)
    (hbase : r'.base = r.base) (hdurable : r'.durable = r.durable) : Queued r r' where
  base := hbase
  durable := hdurable
  moved := by
    refine ⟨r.markers, [], none, ?_, ?_, List.Sublist.refl _, ?_, by simp⟩
    · simp [markers, hqueue]
    · simp [hsuppress]
    · simp

/-- A message whose answer leaves them alone. -/
theorem queued_of_ok {r₁ : Replayer} {p patched : Option Nat}
    (hok : (.ok (r₁, p) : Except Fault Arm) = .ok (r', patched)) (hqueue : r₁.queue = r.queue)
    (hsuppress : r₁.suppress = r.suppress) (hbase : r₁.base = r.base)
    (hdurable : r₁.durable = r.durable) : Queued r r' := by
  obtain rfl := (Prod.mk.inj (Except.ok.inj hok)).1
  exact queued_of_same hqueue hsuppress hbase hdurable

/-- What follows a pop without touching the queue. -/
theorem Queued.then (h : Queued r r₁) (hqueue : r₂.queue = r₁.queue)
    (hsuppress : r₂.suppress = r₁.suppress) (hbase : r₂.base = r₁.base)
    (hdurable : r₂.durable = r₁.durable) : Queued r r₂ where
  base := hbase.trans h.base
  durable := hdurable.trans h.durable
  moved := by
    obtain ⟨kept, gone, added, hmarkers, hgone, hrest⟩ := h.moved
    exact ⟨kept, gone, added, by rw [← hmarkers, markers, markers, hqueue],
      hsuppress.trans hgone, hrest⟩

/-- What goes before a pop without touching the queue. -/
theorem Queued.after (h : Queued r₁ r') (hqueue : r₁.queue = r.queue)
    (hsuppress : r₁.suppress = r.suppress) (hbase : r₁.base = r.base)
    (hdurable : r₁.durable = r.durable) (hout : r₁.out = r.out) : Queued r r' where
  base := h.base.trans hbase
  durable := h.durable.trans hdurable
  moved := by
    have hmarkers : r₁.markers = r.markers := by rw [markers, markers, hqueue]
    have hlen : r₁.rawLen = r.rawLen := by rw [rawLen, rawLen, hbase, hout]
    have h := h.moved
    rwa [hmarkers, hsuppress, hlen] at h

/-- **A pop.** The item leaves the queue, and its marker is suppressed. -/
theorem queued_popQueue (r : Replayer) (p : QueueItem → Bool) : Queued r (r.popQueue p) := by
  unfold popQueue
  cases hfind : r.queue.find? p with
  | none => exact queued_of_same rfl rfl rfl rfl
  | some item =>
    obtain ⟨hp, before, after, hqueue, hbefore⟩ := List.find?_eq_some_iff_append.mp hfind
    have herase : r.queue.eraseP p = before ++ after := by
      rw [hqueue, List.eraseP_append_right _ (by simpa using hbefore),
        List.eraseP_cons_of_pos hp]
    constructor
    case base => rfl
    case durable => rfl
    case moved =>
      refine ⟨(before ++ after).filterMap (·.markerIdx), item.markerIdx.toList, none, ?_, rfl,
        ?_, ?_, by simp⟩
      · simp [markers, herase]
      · rw [← herase]
        exact List.eraseP_sublist.filterMap _
      · have hperm : (before ++ after ++ [item]).Perm r.queue := by
          rw [hqueue]
          exact (List.perm_append_singleton item _).trans List.perm_middle.symm
        have hmarkers := hperm.filterMap (·.markerIdx)
        rw [List.filterMap_append] at hmarkers
        cases hidx : item.markerIdx with
        | none => simpa [markers, hidx] using hmarkers
        | some i => simpa [markers, hidx] using hmarkers

theorem queued_popPending (r : Replayer) (content : String) : Queued r (r.popPending content) :=
  queued_popQueue r _

theorem queued_queueOp (r : Replayer) (op : QueueOpKind) (content : Option String)
    (prose : Bool) : Queued r (r.queueOp op content prose).1 := by
  have hpop : Queued r (r.queueOp .remove content prose).1 := by
    cases content with
    | none => exact queued_popQueue r _
    | some c => exact queued_popPending r _
  cases op with
  | enqueue =>
    cases content with
    | none => exact queued_of_same rfl rfl rfl rfl
    | some c =>
      cases prose with
      | true =>
        refine ⟨rfl, rfl, r.markers, [], some r.rawLen, ?_, ?_, List.Sublist.refl _, ?_, ?_⟩
        · simp [queueOp, markers, push]
        · simp [queueOp, push]
        · simp
        · simp
      | false =>
        refine ⟨rfl, rfl, r.markers, [], none, ?_, ?_, List.Sublist.refl _, ?_, ?_⟩
        · simp [queueOp, markers]
        · simp [queueOp]
        · simp
        · simp
  | remove => exact hpop
  | dequeue => exact hpop
  | popAll =>
    exact ⟨rfl, rfl, [], r.markers, none, rfl, rfl, List.nil_sublist _, by simp, by simp⟩

theorem queued_toolResult {id text : String} {tur : Value} {isError : Option Bool}
    {patched : Option Nat} (hok : r.toolResult sh id text tur isError = .ok (r', patched)) :
    Queued r r' := by
  simp only [toolResult] at hok
  split at hok
  · obtain ⟨rel, -, hok⟩ := bind_eq_ok.mp hok
    obtain ⟨b, -, hok⟩ := bind_eq_ok.mp hok
    exact queued_of_ok hok rfl rfl rfl rfl
  · split at hok <;> exact queued_of_ok hok rfl rfl rfl rfl

theorem queued_userInbox (r : Replayer) (text words : String) (inbox : Inbox)
    (images : List Attachment) : Queued r (r.userInbox text words inbox images).1 := by
  have hpop := queued_popPending r (trim text)
  simp only [userInbox]
  split
  · exact hpop.then rfl rfl rfl rfl
  · exact hpop.then rfl rfl rfl rfl

theorem queued_peerText (r : Replayer) (sender : String) (mode : Option String) (text : String)
    (queued addr : Option String) : Queued r (r.peerText sender mode text queued addr).1 := by
  cases addr with
  | none =>
    cases queued with
    | none => exact queued_of_same rfl rfl rfl rfl
    | some raw => exact (queued_popPending r (trim raw)).then rfl rfl rfl rfl
  | some a =>
    cases queued with
    | none => exact queued_of_same rfl rfl rfl rfl
    | some raw =>
      have hpop := queued_popPending { r with peerNames := r.peerNames.insert a sender } (trim raw)
      have hnamed : Queued r _ := hpop.after rfl rfl rfl rfl rfl
      simp only [peerText]
      exact hnamed.then rfl rfl rfl rfl

theorem queued_sandboxRun {id : String} {inside : Bool} {patched : Option Nat}
    (hok : r.sandboxRun id inside = .ok (r', patched)) : Queued r r' := by
  simp only [sandboxRun] at hok
  split at hok
  · exact queued_of_ok hok rfl rfl rfl rfl
  · split at hok
    · split at hok
      · obtain ⟨rel, -, hok⟩ := bind_eq_ok.mp hok
        obtain ⟨b, -, hok⟩ := bind_eq_ok.mp hok
        split at hok <;> exact queued_of_ok hok rfl rfl rfl rfl
      · exact queued_of_ok hok rfl rfl rfl rfl
    · exact queued_of_ok hok rfl rfl rfl rfl

theorem queued_skillBody {text fallback : String} {patched : Option Nat}
    (hok : r.skillBody text fallback = .ok (r', patched)) : Queued r r' := by
  simp only [skillBody] at hok
  obtain ⟨rel, -, hok⟩ := bind_eq_ok.mp hok
  split at hok
  · exact queued_of_ok hok rfl rfl rfl rfl
  · split at hok <;> exact queued_of_ok hok rfl rfl rfl rfl

/-- **What one message does to the queue.** -/
theorem step_queued (h : Wf sh r.window r.indices) {m : Message} {patched : Option Nat}
    (hok : r.step sh m = .ok (r', patched)) : Queued r r' := by
  cases m with
  | lineStart ts =>
    rw [step, lineStart_ok h ts] at hok
    exact queued_of_ok hok rfl rfl rfl rfl
  | toolResult id text tur isError => exact queued_toolResult hok
  | sandboxRun id inside => exact queued_sandboxRun hok
  | skillBody text fallback => exact queued_skillBody hok
  | userText text =>
    obtain rfl := (Prod.mk.inj (Except.ok.inj hok)).1
    exact (queued_popPending r _).then rfl rfl rfl rfl
  | userReply text context =>
    obtain rfl := (Prod.mk.inj (Except.ok.inj hok)).1
    exact (queued_popPending r _).then rfl rfl rfl rfl
  | attachmentPrompt text =>
    obtain rfl := (Prod.mk.inj (Except.ok.inj hok)).1
    exact (queued_popPending r _).then rfl rfl rfl rfl
  | userInbox text words inbox images =>
    obtain rfl := congrArg Prod.fst (Except.ok.inj hok)
    exact queued_userInbox r text words inbox images
  | peerText sender mode text queued addr =>
    obtain rfl := congrArg Prod.fst (Except.ok.inj hok)
    exact queued_peerText r sender mode text queued addr
  | queueOp op content prose =>
    obtain rfl := congrArg Prod.fst (Except.ok.inj hok)
    exact queued_queueOp r op content prose
  | refusedNote id text =>
    obtain rfl := congrArg Prod.fst (Except.ok.inj hok)
    simp only [refusedNote]
    split <;> exact queued_of_same rfl rfl rfl rfl
  | compactUsage pre post =>
    obtain rfl := congrArg Prod.fst (Except.ok.inj hok)
    simp only [compactUsage]
    split <;> exact queued_of_same rfl rfl rfl rfl
  | compactSummary text =>
    obtain rfl := congrArg Prod.fst (Except.ok.inj hok)
    simp only [compactSummary]
    split
    · split <;> exact queued_of_same rfl rfl rfl rfl
    · exact queued_of_same rfl rfl rfl rfl
  | commandStdout text =>
    obtain rfl := congrArg Prod.fst (Except.ok.inj hok)
    simp only [commandStdout]
    split <;> exact queued_of_same rfl rfl rfl rfl
  | imagePaths paths =>
    obtain rfl := congrArg Prod.fst (Except.ok.inj hok)
    simp only [patchImagePaths]
    split
    · exact queued_of_same rfl rfl rfl rfl
    · split <;> exact queued_of_same rfl rfl rfl rfl
  | turnDuration secs at_ =>
    obtain rfl := congrArg Prod.fst (Except.ok.inj hok)
    simp only [turnDuration]
    split
    · exact queued_of_same rfl rfl rfl rfl
    · split <;> exact queued_of_same rfl rfl rfl rfl
  | _ =>
    obtain rfl := congrArg Prod.fst (Except.ok.inj hok)
    exact queued_of_same rfl rfl rfl rfl

/-! ## the watched fold -/

/-- The resident markers of `r` that are no longer pending in `r'`. -/
def gone (r r' : Replayer) : List Nat :=
  r.markers.filter fun i => decide (r.base ≤ i ∧ i ∉ r'.markers)

/-- A fold under watch. `popped` are the markers that left the queue uncommitted; `drained`
are the blocks each commit took, numbered; `commits` are the states the commits found. -/
structure Watch where
  r : Replayer
  popped : List Nat := []
  drained : List (List (Block × Nat)) := []
  commits : List Replayer := []

namespace Watch

/-- One message, watched. -/
def message (sh : Shaping) (w : Watch) (m : Message) : Except Fault Watch :=
  (w.r.step sh m).map fun arm => { w with r := arm.1, popped := w.popped ++ w.r.gone arm.1 }

/-- The blocks between two states of the window, numbered, if there are any. -/
def between (r r' : Replayer) : List (List (Block × Nat)) :=
  if r'.base = r.base then [] else [(r.out.take (r'.base - r.base)).zipIdx r.base]

/-- The commit of a batch, watched. -/
def commit (sh : Shaping) (w : Watch) : Except Fault Watch :=
  (w.r.finalizeCompleted sh).map fun r =>
    { w with
      r
      drained := w.drained ++ between w.r r
      commits := w.commits ++ [w.r] }

/-- A batch, watched. -/
def batch (sh : Shaping) (w : Watch) (messages : List Message) : Except Fault Watch := do
  let w ← messages.foldlM (message sh) w
  w.commit sh

/-- A run, watched. -/
def run (sh : Shaping) (w : Watch) (batches : List (List Message)) : Except Fault Watch :=
  batches.foldlM (batch sh) w

/-- What the fold appended and still has or has committed, in the pieces it finishes. -/
def pieces (w : Watch) : List (List (Block × Nat)) := w.drained ++ [w.r.out.zipIdx w.r.base]

/-- A piece, finished without the popped markers. -/
def deliver (sh : Shaping) (popped : List Nat) (piece : List (Block × Nat)) : List Block :=
  sh.finishTurns ((piece.filter fun b => decide (b.2 ∉ popped)).map (·.1))

/-- The finished stream is what the fold appended, each block once and in order, without the
markers popped while uncommitted; and those are markers. -/
def Delivered (sh : Shaping) (w : Watch) : Prop :=
  (∃ times, w.r.intoBlocks sh = .ok ((w.pieces.map (deliver sh w.popped)).flatten, times)) ∧
    w.pieces.flatten.map (·.2) = List.range w.r.rawLen ∧
    ∀ i ∈ w.popped, ∃ text, (.queueEvent text, i) ∈ w.pieces.flatten

/-- **The record of a watch is true.** -/
structure Watched (sh : Shaping) (w : Watch) : Prop where
  wf : Wf sh w.r.window w.r.indices
  ordered : w.r.markers.Pairwise (· < ·)
  popped : ∀ i ∈ w.popped, i < w.r.rawLen
  pending : ∀ i ∈ w.r.markers, i ∉ w.popped
  suppressed : ∀ i, w.r.base ≤ i → (i ∈ w.r.suppress ↔ i ∈ w.popped)
  numbered : w.drained.flatten.map (·.2) = List.range w.r.base
  durable : w.r.durable = (w.drained.map (deliver sh w.popped)).flatten
  marked : ∀ i ∈ w.popped, i < w.r.base → ∃ text, (.queueEvent text, i) ∈ w.drained.flatten

variable {w : Watch}

theorem deliver_congr (sh : Shaping) {popped popped' : List Nat} {piece : List (Block × Nat)}
    (h : ∀ b ∈ piece, (b.2 ∈ popped ↔ b.2 ∈ popped')) :
    deliver sh popped piece = deliver sh popped' piece := by
  have hfilter : piece.filter (fun b => decide (b.2 ∉ popped)) =
      piece.filter fun b => decide (b.2 ∉ popped') :=
    List.filter_congr fun b hb => by simp only [h b hb]
  rw [deliver, deliver, hfilter]

/-- What is drained stands before the window. -/
theorem Watched.lt_base (h : Watched sh w) {b : Block × Nat} (hb : b ∈ w.drained.flatten) :
    b.2 < w.r.base := by
  have hmem : b.2 ∈ w.drained.flatten.map (·.2) := List.mem_map_of_mem hb
  rw [h.numbered] at hmem
  exact List.mem_range.mp hmem

/-- A marker popped later changes nothing of what is drained. -/
theorem Watched.durable_append (h : Watched sh w) {later : List Nat}
    (hlater : ∀ i ∈ later, w.r.base ≤ i) :
    w.r.durable = (w.drained.map (deliver sh (w.popped ++ later))).flatten := by
  rw [h.durable]
  congr 1
  refine List.map_congr_left fun piece hpiece => deliver_congr sh fun b hb => ?_
  have hlt := h.lt_base (List.mem_flatten_of_mem hpiece hb)
  rw [List.mem_append, or_iff_left]
  intro hmem
  have := hlater b.2 hmem
  omega

/-- Pending markers are resident or committed, never to come. -/
theorem marker_lt (h : Wf sh r.window r.indices) {i : Nat} (hi : i ∈ r.markers) :
    i < r.rawLen := by
  obtain ⟨q, hq, hqi⟩ := List.mem_filterMap.mp hi
  exact (h.marker q hq i hqi).1

/-- **One message keeps the record.** -/
theorem Watched.message (h : Watched sh w) (m : Message) :
    ∃ w', w.message sh m = .ok w' ∧ (w.r.step sh m).map (·.1) = .ok w'.r ∧
      w'.commits = w.commits ∧ Watched sh w' := by
  obtain ⟨r', patched, hok, hkept, -⟩ := step_safe h.wf m
  obtain ⟨hbase, hdurable, kept, gone, added, hmarkers, hsuppress, hsub, hperm, hadded⟩ :=
    step_queued h.wf hok
  refine ⟨{ w with r := r', popped := w.popped ++ w.r.gone r' }, by rw [Watch.message, hok]; rfl,
    by rw [hok]; rfl, rfl, ?_⟩
  have hlen : w.r.rawLen ≤ r'.rawLen := hkept.evolves.stop_le
  have hnodup : (kept ++ gone).Nodup := hperm.nodup_iff.mpr (h.ordered.imp ne_of_lt)
  have hfresh : ∀ i ∈ w.r.markers, (i ∈ r'.markers ↔ i ∈ kept) := by
    intro i hi
    have hlt := marker_lt h.wf hi
    rw [hmarkers, List.mem_append, or_iff_left]
    intro hmem
    have := hadded i (Option.mem_toList.mp hmem)
    omega
  have hgone : ∀ i, w.r.base ≤ i → (i ∈ gone ↔ i ∈ w.r.gone r') := by
    intro i hi
    rw [Replayer.gone, List.mem_filter, decide_eq_true_iff]
    constructor
    · intro hmem
      have hpending : i ∈ w.r.markers := hperm.mem_iff.mp (List.mem_append_right _ hmem)
      have hout : i ∉ kept := fun hin => List.disjoint_of_nodup_append hnodup hin hmem
      exact ⟨hpending, hi, fun hin => hout ((hfresh i hpending).mp hin)⟩
    · rintro ⟨hpending, -, hout⟩
      have hmem := hperm.mem_iff.mpr hpending
      rw [List.mem_append] at hmem
      exact hmem.resolve_left fun hin => hout ((hfresh i hpending).mpr hin)
  have hresident : ∀ i ∈ w.r.gone r', i ∈ w.r.markers ∧ w.r.base ≤ i ∧ i ∉ r'.markers := by
    intro i hi
    rw [Replayer.gone, List.mem_filter, decide_eq_true_iff] at hi
    exact hi
  constructor
  case wf => exact hkept.wf
  case ordered =>
    show r'.markers.Pairwise (· < ·)
    rw [hmarkers, List.pairwise_append]
    refine ⟨h.ordered.sublist hsub, by cases added <;> simp, ?_⟩
    intro i hi j hj
    rw [hadded j (Option.mem_toList.mp hj)]
    exact marker_lt h.wf (hsub.subset hi)
  case popped =>
    intro i hi
    obtain hi | hi := List.mem_append.mp hi
    · exact (h.popped i hi).trans_le hlen
    · exact (marker_lt h.wf (hresident i hi).1).trans_le hlen
  case pending =>
    intro i hi hmem
    obtain hmem | hmem := List.mem_append.mp hmem
    · replace hi : i ∈ r'.markers := hi
      rw [hmarkers, List.mem_append] at hi
      obtain hi | hi := hi
      · exact h.pending i (hsub.subset hi) hmem
      · have := hadded i (Option.mem_toList.mp hi)
        have := h.popped i hmem
        omega
    · exact (hresident i hmem).2.2 hi
  case suppressed =>
    intro i hi
    replace hi : w.r.base ≤ i := hbase ▸ hi
    show i ∈ r'.suppress ↔ i ∈ w.popped ++ w.r.gone r'
    rw [hsuppress, List.mem_append, List.mem_append, h.suppressed i hi, hgone i hi]
  case numbered =>
    show _ = List.range r'.base
    rw [hbase]
    exact h.numbered
  case durable => exact hdurable.trans (h.durable_append fun i hi => (hresident i hi).2.1)
  case marked =>
    intro i hi hlt
    replace hlt : i < w.r.base := hbase ▸ hlt
    obtain hi | hi := List.mem_append.mp hi
    · exact h.marked i hi hlt
    · have := (hresident i hi).2.1
      omega

/-- What a reader finishes of the window's front is its piece, delivered. -/
theorem Watched.finish (h : Watched sh w) (n : Nat) :
    sh.finishTurns (dropAt w.r.suppress w.r.base (w.r.out.take n)) =
      deliver sh w.popped ((w.r.out.take n).zipIdx w.r.base) := by
  rw [deliver, ← dropAt_eq_filter]
  congr 1
  exact dropAt_congr _ fun i hi _ => h.suppressed i hi

/-- A popped marker of the window's front is in its piece. -/
theorem Watched.piece_marked (h : Watched sh w) {n i : Nat} (hi : i ∈ w.popped)
    (hge : w.r.base ≤ i) (hlt : i < w.r.base + n) :
    ∃ text, (.queueEvent text, i) ∈ (w.r.out.take n).zipIdx w.r.base := by
  obtain ⟨text, htext⟩ := (h.wf.suppressed i ((h.suppressed i hge).mpr hi)).2 hge
  obtain ⟨-, hget⟩ := Window.at?_eq_some.mp htext
  refine ⟨text, List.mk_mem_zipIdx_iff_le_and_getElem?_sub.mpr ⟨hge, ?_⟩⟩
  rw [List.getElem?_take_of_lt (by omega)]
  exact hget

/-- The indices of the front of a window. -/
theorem range_base (base : Nat) (xs : List α) :
    List.range base ++ (xs.zipIdx base).map (·.2) = List.range (base + xs.length) := by
  have hsnd : (xs.zipIdx base).map (·.2) = List.range' base xs.length := List.zipIdx_map_snd ..
  rw [hsnd, List.range_eq_range', List.range_eq_range', ← List.range'_append_1, Nat.zero_add]

/-- **One commit keeps the record.** -/
theorem Watched.commit (h : Watched sh w) :
    ∃ w', w.commit sh = .ok w' ∧ w'.r = w.r.finalize sh ∧
      w'.commits = w.commits ++ [w.r] ∧ Watched sh w' := by
  refine ⟨_, by rw [Watch.commit, finalizeCompleted_ok h.wf]; rfl, rfl, rfl, ?_⟩
  have hbase := finalize_base sh w.r
  by_cases hzero : w.r.cut = 0
  · -- Nothing is drained.
    have hsame : w.r.finalize sh = w.r := by rw [finalize, if_pos hzero]
    have hnone : between w.r (w.r.finalize sh) = [] := by rw [between, if_pos (by omega)]
    simp only [hsame] at hnone ⊢
    rw [hnone, List.append_nil]
    exact { h with }
  · have hfinal : w.r.finalize sh = w.r.stamp.retire sh w.r.cut := by rw [finalize, if_neg hzero]
    have hpiece : between w.r (w.r.finalize sh) =
        [(w.r.out.take w.r.cut).zipIdx w.r.base] := by
      rw [between, if_neg (by omega), hbase, Nat.add_sub_cancel_left]
    have hle := w.r.cut_le
    constructor
    case wf => exact (finalize_advanced h.wf).1
    case ordered => rw [hfinal]; exact h.ordered
    case popped =>
      intro i hi
      have hlt := h.popped i hi
      have hlen := (finalize_advanced h.wf).2.stop_le
      exact hlt.trans_le hlen
    case pending => rw [hfinal]; exact h.pending
    case suppressed =>
      intro i hi
      replace hi : w.r.base + w.r.cut ≤ i := hbase ▸ hi
      rw [hfinal]
      show i ∈ w.r.suppress.filter (w.r.base + w.r.cut ≤ ·) ↔ _
      rw [List.mem_filter, ← h.suppressed i (by omega)]
      simp [hi]
    case numbered =>
      show (w.drained ++ between w.r _).flatten.map (·.2) = List.range (w.r.finalize sh).base
      rw [hpiece, List.flatten_append, List.map_append, h.numbered, List.flatten_singleton,
        range_base, hbase, List.length_take, Nat.min_eq_left hle]
    case durable =>
      show (w.r.finalize sh).durable = ((w.drained ++ between w.r _).map _).flatten
      rw [hpiece, List.map_append, List.flatten_append, ← h.durable, List.map_singleton,
        List.flatten_singleton, ← h.finish, hfinal]
      rfl
    case marked =>
      intro i hi hlt
      replace hlt : i < w.r.base + w.r.cut := hbase ▸ hlt
      show ∃ text, _ ∈ (w.drained ++ between w.r _).flatten
      rw [hpiece, List.flatten_append, List.flatten_singleton]
      by_cases hold : i < w.r.base
      · obtain ⟨text, htext⟩ := h.marked i hi hold
        exact ⟨text, List.mem_append_left _ htext⟩
      · obtain ⟨text, htext⟩ := h.piece_marked hi (Nat.le_of_not_lt hold) hlt
        exact ⟨text, List.mem_append_right _ htext⟩

/-- What a true record says of the finished stream. -/
theorem Watched.delivered (h : Watched sh w) : w.Delivered sh := by
  have hall : w.r.out.take w.r.out.length = w.r.out := List.take_length
  refine ⟨⟨w.r.stampedTimes, ?_⟩, ?_, ?_⟩
  · have hfinish := h.finish w.r.out.length
    rw [hall] at hfinish
    rw [intoBlocks_ok h.wf, openBlocks_eq, hfinish, pieces, List.map_append, List.flatten_append,
      ← h.durable, List.map_singleton, List.flatten_singleton]
  · rw [pieces, List.flatten_append, List.map_append, h.numbered, List.flatten_singleton,
      range_base, rawLen]
  · intro i hi
    rw [pieces, List.flatten_append, List.flatten_singleton]
    by_cases hold : i < w.r.base
    · obtain ⟨text, htext⟩ := h.marked i hi hold
      exact ⟨text, List.mem_append_left _ htext⟩
    · obtain ⟨text, htext⟩ := h.piece_marked hi (Nat.le_of_not_lt hold) (h.popped i hi)
      rw [hall] at htext
      exact ⟨text, List.mem_append_right _ htext⟩

/-! ## runs -/

theorem Watched.messages (h : Watched sh w) (messages : List Message) :
    ∃ w', messages.foldlM (Watch.message sh) w = .ok w' ∧ w.r.steps sh messages = .ok w'.r ∧
      w'.commits = w.commits ∧ Watched sh w' := by
  induction messages generalizing w with
  | nil => exact ⟨w, rfl, rfl, rfl, h⟩
  | cons m ms ih =>
    obtain ⟨w₁, hok, hstep, hcommits, h₁⟩ := h.message m
    obtain ⟨w₂, hrun, hsteps, hcommits', h₂⟩ := ih h₁
    refine ⟨w₂, ?_, ?_, hcommits'.trans hcommits, h₂⟩
    · rw [List.foldlM_cons, hok, bind_ok, hrun]
    · rw [steps] at hsteps ⊢
      rw [List.foldlM_cons, hstep, bind_ok, hsteps]

/-- **One batch keeps the record**, and adds the state its commit found. -/
theorem Watched.batch (h : Watched sh w) (messages : List Message) :
    ∃ w' c, w.batch sh messages = .ok w' ∧ w.r.steps sh messages = .ok c ∧
      (w.r.apply sh messages).map (·.1) = .ok w'.r ∧ w'.commits = w.commits ++ [c] ∧
      Watched sh w' := by
  obtain ⟨w₁, hok, hsteps, hcommits, h₁⟩ := h.messages messages
  obtain ⟨w₂, hcommit, hr, hcommits', h₂⟩ := h₁.commit
  obtain ⟨r₁, floor, hsteps', -, happly, -⟩ := apply_ok h.wf messages
  obtain rfl : w₁.r = r₁ := Except.ok.inj (hsteps.symm.trans hsteps')
  refine ⟨w₂, w₁.r, ?_, hsteps, ?_, ?_, h₂⟩
  · rw [Watch.batch, hok, bind_ok, hcommit]
  · rw [happly, hr]
    rfl
  · rw [hcommits', hcommits]

/-- **A run keeps the record**, and watching changes nothing of the run. -/
theorem Watched.run (h : Watched sh w) (batches : List (List Message)) :
    ∃ w', w.run sh batches = .ok w' ∧ w.r.run sh batches = .ok w'.r ∧
      w'.commits.length = w.commits.length + batches.length ∧ Watched sh w' := by
  induction batches generalizing w with
  | nil => exact ⟨w, rfl, rfl, rfl, h⟩
  | cons messages batches ih =>
    obtain ⟨w₁, c, hok, -, happly, hcommits, h₁⟩ := h.batch messages
    obtain ⟨w₂, hrun, hrest, hlen, h₂⟩ := ih h₁
    refine ⟨w₂, ?_, ?_, ?_, h₂⟩
    · rw [Watch.run] at hrun ⊢
      rw [List.foldlM_cons, hok, bind_ok, hrun]
    · rw [Replayer.run] at hrest ⊢
      rw [List.foldlM_cons, happly, bind_ok, hrest]
    · rw [hlen, hcommits, List.length_append, List.length_cons, List.length_cons, List.length_nil]
      omega

/-- A watch from the start of a fold. -/
def start (s : Start) : Watch := { r := s.replayer }

theorem watched_start (sh : Shaping) (s : Start) : Watched sh (start s) := by
  have hqueue : s.replayer.queue = [] := by cases s <;> rfl
  have hsuppress : s.replayer.suppress = [] := by cases s <;> rfl
  have hbase : s.replayer.base = 0 := by cases s <;> rfl
  have hdurable : s.replayer.durable = [] := by cases s <;> rfl
  constructor
  case wf => exact wf_start sh s
  case ordered => simp [start, markers, hqueue]
  case popped => simp [start]
  case pending => simp [start]
  case suppressed => simp [start, hsuppress]
  case numbered => simp [start, hbase]
  case durable => exact hdurable
  case marked => simp [start]

/-- The life of the markers in a run: no commit takes the marker of a pending prompt that is
within the bound, and the finished stream is without the popped ones and nothing else. -/
def Lifecycle (sh : Shaping) (w : Watch) : Prop :=
  (∀ c ∈ w.commits, c.KeepsMarkers sh) ∧ w.Delivered sh

/-- **The lifecycle of queue markers.** Whatever the messages and however they are cut into
batches, the watched run is the run, it found one state at each batch's commit, and the
finished stream is what the fold appended without the markers popped in time. The whole
lifecycle holds exactly when no commit finds a stale prompt queued before one to be kept. -/
theorem markers_lifecycle (sh : Shaping) (s : Start) (batches : List (List Message)) :
    ∃ w, (start s).run sh batches = .ok w ∧ s.replayer.run sh batches = .ok w.r ∧
      w.commits.length = batches.length ∧ w.Delivered sh ∧
      (w.Lifecycle sh ↔ ∀ c ∈ w.commits, c.NoStale) := by
  obtain ⟨w, hrun, hreal, hlen, h⟩ := (watched_start sh s).run batches
  refine ⟨w, hrun, hreal, by simpa [start] using hlen, h.delivered, ?_⟩
  constructor
  · intro hlife c hc
    exact (keepsMarkers_iff sh c).mp (hlife.1 c hc)
  · intro hstale
    exact ⟨fun c hc => (keepsMarkers_iff sh c).mpr (hstale c hc), h.delivered⟩

/-- Two prompts are queued, the first more turns ago than the bound. -/
def staleFirst : List Message :=
  .queueOp .enqueue (some "a") true :: List.replicate 65 (.userText "t") ++
    [.queueOp .enqueue (some "b") true, .userText "u"]

/-- One stale prompt lets the commit take the marker of the fresh one. -/
theorem stale_drops_fresh :
    ∃ w, (start .cold).run .scripted [staleFirst] = .ok w ∧ ¬ w.Lifecycle .scripted := by
  obtain ⟨w, c, hbatch, hsteps, -, hcommits, -⟩ :=
    (watched_start .scripted .cold).batch staleFirst
  have hfound : (Replayer.new.steps .scripted staleFirst).toOption.map (fun c =>
      (rposition Block.opensTurn c.out, c.markers, (c.finalize .scripted).base)) =
      some (some 67, [0, 66], 67) := by decide +kernel
  have hbound : (Replayer.new.steps .scripted staleFirst).toOption.map (fun c =>
      (c.base, ((c.out.take 67).drop (c.turnAt 66)).countP Block.opensTurn)) =
      some (0, 1) := by decide +kernel
  rw [show Replayer.new.steps .scripted staleFirst = .ok c from hsteps] at hfound hbound
  simp only [Except.toOption, Option.map_some, Option.some.injEq, Prod.mk.injEq] at hfound hbound
  obtain ⟨hopener, hmarkers, hcommitted⟩ := hfound
  obtain ⟨hbase, hcount⟩ := hbound
  refine ⟨w, by rw [Watch.run, List.foldlM_cons, hbatch, bind_ok]; rfl, fun hlife => ?_⟩
  have hkeeps : c.KeepsMarkers .scripted := hlife.1 c (by simp [hcommits, start])
  have hkept := hkeeps 67 hopener 66 (by simp [hmarkers]) ⟨by omega, by rw [hcount]; decide⟩
  omega

end Watch

end Replayer

end ClaudeReplay
