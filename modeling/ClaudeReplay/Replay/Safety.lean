import ClaudeReplay.Lib.Window
import ClaudeReplay.Replay

/-!
# ClaudeReplay.Replay.Safety

Index safety of the fold. The replayer keeps logical indices in five places while
each commit moves the base of its window. `Wf` is the invariant that ties them
down:

* the stamp lies between the base and the end of the window;
* a tool slot is resident, and its block descends from one built for that id;
* the last skill is resident, and its block descends from a `Skill` call;
* a queue marker or suppressed position is below the end, and while it is
  resident it is a queue marker (the item's own, for a queued one);
* no tool slot is also a marker.

Every operation keeps `Wf`, and every checked access is discharged by it, so a
fold from a fresh or a reseeded replayer never faults (`run_safe`). `Patch`
lists the in-place edits the fold makes; between any two states of a run the
window `Evolves` by them, so a stored index designates the block it was stored
for as long as it is stored.

With this the fallible model becomes a total one: `Fold` is a replayer together
with its invariant, and its operations are total functions.
-/

namespace ClaudeReplay

open Lib

namespace Replayer

/-- The replayer's window. -/
def window (r : Replayer) : Window Block := ⟨r.base, r.out⟩

/-- The logical indices a replayer stores. -/
structure Indices where
  stamped : Nat
  toolSlot : StrMap Nat
  queue : List QueueItem
  suppress : List Nat
  lastSkill : Option Nat

/-- The indices of a replayer. -/
def indices (r : Replayer) : Indices := ⟨r.stamped, r.toolSlot, r.queue, r.suppress, r.lastSkill⟩

/-- The in-place edits the fold makes to a resident block. -/
inductive Patch (sh : Shaping) : Block → Block → Prop
  | joined (b text tur e) : Patch sh b (sh.joinResult b text tur e)
  | outside (call) : Patch sh (.toolUse call) (.toolUse (markOutside call))
  | skill (call body) (h : call.name = "Skill") :
      Patch sh (.toolUse call) (.toolUse (call.attachBody body))
  | usage (trigger pre post pre' post' summary) :
      Patch sh (.compaction trigger pre post summary) (.compaction trigger pre' post' summary)
  | summary (trigger pre post text) :
      Patch sh (.compaction trigger pre post "") (.compaction trigger pre post text)
  | stdout (name args output text) :
      Patch sh (.command name args output) (.command name args (output ++ [text]))
  | path (p b) : Patch sh b (setPath p b)

/-- Any number of in-place edits. -/
abbrev Patches (sh : Shaping) : Block → Block → Prop := Relation.ReflTransGen (Patch sh)

/-- `b` is what the fold appends for a tool call with this id. -/
def BuiltFor (sh : Shaping) (id : String) (b : Block) : Prop :=
  ∃ (r : Replayer) (name : String) (input : Value) (cwd : String),
    b = r.nameRecipient (sh.buildTool id name input cwd)

/-- **The index invariant.** -/
structure Wf (sh : Shaping) (w : Window Block) (ix : Indices) : Prop where
  stamped_ge : w.base ≤ ix.stamped
  stamped_le : ix.stamped ≤ w.stop
  slot : ∀ (id : String) (i : Nat), ix.toolSlot[id]? = some i →
    ∃ b₀ b, BuiltFor sh id b₀ ∧ w.at? i = some b ∧ Patches sh b₀ b
  skill : ∀ i, ix.lastSkill = some i →
    ∃ call b, call.name = "Skill" ∧ w.at? i = some b ∧ Patches sh (.toolUse call) b
  marker : ∀ q ∈ ix.queue, ∀ i, q.markerIdx = some i →
    i < w.stop ∧ (w.base ≤ i → w.at? i = some (.queueEvent q.content))
  suppressed : ∀ i ∈ ix.suppress,
    i < w.stop ∧ (w.base ≤ i → ∃ text, w.at? i = some (.queueEvent text))
  apart : ∀ (id : String) (i : Nat), ix.toolSlot[id]? = some i →
    i ∉ ix.suppress ∧ ∀ q ∈ ix.queue, q.markerIdx ≠ some i

variable {sh : Shaping} {w : Window Block} {ix : Indices}

/-! ## what each kind of update keeps -/

/-- An empty window with nothing stored. -/
theorem wf_empty (sh : Shaping) : Wf sh ⟨0, []⟩ ⟨0, ∅, [], [], none⟩ where
  stamped_ge := le_rfl
  stamped_le := le_rfl
  slot id i h := by simp at h
  skill i h := by simp at h
  marker q hq := by simp at hq
  suppressed i hi := by simp at hi
  apart id i h := by simp at h

theorem Wf.append (h : Wf sh w ix) (bs : List Block) : Wf sh (w.append bs) ix where
  stamped_ge := h.stamped_ge
  stamped_le := by
    have := h.stamped_le
    rw [Window.stop_append]
    omega
  slot id i hi := by
    obtain ⟨b₀, b, hb₀, hb, hp⟩ := h.slot id i hi
    exact ⟨b₀, b, hb₀, by rw [Window.at?_append_of_lt (Window.lt_stop_of_at? hb), hb], hp⟩
  skill i hi := by
    obtain ⟨call, b, hc, hb, hp⟩ := h.skill i hi
    exact ⟨call, b, hc, by rw [Window.at?_append_of_lt (Window.lt_stop_of_at? hb), hb], hp⟩
  marker q hq i hi := by
    obtain ⟨hlt, hat⟩ := h.marker q hq i hi
    refine ⟨Window.lt_stop_append hlt bs, fun hb => ?_⟩
    rw [Window.at?_append_of_lt hlt]
    exact hat hb
  suppressed i hi := by
    obtain ⟨hlt, hat⟩ := h.suppressed i hi
    refine ⟨Window.lt_stop_append hlt bs, fun hb => ?_⟩
    rw [Window.at?_append_of_lt hlt]
    exact hat hb
  apart := h.apart

/-- A slot recorded for the block at the end of the window, before it is appended. -/
theorem Wf.record_slot (h : Wf sh w ix) {id : String} {b : Block} (hb : BuiltFor sh id b) :
    Wf sh (w.append [b]) { ix with toolSlot := ix.toolSlot.insert id w.stop } :=
  { h.append [b] with
    slot := by
      intro j i hi
      rw [StrMap.getElem?_insert] at hi
      split at hi
      · next hj =>
        subst hj
        rw [Option.some.injEq] at hi
        subst hi
        exact ⟨b, b, hb, Window.at?_append_stop w b [], .refl⟩
      · exact (h.append [b]).slot j i hi
    apart := by
      intro j i hi
      rw [StrMap.getElem?_insert] at hi
      split at hi
      · rw [Option.some.injEq] at hi
        subst hi
        exact ⟨fun hmem => (h.suppressed _ hmem).1.false,
          fun q hq hqi => (h.marker q hq _ hqi).1.false⟩
      · exact h.apart j i hi }

/-- A `Skill` call recorded as the latest one. -/
theorem Wf.record_skill (h : Wf sh w ix) {call : ToolUse} (hcall : call.name = "Skill")
    (hat : w.at? i = some (.toolUse call)) : Wf sh w { ix with lastSkill := some i } :=
  { h with
    skill := by
      intro j hj
      rw [Option.some.injEq] at hj
      subst hj
      exact ⟨call, .toolUse call, hcall, hat, .refl⟩ }

/-- A marker appended and queued. -/
theorem Wf.record_marker (h : Wf sh w ix) (content : String) :
    Wf sh (w.append [.queueEvent content])
      { ix with queue := ix.queue ++ [⟨content, some w.stop⟩] } :=
  { h.append [.queueEvent content] with
    marker := by
      intro q hq i hi
      rw [List.mem_append, List.mem_singleton] at hq
      cases hq with
      | inl hq => exact (h.append [.queueEvent content]).marker q hq i hi
      | inr hq =>
        subst hq
        rw [Option.some.injEq] at hi
        subst hi
        refine ⟨?_, fun _ => Window.at?_append_stop w _ []⟩
        rw [Window.stop_append]
        simp
    apart := by
      intro id i hi
      refine ⟨(h.apart id i hi).1, fun q hq hqi => ?_⟩
      rw [List.mem_append, List.mem_singleton] at hq
      cases hq with
      | inl hq => exact (h.apart id i hi).2 q hq hqi
      | inr hq =>
        subst hq
        rw [Option.some.injEq] at hqi
        subst hqi
        obtain ⟨b₀, b, -, hb, -⟩ := h.slot id _ hi
        exact (Window.lt_stop_of_at? hb).false }

/-- An item without a marker queued. -/
theorem Wf.record_silent (h : Wf sh w ix) (content : String) :
    Wf sh w { ix with queue := ix.queue ++ [⟨content, none⟩] } :=
  { h with
    marker := by
      intro q hq i hi
      rw [List.mem_append, List.mem_singleton] at hq
      cases hq with
      | inl hq => exact h.marker q hq i hi
      | inr hq => subst hq; simp at hi
    apart := by
      intro id i hi
      refine ⟨(h.apart id i hi).1, fun q hq hqi => ?_⟩
      rw [List.mem_append, List.mem_singleton] at hq
      cases hq with
      | inl hq => exact (h.apart id i hi).2 q hq hqi
      | inr hq => subst hq; simp at hqi }

/-- Items leave the queue, their markers becoming suppressed positions. -/
theorem Wf.release (h : Wf sh w ix) {queue : List QueueItem} {suppress : List Nat}
    (hq : ∀ q ∈ queue, q ∈ ix.queue)
    (hs : ∀ i ∈ suppress, i ∈ ix.suppress ∨ ∃ q ∈ ix.queue, q.markerIdx = some i) :
    Wf sh w { ix with queue, suppress } :=
  { h with
    marker := fun q hq' => h.marker q (hq q hq')
    suppressed := by
      intro i hi
      cases hs i hi with
      | inl hi => exact h.suppressed i hi
      | inr hi =>
        obtain ⟨q, hq', hqi⟩ := hi
        obtain ⟨hlt, hat⟩ := h.marker q hq' i hqi
        exact ⟨hlt, fun hb => ⟨q.content, hat hb⟩⟩
    apart := by
      intro id i hi
      refine ⟨fun hmem => ?_, fun q hq' => (h.apart id i hi).2 q (hq q hq')⟩
      cases hs i hmem with
      | inl hmem => exact (h.apart id i hi).1 hmem
      | inr hmem =>
        obtain ⟨q, hq', hqi⟩ := hmem
        exact (h.apart id i hi).2 q hq' hqi }

/-- The window is stamped to its end. -/
theorem Wf.stamp (h : Wf sh w ix) : Wf sh w { ix with stamped := w.stop } :=
  { h with
    stamped_ge := Nat.le_add_right _ _
    stamped_le := le_rfl }

/-- What an in-place edit of the window must respect: entries are patched, and a
queue marker that is no tool slot is left alone. -/
structure Edit (sh : Shaping) (slots : StrMap Nat) (w w' : Window Block) : Prop where
  base_eq : w'.base = w.base
  length_eq : w'.items.length = w.items.length
  patched : ∀ i b, w.at? i = some b → ∃ b', w'.at? i = some b' ∧ Patches sh b b'
  markers : ∀ i text, w.at? i = some (.queueEvent text) →
    (∀ id : String, slots[id]? ≠ some i) → w'.at? i = some (.queueEvent text)

theorem Edit.refl (slots : StrMap Nat) (w : Window Block) : Edit sh slots w w :=
  ⟨rfl, rfl, fun _ b hb => ⟨b, hb, .refl⟩, fun _ _ h _ => h⟩

theorem Edit.trans {slots : StrMap Nat} {w₁ w₂ w₃ : Window Block}
    (h : Edit sh slots w₁ w₂) (h' : Edit sh slots w₂ w₃) : Edit sh slots w₁ w₃ where
  base_eq := h'.base_eq.trans h.base_eq
  length_eq := h'.length_eq.trans h.length_eq
  patched i b hb := by
    obtain ⟨c, hc, hbc⟩ := h.patched i b hb
    obtain ⟨d, hd, hcd⟩ := h'.patched i c hc
    exact ⟨d, hd, hbc.trans hcd⟩
  markers i text hi hid := h'.markers i text (h.markers i text hi hid) hid

theorem Edit.stop_eq {slots : StrMap Nat} {w w' : Window Block}
    (h : Edit sh slots w w') : w'.stop = w.stop := by
  rw [Window.stop, Window.stop, h.base_eq, h.length_eq]

theorem Edit.evolves {slots : StrMap Nat} {w w' : Window Block}
    (h : Edit sh slots w w') : Window.Evolves (Patch sh) w w' where
  base_le := h.base_eq.ge
  stop_le := h.stop_eq.ge
  entry i hi hi' := by
    rw [h.base_eq] at hi
    obtain ⟨b, hb⟩ := Window.exists_at? hi hi'
    obtain ⟨b', hb', hp⟩ := h.patched i b hb
    exact ⟨b, b', hb, hb', hp⟩

theorem Wf.edit (h : Wf sh w ix) {w' : Window Block} (he : Edit sh ix.toolSlot w w') :
    Wf sh w' ix where
  stamped_ge := by rw [he.base_eq]; exact h.stamped_ge
  stamped_le := by rw [he.stop_eq]; exact h.stamped_le
  slot id i hi := by
    obtain ⟨b₀, b, hb₀, hb, hp⟩ := h.slot id i hi
    obtain ⟨b', hb', hp'⟩ := he.patched i b hb
    exact ⟨b₀, b', hb₀, hb', hp.trans hp'⟩
  skill i hi := by
    obtain ⟨call, b, hc, hb, hp⟩ := h.skill i hi
    obtain ⟨b', hb', hp'⟩ := he.patched i b hb
    exact ⟨call, b', hc, hb', hp.trans hp'⟩
  marker q hq i hi := by
    obtain ⟨hlt, hat⟩ := h.marker q hq i hi
    rw [he.stop_eq, he.base_eq]
    refine ⟨hlt, fun hb => he.markers i _ (hat hb) fun id hid => ?_⟩
    exact (h.apart id i hid).2 q hq hi
  suppressed i hi := by
    obtain ⟨hlt, hat⟩ := h.suppressed i hi
    rw [he.stop_eq, he.base_eq]
    refine ⟨hlt, fun hb => ?_⟩
    obtain ⟨text, ht⟩ := hat hb
    exact ⟨text, he.markers i text ht fun id hid => (h.apart id i hid).1 hi⟩
  apart := h.apart

/-- Rewriting one entry by a patch is an edit, provided the entry is no queue
marker or is a tool slot. -/
theorem edit_set (sh : Shaping) (slots : StrMap Nat) (w : Window Block) {b b' : Block}
    (hj : w.items[j]? = some b)
    (hp : Patch sh b b')
    (hslot : (∃ id : String, slots[id]? = some (w.base + j)) ∨ ∀ text, b ≠ .queueEvent text) :
    Edit sh slots w ⟨w.base, w.items.set j b'⟩ where
  base_eq := rfl
  length_eq := List.length_set
  patched i c hc := by
    obtain ⟨hb, hc⟩ := Window.at?_eq_some.mp hc
    by_cases hij : i - w.base = j
    · rw [hij, hj, Option.some.injEq] at hc
      subst hc
      refine ⟨b', Window.at?_eq_some.mpr ⟨hb, ?_⟩, .single hp⟩
      have hlt := (List.getElem?_eq_some_iff.mp hj).1
      rw [hij, List.getElem?_set_self hlt]
    · refine ⟨c, Window.at?_eq_some.mpr ⟨hb, ?_⟩, .refl⟩
      rw [List.getElem?_set_ne (Ne.symm hij)]
      exact hc
  markers i text hi hid := by
    obtain ⟨hb, hc⟩ := Window.at?_eq_some.mp hi
    refine Window.at?_eq_some.mpr ⟨hb, ?_⟩
    by_cases hij : i - w.base = j
    · rw [hij, hj, Option.some.injEq] at hc
      cases hslot with
      | inl hslot =>
        obtain ⟨id, hs⟩ := hslot
        have hi' : w.base + j = i := by omega
        rw [hi'] at hs
        exact absurd hs (hid id)
      | inr hne => exact absurd hc (hne text)
    · rw [List.getElem?_set_ne (Ne.symm hij)]
      exact hc

/-- Committed blocks leave the window, and the indices into them are retired. -/
theorem Wf.drop (h : Wf sh w ix) (hk : k ≤ w.items.length) (hst : w.base + k ≤ ix.stamped) :
    Wf sh (w.drop k)
      { ix with
        suppress := ix.suppress.filter (w.base + k ≤ ·)
        toolSlot := ix.toolSlot.retain (w.base + k ≤ ·)
        lastSkill := ix.lastSkill.filter (w.base + k ≤ ·) } where
  stamped_ge := hst
  stamped_le := by rw [Window.stop_drop w k hk]; exact h.stamped_le
  slot id i hi := by
    obtain ⟨hi, hge⟩ := StrMap.getElem?_retain_eq_some.mp hi
    obtain ⟨b₀, b, hb₀, hb, hp⟩ := h.slot id i hi
    exact ⟨b₀, b, hb₀, by rw [Window.at?_drop (by simpa using hge), hb], hp⟩
  skill i hi := by
    obtain ⟨hi, hge⟩ := Option.filter_eq_some_iff.mp hi
    obtain ⟨call, b, hc, hb, hp⟩ := h.skill i hi
    exact ⟨call, b, hc, by rw [Window.at?_drop (by simpa using hge), hb], hp⟩
  marker q hq i hi := by
    obtain ⟨hlt, hat⟩ := h.marker q hq i hi
    rw [Window.stop_drop w k hk]
    refine ⟨hlt, fun hb => ?_⟩
    rw [Window.at?_drop hb]
    exact hat (Nat.le_trans (Nat.le_add_right _ _) hb)
  suppressed i hi := by
    obtain ⟨hlt, hat⟩ := h.suppressed i (List.mem_of_mem_filter hi)
    rw [Window.stop_drop w k hk]
    refine ⟨hlt, fun hb => ?_⟩
    rw [Window.at?_drop hb]
    exact hat (Nat.le_trans (Nat.le_add_right _ _) hb)
  apart id i hi := by
    obtain ⟨hi, -⟩ := StrMap.getElem?_retain_eq_some.mp hi
    exact ⟨fun hmem => (h.apart id i hi).1 (List.mem_of_mem_filter hmem), (h.apart id i hi).2⟩

/-! ## the arms -/

/-- What one message leaves of a replayer: the invariant, a later state of the
same window, and the same base. -/
structure Kept (sh : Shaping) (r r' : Replayer) : Prop where
  wf : Wf sh r'.window r'.indices
  evolves : Window.Evolves (Patch sh) r.window r'.window
  base_eq : r'.base = r.base

theorem Kept.trans {r₁ r₂ r₃ : Replayer} (h : Kept sh r₁ r₂) (h' : Kept sh r₂ r₃) :
    Kept sh r₁ r₃ :=
  ⟨h'.wf, h.evolves.trans h'.evolves, h'.base_eq.trans h.base_eq⟩

/-- An arm did not fault, kept the invariant, and patched only a block that was
resident when the message arrived. -/
def ArmSafe (sh : Shaping) (r : Replayer) (x : Except Fault Arm) : Prop :=
  ∃ r' patched, x = .ok (r', patched) ∧ Kept sh r r' ∧
    ∀ i, patched = some i → r.base ≤ i ∧ i < r.rawLen

variable {r : Replayer}

theorem armSafe_of_kept {r' : Replayer} (h : Kept sh r r') : ArmSafe sh r (.ok (r', none)) :=
  ⟨r', none, rfl, h, fun _ hi => by simp at hi⟩

theorem kept_refl (h : Wf sh r.window r.indices) : Kept sh r r := ⟨h, .refl _, rfl⟩

theorem kept_push (h : Wf sh r.window r.indices) (b : Block) : Kept sh r (r.push b) :=
  ⟨h.append [b], Window.evolves_append r.window [b], rfl⟩

theorem armSafe_append (h : Wf sh r.window r.indices) (b : Block) :
    ArmSafe sh r (.ok (r.append b)) :=
  armSafe_of_kept (kept_push h b)

/-- An edit of the window that touches nothing else. -/
theorem kept_edit (h : Wf sh r.window r.indices) {out : List Block}
    (he : Edit sh r.toolSlot r.window ⟨r.base, out⟩) : Kept sh r { r with out } :=
  ⟨h.edit he, he.evolves, rfl⟩

/-- The times once the window is stamped with the line in force. -/
def stampedTimes (r : Replayer) : List (Option EpochSeconds) :=
  r.userTimes ++ ((r.out.drop (r.stamped - r.base)).filter Block.opensTurn).map fun _ => r.pendingTs

/-- The replayer once its window is stamped. -/
def stamp (r : Replayer) : Replayer :=
  { r with
    userTimes := r.stampedTimes
    turnDurations := resize r.turnDurations r.stampedTimes.length none
    stamped := r.rawLen }

/-- Stamping a well-formed replayer succeeds, and stamps to the window's end. -/
theorem stampWindow_ok (h : Wf sh r.window r.indices) : r.stampWindow = .ok r.stamp := by
  have hge : r.base ≤ r.stamped := h.stamped_ge
  have hle : r.stamped ≤ r.base + r.out.length := h.stamped_le
  have hin : r.stamped - r.base ≤ r.out.length := by omega
  simp only [stampWindow, windowStamped, stampUserTurns, assertThat_of _ hge,
    checkedSub_of_le hge, sliceFrom_of_le hin, bind, Except.bind, pure, Except.pure]
  rfl

theorem lineStart_safe (h : Wf sh r.window r.indices) (ts : Option EpochSeconds) :
    ArmSafe sh r (r.lineStart ts) := by
  simp only [lineStart, stampWindow_ok h, bind, Except.bind, pure, Except.pure]
  exact armSafe_of_kept ⟨h.stamp, .refl _, rfl⟩

theorem toolUse_safe (h : Wf sh r.window r.indices) (id name : String) (input : Value)
    (cwd : String) : ArmSafe sh r (.ok (r.toolUse sh id name input cwd)) := by
  have hbuilt : BuiltFor sh id (r.nameRecipient (sh.buildTool id name input cwd)) :=
    ⟨r, name, input, cwd, rfl⟩
  simp only [toolUse]
  generalize r.nameRecipient (sh.buildTool id name input cwd) = block at hbuilt ⊢
  have hat : (r.window.append [block]).at? r.rawLen = some block :=
    Window.at?_append_stop r.window block []
  -- the slot first, then the skill over it
  have hslot : Wf sh (r.window.append [block])
      { r.indices with
        toolSlot := if id.isEmpty then r.toolSlot else r.toolSlot.insert id r.rawLen } := by
    split
    · exact h.append [block]
    · exact h.record_slot hbuilt
  refine armSafe_of_kept ⟨?_, Window.evolves_append r.window [block], rfl⟩
  show Wf sh (r.window.append [block])
    ⟨r.stamped, if id.isEmpty then r.toolSlot else r.toolSlot.insert id r.rawLen, r.queue,
      r.suppress, if isSkill block then some r.rawLen else r.lastSkill⟩
  cases hskill : isSkill block with
  | false => exact hslot
  | true =>
    cases block with
    | toolUse call =>
      have hname : call.name = "Skill" := by simpa [isSkill] using hskill
      exact hslot.record_skill hname hat
    | _ => simp [isSkill] at hskill

/-- A recorded slot's subtraction and access both succeed. -/
theorem slot_access (h : Wf sh r.window r.indices) {id : String} {i : Nat}
    (hi : r.toolSlot[id]? = some i) :
    ∃ b, checkedSub i r.base = .ok (i - r.base) ∧ indexAt r.out (i - r.base) = .ok b ∧
      r.out[i - r.base]? = some b ∧ r.base + (i - r.base) = i ∧ i < r.rawLen := by
  obtain ⟨b₀, b, -, hb, -⟩ := h.slot id i hi
  have hlt := Window.lt_stop_of_at? hb
  obtain ⟨hge, hget⟩ := Window.at?_eq_some.mp hb
  exact ⟨b, checkedSub_of_le hge, indexAt_of_getElem? hget, hget, Nat.add_sub_cancel' hge, hlt⟩

theorem toolResult_safe (h : Wf sh r.window r.indices) (id text : String) (tur : Value)
    (e : Option Bool) : ArmSafe sh r (r.toolResult sh id text tur e) := by
  unfold toolResult
  cases hi : r.toolSlot[id]? with
  | none =>
    simp only
    split
    · exact armSafe_append h _
    · exact armSafe_of_kept (kept_refl h)
  | some i =>
    obtain ⟨b, hsub, hidx, hget, hadd, hlt⟩ := slot_access h hi
    simp only [hsub, hidx, bind, Except.bind, pure, Except.pure]
    have hedit := edit_set sh r.toolSlot r.window hget
      (.joined b (stripAnsi text) tur e) (.inl ⟨id, by rw [hi]; exact congrArg some hadd.symm⟩)
    refine ⟨_, _, rfl, ⟨h.edit hedit, hedit.evolves, rfl⟩, ?_⟩
    intro j hj
    rw [Option.some.injEq] at hj
    omega

theorem kept_popQueue (h : Wf sh r.window r.indices) (p : QueueItem → Bool) :
    Kept sh r (r.popQueue p) := by
  unfold popQueue
  split
  · exact kept_refl h
  · next item hitem =>
    refine ⟨h.release (fun q hq => List.mem_of_mem_eraseP hq) fun i hi => ?_, .refl _, rfl⟩
    rw [List.mem_append, Option.mem_toList] at hi
    cases hi with
    | inl hi => exact .inl hi
    | inr hi => exact .inr ⟨item, List.mem_of_find?_eq_some hitem, hi⟩

theorem kept_popPending (h : Wf sh r.window r.indices) (content : String) :
    Kept sh r (r.popPending content) := kept_popQueue h _

theorem userTurn_safe (h : Wf sh r.window r.indices) (text : String) (b : Block) :
    ArmSafe sh r (.ok (r.userTurn text b)) :=
  have hpop := kept_popPending h (trim text)
  armSafe_of_kept (hpop.trans (kept_push hpop.wf b))

theorem userInbox_safe (h : Wf sh r.window r.indices) (text words : String) (inbox : Inbox)
    (images : List Attachment) : ArmSafe sh r (.ok (r.userInbox text words inbox images)) := by
  have hpop := kept_popPending h (trim text)
  unfold userInbox
  generalize r.popPending (trim text) = r₁ at hpop ⊢
  simp only
  split
  · exact armSafe_of_kept (hpop.trans (kept_push hpop.wf _))
  · exact armSafe_of_kept (hpop.trans ⟨hpop.wf.append (.userInbox words inbox :: _),
      Window.evolves_append r₁.window _, rfl⟩)

theorem peerText_safe (h : Wf sh r.window r.indices) (sender : String) (mode : Option String)
    (text : String) (queued addr : Option String) :
    ArmSafe sh r (.ok (r.peerText sender mode text queued addr)) := by
  cases addr with
  | none =>
    cases queued with
    | none => exact armSafe_append h _
    | some raw =>
      have hpop := kept_popPending h (trim raw)
      exact armSafe_of_kept (hpop.trans (kept_push hpop.wf _))
  | some a =>
    have hnamed : Kept sh r { r with peerNames := r.peerNames.insert a sender } :=
      ⟨h, .refl _, rfl⟩
    cases queued with
    | none => exact armSafe_of_kept (hnamed.trans (kept_push hnamed.wf _))
    | some raw =>
      have hpop := hnamed.trans (kept_popPending hnamed.wf (trim raw))
      exact armSafe_of_kept (hpop.trans (kept_push hpop.wf _))

theorem refusedNote_safe (h : Wf sh r.window r.indices) (id text : String) :
    ArmSafe sh r (.ok (r.refusedNote id text)) := by
  unfold refusedNote
  split
  · exact armSafe_of_kept ⟨h.append [_], Window.evolves_append r.window [_], rfl⟩
  · exact armSafe_append h _

theorem sandboxRun_safe (h : Wf sh r.window r.indices) (id : String) (inside : Bool) :
    ArmSafe sh r (r.sandboxRun id inside) := by
  unfold sandboxRun
  split
  · exact armSafe_of_kept ⟨h, .refl _, rfl⟩
  · split
    · cases hi : r.toolSlot[id]? with
      | none => exact armSafe_of_kept (kept_refl h)
      | some i =>
        obtain ⟨b, hsub, hidx, hget, hadd, hlt⟩ := slot_access h hi
        simp only [hsub, hidx, bind, Except.bind, pure, Except.pure]
        cases b with
        | toolUse call =>
          have hedit := edit_set sh r.toolSlot r.window hget
            (.outside call) (.inr fun text hne => by simp at hne)
          refine ⟨_, _, rfl, ⟨h.edit hedit, hedit.evolves, rfl⟩, ?_⟩
          intro j hj
          rw [Option.some.injEq] at hj
          omega
        | _ => exact armSafe_of_kept (kept_refl h)
    · exact armSafe_of_kept (kept_refl h)

/-- Rewriting the last block by a patch of a block that is no marker. -/
theorem setLast_safe (h : Wf sh r.window r.indices) {b b' : Block}
    (hlast : r.out.getLast? = some b) (hp : Patch sh b b') (hb : ∀ text, b ≠ .queueEvent text) :
    ArmSafe sh r (.ok (r.setLast b', some r.lastLogical)) := by
  obtain ⟨init, hout⟩ := List.getLast?_eq_some_iff.mp hlast
  have hget : r.out[init.length]? = some b := by rw [hout]; simp
  have hset : r.out.dropLast ++ [b'] = r.out.set init.length b' := by rw [hout]; simp
  have hlen : r.out.length = init.length + 1 := by rw [hout]; simp
  have hedit := edit_set sh r.toolSlot r.window hget hp (.inr hb)
  refine ⟨r.setLast b', some r.lastLogical, rfl, ?_, ?_⟩
  · rw [setLast, hset]
    exact kept_edit h hedit
  · intro i hi
    rw [Option.some.injEq] at hi
    subst hi
    simp only [lastLogical, rawLen, hlen]
    omega

theorem compactUsage_safe (h : Wf sh r.window r.indices) (pre post : Nat) :
    ArmSafe sh r (.ok (r.compactUsage pre post)) := by
  unfold compactUsage
  split
  · next hlast => exact setLast_safe h hlast (.usage ..) fun text hne => by simp at hne
  · exact armSafe_of_kept (kept_refl h)

theorem compactSummary_safe (h : Wf sh r.window r.indices) (text : String) :
    ArmSafe sh r (.ok (r.compactSummary text)) := by
  unfold compactSummary
  split
  · next trigger pre post summary hlast =>
    split
    · next hempty =>
      obtain rfl : summary = "" := by simpa using hempty
      exact setLast_safe h hlast (.summary ..) fun text hne => by simp at hne
    · exact armSafe_append h _
  · exact armSafe_append h _

theorem commandStdout_safe (h : Wf sh r.window r.indices) (text : String) :
    ArmSafe sh r (.ok (r.commandStdout text)) := by
  unfold commandStdout
  simp only
  split
  · next hlast => exact setLast_safe h hlast (.stdout ..) fun text hne => by simp at hne
  · exact armSafe_append h _

/-- The last skill's subtraction succeeds. -/
theorem skillTarget_ok (h : Wf sh r.window r.indices) :
    r.skillTarget = .ok (r.lastSkill.map (· - r.base)) := by
  unfold skillTarget
  cases hskill : r.lastSkill with
  | none => rfl
  | some i =>
    obtain ⟨call, b, -, hb, -⟩ := h.skill i hskill
    have hge : r.base ≤ i := (Window.at?_eq_some.mp hb).1
    simp only [checkedSub_of_le hge]
    rfl

theorem skillBody_safe (h : Wf sh r.window r.indices) (text fallback : String) :
    ArmSafe sh r (r.skillBody text fallback) := by
  unfold skillBody
  simp only [skillTarget_ok h, bind, Except.bind, pure, Except.pure]
  cases hattach : attachSkillBody r.out ((r.lastSkill.map (· - r.base)).filter
      ((rposition Block.opensTurn r.out).getD 0 ≤ ·)) text with
  | none =>
    simp only
    split
    · exact armSafe_of_kept (kept_refl h)
    · exact armSafe_append h _
  | some out =>
    obtain ⟨j, call, hj, hget, hname, rfl⟩ := attachSkillBody_eq_some hattach
    obtain ⟨i, hskill, hji⟩ := Option.map_eq_some_iff.mp (Option.filter_eq_some_iff.mp hj).1
    obtain ⟨call', b, -, hb, -⟩ := h.skill i hskill
    have hge : r.base ≤ i := (Window.at?_eq_some.mp hb).1
    have hlt : i < r.rawLen := Window.lt_stop_of_at? hb
    have hedit := edit_set sh r.toolSlot r.window hget
      (.skill call text hname) (.inr fun text hne => by simp at hne)
    refine ⟨_, _, rfl, kept_edit h hedit, ?_⟩
    intro k hk
    rw [hskill, Option.some.injEq] at hk
    omega

/-- Setting a path on one entry is an edit. -/
theorem edit_setPath (slots : StrMap Nat) (w : Window Block) (j : Nat) (p : String) :
    Edit sh slots w ⟨w.base, w.items.modify j (setPath p)⟩ where
  base_eq := rfl
  length_eq := List.length_modify ..
  patched i b hb := by
    obtain ⟨hge, hb⟩ := Window.at?_eq_some.mp hb
    refine ⟨if j = i - w.base then setPath p b else b, Window.at?_eq_some.mpr ⟨hge, ?_⟩, ?_⟩
    · rw [List.getElem?_modify, hb]
      split <;> rfl
    · split
      · exact .single (.path p b)
      · exact .refl
  markers i text hi _ := by
    obtain ⟨hge, hb⟩ := Window.at?_eq_some.mp hi
    refine Window.at?_eq_some.mpr ⟨hge, ?_⟩
    rw [List.getElem?_modify, hb]
    split <;> rfl

theorem kept_patchImagePaths (h : Wf sh r.window r.indices) (paths : List String) :
    Kept sh r (r.patchImagePaths paths) := by
  have hfold : ∀ (ips : List (Nat × String)) (out : List Block),
      Edit sh r.toolSlot r.window ⟨r.base, out⟩ →
      Edit sh r.toolSlot r.window
        ⟨r.base, ips.foldl (fun out ip => out.modify ip.1 (setPath ip.2)) out⟩ := by
    intro ips
    induction ips with
    | nil => exact fun out he => he
    | cons ip ips ih =>
      exact fun out he => ih _ (he.trans (edit_setPath r.toolSlot ⟨r.base, out⟩ ip.1 ip.2))
  unfold patchImagePaths
  split
  · exact kept_refl h
  · simp only
    split
    · exact kept_edit h (hfold _ r.out (.refl _ _))
    · exact kept_refl h

theorem turnDuration_safe (h : Wf sh r.window r.indices) (secs : Nat)
    (at_ : Option EpochSeconds) : ArmSafe sh r (.ok (r.turnDuration secs at_)) := by
  unfold turnDuration
  split
  · exact armSafe_of_kept (kept_refl h)
  · split
    · exact armSafe_of_kept (kept_refl h)
    · exact armSafe_of_kept ⟨h, .refl _, rfl⟩

theorem queueOp_safe (h : Wf sh r.window r.indices) (op : QueueOpKind) (content : Option String)
    (prose : Bool) : ArmSafe sh r (.ok (r.queueOp op content prose)) := by
  have hpop : ArmSafe sh r (.ok (r.queueOp .remove content prose)) := by
    cases content with
    | none => exact armSafe_of_kept (kept_popQueue h _)
    | some c => exact armSafe_of_kept (kept_popPending h _)
  cases op with
  | enqueue =>
    cases content with
    | none => exact armSafe_of_kept (kept_refl h)
    | some c =>
      simp only [queueOp]
      split
      · exact armSafe_of_kept
          ⟨h.record_marker (trim c), Window.evolves_append r.window [_], rfl⟩
      · exact armSafe_of_kept ⟨h.record_silent (trim c), .refl _, rfl⟩
  | remove => exact hpop
  | dequeue => exact hpop
  | popAll =>
    refine armSafe_of_kept ⟨h.release (fun q hq => by simp at hq) fun i hi => ?_, .refl _, rfl⟩
    rw [List.mem_append, List.mem_filterMap] at hi
    cases hi with
    | inl hi => exact .inl hi
    | inr hi =>
      obtain ⟨q, hq, hqi⟩ := hi
      exact .inr ⟨q, hq, hqi⟩

/-- **One message is safe**: no arm of the fold faults on a well-formed replayer,
and every arm keeps it well-formed. -/
theorem step_safe (h : Wf sh r.window r.indices) (m : Message) : ArmSafe sh r (r.step sh m) := by
  cases m with
  | lineStart ts => exact lineStart_safe h ts
  | toolUse id name input cwd => exact toolUse_safe h id name input cwd
  | toolResult id text tur e => exact toolResult_safe h id text tur e
  | userText text => exact userTurn_safe h text _
  | userReply text context => exact userTurn_safe h text _
  | userInbox text words inbox images => exact userInbox_safe h text words inbox images
  | peerText sender mode text queued addr => exact peerText_safe h sender mode text queued addr
  | refusedNote id text => exact refusedNote_safe h id text
  | sandboxRun id inside => exact sandboxRun_safe h id inside
  | skillBody text fallback => exact skillBody_safe h text fallback
  | commandStdout text => exact commandStdout_safe h text
  | attachmentPrompt text => exact userTurn_safe h text _
  | imagePaths paths => exact armSafe_of_kept (kept_patchImagePaths h paths)
  | turnDuration secs at_ => exact turnDuration_safe h secs at_
  | queueOp op content prose => exact queueOp_safe h op content prose
  | compactUsage pre post => exact compactUsage_safe h pre post
  | compactSummary text => exact compactSummary_safe h text
  | taskOp op => exact armSafe_of_kept (kept_refl h)
  | refused id category => exact armSafe_of_kept ⟨h, .refl _, rfl⟩
  | sandboxOn => exact armSafe_of_kept ⟨h, .refl _, rfl⟩
  | _ => exact armSafe_append h _

/-! ## the commit -/

/-- The window position of the turn that the marker at `i` belongs to. -/
def turnAt (r : Replayer) (i : Nat) : Nat :=
  (rposition Block.opensTurn (r.out.take (i - r.base + 1))).getD 0

/-- A marker pins its turn below the cap `k`: it is resident, stands before `k`,
and no more than the allowed turns follow. -/
def Pins (r : Replayer) (k i : Nat) : Prop :=
  r.base ≤ i ∧ i - r.base < k ∧
    ((r.out.take k).drop (r.turnAt i)).countP Block.opensTurn ≤ maxPinnedTurns

instance (r : Replayer) (k i : Nat) : Decidable (r.Pins k i) :=
  inferInstanceAs (Decidable (_ ∧ _))

/-- The turn the oldest pending marker keeps resident below the cap `k`, if any. -/
def pinned (r : Replayer) (k : Nat) : Option Nat :=
  match (r.queue.filterMap (·.markerIdx)).min? with
  | none => none
  | some i => if r.Pins k i then some (r.turnAt i) else none

theorem turnAt_le {r : Replayer} {k i : Nat} (h : i - r.base < k) : r.turnAt i ≤ k := by
  unfold turnAt
  cases hp : rposition Block.opensTurn (r.out.take (i - r.base + 1)) with
  | none => exact Nat.zero_le k
  | some p =>
    have hlt := rposition_lt hp
    rw [List.length_take] at hlt
    rw [Option.getD_some]
    omega

theorem pinned_le (r : Replayer) (k : Nat) : (r.pinned k).getD k ≤ k := by
  unfold pinned
  cases (r.queue.filterMap (·.markerIdx)).min? with
  | none => exact le_rfl
  | some i =>
    by_cases h : r.Pins k i
    · simp only [h, if_true, Option.getD_some]
      exact turnAt_le h.2.1
    · simp only [h, if_false, Option.getD_none, le_refl]

/-- `queuePin` succeeds. -/
theorem queuePin_ok (h : Wf sh r.window r.indices) (hk : k ≤ r.out.length) :
    r.queuePin k = .ok (r.pinned k) := by
  unfold queuePin pinned
  cases hmin : (r.queue.filterMap (·.markerIdx)).min? with
  | none => rfl
  | some i =>
    obtain ⟨q, hq, hqi⟩ := List.mem_filterMap.mp (List.min?_mem hmin)
    have hstop : i < r.base + r.out.length := (h.marker q hq i hqi).1
    by_cases hbase : r.base ≤ i
    · by_cases hcap : i - r.base < k
      · have hhead : i - r.base + 1 ≤ r.out.length := by omega
        have hturn := slice_of_le (turnAt_le hcap) hk
        simp only [turnAt] at hturn
        simp only [Nat.not_lt.mpr hbase, if_false, checkedSub_of_le hbase, Nat.not_le.mpr hcap,
          slice_of_le (Nat.zero_le _) hhead, List.drop_zero, hturn, Pins, hbase, hcap, true_and,
          turnAt, bind, Except.bind, pure, Except.pure]
        split <;> rfl
      · simp only [Nat.not_lt.mpr hbase, if_false, checkedSub_of_le hbase, Nat.le_of_not_lt hcap,
          if_true, Pins, hcap, false_and, and_false, bind, Except.bind, pure, Except.pure]
    · simp only [Nat.lt_of_not_le hbase, if_true, Pins, hbase, false_and, if_false, pure,
        Except.pure]

/-- How many blocks of the window a commit drains. -/
def cut (r : Replayer) : Nat :=
  match rposition Block.opensTurn r.out with
  | none => 0
  | some k => (r.pinned k).getD k

theorem cut_le (r : Replayer) : r.cut ≤ r.out.length := by
  unfold cut
  split
  · exact Nat.zero_le _
  · next k hk => exact (r.pinned_le k).trans (rposition_lt hk).le

/-- The replayer after its first `k` blocks are drained. -/
def retire (sh : Shaping) (r : Replayer) (k : Nat) : Replayer :=
  { r with
    out := r.out.drop k
    durable := r.durable ++ sh.finishTurns (dropAt r.suppress r.base (r.out.take k))
    base := r.base + k
    suppress := r.suppress.filter (r.base + k ≤ ·)
    toolSlot := r.toolSlot.retain (r.base + k ≤ ·)
    lastSkill := r.lastSkill.filter (r.base + k ≤ ·) }

theorem commit_ok (sh : Shaping) (r : Replayer) (hk : k ≤ r.out.length) :
    r.commit sh k = .ok (r.retire sh k) := by
  simp only [commit, slice_of_le (Nat.zero_le _) hk, bind, Except.bind, pure, Except.pure,
    List.drop_zero]
  rfl

/-- The replayer after a commit. -/
def finalize (sh : Shaping) (r : Replayer) : Replayer :=
  if r.cut = 0 then r else r.stamp.retire sh r.cut

/-- **The commit is safe.** -/
theorem finalizeCompleted_ok (h : Wf sh r.window r.indices) :
    r.finalizeCompleted sh = .ok (r.finalize sh) := by
  unfold finalizeCompleted finalize cut
  cases hk : rposition Block.opensTurn r.out with
  | none => rfl
  | some k =>
    have hlen : k ≤ r.out.length := (rposition_lt hk).le
    simp only [queuePin_ok h hlen, bind, Except.bind, pure, Except.pure]
    by_cases hzero : (r.pinned k).getD k = 0
    · simp only [hzero, if_true]
    · simp only [hzero, if_false, stampWindow_ok h]
      exact commit_ok sh r.stamp ((r.pinned_le k).trans hlen)

/-- What a batch leaves of a replayer: the invariant, and a later state of the
same window. -/
def Advanced (sh : Shaping) (r r' : Replayer) : Prop :=
  Wf sh r'.window r'.indices ∧ Window.Evolves (Patch sh) r.window r'.window

theorem finalize_advanced (h : Wf sh r.window r.indices) : Advanced sh r (r.finalize sh) := by
  unfold finalize
  split
  · exact ⟨h, .refl _⟩
  · refine ⟨Wf.drop h.stamp r.cut_le ?_, Window.evolves_drop r.window r.cut r.cut_le⟩
    have hle := r.cut_le
    simp only [Window.stop, window]
    omega

/-! ## runs -/

/-- The messages of a batch, before its commit. -/
def steps (sh : Shaping) (r : Replayer) (messages : List Message) : Except Fault Replayer :=
  messages.foldlM (fun r m => (r.step sh m).map (·.1)) r

theorem steps_append (sh : Shaping) (r : Replayer) (xs ys : List Message) :
    r.steps sh (xs ++ ys) = r.steps sh xs >>= fun r => r.steps sh ys := List.foldlM_append

theorem steps_ok (h : Wf sh r.window r.indices) (messages : List Message) :
    ∃ r', r.steps sh messages = .ok r' ∧ Advanced sh r r' := by
  have hstep : ∀ (r : Replayer) (m : Message), Wf sh r.window r.indices →
      ∃ r', (r.step sh m).map (·.1) = .ok r' ∧ Wf sh r'.window r'.indices ∧
        Window.Evolves (Patch sh) r.window r'.window := by
    intro r m hr
    obtain ⟨r', patched, hok, hkept, -⟩ := step_safe hr m
    exact ⟨r', by rw [hok]; rfl, hkept.wf, hkept.evolves⟩
  exact foldlM_ok (P := fun r : Replayer => Wf sh r.window r.indices)
    (R := fun r r' : Replayer => Window.Evolves (Patch sh) r.window r'.window)
    (fun r m => (r.step sh m).map (·.1)) (fun r => .refl _) (fun _ _ _ h h' => h.trans h')
    hstep r messages h

/-- The running floor of a batch does not steer its messages. -/
theorem batchStep_fst (sh : Shaping) (frontier : Nat) (acc : Arm) (messages : List Message)
    {r' : Replayer} (h : acc.1.steps sh messages = .ok r') :
    ∃ floor, messages.foldlM (batchStep sh frontier) acc = .ok (r', floor) := by
  induction messages generalizing acc with
  | nil =>
    obtain rfl : acc.1 = r' := Except.ok.inj h
    exact ⟨acc.2, rfl⟩
  | cons m ms ih =>
    simp only [steps, List.foldlM_cons] at h
    obtain ⟨r₁, hr₁, hrest⟩ := bind_eq_ok.mp h
    cases hm : acc.1.step sh m with
    | error e => simp [hm, Except.map] at hr₁
    | ok res =>
      simp only [hm, Except.map, Except.ok.injEq] at hr₁
      have hstep : ∃ noted, batchStep sh frontier acc m = .ok (r₁, noted) := by
        obtain ⟨r₂, patched⟩ := res
        subst hr₁
        simp only [batchStep, hm]
        exact ⟨_, rfl⟩
      obtain ⟨noted, hstep⟩ := hstep
      obtain ⟨floor, hfold⟩ := ih (r₁, noted) hrest
      refine ⟨floor, ?_⟩
      rw [List.foldlM_cons, hstep, bind_ok]
      exact hfold

/-- A batch is its messages, then one commit. -/
theorem apply_ok (h : Wf sh r.window r.indices) (messages : List Message) :
    ∃ r₁ floor, r.steps sh messages = .ok r₁ ∧ Wf sh r₁.window r₁.indices ∧
      r.apply sh messages = .ok (r₁.finalize sh, floor) ∧ Advanced sh r (r₁.finalize sh) := by
  obtain ⟨r₁, hsteps, hwf, hev⟩ := steps_ok h messages
  obtain ⟨floor, hfold⟩ := batchStep_fst sh r.rawLen (r, none) messages hsteps
  obtain ⟨hwf', hev'⟩ := finalize_advanced hwf
  refine ⟨r₁, floor, hsteps, hwf, ?_, hwf', hev.trans hev'⟩
  simp only [apply, hfold, finalizeCompleted_ok hwf, bind, Except.bind, pure, Except.pure]

/-- The open window as a reader sees it: suppressed, and finished. -/
def openBlocks (sh : Shaping) (r : Replayer) : List Block :=
  sh.finishTurns (dropAt ((r.suppress.filter (r.base ≤ ·)).map (· - r.base)) 0 r.out)

theorem finalizeOpen_ok (sh : Shaping) (r : Replayer) :
    r.finalizeOpen sh r.out = .ok (r.openBlocks sh) := by
  have hge : ∀ i ∈ r.suppress.filter (r.base ≤ ·), r.base ≤ i := fun i hi => by
    simpa using (List.mem_filter.mp hi).2
  rw [finalizeOpen, mapM_checkedSub _ _ hge]
  rfl

theorem openSnapshot_ok (h : Wf sh r.window r.indices) :
    r.openSnapshot sh = .ok (r.openBlocks sh, r.stampedTimes) := by
  have hge : r.base ≤ r.stamped := h.stamped_ge
  have hle : r.stamped ≤ r.base + r.out.length := h.stamped_le
  have hin : r.stamped - r.base ≤ r.out.length := by omega
  simp only [openSnapshot, windowStamped, stampUserTurns, assertThat_of _ hge,
    checkedSub_of_le hge, sliceFrom_of_le hin, finalizeOpen_ok, bind, Except.bind, pure,
    Except.pure]
  rfl

theorem intoBlocks_ok (h : Wf sh r.window r.indices) :
    r.intoBlocks sh = .ok (r.durable ++ r.openBlocks sh, r.stampedTimes) := by
  have hopen : r.stamp.finalizeOpen sh r.stamp.out = .ok (r.openBlocks sh) :=
    finalizeOpen_ok sh r.stamp
  simp only [intoBlocks, stampWindow_ok h, hopen, bind, Except.bind, pure, Except.pure]
  rfl

/-- How a fold begins: cold, or reseeded from a restored meta. -/
inductive Start
  | cold
  | resumed (mm : MaterializedMeta) (prevTs pendingTs : Option EpochSeconds)

/-- The replayer a fold begins with. -/
def Start.replayer : Start → Replayer
  | .cold => new
  | .resumed mm prevTs pendingTs => new.reseed mm prevTs pendingTs

theorem wf_start (sh : Shaping) (start : Start) :
    Wf sh start.replayer.window start.replayer.indices := by
  cases start with
  | cold => exact wf_empty sh
  | resumed mm prevTs pendingTs => exact wf_empty sh

/-- A run: one batch of messages after another. -/
def run (sh : Shaping) (r : Replayer) (batches : List (List Message)) : Except Fault Replayer :=
  batches.foldlM (fun r messages => (r.apply sh messages).map (·.1)) r

theorem run_ok (h : Wf sh r.window r.indices) (batches : List (List Message)) :
    ∃ r', r.run sh batches = .ok r' ∧ Wf sh r'.window r'.indices ∧
      Window.Evolves (Patch sh) r.window r'.window := by
  refine foldlM_ok (P := fun r : Replayer => Wf sh r.window r.indices)
    (R := fun r r' : Replayer => Window.Evolves (Patch sh) r.window r'.window)
    (fun r messages => (r.apply sh messages).map (·.1)) (fun r => .refl _)
    (fun _ _ _ h h' => h.trans h') ?_ r batches h
  intro r messages hr
  obtain ⟨r₁, floor, -, -, hok, hwf, hev⟩ := apply_ok hr messages
  exact ⟨r₁.finalize sh, by rw [hok]; rfl, hwf, hev⟩

/-- **Index safety of the fold.** Whatever the messages and however they are cut
into batches, a fold from a cold or a reseeded replayer never faults: no
subtraction of the base underflows, no access is out of range, no assertion
fails, in the fold or in a reader of its state. What it stores is well-formed,
and from any point of the run to its end the window only evolves: an index
resident at both designates one block, patched in place. -/
theorem run_index_safe (sh : Shaping) (start : Start) (before after : List (List Message)) :
    ∃ r₁ r₂, start.replayer.run sh before = .ok r₁ ∧ r₁.run sh after = .ok r₂ ∧
      start.replayer.run sh (before ++ after) = .ok r₂ ∧
      Wf sh r₁.window r₁.indices ∧ Wf sh r₂.window r₂.indices ∧
      Window.Evolves (Patch sh) r₁.window r₂.window ∧
      (∃ res, r₂.openSnapshot sh = .ok res) ∧ (∃ res, r₂.intoBlocks sh = .ok res) := by
  obtain ⟨r₁, h₁, hwf₁, -⟩ := run_ok (wf_start sh start) before
  obtain ⟨r₂, h₂, hwf₂, hev₂⟩ := run_ok hwf₁ after
  refine ⟨r₁, r₂, h₁, h₂, ?_, hwf₁, hwf₂, hev₂, ⟨_, openSnapshot_ok hwf₂⟩,
    ⟨_, intoBlocks_ok hwf₂⟩⟩
  unfold run at h₁ h₂ ⊢
  rw [List.foldlM_append, h₁, bind_ok, h₂]

end Replayer

/-! ## the total fold -/

/-- A replayer whose stored indices are sound. -/
structure Fold (sh : Shaping) where
  r : Replayer
  wf : Replayer.Wf sh r.window r.indices

namespace Fold

variable {sh : Shaping}

/-- The fold a cold or resumed session begins with. -/
def start (sh : Shaping) (s : Replayer.Start) : Fold sh := ⟨s.replayer, Replayer.wf_start sh s⟩

/-- `Replayer::apply`, total on a sound fold. -/
def apply (f : Fold sh) (messages : List Message) : Fold sh × Option Nat :=
  let h : ∃ res, f.r.apply sh messages = .ok res := by
    obtain ⟨r₁, floor, -, -, hok, -⟩ := Replayer.apply_ok f.wf messages
    exact ⟨_, hok⟩
  let res := okValue (f.r.apply sh messages) h
  (⟨res.1, by
    obtain ⟨r₁, floor, -, -, hok, hwf, -⟩ := Replayer.apply_ok f.wf messages
    have heq : f.r.apply sh messages = .ok res := eq_ok_okValue h
    rw [hok, Except.ok.injEq] at heq
    exact heq ▸ hwf⟩, res.2)

/-- The total operation is the checked one's result. -/
theorem apply_eq (f : Fold sh) (messages : List Message) :
    f.r.apply sh messages = .ok ((f.apply messages).1.r, (f.apply messages).2) :=
  eq_ok_okValue _

/-- `open_snapshot`, total on a sound fold. -/
def openSnapshot (f : Fold sh) : List Block × List (Option EpochSeconds) :=
  (f.r.openBlocks sh, f.r.stampedTimes)

/-- `drain_committed`, which stores no index. -/
def drainCommitted (f : Fold sh) : List Block × Fold sh := (f.r.durable, ⟨f.r.drainCommitted.2, f.wf⟩)

end Fold

end ClaudeReplay
