import ClaudeReplay.Shared

/-!
# ClaudeReplay.Shared.View

The in-process viewer. Each tick of `pollView` hands it a `ViewDelta`, and
`View.applyView` splices it in: keep the blocks below the delta's own start,
append the newly committed blocks, append the open turn.

The start is counted from the session's previous committed length. Within one
file that is right: committed blocks never change. Across a reset it counts
blocks of the file that is gone. `splice_run_iff` is the exact account: a viewer
holds the session's joined view after every tick of a run if and only if no tick
of the run is a reset onto a file whose committed blocks differ from those the
viewer is told to keep. `changedFrom` itself is right on every tick.
-/

namespace ClaudeReplay

open Lib

/-! ## the view -/

/-- What the viewer's fold configuration says of a block. -/
structure Folding where
  collapses : Block → Bool
  foldable : Block → Bool

/-- A fold configuration that collapses nothing. -/
def Folding.plain : Folding := ⟨fun _ => false, fun _ => false⟩

/-- The viewer's blocks, and what it keeps beside them: the fold state of each
block, the reader's own gestures by position, the first block to re-measure, and
the count of the "new below" badge. -/
structure View where
  blocks : List Block
  collapsed : List Bool
  userFolds : List (Nat × Bool) := []
  dirtyFrom : Option Nat := some 0
  newCount : Nat := 0
  follow : Bool := true
  deriving DecidableEq

namespace View

/-- `new_shared`: a view just opened on some blocks. -/
def newShared (fold : Folding) (blocks : List Block) : View where
  blocks := blocks
  collapsed := blocks.map fold.collapses

/-- One remembered gesture, laid over the re-derived tail. -/
def overlay (fold : Folding) (blocks : List Block) (d : Nat) (collapsed : List Bool)
    (gesture : Nat × Bool) : List Bool :=
  if d ≤ gesture.1 ∧ (blocks[gesture.1]?).any fold.foldable then
    collapsed.set gesture.1 gesture.2
  else collapsed

/-- `post_splice`: re-derive the fold state of the changed tail. -/
def postSplice (fold : Folding) (v : View) (d : Nat) : View :=
  let d := min d v.blocks.length
  let collapsed := splice v.collapsed d ((v.blocks.drop d).map fold.collapses)
  { v with
    collapsed := v.userFolds.foldl (overlay fold v.blocks d) collapsed
    dirtyFrom := some (match v.dirtyFrom with | some cur => min cur d | none => d) }

/-- `apply_view`: splice a tick's delta in. -/
def applyView (fold : Folding) (v : View) (d : ViewDelta) : View :=
  let prevCommitted := min (d.committedLen - d.committedDelta.length) v.blocks.length
  let joined := d.committedLen + d.provisional.length
  postSplice fold
    { v with
      newCount := if v.follow then v.newCount else v.newCount + (joined - v.blocks.length)
      blocks := splice v.blocks prevCommitted (d.committedDelta ++ d.provisional) }
    d.changedFrom

theorem applyView_blocks (fold : Folding) (v : View) (d : ViewDelta) :
    (v.applyView fold d).blocks =
      splice v.blocks (d.committedLen - d.committedDelta.length)
        (d.committedDelta ++ d.provisional) := by
  simp only [applyView, postSplice, splice_min_length]

end View

/-! ## one tick -/

namespace SharedSession

variable {ad : Adapter}

/-- What the file of a poll commits from scratch, when the poll is a reset. -/
def rebuilt (s : SharedSession ad) (poll : Poll) : List Block :=
  if poll.opened then (s.follower.reset.foldLines poll.lines).1.committed else []

/-- A tick that is no reset, or a reset onto a file that commits again the blocks
the session's committed count makes the viewer keep. -/
def KeepsPrefix (s : SharedSession ad) (poll : Poll) : Prop :=
  poll.reset = true →
    let m := min s.follower.committed.length (s.rebuilt poll).length
    s.follower.committed.take m = (s.rebuilt poll).take m

instance (s : SharedSession ad) (poll : Poll) : Decidable (s.KeepsPrefix poll) :=
  inferInstanceAs (Decidable (_ → _))

theorem advanceFromSource_rebuilt (s : SharedSession ad) (poll : Poll) (h : poll.reset = true) :
    (s.follower.advanceFromSource poll).1.committed = s.rebuilt poll := by
  unfold Accumulator.advanceFromSource rebuilt
  cases hopen : poll.opened with
  | true => simp [h, Accumulator.setSpawnLinks, Accumulator.bankElision]
  | false => simp [h, Accumulator.reset]

/-- Whatever the poll, the old and the new committed zone agree as far as both go
exactly when the tick keeps its prefix. -/
theorem keepsPrefix_iff (s : SharedSession ad) (poll : Poll) :
    s.KeepsPrefix poll ↔
      let c := (s.follower.advanceFromSource poll).1.committed
      let m := min s.follower.committed.length c.length
      s.follower.committed.take m = c.take m := by
  cases hr : poll.reset with
  | true =>
    rw [s.advanceFromSource_rebuilt poll hr]
    simp [KeepsPrefix, hr]
  | false =>
    have hpre := s.follower.advanceFromSource_committed poll hr
    simp only [KeepsPrefix, hr, Bool.false_eq_true, false_implies, true_iff]
    rw [min_eq_left hpre.length_le, List.take_length]
    exact List.prefix_iff_eq_take.mp hpre

/-- A tick with a delta, part by part. -/
theorem pollView_some {s : SharedSession ad} {poll : Poll} {d : ViewDelta}
    (h : (s.pollView poll).2 = some d) :
    let follower := (s.follower.advanceFromSource poll).1
    let tick := (s.follower.advanceFromSource poll).2
    let delta := follower.committed.drop
      (min s.follower.committed.length follower.committed.length)
    (s.pollView poll).1 = s.afterTick follower tick ∧
      d.committedDelta = delta ∧ d.committedLen = follower.committed.length ∧
      d.provisional = follower.provisional ∧
      d.changedFrom = s.changedFrom tick delta follower.provisional := by
  unfold pollView at h ⊢
  cases hf : s.frozen with
  | true => simp [hf] at h
  | false =>
    cases htick : (s.follower.advanceFromSource poll).2.advanced with
    | false => simp [hf, htick] at h
    | true =>
      simp only [hf, htick, Bool.false_eq_true, if_false, if_true, Option.some.injEq] at h ⊢
      subst h
      simp only [and_self]

/-- A tick of a folding session without a delta was idle: it moved neither zone. -/
theorem pollView_none {s : SharedSession ad} {poll : Poll} (h : (s.pollView poll).2 = none)
    (hf : s.frozen = false) :
    (s.pollView poll).1.follower.committed = s.follower.committed ∧
      (s.pollView poll).1.follower.provisional = s.follower.provisional ∧
      (s.pollView poll).1.prevProvisional = s.prevProvisional ∧
      (s.pollView poll).1.frozen = false ∧ poll.reset = false := by
  unfold pollView at h ⊢
  cases htick : (s.follower.advanceFromSource poll).2.advanced with
  | true => simp [hf, htick] at h
  | false =>
    obtain ⟨hc, hp⟩ := s.follower.advanceFromSource_idle poll htick
    simp only [hf, htick, Bool.false_eq_true, if_false]
    refine ⟨hc, hp, trivial, trivial, ?_⟩
    by_contra hr
    have := (s.follower.advanceFromSource_reset poll).2 (by simpa using hr)
    rw [htick] at this
    contradiction

/-- A session stays unfrozen and settled across its ticks. -/
theorem pollView_settled {s : SharedSession ad} (poll : Poll) (hs : s.Settled)
    (hf : s.frozen = false) :
    (s.pollView poll).1.Settled ∧ (s.pollView poll).1.frozen = false := by
  cases h : (s.pollView poll).2 with
  | none =>
    obtain ⟨-, hp, hprev, hfrozen, -⟩ := pollView_none h hf
    exact ⟨by rw [Settled, hp, hprev, hs], hfrozen⟩
  | some d =>
    rw [(pollView_some h).1, afterTick_frozen]
    exact ⟨s.afterTick_settled _ _, hf⟩

/-! ## the viewer -/

/-- The viewer's tick: poll, and splice the delta if there is one. -/
def watch (fold : Folding) (sv : SharedSession ad × View) (poll : Poll) :
    SharedSession ad × View :=
  ((sv.1.pollView poll).1,
    match (sv.1.pollView poll).2 with
    | some d => sv.2.applyView fold d
    | none => sv.2)

/-- A run of ticks. -/
def watchAll (fold : Folding) (sv : SharedSession ad × View) (polls : List Poll) :
    SharedSession ad × View := polls.foldl (watch fold) sv

/-- **One tick, exactly.** From the session's joined view, a tick leaves the
viewer with the new joined view if and only if it keeps its prefix. -/
theorem watch_iff (fold : Folding) {s : SharedSession ad} {v : View} (poll : Poll)
    (hf : s.frozen = false) (hv : v.blocks = s.blocks) :
    (watch fold (s, v) poll).2.blocks = (watch fold (s, v) poll).1.blocks ↔ s.KeepsPrefix poll := by
  simp only [watch]
  cases h : (s.pollView poll).2 with
  | none =>
    obtain ⟨hc, hp, -, -, hr⟩ := pollView_none h hf
    have hsame : (s.pollView poll).1.blocks = s.blocks := by rw [blocks, hc, hp, blocks]
    simp [hsame, hv, KeepsPrefix, hr]
  | some d =>
    obtain ⟨hst, hdelta, hlen, hprov, -⟩ := pollView_some h
    rw [keepsPrefix_iff, View.applyView_blocks, hst, afterTick_blocks, hdelta, hlen, hprov]
    generalize (s.follower.advanceFromSource poll).1 = follower
    have hle : min s.follower.committed.length follower.committed.length ≤
        follower.committed.length := min_le_right _ _
    have hkeep : follower.committed.length - (follower.committed.drop
        (min s.follower.committed.length follower.committed.length)).length =
        min s.follower.committed.length follower.committed.length := by
      rw [List.length_drop]
      omega
    rw [hkeep, ← List.drop_append_of_le_length hle, splice_drop_iff, hv, blocks,
      List.take_append_of_le_length (min_le_left _ _), List.take_append_of_le_length hle]

/-- Below `changedFrom` a tick changes nothing. -/
theorem pollView_unchanged {s : SharedSession ad} {poll : Poll} {d : ViewDelta} (hs : s.Settled)
    (h : (s.pollView poll).2 = some d) :
    (s.pollView poll).1.blocks.take d.changedFrom = s.blocks.take d.changedFrom := by
  obtain ⟨hst, -, -, -, hfrom⟩ := pollView_some h
  rw [hfrom, hst, afterTick_blocks, changedFrom, (s.follower.advanceFromSource_reset poll).1]
  have hgrow := s.follower.advanceFromSource_committed poll
  generalize (s.follower.advanceFromSource poll).1 = follower at hgrow ⊢
  cases hr : poll.reset with
  | true => simp
  | false =>
    obtain ⟨delta, hdelta⟩ := hgrow hr
    have hprev : s.blocks = s.follower.committed ++ s.prevProvisional := by rw [blocks, hs]
    rw [hprev, ← hdelta, List.length_append, min_eq_left (Nat.le_add_right _ _),
      List.drop_left, List.append_assoc]
    simp only [Bool.false_eq_true, if_false, List.take_length_add_append]
    rw [take_agree]

/-! ## runs of ticks -/

/-- The state after the first `n` ticks of a run. -/
def after (fold : Folding) (sv : SharedSession ad × View) (polls : List Poll) (n : Nat) :
    SharedSession ad × View := watchAll fold sv (polls.take n)

/-- From a viewer that is right, exactly: it stays right through a run if and only
if every tick of the run keeps its prefix. -/
theorem watchAll_iff (fold : Folding) {s : SharedSession ad} {v : View} (polls : List Poll)
    (hs : s.Settled) (hf : s.frozen = false) (hv : v.blocks = s.blocks) :
    (∀ n ≤ polls.length, (after fold (s, v) polls n).2.blocks =
        (after fold (s, v) polls n).1.blocks) ↔
      ∀ n poll, polls[n]? = some poll → (after fold (s, v) polls n).1.KeepsPrefix poll := by
  induction polls generalizing s v with
  | nil => simp [after, watchAll, hv]
  | cons p ps ih =>
    have hnext : ∀ n, after fold (s, v) (p :: ps) (n + 1) =
        after fold (watch fold (s, v) p) ps n := fun n => rfl
    obtain ⟨hs', hf'⟩ := pollView_settled p hs hf
    have hfirst := watch_iff fold p hf hv
    constructor
    · intro h
      have hv' := h 1 (by simp)
      have hrest := (ih (s := (s.pollView p).1) (v := (watch fold (s, v) p).2) hs' hf' hv').mp
        fun n hn => h (n + 1) (by simpa using hn)
      rintro (_ | n) poll hpoll
      · rw [List.getElem?_cons_zero, Option.some.injEq] at hpoll
        exact hpoll ▸ hfirst.mp hv'
      · exact hrest n poll (by simpa using hpoll)
    · intro h
      have hv' := hfirst.mpr (h 0 p rfl)
      have hrest := (ih (s := (s.pollView p).1) (v := (watch fold (s, v) p).2) hs' hf' hv').mpr
        fun n poll hpoll => h (n + 1) poll (by simpa using hpoll)
      rintro (_ | n) hn
      · exact hv
      · exact hrest n (by simpa using hn)

/-- Every state of a run is settled. -/
theorem watchAll_settled (fold : Folding) {s : SharedSession ad} (v : View) (polls : List Poll)
    (hs : s.Settled) (hf : s.frozen = false) :
    (watchAll fold (s, v) polls).1.Settled ∧ (watchAll fold (s, v) polls).1.frozen = false := by
  refine List.foldlRecOn (motive := fun sv : SharedSession ad × View =>
    sv.1.Settled ∧ sv.1.frozen = false) polls (watch fold) ⟨hs, hf⟩ ?_
  intro sv h p _
  exact pollView_settled p h.1 h.2

/-- **The in-process splice, exactly.** A viewer opened on a session after any
ticks holds the session's joined view after every later tick if and only if each
of those ticks keeps its prefix: it is no reset, or one onto a file that commits
again the blocks the viewer keeps. Below its `changedFrom`, no tick changes
anything. -/
theorem splice_run_iff (had : ad.shaping.Lawful) (fold : Folding) (o : Open)
    (before polls : List Poll) :
    let s := before.foldl (fun s poll => (s.pollView poll).1) (start ad o)
    let v := View.newShared fold s.blocks
    ((∀ n ≤ polls.length, (after fold (s, v) polls n).2.blocks =
        (after fold (s, v) polls n).1.blocks) ↔
      ∀ n poll, polls[n]? = some poll → (after fold (s, v) polls n).1.KeepsPrefix poll) ∧
    ∀ n poll d, polls[n]? = some poll →
      ((after fold (s, v) polls n).1.pollView poll).2 = some d →
      ((after fold (s, v) polls n).1.pollView poll).1.blocks.take d.changedFrom =
        (after fold (s, v) polls n).1.blocks.take d.changedFrom := by
  intro s v
  have hs : s.Settled ∧ s.frozen = false := by
    refine List.foldlRecOn (motive := fun s : SharedSession ad => s.Settled ∧ s.frozen = false)
      before _ ⟨start_settled had o, by cases o <;> rfl⟩ ?_
    intro s h p _
    exact pollView_settled p h.1 h.2
  refine ⟨watchAll_iff fold polls hs.1 hs.2 rfl, fun n poll d _ hd => ?_⟩
  exact pollView_unchanged (watchAll_settled fold v (polls.take n) hs.1 hs.2).1 hd

/-! ## a file replaced -/

/-- One prompt per line. -/
def prompts (line : String) : List Message := [.lineStart none, .userText line]

/-- A session with one committed turn and one open one. -/
def twoPrompts : SharedSession (.scripted prompts) :=
  ((start (.scripted prompts) (.withStore [])).pollView { lines := [(0, "a"), (60, "b")] }).1

/-- The file shrinks to a different pair of prompts. -/
def replaced : Poll := { reset := true, lines := [(0, "c"), (60, "d")] }

theorem splice_run_appended :
    let s := [({ lines := [(0, "a"), (60, "b")] } : Poll)].foldl
      (fun s poll => (s.pollView poll).1) (start (.scripted prompts) (.withStore []))
    let v := View.newShared .plain s.blocks
    ((∀ n ≤ 1, (after .plain (s, v) [{ lines := [(120, "c")] }] n).2.blocks =
        (after .plain (s, v) [{ lines := [(120, "c")] }] n).1.blocks) ↔
      ∀ n poll, ([{ lines := [(120, "c")] }] : List Poll)[n]? = some poll →
        (after .plain (s, v) [{ lines := [(120, "c")] }] n).1.KeepsPrefix poll) ∧
      (after .plain (s, v) [{ lines := [(120, "c")] }] 1).2.blocks =
        [.userText "a", .userText "b", .userText "c"] :=
  ⟨(splice_run_iff Shaping.scripted_lawful .plain (.withStore [])
    [{ lines := [(0, "a"), (60, "b")] }] [{ lines := [(120, "c")] }]).1, by decide +kernel⟩

/-- After the reset the viewer still shows the first prompt of the file that is gone. -/
theorem splice_keeps_replaced :
    let (s, v) := watch .plain (twoPrompts, View.newShared .plain twoPrompts.blocks) replaced
    v.blocks = [.userText "a", .userText "d"] ∧ s.blocks = [.userText "c", .userText "d"] := by
  decide +kernel

end SharedSession

end ClaudeReplay
