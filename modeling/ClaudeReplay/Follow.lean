import ClaudeReplay.Builder

/-!
# ClaudeReplay.Follow

The follower: one poll of the transcript, folded into the accumulator.

`Poll` is what the read layer makes of the file at one poll: whether it has
shrunk below the reader's position, whether it could be opened, and the complete
lines that follow the position, with their offsets. `Accumulator.advanceFromSource`
rebuilds on a shrunken file and folds the lines; its `Tick` is all that the
presentation layer hears of it.
-/

namespace ClaudeReplay

open Lib

/-- One poll of the source. -/
structure Poll where
  /-- the file is shorter than what was already read -/
  reset : Bool := false
  /-- the file could be opened -/
  opened : Bool := true
  /-- the complete lines past the reader's position, with their start offsets -/
  lines : List (Nat × String)
  /-- what the read layer elided since the last poll -/
  elidedLines : Nat := 0
  elidedBytes : Nat := 0
  skippedLines : Nat := 0
  /-- the agent's sidecar spawn ids, as they are at this poll -/
  links : List SpawnLink := []
  deriving DecidableEq, Repr

/-- What a poll did. -/
structure Tick where
  advanced : Bool
  reset : Bool
  patchFloor : Option Nat
  deriving DecidableEq, Repr

/-- `Tick::idle`. -/
def Tick.idle : Tick := ⟨false, false, none⟩

namespace Accumulator

variable {ad : Adapter}

/-- The lower of two reported patches. -/
def minPatch (floor : Option Nat) : Option Nat → Option Nat
  | some i => some (match floor with | some cur => min cur i | none => i)
  | none => floor

/-- Fold the lines of a poll, with the lowest block they patched. -/
def foldLines (acc : Accumulator ad) (lines : List (Nat × String)) : Accumulator ad × Option Nat :=
  lines.foldl (fun (acc, floor) l =>
    let (acc, patched) := acc.advanceAt l.1 l.2
    (acc, minPatch floor patched)) (acc, none)

/-- `advance_from_source`. -/
def advanceFromSource (acc : Accumulator ad) (poll : Poll) : Accumulator ad × Tick :=
  let acc := if poll.reset then acc.reset else acc
  if !poll.opened then
    -- a missing file is an idle tick, unless the reset itself is news
    (acc, if poll.reset then ⟨true, true, none⟩ else .idle)
  else
    let (acc, patchFloor) := acc.foldLines poll.lines
    let acc := acc.bankElision poll.elidedLines poll.elidedBytes poll.skippedLines
    if !poll.reset && poll.lines.isEmpty then (acc, .idle)
    else (acc.setSpawnLinks poll.links, ⟨true, poll.reset, patchFloor⟩)

/-! ## the committed prefix only grows -/

theorem drain_committed (acc : Accumulator ad) :
    acc.drain.committed = acc.committed ++ applySpawnLinks acc.links acc.fold.r.durable := by
  cases h : acc.fold.r.durable.isEmpty with
  | true => simp [drain, List.isEmpty_iff.mp h, applySpawnLinks]
  | false =>
    obtain ⟨emitted, n, heq⟩ := acc.drain_eq h
    rw [heq]
    rfl

/-- **Committing appends.** A line extends the committed prefix, and never
rewrites it. -/
theorem advanceAt_committed (acc : Accumulator ad) (offset : Nat) (line : String) :
    acc.committed <+: (acc.advanceAt offset line).1.committed := by
  unfold advanceAt
  simp only
  split
  · exact List.prefix_refl _
  · simp only [drain_committed]
    exact List.prefix_append _ _

theorem foldLines_committed (acc : Accumulator ad) (lines : List (Nat × String)) :
    acc.committed <+: (acc.foldLines lines).1.committed := by
  refine List.foldlRecOn (motive := fun p : Accumulator ad × Option Nat =>
    acc.committed <+: p.1.committed) lines _ (List.prefix_refl _) ?_
  intro p hp l _
  exact hp.trans (p.1.advanceAt_committed l.1 l.2)

/-- A poll that resets nothing extends the committed prefix. -/
theorem advanceFromSource_committed (acc : Accumulator ad) (poll : Poll)
    (h : poll.reset = false) : acc.committed <+: (acc.advanceFromSource poll).1.committed := by
  unfold advanceFromSource
  simp only [h, Bool.false_eq_true, if_false]
  split
  · exact List.prefix_refl _
  · split
    all_goals exact acc.foldLines_committed poll.lines

/-- An idle poll leaves both zones as they are. -/
theorem advanceFromSource_idle (acc : Accumulator ad) (poll : Poll)
    (h : (acc.advanceFromSource poll).2.advanced = false) :
    (acc.advanceFromSource poll).1.committed = acc.committed ∧
      (acc.advanceFromSource poll).1.provisional = acc.provisional := by
  unfold advanceFromSource at h ⊢
  cases hr : poll.reset with
  | true =>
    simp only [hr, if_true] at h
    split at h <;> simp at h
  | false =>
    simp only [hr, Bool.false_eq_true, if_false, Bool.not_false, Bool.true_and] at h ⊢
    split
    · exact ⟨rfl, rfl⟩
    · next hopen =>
      rw [if_neg hopen] at h
      split at h
      · next hlines =>
        rw [if_pos hlines, List.isEmpty_iff.mp hlines]
        exact ⟨rfl, rfl⟩
      · simp at h

/-- A poll reports a reset exactly when it was one, and a reset is always news. -/
theorem advanceFromSource_reset (acc : Accumulator ad) (poll : Poll) :
    (acc.advanceFromSource poll).2.reset = poll.reset ∧
      (poll.reset = true → (acc.advanceFromSource poll).2.advanced = true) := by
  unfold advanceFromSource
  cases hr : poll.reset with
  | true =>
    simp only [if_true, Bool.not_true, Bool.false_and, Bool.false_eq_true, if_false]
    split <;> exact ⟨rfl, fun _ => rfl⟩
  | false =>
    simp only [Bool.false_eq_true, if_false, Bool.not_false, Bool.true_and, false_implies,
      and_true]
    split
    · rfl
    · split <;> rfl

end Accumulator

end ClaudeReplay
