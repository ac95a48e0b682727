import ClaudeReplay.Replay.Safety
import Mathlib.Data.List.Induction

/-!
# ClaudeReplay.Replay.Frontier

How far a commit gets, and what holds it back.

Only the pending queue markers cap the drop, and the cap is the turn of the oldest one. So
what is left of a window after a commit opens at most `maxPinnedTurns + 1` turns, whatever
is pending and whatever tool call is still without its result (`frontier_advances`).

The other side of the bound is what the cap keeps. A marker is *kept* by a commit that
leaves its block resident. The oldest marker stands for all of them: when it is itself
committed, or further back than the bound, it caps nothing, and the younger ones go with
it (`keepsMarkers_iff`).
-/

namespace ClaudeReplay

open Lib

namespace Replayer

variable {sh : Shaping} {r : Replayer} {k i : Nat}

/-! ## the turns left -/

/-- The turns a window opens after a cut at or before the last opener. -/
theorem countP_drop_of_last (hk : rposition Block.opensTurn r.out = some k) {c : Nat} (hc : c ≤ k) :
    (r.out.drop c).countP Block.opensTurn =
      ((r.out.take k).drop c).countP Block.opensTurn + 1 := by
  obtain ⟨pre, x, post, hout, rfl, hx, hpost⟩ := rposition_eq_some hk
  have hnone : post.countP Block.opensTurn = 0 := by
    rw [List.countP_eq_zero]
    intro b hb
    simp [hpost b hb]
  rw [hout, List.drop_append_of_le_length hc, List.take_left, List.countP_append,
    List.countP_cons_of_pos hx, hnone]

/-- **What a commit leaves opens few turns.** -/
theorem finalize_turns (sh : Shaping) (r : Replayer) :
    (r.finalize sh).out.countP Block.opensTurn ≤ maxPinnedTurns + 1 := by
  have hout : (r.finalize sh).out = r.out.drop r.cut := by
    unfold finalize
    split
    · next hzero => rw [hzero, List.drop_zero]
    · rfl
  rw [hout, cut]
  cases hk : rposition Block.opensTurn r.out with
  | none =>
    have hnone := rposition_eq_none.mp hk
    have hzero : r.out.countP Block.opensTurn = 0 := by
      rw [List.countP_eq_zero]
      intro b hb
      simp [hnone b hb]
    simp [hzero]
  | some k =>
    show (r.out.drop ((r.pinned k).getD k)).countP Block.opensTurn ≤ _
    rw [countP_drop_of_last hk (r.pinned_le k)]
    cases hpin : r.pinned k with
    | none => simp
    | some t =>
      -- The pin is that of a marker within the bound.
      unfold pinned at hpin
      split at hpin
      · cases hpin
      · next oldest _ =>
        split at hpin
        · next hpins =>
          obtain rfl := Option.some.inj hpin
          exact Nat.add_le_add_right hpins.2.2 1
        · cases hpin

/-- **The frontier never freezes.** Whatever the messages and however they are cut into
batches, the fold does not fault, and after each batch the open window opens at most
`maxPinnedTurns + 1` turns. -/
theorem frontier_advances (sh : Shaping) (start : Start) (batches : List (List Message)) :
    ∃ r, start.replayer.run sh batches = .ok r ∧
      r.out.countP Block.opensTurn ≤ maxPinnedTurns + 1 := by
  obtain ⟨r, hrun, -⟩ := run_ok (wf_start sh start) batches
  refine ⟨r, hrun, ?_⟩
  cases batches using List.reverseRecOn with
  | nil =>
    obtain rfl := Except.ok.inj hrun
    cases start <;> exact Nat.zero_le _
  | append_singleton batches messages =>
    obtain ⟨u, hu, hwf, -⟩ := run_ok (wf_start sh start) batches
    obtain ⟨u', floor, -, -, happly, -⟩ := apply_ok hwf messages
    rw [run, List.foldlM_append, ← run, hu, bind_ok, List.foldlM_cons, happly] at hrun
    obtain rfl := Except.ok.inj hrun
    exact finalize_turns sh u'

/-! ## the markers kept -/

/-- The markers of the pending prompts. -/
def markers (r : Replayer) : List Nat := r.queue.filterMap (·.markerIdx)

/-- A resident marker is at most the bound of turns behind the open turn, which begins at
`k`, or in it. -/
def WithinBound (r : Replayer) (k i : Nat) : Prop :=
  r.base ≤ i ∧ ((r.out.take k).drop (r.turnAt i)).countP Block.opensTurn ≤ maxPinnedTurns

/-- The commit of `r` commits no marker of a pending prompt that is within the bound. -/
def KeepsMarkers (sh : Shaping) (r : Replayer) : Prop :=
  ∀ k, rposition Block.opensTurn r.out = some k →
    ∀ i ∈ r.markers, r.WithinBound k i → (r.finalize sh).base ≤ i

/-- No pending prompt is stale beside a marker that is to be kept: each older marker is
resident and within the bound too. -/
def NoStale (r : Replayer) : Prop :=
  ∀ k, rposition Block.opensTurn r.out = some k →
    ∀ i ∈ r.markers, r.WithinBound k i → i < r.base + k →
      ∀ j ∈ r.markers, j ≤ i → r.WithinBound k j

/-- A marker stands in its turn. -/
theorem turnAt_le_self (hi : r.base ≤ i) : r.turnAt i ≤ i - r.base := by
  unfold turnAt
  cases hp : rposition Block.opensTurn (r.out.take (i - r.base + 1)) with
  | none => exact Nat.zero_le _
  | some p =>
    have hlt := rposition_lt hp
    rw [List.length_take] at hlt
    rw [Option.getD_some]
    omega

/-- A younger marker's turn is no earlier. -/
theorem turnAt_mono {j : Nat} (hji : j ≤ i) : r.turnAt j ≤ r.turnAt i := by
  unfold turnAt
  have hsplit : r.out.take (i - r.base + 1) =
      r.out.take (j - r.base + 1) ++ (r.out.take (i - r.base + 1)).drop (j - r.base + 1) := by
    have h := List.take_append_drop (j - r.base + 1) (r.out.take (i - r.base + 1))
    rw [List.take_take, min_eq_left (by omega)] at h
    exact h.symm
  rw [hsplit, rposition_append]
  cases hlater : rposition Block.opensTurn
      ((r.out.take (i - r.base + 1)).drop (j - r.base + 1)) with
  | none => simp
  | some q =>
    cases hp : rposition Block.opensTurn (r.out.take (j - r.base + 1)) with
    | none => simp
    | some p =>
      have hlt := rposition_lt hp
      simp only [Option.map_some, Option.orElse_some, Option.getD_some]
      omega

/-- Behind a marker within the bound, so is every younger one. -/
theorem WithinBound.mono {j : Nat} (h : r.WithinBound k j) (hji : j ≤ i) : r.WithinBound k i := by
  refine ⟨h.1.trans hji, ?_⟩
  have hsub : ((r.out.take k).drop (r.turnAt i)).Sublist ((r.out.take k).drop (r.turnAt j)) := by
    rw [← Nat.add_sub_cancel' (turnAt_mono hji), ← List.drop_drop]
    exact List.drop_sublist _ _
  exact hsub.countP_le.trans h.2

theorem finalize_base (sh : Shaping) (r : Replayer) : (r.finalize sh).base = r.base + r.cut := by
  unfold finalize
  split
  · next hzero => rw [hzero, Nat.add_zero]
  · rfl

/-- **What a commit keeps.** It keeps the marker of every pending prompt within the bound
exactly when no stale prompt is in the queue before one of them. -/
theorem keepsMarkers_iff (sh : Shaping) (r : Replayer) : r.KeepsMarkers sh ↔ r.NoStale := by
  constructor
  · intro hkeeps k hk i hi hwithin hlt j hj hji
    have hbase := hkeeps k hk i hi hwithin
    rw [finalize_base, cut, hk] at hbase
    replace hbase : r.base + (r.pinned k).getD k ≤ i := hbase
    -- The commit stopped short of the open turn, so the oldest marker capped it.
    cases hmin : r.markers.min? with
    | none =>
      rw [List.min?_eq_none_iff] at hmin
      simp [hmin] at hj
    | some oldest =>
      have hle : oldest ≤ j := (List.min?_eq_some_iff.mp hmin).2 j hj
      have hpins : r.Pins k oldest := by
        by_contra hnot
        have hnone : r.pinned k = none := by
          rw [markers] at hmin
          simp only [pinned, hmin, hnot, if_false]
        rw [hnone] at hbase
        simp only [Option.getD_none] at hbase
        omega
      exact WithinBound.mono ⟨hpins.1, hpins.2.2⟩ hle
  · intro hstale k hk i hi hwithin
    rw [finalize_base, cut, hk]
    show r.base + (r.pinned k).getD k ≤ i
    by_cases hlt : i < r.base + k
    · cases hmin : r.markers.min? with
      | none =>
        rw [List.min?_eq_none_iff] at hmin
        simp [hmin] at hi
      | some oldest =>
        have hmem := List.min?_mem hmin
        have hle : oldest ≤ i := (List.min?_eq_some_iff.mp hmin).2 i hi
        obtain ⟨hge, hcount⟩ := hstale k hk i hi hwithin hlt oldest hmem hle
        have hpins : r.Pins k oldest := ⟨hge, by omega, hcount⟩
        have hpinned : r.pinned k = some (r.turnAt oldest) := by
          rw [markers] at hmin
          simp only [pinned, hmin, hpins, if_true]
        rw [hpinned, Option.getD_some]
        have := turnAt_le_self hge
        omega
    · have := r.pinned_le k
      omega

end Replayer

end ClaudeReplay
