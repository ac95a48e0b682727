import ClaudeReplay.Viewer.View

/-!
# ClaudeReplay.Viewer.Geometry

What the geometry of a view must be, and what each operation keeps of it.

`View.measured` is the measure of the whole view, block by block from the top. A view is
`UpToDate` when its heights are that measure as far as nothing is stale, and its cache holds the
rendered lines of what is not. Every operation keeps this: an edit of the blocks or folds that
says truly from where it starts (`UpToDate.restale`), a block measured in place
(`UpToDate.remeasureBlock`), and a layout, after which nothing is stale
(`UpToDate.layout`).
-/

namespace ClaudeReplay.Viewer

open Lib (offsets totals ownerOf)

namespace View

variable {Block Line : Type} (R : Render Block Line)

/-! ## the measure of a view -/

/-- The heights of `n` blocks from `b` on, each measured by itself. -/
def heightsFrom (v : View Block Line) (carry : Bool) (b : Nat) : Nat → List Nat
  | 0 => []
  | n + 1 =>
    let h := v.measureBlock R b carry
    h :: v.heightsFrom (carry || decide (0 < h)) (b + 1) n

/-- The height of every block, at the view's width and folds. -/
def measured (v : View Block Line) : List Nat := v.heightsFrom R false 0 v.blocks.length

/-- Does a line stand above the block? -/
def carryIn (v : View Block Line) (b : Nat) : Bool := decide (0 < ((v.measured R).take b).sum)

/-- The lines a block renders to. -/
def rendered (v : View Block Line) (b : Nat) : List Line :=
  v.wrappedBlockLines R b (v.carryIn R b)

variable {R} {v w : View Block Line}

@[simp] theorem length_heightsFrom (carry : Bool) (b n : Nat) :
    (v.heightsFrom R carry b n).length = n := by
  induction n generalizing carry b with
  | zero => rfl
  | succ n ih => simp [heightsFrom, ih]

@[simp] theorem length_measured : (v.measured R).length = v.blocks.length :=
  length_heightsFrom _ _ _

/-- Once a line stands above, the order of measuring stops mattering. -/
theorem measureRun_eq (carry : Bool) (b n : Nat) :
    v.measureRun R carry b n = v.heightsFrom R carry b n := by
  have htrue : ∀ b n, v.heightsFrom R true b n =
      (List.range' b n).map fun b => v.measureBlock R b true := by
    intro b n
    induction n generalizing b with
    | zero => rfl
    | succ n ih => simp [heightsFrom, ih, List.range'_succ]
  induction n generalizing carry b with
  | zero => rfl
  | succ n ih =>
    cases carry with
    | true => rw [htrue, measureRun, if_pos rfl]
    | false =>
      rw [measureRun, if_neg Bool.false_ne_true]
      simp only [ih]
      rfl

theorem heightsFrom_add (carry : Bool) (b m n : Nat) :
    v.heightsFrom R carry b (m + n) = v.heightsFrom R carry b m ++
      v.heightsFrom R (carry || decide (0 < (v.heightsFrom R carry b m).sum)) (b + m) n := by
  induction m generalizing carry b with
  | zero => simp [heightsFrom]
  | succ m ih =>
    have hcarry : ∀ h s : Nat, ((carry || decide (0 < h)) || decide (0 < s)) =
        (carry || decide (0 < h + s)) := by
      intro h s
      cases carry <;> simp
    rw [Nat.succ_add, heightsFrom, heightsFrom, ih, hcarry, List.cons_append, List.sum_cons,
      show b + 1 + m = b + (m + 1) by omega]

/-- Views whose blocks are as high have the same heights. -/
theorem heightsFrom_congr_height {b n : Nat} (h : ∀ i, b ≤ i → i < b + n →
    ∀ carry, v.measureBlock R i carry = w.measureBlock R i carry) (carry : Bool) :
    v.heightsFrom R carry b n = w.heightsFrom R carry b n := by
  induction n generalizing b carry with
  | zero => rfl
  | succ n ih =>
    rw [heightsFrom, heightsFrom, h b (Nat.le_refl b) (by omega),
      ih fun i hi hlt => h i (by omega) (by omega)]

/-- Views that draw the same blocks alike have the same heights there. -/
theorem heightsFrom_congr {b n : Nat} (h : ∀ i, b ≤ i → i < b + n →
    ∀ carry, v.wrappedBlockLines R i carry = w.wrappedBlockLines R i carry) (carry : Bool) :
    v.heightsFrom R carry b n = w.heightsFrom R carry b n := by
  apply heightsFrom_congr_height
  intro i hi hlt carry
  rw [measureBlock, measureBlock, h i hi hlt]

/-- The first heights, measured alone. -/
theorem take_measured {n : Nat} (hn : n ≤ v.blocks.length) :
    (v.measured R).take n = v.heightsFrom R false 0 n := by
  obtain ⟨m, hm⟩ := Nat.exists_eq_add_of_le hn
  rw [measured, hm, heightsFrom_add, List.take_left' (length_heightsFrom _ _ _)]

/-- The measure from a block on, after the one of the blocks above. -/
theorem measured_split {d : Nat} (hd : d ≤ v.blocks.length) :
    v.measured R = (v.measured R).take d ++
      v.heightsFrom R (v.carryIn R d) d (v.blocks.length - d) := by
  have hadd := @heightsFrom_add _ _ R v false 0 d (v.blocks.length - d)
  rw [Nat.add_sub_cancel' hd, Nat.zero_add, Bool.false_or, ← take_measured hd] at hadd
  exact hadd

/-- **The height of a block** is the number of its lines. -/
theorem getElem?_measured {b : Nat} (hb : b < v.blocks.length) :
    (v.measured R)[b]? = some (v.rendered R b).length := by
  obtain ⟨n, hn⟩ := Nat.exists_eq_add_of_lt hb
  rw [measured_split (Nat.le_of_lt hb), List.getElem?_append_right (by simp),
    show v.blocks.length - b = n + 1 by omega]
  simp [heightsFrom, rendered, measureBlock, Nat.min_eq_left (Nat.le_of_lt hb)]

/-- A block's height, and what is measured behind it. -/
theorem measured_cons {b m : Nat} (hm : v.blocks.length = b + m + 1) :
    v.measured R = (v.measured R).take b ++ (v.rendered R b).length ::
      v.heightsFrom R (v.carryIn R b || decide (0 < (v.rendered R b).length)) (b + 1) m := by
  have hsplit := @measured_split _ _ R v b (by omega)
  rw [show v.blocks.length - b = m + 1 by omega] at hsplit
  exact hsplit

/-! ## views that are up to date -/

variable (R)

/-- The offsets are the running sums of the heights, and every block has its fold. -/
structure Shaped (v : View Block Line) : Prop where
  starts : v.starts = offsets v.heights
  collapsed : v.collapsed.length = v.blocks.length

/-- How many blocks' geometry is not stale. -/
def settled (v : View Block Line) : Nat :=
  min (v.dirtyFrom.getD v.heights.length) v.heights.length

/-- What is not stale is as measured. -/
structure UpToDate (v : View Block Line) : Prop where
  heights : v.heights.take v.settled = (v.measured R).take v.settled
  whole : v.dirtyFrom = none → v.heights.length = v.blocks.length
  hot : ∀ p ∈ v.hot, p.1 < v.settled → p.2 = v.rendered R p.1

variable {R}

theorem settled_le_heights : v.settled ≤ v.heights.length := Nat.min_le_right _ _

/-- What is not stale is there. -/
theorem UpToDate.settled_le (h : UpToDate R v) : v.settled ≤ v.blocks.length := by
  have hlen := congrArg List.length h.heights
  rw [List.length_take, List.length_take, length_measured] at hlen
  have hle := @settled_le_heights _ _ v
  omega

/-- Heights that are as measured so far are so further up. -/
theorem UpToDate.take_eq (h : UpToDate R v) {n : Nat} (hn : n ≤ v.settled) :
    v.heights.take n = (v.measured R).take n := by
  have htake := congrArg (List.take n) h.heights
  rwa [List.take_take, List.take_take, Nat.min_eq_left hn] at htake

/-- Views that draw their first blocks alike measure and render them alike. -/
theorem measured_congr {n : Nat} (hv : n ≤ v.blocks.length) (hw : n ≤ w.blocks.length)
    (h : ∀ i < n, ∀ carry, v.wrappedBlockLines R i carry = w.wrappedBlockLines R i carry) :
    (v.measured R).take n = (w.measured R).take n := by
  rw [take_measured hv, take_measured hw]
  exact heightsFrom_congr (fun i _ hi => h i (by omega)) false

theorem rendered_congr {n b : Nat} (hv : n ≤ v.blocks.length) (hw : n ≤ w.blocks.length)
    (hb : b < n)
    (h : ∀ i < n, ∀ carry, v.wrappedBlockLines R i carry = w.wrappedBlockLines R i carry) :
    v.rendered R b = w.rendered R b := by
  have hcarry : v.carryIn R b = w.carryIn R b := by
    rw [carryIn, carryIn, @measured_congr _ _ R v w b (by omega) (by omega)
      fun i hi => h i (by omega)]
  rw [rendered, rendered, hcarry, h b hb]

/-- Two views of the same geometry, whatever else they differ in. -/
structure SameGeometry (v w : View Block Line) : Prop where
  blocks : w.blocks = v.blocks
  collapsed : w.collapsed = v.collapsed
  width : w.width = v.width
  dirtyFrom : w.dirtyFrom = v.dirtyFrom
  heights : w.heights = v.heights
  starts : w.starts = v.starts
  hot : w.hot = v.hot

/-- Drawing a block reads it, its fold and the width. -/
theorem wrappedBlockLines_eq {b : Nat} (hblock : w.blocks[b]? = v.blocks[b]?)
    (hfold : w.collapsed[b]? = v.collapsed[b]?) (hwidth : w.width = v.width) (carry : Bool) :
    w.wrappedBlockLines R b carry = v.wrappedBlockLines R b carry := by
  rw [wrappedBlockLines, wrappedBlockLines, isCollapsed, isCollapsed, hblock, hfold, hwidth]

theorem wrappedBlockLines_congr (hblocks : w.blocks = v.blocks)
    (hcollapsed : w.collapsed = v.collapsed) (hwidth : w.width = v.width) (b : Nat)
    (carry : Bool) : w.wrappedBlockLines R b carry = v.wrappedBlockLines R b carry :=
  wrappedBlockLines_eq (by rw [hblocks]) (by rw [hcollapsed]) hwidth carry

theorem measured_eq (hblocks : w.blocks = v.blocks) (hcollapsed : w.collapsed = v.collapsed)
    (hwidth : w.width = v.width) : w.measured R = v.measured R := by
  rw [measured, measured, hblocks]
  exact heightsFrom_congr
    (fun i _ _ => wrappedBlockLines_congr hblocks hcollapsed hwidth i) false

theorem rendered_eq (hblocks : w.blocks = v.blocks) (hcollapsed : w.collapsed = v.collapsed)
    (hwidth : w.width = v.width) (b : Nat) : w.rendered R b = v.rendered R b := by
  rw [rendered, rendered, carryIn, carryIn, measured_eq hblocks hcollapsed hwidth]
  exact wrappedBlockLines_congr hblocks hcollapsed hwidth b _

theorem SameGeometry.shaped (h : SameGeometry v w) (hv : Shaped v) : Shaped w where
  starts := by rw [h.starts, h.heights, hv.starts]
  collapsed := by rw [h.collapsed, h.blocks, hv.collapsed]

theorem SameGeometry.upToDate (h : SameGeometry v w) (hv : UpToDate R v) : UpToDate R w := by
  have hsettled : w.settled = v.settled := by rw [settled, settled, h.dirtyFrom, h.heights]
  constructor
  · rw [hsettled, h.heights, measured_eq h.blocks h.collapsed h.width, hv.heights]
  · rw [h.dirtyFrom, h.heights, h.blocks]
    exact hv.whole
  · intro p hp hlt
    rw [h.hot] at hp
    rw [hsettled] at hlt
    rw [hv.hot p hp hlt, rendered_eq h.blocks h.collapsed h.width]

/-- **An edit that says from where.** The blocks below `d` are drawn as before, and the geometry
is as it was but stale from `d` on. -/
theorem UpToDate.restale (h : UpToDate R v) {d : Nat} (hd : d ≤ w.blocks.length)
    (hsame : ∀ i < d, ∀ carry, w.wrappedBlockLines R i carry = v.wrappedBlockLines R i carry)
    (hheights : w.heights = v.heights) (hhot : w.hot = v.hot)
    (hdirty : w.dirtyFrom = some ((v.dirtyFrom.map (min · d)).getD d)) : UpToDate R w := by
  have hsettled : w.settled ≤ d ∧ w.settled ≤ v.settled := by
    rw [settled, settled, hdirty, hheights]
    cases v.dirtyFrom <;> simp
  have hv := h.settled_le
  constructor
  · rw [hheights, h.take_eq hsettled.2]
    refine (measured_congr (by omega) (by omega) fun i hi => ?_).symm
    exact hsame i (by omega)
  · rw [hdirty]
    exact fun hnone => nomatch hnone
  · intro p hp hlt
    rw [hhot] at hp
    rw [h.hot p hp (by omega)]
    refine (@rendered_congr _ _ R w v w.settled p.1 (by omega) (by omega) hlt fun i hi => ?_).symm
    exact hsame i (by omega)

/-! ## measuring from a block on -/

/-- Measuring keeps the offsets in step, and leaves a height for every block. -/
theorem Shaped.measureFrom (h : Shaped v) (d : Nat) :
    Shaped (v.measureFrom R d) ∧ (v.measureFrom R d).heights.length = v.blocks.length := by
  have hd : min (min d v.blocks.length) v.heights.length ≤ v.heights.length := Nat.min_le_right _ _
  refine ⟨⟨?_, h.collapsed⟩, ?_⟩
  · simp only [View.measureFrom]
    rw [h.starts, Lib.getElem?_offsets _ hd, Option.getD_some, Lib.take_offsets hd,
      Lib.offsets_append]
  · simp only [View.measureFrom, measureRun_eq]
    rw [List.length_append, List.length_take, length_heightsFrom]
    omega

/-- What stands above is kept. -/
theorem take_measureFrom {d n : Nat} (hn : n ≤ d) (hblocks : n ≤ v.blocks.length)
    (hheights : n ≤ v.heights.length) :
    (v.measureFrom R d).heights.take n = v.heights.take n := by
  simp only [View.measureFrom]
  rw [List.take_append_of_le_length (by rw [List.length_take]; omega), List.take_take,
    Nat.min_eq_left (by omega)]

/-- **Measuring from where it is stale** measures everything. -/
theorem measureFrom_heights (hshaped : Shaped v) {d : Nat}
    (h : v.heights.take (min (min d v.blocks.length) v.heights.length) =
      (v.measured R).take (min (min d v.blocks.length) v.heights.length)) :
    (v.measureFrom R d).heights = v.measured R := by
  have hd : min (min d v.blocks.length) v.heights.length ≤ v.heights.length := Nat.min_le_right _ _
  simp only [View.measureFrom, measureRun_eq]
  rw [hshaped.starts, Lib.getElem?_offsets _ hd, Option.getD_some, h]
  exact (measured_split (by omega)).symm

theorem measured_measureFrom (d : Nat) : (v.measureFrom R d).measured R = v.measured R :=
  measured_eq rfl rfl rfl

theorem rendered_measureFrom (d b : Nat) : (v.measureFrom R d).rendered R b = v.rendered R b :=
  @rendered_eq _ _ R v (v.measureFrom R d) rfl rfl rfl b

/-- A view whose heights and cache are all as measured, whatever is called stale. -/
theorem upToDate_of_measured (hheights : v.heights = v.measured R)
    (hhot : ∀ p ∈ v.hot, p.2 = v.rendered R p.1) : UpToDate R v where
  heights := by rw [hheights]
  whole := fun _ => by rw [hheights, length_measured]
  hot := fun p hp _ => hhot p hp

/-- Measured from where it is stale, with a cache that is right above, a view is up to date. -/
theorem measureFrom_upToDate (hshaped : Shaped v) {d : Nat}
    (h : v.heights.take (min (min d v.blocks.length) v.heights.length) =
      (v.measured R).take (min (min d v.blocks.length) v.heights.length))
    (hhot : ∀ p ∈ v.hot, p.1 < min (min d v.blocks.length) v.heights.length →
      p.2 = v.rendered R p.1) : UpToDate R (v.measureFrom R d) := by
  refine upToDate_of_measured ?_ fun p hp => ?_
  · rw [measured_measureFrom, measureFrom_heights hshaped h]
  · simp only [View.measureFrom, List.mem_filter, decide_eq_true_eq] at hp
    rw [rendered_measureFrom]
    exact hhot p hp.1 hp.2

/-! ## one block anew -/

theorem Shaped.remeasureBlock (h : Shaped v) (b : Nat) : Shaped (v.remeasureBlock R b) := by
  rw [View.remeasureBlock]
  cases hold : v.heights[b]? with
  | none => exact ⟨h.starts, h.collapsed⟩
  | some old =>
    simp only
    split
    · exact (h.measureFrom b).1
    · refine ⟨?_, h.collapsed⟩
      show _ = offsets (v.heights.set b _)
      rw [Lib.offsets_set hold, ← h.starts]

theorem remeasureBlock_width (b : Nat) : (v.remeasureBlock R b).width = v.width := by
  rw [View.remeasureBlock]
  cases v.heights[b]? with
  | none => rfl
  | some old =>
    simp only
    split <;> rfl

/-- Two views that differ in one block's fold, as far as drawing goes. -/
structure DiffersAt (R : Render Block Line) (b : Nat) (v w : View Block Line) : Prop where
  blocks : w.blocks.length = v.blocks.length
  lines : ∀ i ≠ b, ∀ carry, w.wrappedBlockLines R i carry = v.wrappedBlockLines R i carry

/-- A block that still shows lines, or still shows none, changes its own height only. -/
theorem DiffersAt.measured_set {b : Nat} (h : DiffersAt R b v w) (hb : b < v.blocks.length)
    (hempty : (v.rendered R b).length = 0 ↔
      (w.wrappedBlockLines R b (v.carryIn R b)).length = 0) :
    w.measured R = (v.measured R).set b (w.wrappedBlockLines R b (v.carryIn R b)).length := by
  have habove : (w.measured R).take b = (v.measured R).take b :=
    measured_congr (by rw [h.blocks]; omega) (Nat.le_of_lt hb) fun i hi => h.lines i (by omega)
  have hcarry : w.carryIn R b = v.carryIn R b := by rw [carryIn, carryIn, habove]
  obtain ⟨m, hm⟩ := Nat.exists_eq_add_of_lt hb
  have hv := @measured_cons _ _ R v b m hm
  have hw := @measured_cons _ _ R w b m (h.blocks.trans hm)
  have hbehind := @heightsFrom_congr _ _ R w v (b + 1) m fun i hi _ => h.lines i (by omega)
  have hshows : decide (0 < (w.wrappedBlockLines R b (v.carryIn R b)).length) =
      decide (0 < (v.rendered R b).length) := by
    rw [decide_eq_decide]
    omega
  rw [rendered, hcarry, hshows, hbehind, habove] at hw
  have hlen : ((v.measured R).take b).length = b := by
    rw [List.length_take, length_measured]
    omega
  generalize (v.measured R).take b = above at hv hw hlen
  rw [hw, hv, List.set_append_right _ _ (by omega), hlen, Nat.sub_self, List.set_cons_zero]

/-- Whether a line stands above a block does not change either. -/
theorem DiffersAt.carryIn_eq {b : Nat} (h : DiffersAt R b v w) (hb : b < v.blocks.length)
    (hempty : (v.rendered R b).length = 0 ↔
      (w.wrappedBlockLines R b (v.carryIn R b)).length = 0) (i : Nat) :
    w.carryIn R i = v.carryIn R i := by
  rw [carryIn, carryIn, h.measured_set hb hempty, List.take_set, decide_eq_decide]
  refine Lib.sum_set_pos fun old hold => ?_
  have hold' : (v.measured R)[b]? = some old := by
    rw [List.getElem?_take] at hold
    split at hold
    · exact hold
    · contradiction
  rw [getElem?_measured hb] at hold'
  rwa [← Option.some.inj hold']

/-- A block's new height and lines in the place of the old ones. -/
theorem UpToDate.inPlace (h : UpToDate R v) {b : Nat} (hb : b < v.settled)
    (hdiffers : DiffersAt R b v w) {lines : List Line}
    (hlines : w.wrappedBlockLines R b (v.carryIn R b) = lines)
    (hempty : (v.rendered R b).length = 0 ↔ lines.length = 0)
    (hheights : w.heights = v.heights.set b lines.length) (hdirty : w.dirtyFrom = v.dirtyFrom)
    (hhot : ∀ p ∈ w.hot, p = (b, lines) ∨ p.1 ≠ b ∧ p ∈ v.hot) : UpToDate R w := by
  subst hlines
  have hlt : b < v.blocks.length := Nat.lt_of_lt_of_le hb h.settled_le
  have hsettled : w.settled = v.settled := by
    rw [settled, settled, hdirty, hheights, List.length_set]
  have hcarry := hdiffers.carryIn_eq hlt hempty
  constructor
  · rw [hsettled, hheights, hdiffers.measured_set hlt hempty, List.take_set, List.take_set,
      h.heights]
  · rw [hdirty, hheights, List.length_set, hdiffers.blocks]
    exact h.whole
  · intro p hp hlow
    obtain rfl | ⟨hne, hp⟩ := hhot p hp
    · rw [rendered, hcarry]
    · rw [h.hot p hp (by omega), rendered, rendered, hcarry, hdiffers.lines p.1 hne]

/-- What is done to the stale part of a view leaves it up to date. -/
theorem UpToDate.of_stale (h : UpToDate R v) (hstale : v.settled < v.heights.length)
    (hdiffers : ∀ i < v.settled, ∀ carry,
      w.wrappedBlockLines R i carry = v.wrappedBlockLines R i carry)
    (hblocks : w.blocks.length = v.blocks.length) (hdirty : w.dirtyFrom = v.dirtyFrom)
    (hheights : w.heights.take v.settled = v.heights.take v.settled)
    (hhot : ∀ p ∈ w.hot, p.1 < v.settled → p ∈ v.hot) : UpToDate R w := by
  have hv := h.settled_le
  have hw : v.settled ≤ w.blocks.length := by rw [hblocks]; exact hv
  obtain ⟨d, hd⟩ : ∃ d, v.dirtyFrom = some d := by
    cases hd : v.dirtyFrom with
    | none =>
      rw [settled, hd, Option.getD_none, Nat.min_self] at hstale
      omega
    | some d => exact ⟨d, rfl⟩
  have hsettled : w.settled = v.settled := by
    have hvs : v.settled = min d v.heights.length := by rw [settled, hd, Option.getD_some]
    have hws : w.settled = min d w.heights.length := by
      rw [settled, hdirty, hd, Option.getD_some]
    have hlen := congrArg List.length hheights
    rw [List.length_take, List.length_take] at hlen
    omega
  constructor
  · rw [hsettled, hheights, h.heights]
    exact (measured_congr hw hv hdiffers).symm
  · rw [hdirty, hd]
    exact fun hnone => nomatch hnone
  · intro p hp hlt
    rw [hsettled] at hlt
    rw [h.hot p (hhot p hp hlt) hlt]
    exact (rendered_congr hw hv hlt hdiffers).symm

/-- **A block measured in place.** The view was up to date; one block is drawn otherwise now, and
nothing else of the geometry has been touched. -/
theorem UpToDate.remeasureBlock (hshaped : Shaped v) (h : UpToDate R v) {b : Nat}
    (hb : b < v.blocks.length) (hdiffers : DiffersAt R b v w) (hheights : w.heights = v.heights)
    (hstarts : w.starts = v.starts) (hhot : w.hot = v.hot)
    (hdirty : w.dirtyFrom = v.dirtyFrom) (hfolds : w.collapsed.length = v.collapsed.length) :
    UpToDate R (w.remeasureBlock R b) := by
  have hwb : b < w.blocks.length := by rw [hdiffers.blocks]; exact hb
  have hshaped' : Shaped w :=
    ⟨by rw [hstarts, hheights, hshaped.starts],
      by rw [hfolds, hshaped.collapsed, hdiffers.blocks]⟩
  have habove : ∀ i < b, ∀ carry, w.wrappedBlockLines R i carry = v.wrappedBlockLines R i carry :=
    fun i hi => hdiffers.lines i (by omega)
  have hv := h.settled_le
  rw [View.remeasureBlock]
  cases hold : w.heights[b]? with
  | none => exact h.restale (Nat.le_of_lt hwb) habove hheights hhot (by rw [dirty, hdirty])
  | some old =>
    rw [hheights] at hold
    obtain ⟨hlt, hget⟩ := List.getElem?_eq_some_iff.mp hold
    have hstart : w.starts[b]?.getD 0 = (v.heights.take b).sum := by
      rw [hstarts, hshaped.starts, Lib.getElem?_offsets _ (Nat.le_of_lt hlt), Option.getD_some]
    by_cases hle : b < v.settled
    · -- nothing above the block is stale, nor the block's old height
      have hfront : v.heights.take b = (v.measured R).take b := h.take_eq (Nat.le_of_lt hle)
      have hcarry : decide (0 < w.starts[b]?.getD 0) = v.carryIn R b := by
        rw [hstart, hfront, carryIn]
      have hrendered : old = (v.rendered R b).length := by
        have htake := congrArg (·[b]?) h.heights
        simp only [List.getElem?_take, if_pos hle, hold, getElem?_measured hb] at htake
        exact Option.some.inj htake
      simp only [hcarry]
      split
      · -- its lines have come or gone, and everything below is measured with it
        have hmin : min (min b w.blocks.length) w.heights.length = b := by
          rw [hheights]
          omega
        refine measureFrom_upToDate hshaped' ?_ fun p hp hlow => ?_
        · rw [hmin, hheights, hfront]
          exact (measured_congr (Nat.le_of_lt hwb) (Nat.le_of_lt hb) habove).symm
        · rw [hhot] at hp
          rw [h.hot p hp (by omega)]
          exact (rendered_congr (Nat.le_of_lt hwb) (Nat.le_of_lt hb) (by omega) habove).symm
      · next hsame =>
        have hempty : (v.rendered R b).length = 0 ↔
            (w.wrappedBlockLines R b (v.carryIn R b)).length = 0 := by
          rw [← hrendered]
          grind
        refine h.inPlace hle ⟨hdiffers.blocks, fun i hi carry => ?_⟩
          (@wrappedBlockLines_congr _ _ R w _ rfl rfl rfl b _) hempty
          (by simp only [hheights]) hdirty fun p hp => ?_
        · exact (wrappedBlockLines_congr rfl rfl rfl i carry).trans (hdiffers.lines i hi carry)
        · simp only [insertHot, List.mem_cons, List.mem_filter, decide_eq_true_eq, hhot] at hp
          exact hp.imp_right fun hp => ⟨hp.2, hp.1⟩
    · -- the block is stale itself, and so is all below
      have hstale : v.settled < v.heights.length := by omega
      have hlines : ∀ i < v.settled, ∀ carry,
          w.wrappedBlockLines R i carry = v.wrappedBlockLines R i carry :=
        fun i hi => habove i (by omega)
      simp only
      split
      · refine h.of_stale hstale hlines hdiffers.blocks hdirty ?_ fun p hp _ => ?_
        · rw [take_measureFrom (by omega) (by omega) (by rw [hheights]; omega), hheights]
        · simp only [View.measureFrom, List.mem_filter, hhot] at hp
          exact hp.1
      · refine h.of_stale hstale hlines hdiffers.blocks hdirty ?_ fun p hp hlow => ?_
        · simp only [hheights]
          rw [List.take_set_of_le (by omega)]
        · simp only [insertHot, List.mem_cons, List.mem_filter, hhot] at hp
          obtain rfl | hp := hp
          · exact absurd hlow hle
          · exact hp.1

/-! ## laying out -/

/-- Nothing stale, and everything as measured. -/
theorem UpToDate.heights_eq (h : UpToDate R v) (hclean : v.dirtyFrom = none) :
    v.heights = v.measured R := by
  have hsettled : v.settled = v.heights.length := by
    rw [settled, hclean, Option.getD_none, Nat.min_self]
  have hlen : v.settled = (v.measured R).length := by
    rw [hsettled, length_measured, h.whole hclean]
  have htake := h.heights
  rwa [hsettled, List.take_length, ← hsettled, hlen, List.take_length] at htake

theorem sameGeometry_recomputeMatches : SameGeometry v (v.recomputeMatches R) := by
  rw [recomputeMatches]
  cases R.occurrences v.query with
  | none => constructor <;> rfl
  | some occurrences => constructor <;> rfl

/-- What `layout` lays out, before it scrolls. -/
def laid (R : Render Block Line) (v : View Block Line) (width : Nat) : View Block Line :=
  if width ≠ v.width then
    (({ v with width, dirtyFrom := none, hot := [] }.measureFrom R 0).recomputeMatches R)
  else
    match v.dirtyFrom with
    | some d => ({ v with dirtyFrom := none }.measureFrom R d).recomputeMatches R
    | none => v

theorem sameGeometry_layout (width height : Nat) :
    SameGeometry ({ v with viewH := height - 1 }.laid R width) (v.layout R width height) := by
  constructor <;> rfl

/-- **A layout leaves nothing stale**: at another width everything is measured, and otherwise what
is stale of a view that is up to date. -/
theorem UpToDate.laid (hshaped : Shaped v) {width : Nat}
    (h : width = v.width → UpToDate R v) :
    Shaped (v.laid R width) ∧ UpToDate R (v.laid R width) ∧ (v.laid R width).dirtyFrom = none ∧
      (v.laid R width).width = width := by
  rw [View.laid]
  split
  · -- another width, and the cache is let go
    let u : View Block Line := { v with width, dirtyFrom := none, hot := [] }
    have hu : Shaped u := ⟨hshaped.starts, hshaped.collapsed⟩
    have hmeasured : UpToDate R (u.measureFrom R 0) :=
      measureFrom_upToDate hu (by simp) fun p hp => nomatch hp
    have hsame := @sameGeometry_recomputeMatches _ _ R (u.measureFrom R 0)
    exact ⟨hsame.shaped (hu.measureFrom 0).1, hsame.upToDate hmeasured, hsame.dirtyFrom,
      hsame.width⟩
  · next hsame =>
    rw [not_not] at hsame
    cases hd : v.dirtyFrom with
    | none => exact ⟨hshaped, h hsame, hd, hsame.symm⟩
    | some d =>
      let u : View Block Line := { v with dirtyFrom := none }
      have hu : Shaped u := ⟨hshaped.starts, hshaped.collapsed⟩
      have hle := (h hsame).settled_le
      have hsettled : v.settled = min (min d v.blocks.length) v.heights.length := by
        rw [settled, hd, Option.getD_some] at hle ⊢
        omega
      have hmeasured : UpToDate R (u.measureFrom R d) := by
        refine measureFrom_upToDate hu ?_ fun p hp hlow => ?_
        · rw [@measured_eq _ _ R v u rfl rfl rfl]
          show v.heights.take (min (min d v.blocks.length) v.heights.length) = _
          rw [← hsettled]
          exact (h hsame).heights
        · rw [@rendered_eq _ _ R v u rfl rfl rfl]
          exact (h hsame).hot p hp (by rw [hsettled]; exact hlow)
      have hmatches := @sameGeometry_recomputeMatches _ _ R (u.measureFrom R d)
      exact ⟨hmatches.shaped (hu.measureFrom d).1, hmatches.upToDate hmeasured,
        hmatches.dirtyFrom, hmatches.width.trans hsame.symm⟩

theorem UpToDate.layout (hshaped : Shaped v) {width : Nat} (height : Nat)
    (h : width = v.width → UpToDate R v) :
    Shaped (v.layout R width height) ∧ UpToDate R (v.layout R width height) ∧
      (v.layout R width height).dirtyFrom = none ∧ (v.layout R width height).width = width := by
  have hview : SameGeometry v { v with viewH := height - 1 } := by constructor <;> rfl
  obtain ⟨hlaid, hup, hclean, hwidth⟩ := UpToDate.laid (hview.shaped hshaped)
    fun hw => hview.upToDate (h hw)
  have hsame := @sameGeometry_layout _ _ R v width height
  exact ⟨hsame.shaped hlaid, hsame.upToDate hup, hsame.dirtyFrom.trans hclean,
    hsame.width.trans hwidth⟩

end View

end ClaudeReplay.Viewer
