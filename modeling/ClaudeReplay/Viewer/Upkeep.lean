import ClaudeReplay.Viewer.Geometry

/-!
# ClaudeReplay.Viewer.Upkeep

What each operation but a layout does to the geometry.

`Keeps` says that an operation leaves the offsets in step and an up-to-date view up to date. An
operation on one fold says from where the view is stale, or measures the block; a live update
does so as long as the blocks below the place it names are the ones that were there
(`keeps_postSplice`); a sidecar is taken as it is, and fits if it was parked with nothing stale
and for the same blocks (`upToDate_adoptSidecar`).
-/

namespace ClaudeReplay.Viewer.View

open Lib (offsets ownerOf)

variable {Block Line : Type} {R : Render Block Line} {u v w : View Block Line}

/-- The geometry is looked after. -/
structure Keeps (R : Render Block Line) (v w : View Block Line) : Prop where
  shaped : Shaped v → Shaped w
  upToDate : Shaped v → UpToDate R v → UpToDate R w
  width : w.width = v.width

theorem Keeps.trans (h : Keeps R u v) (h' : Keeps R v w) : Keeps R u w where
  shaped := fun hu => h'.shaped (h.shaped hu)
  upToDate := fun hu hup => h'.upToDate (h.shaped hu) (h.upToDate hu hup)
  width := h'.width.trans h.width

theorem SameGeometry.keeps (h : SameGeometry v w) : Keeps R v w where
  shaped := h.shaped
  upToDate := fun _ => h.upToDate
  width := h.width

theorem keeps_refl : Keeps R v v := ⟨fun h => h, fun _ h => h, rfl⟩

/-! ## one fold -/

/-- A fold changes how one block is drawn. -/
theorem differsAt_setFold {b : Nat} {c : Bool} (hblocks : w.blocks = v.blocks)
    (hfold : w.collapsed = v.collapsed.set b c) (hwidth : w.width = v.width) :
    DiffersAt R b v w where
  blocks := by rw [hblocks]
  lines := fun i hi => wrappedBlockLines_eq (by rw [hblocks])
    (by rw [hfold, List.getElem?_set_ne (Ne.symm hi)]) hwidth

/-- A fold set, and the geometry called stale from there. -/
theorem keeps_setFold {b : Nat} {c : Bool} (hb : b < v.blocks.length)
    (hblocks : w.blocks = v.blocks) (hfold : w.collapsed = v.collapsed.set b c)
    (hwidth : w.width = v.width) (hheights : w.heights = v.heights) (hstarts : w.starts = v.starts)
    (hhot : w.hot = v.hot) (hdirty : w.dirtyFrom = some ((v.dirtyFrom.map (min · b)).getD b)) :
    Keeps R v w where
  shaped := fun h =>
    ⟨by rw [hstarts, hheights, h.starts],
      by rw [hfold, List.length_set, h.collapsed, hblocks]⟩
  upToDate := fun _ h => h.restale (by rw [hblocks]; omega)
    (fun i hi => (differsAt_setFold hblocks hfold hwidth).lines i (Nat.ne_of_lt hi))
    hheights hhot hdirty
  width := hwidth

/-- A block that is drawn folded is there. -/
theorem lt_of_foldable {b : Nat} (h : v.blocks[b]?.any R.foldable = true) :
    b < v.blocks.length := by
  by_contra hge
  rw [List.getElem?_eq_none (by omega)] at h
  contradiction

theorem keeps_unpeek : Keeps R v (v.unpeek R) := by
  rw [unpeek]
  cases v.peeked with
  | none => exact keeps_refl
  | some p =>
    simp only
    split
    · next hfold => exact keeps_setFold (lt_of_foldable hfold.2.2) rfl rfl rfl rfl rfl rfl rfl
    · exact SameGeometry.keeps (by constructor <;> rfl)

theorem keeps_peek (b : Nat) : Keeps R v (v.peek R b) := by
  rw [peek]
  split
  · next hfold =>
    rw [isCollapsed, Bool.and_eq_true] at hfold
    exact keeps_setFold (lt_of_foldable hfold.2) rfl rfl rfl rfl rfl rfl rfl
  · exact keeps_refl

theorem sameGeometry_scrollTo (b : Nat) : SameGeometry v (v.scrollTo b) := by
  rw [scrollTo]
  cases v.starts[b]? with
  | none => constructor <;> rfl
  | some line => constructor <;> rfl

theorem keeps_jumpToCurrentMatch : Keeps R v (v.jumpToCurrentMatch R) := by
  rw [jumpToCurrentMatch]
  split
  · exact keeps_unpeek
  · next b _ => exact (keeps_unpeek.trans (keeps_peek b)).trans (sameGeometry_scrollTo b).keeps

/-- A toggled block is measured in place. -/
theorem keeps_toggleBlock (b : Nat) : Keeps R v (v.toggleBlock R b) := by
  rw [toggleBlock]
  split
  · next hfold =>
    have hb := lt_of_foldable hfold
    cases hc : v.collapsed[b]? with
    | none =>
      refine ⟨fun h => h.remeasureBlock b, fun h hup => ?_, ?_⟩
      · rw [List.getElem?_eq_none_iff, h.collapsed] at hc
        omega
      · exact remeasureBlock_width b
    | some c =>
      let folded : View Block Line :=
        { v with
          collapsed := v.collapsed.set b (!c)
          userFolds := fun i => if i = b then some !c else v.userFolds i }
      refine ⟨fun h => ?_, fun h hup => ?_, ?_⟩
      · have hshaped : Shaped folded := ⟨h.starts, List.length_set.trans h.collapsed⟩
        exact hshaped.remeasureBlock b
      · exact hup.remeasureBlock h hb (differsAt_setFold (c := !c) rfl rfl rfl) rfl rfl rfl rfl
          List.length_set
      · exact remeasureBlock_width b
  · exact keeps_refl

/-! ## searching -/

theorem keeps_recomputeMatches : Keeps R v (v.recomputeMatches R) :=
  sameGeometry_recomputeMatches.keeps

theorem keeps_searchInput (c : Char) : Keeps R v (v.searchInput R c) := by
  have hquery : Keeps R v { v with query := v.query ++ [c] } :=
    SameGeometry.keeps (by constructor <;> rfl)
  refine ((hquery.trans keeps_recomputeMatches).trans (SameGeometry.keeps ?_)).trans
    keeps_jumpToCurrentMatch
  constructor <;> rfl

theorem keeps_searchBackspace : Keeps R v (v.searchBackspace R) := by
  have hquery : Keeps R v { v with query := v.query.dropLast } :=
    SameGeometry.keeps (by constructor <;> rfl)
  refine (hquery.trans keeps_recomputeMatches).trans (SameGeometry.keeps ?_)
  constructor <;> rfl

theorem sameGeometry_searchConfirm : SameGeometry v v.searchConfirm := by
  rw [searchConfirm]
  simp only
  split <;> constructor <;> rfl

theorem keeps_searchCancel : Keeps R v (v.searchCancel R) := by
  refine keeps_unpeek.trans (SameGeometry.keeps ?_)
  constructor <;> rfl

theorem keeps_searchNext : Keeps R v (v.searchNext R) := by
  rw [searchNext]
  split
  · exact keeps_refl
  · refine (SameGeometry.keeps ?_).trans keeps_jumpToCurrentMatch
    constructor <;> rfl

theorem keeps_searchPrev : Keeps R v (v.searchPrev R) := by
  rw [searchPrev]
  split
  · exact keeps_refl
  · refine (SameGeometry.keeps ?_).trans keeps_jumpToCurrentMatch
    constructor <;> rfl

/-! ## live updates -/

/-- The blocks below `d` are the ones that were there. -/
def Agree (blocks blocks' : List Block) (d : Nat) : Prop :=
  blocks'.take (min d blocks'.length) = blocks.take (min d blocks'.length)

/-- **A splice** that says truly from where the blocks are others. -/
theorem keeps_postSplice {d : Nat} (hblocks : Agree v.blocks w.blocks d)
    (hcollapsed : w.collapsed = v.collapsed) (hwidth : w.width = v.width)
    (hheights : w.heights = v.heights) (hstarts : w.starts = v.starts) (hhot : w.hot = v.hot)
    (hdirty : w.dirtyFrom = v.dirtyFrom) : Keeps R v (w.postSplice R d) := by
  have hd : min d w.blocks.length ≤ v.blocks.length := by
    have hlen := congrArg List.length hblocks
    rw [List.length_take, List.length_take] at hlen
    omega
  refine ⟨fun h => ⟨?_, ?_⟩, fun h hup => ?_, hwidth⟩
  · show w.starts = offsets w.heights
    rw [hstarts, hheights, h.starts]
  · show (List.mapIdx _ _).length = w.blocks.length
    rw [List.length_mapIdx, List.length_append, List.length_take, List.length_map,
      List.length_drop, hcollapsed, h.collapsed]
    omega
  · refine @UpToDate.restale _ _ _ _ _ hup (min d w.blocks.length) (Nat.min_le_right _ _)
      (fun i hi carry => ?_) hheights hhot ?_
    · have hblock : w.blocks[i]? = v.blocks[i]? := by
        have hget := congrArg (·[i]?) hblocks
        simpa only [List.getElem?_take, if_pos hi] using hget
      have hfold : (w.postSplice R d).collapsed[i]? = v.collapsed[i]? := by
        have hlt : i < v.collapsed.length := by rw [h.collapsed]; omega
        have hkept : (w.collapsed.take (min d w.blocks.length)).length = min d w.blocks.length := by
          rw [List.length_take, hcollapsed, h.collapsed]
          omega
        simp only [postSplice, dirty, List.getElem?_mapIdx]
        rw [List.getElem?_append_left (by omega), List.getElem?_take, if_pos hi, hcollapsed,
          List.getElem?_eq_getElem hlt, Option.map_some, if_neg (by omega)]
      exact @wrappedBlockLines_eq _ _ R v (w.postSplice R d) i hblock hfold hwidth carry
    · show some _ = some _
      rw [hdirty]

theorem keeps_applyFrom {blocks : List Block} {d : Nat}
    (h : Agree v.blocks blocks (min d v.blocks.length)) : Keeps R v (v.applyFrom R blocks d) := by
  refine keeps_postSplice ?_ rfl rfl rfl rfl rfl rfl
  show Agree v.blocks blocks (min (min d v.blocks.length) blocks.length)
  rw [Agree, Nat.min_eq_left (Nat.min_le_right _ _)]
  exact h

/-- What two lists open with alike. -/
theorem agree_common [DecidableEq Block] (blocks blocks' : List Block) (n : Nat) :
    Agree blocks blocks'
      (min ((blocks.zip blocks').takeWhile fun p => p.1 = p.2).length n) := by
  have hcommon : ∀ k ≤ ((blocks.zip blocks').takeWhile fun p => p.1 = p.2).length,
      blocks'.take k = blocks.take k := by
    induction blocks generalizing blocks' with
    | nil => simp
    | cons b bs ih =>
      cases blocks' with
      | nil => simp
      | cons b' bs' =>
        intro k hk
        by_cases heq : b = b'
        · rw [List.zip_cons_cons, List.takeWhile_cons_of_pos (by simpa using heq)] at hk
          cases k with
          | zero => rfl
          | succ k =>
            rw [List.take_succ_cons, List.take_succ_cons, heq,
              ih bs' k (Nat.le_of_succ_le_succ hk)]
        · rw [List.zip_cons_cons, List.takeWhile_cons_of_neg (by simpa using heq)] at hk
          rw [Nat.le_zero.mp hk]
          rfl
  exact hcommon _ (by omega)

theorem keeps_update [DecidableEq Block] (blocks : List Block) :
    Keeps R v (v.update R blocks) :=
  keeps_applyFrom (agree_common _ _ _)

theorem keeps_applyView {committedLen changedFrom : Nat} {committed provisional : List Block}
    (h : Agree v.blocks (v.blocks.take (min (committedLen - committed.length) v.blocks.length) ++
      committed ++ provisional) changedFrom) :
    Keeps R v (v.applyView R committedLen committed provisional changedFrom) :=
  keeps_postSplice h rfl rfl rfl rfl rfl rfl

/-! ## everything anew -/

/-- Where everything is stale nothing is wrong. -/
theorem upToDate_of_top (h : v.dirtyFrom = some 0) : UpToDate R v := by
  have hsettled : v.settled = 0 := by rw [settled, h, Option.getD_some, Nat.zero_min]
  constructor
  · rw [hsettled]
    rfl
  · rw [h]
    intro hnone
    cases hnone
  · intro p _ hlt
    omega

theorem shaped_new (blocks : List Block) : Shaped (new R blocks : View Block Line) :=
  ⟨rfl, List.length_map _⟩

theorem shaped_toggleAll (h : Shaped v) : Shaped (v.toggleAll R) :=
  ⟨h.starts, List.length_mapIdx.trans h.collapsed⟩

/-! ## the cache -/

/-- Lines put into the cache as they render. -/
theorem keeps_hot (hw : SameGeometry { v with hot := w.hot } w)
    (h : Shaped v → UpToDate R v → ∀ p ∈ w.hot, p.1 < v.settled → p.2 = v.rendered R p.1) :
    Keeps R v w where
  shaped := fun hv => hw.shaped ⟨hv.starts, hv.collapsed⟩
  upToDate := fun hv hup => by
    refine hw.upToDate ⟨?_, hup.whole, fun p hp hlt => ?_⟩
    · rw [@measured_eq _ _ R v { v with hot := w.hot } rfl rfl rfl]
      exact hup.heights
    · rw [@rendered_eq _ _ R v { v with hot := w.hot } rfl rfl rfl]
      exact h hv hup p hp hlt
  width := hw.width

theorem evictHot_subset {p : Nat × List Line} (h : p ∈ v.evictHot.hot) : p ∈ v.hot := by
  rw [evictHot] at h
  split at h
  · exact h
  · exact List.mem_of_mem_filter h

/-- **The line of a block**, where nothing above is stale: the block's lines render as they were
measured. -/
theorem UpToDate.wrappedBlockLines_start (hv : Shaped v) (h : UpToDate R v) {b : Nat}
    (hb : b ≤ v.settled) :
    v.wrappedBlockLines R b (decide (0 < v.starts[b]?.getD 0)) = v.rendered R b := by
  have hlen := @settled_le_heights _ _ v
  rw [hv.starts, Lib.getElem?_offsets _ (by omega), Option.getD_some, h.take_eq hb]
  rfl

theorem keeps_lineAt (i : Nat) : Keeps R v (v.lineAt R i).1 := by
  rw [lineAt]
  cases v.tagOf i with
  | none => exact keeps_refl
  | some b =>
    simp only
    split
    · exact keeps_refl
    · refine keeps_hot ?_ fun hv hup p hp hlt => ?_
      · rw [evictHot]
        split <;> constructor <;> rfl
      · simp only [insertHot, List.mem_cons, List.mem_filter] at hp
        obtain rfl | hp := hp
        · exact hup.wrappedBlockLines_start hv (Nat.le_of_lt hlt)
        · exact hup.hot p (evictHot_subset hp.1) hlt

/-! ## parking -/

/-- A view that adopts a sidecar has its offsets in step. -/
theorem shaped_adoptSidecar (h : Shaped v) (blocks : List Block) :
    Shaped ((new R blocks : View Block Line).adoptSidecar v.intoSidecar) := by
  rw [adoptSidecar]
  split
  · exact shaped_new blocks
  · next hcounts =>
    rw [not_or, not_not, not_not] at hcounts
    exact ⟨h.starts, hcounts.2⟩

/-- **A sidecar that fits**: of a view with nothing stale, and each block as many lines as the one
that stood there. -/
theorem upToDate_adoptSidecar (hv : Shaped v) (h : UpToDate R v) (hclean : v.dirtyFrom = none)
    {blocks : List Block} (hheights : v.heights.length = blocks.length)
    (hcollapsed : v.collapsed.length = blocks.length)
    (hlines : ∀ b carry, { v with blocks }.measureBlock R b carry = v.measureBlock R b carry) :
    UpToDate R ((new R blocks : View Block Line).adoptSidecar v.intoSidecar) := by
  have hcounts : ¬(v.intoSidecar.heights.length ≠ (new R blocks : View Block Line).blocks.length ∨
      v.intoSidecar.collapsed.length ≠ (new R blocks : View Block Line).blocks.length) := by
    rw [not_or, not_not, not_not]
    exact ⟨hheights, hcollapsed⟩
  have hsame : v.measured R = { v with blocks }.measured R := by
    rw [measured, measured, ← hv.collapsed, hcollapsed]
    exact heightsFrom_congr_height (fun b _ _ carry => (hlines b carry).symm) false
  rw [adoptSidecar, if_neg hcounts]
  refine upToDate_of_measured (((h.heights_eq hclean).trans hsame).trans ?_) (by simp [new])
  symm
  apply measured_eq <;> rfl

end ClaudeReplay.Viewer.View
