import ClaudeReplay.Viewer.Upkeep

/-!
# ClaudeReplay.Viewer.Session

Whole runs of a viewer: what is done to a view in any order, layouts among it, and what is left
when the reader turns to another session and comes back.

A session that is left parks its view's geometry, and the view built on the way back adopts it if
it has as many blocks. The geometry is of the blocks and folds it was measured at, and nothing of
what was still stale is parked with it; so `Session.trusted` keeps count of whether the geometry
is of what the view shows. A run is `Sound` when no layout takes the geometry at its word where it
is not, and then every layout leaves the geometry as it must be (`Geometry`).
-/

namespace ClaudeReplay.Viewer

open Lib (offsets totals ownerOf)

/-- The view on screen, and the views that were left. -/
structure Session (Block Line : Type) where
  view : View Block Line
  /-- is the geometry of what the view shows, as far as it is not called stale? (kept for the
  proofs: no operation reads it) -/
  trusted : Prop := True
  parked : List (View Block Line × Prop) := []

/-- What is done to a view. -/
inductive Event (Block : Type)
  | layout (width height : Nat)
  | invalidateWrap
  | toggleBlock (b : Nat)
  | toggleAll
  | searchStart
  | searchInput (c : Char)
  | searchBackspace
  | searchConfirm
  | searchCancel
  | searchNext
  | searchPrev
  | scrollBy (delta : Int)
  | lineAt (i : Nat)
  | renderedLines (width : Nat)
  | update (blocks : List Block)
  | applyFrom (blocks : List Block) (d : Nat)
  | applyView (committedLen : Nat) (committed provisional : List Block) (changedFrom : Nat)
  /-- the view is parked, and one of these blocks is built, with the sidecar of one that was -/
  | reopen (blocks : List Block) (sidecar : Option Nat)

variable {Block Line : Type} (R : Render Block Line)

/-- A view's sidecar fits these blocks: nothing of it was stale, and each block renders to as many
lines as the one that stood there. -/
structure Fits (p : View Block Line) (blocks : List Block) : Prop where
  clean : p.dirtyFrom = none
  lines : ∀ b carry, { p with blocks }.measureBlock R b carry = p.measureBlock R b carry

namespace Session

/-- A view of a session, opened. -/
def start (blocks : List Block) : Session Block Line where
  view := View.new R blocks

variable [DecidableEq Block]

def step (s : Session Block Line) : Event Block → Session Block Line
  | .layout width height => { s with view := s.view.layout R width height, trusted := True }
  | .invalidateWrap =>
    { s with view := s.view.invalidateWrap, trusted := s.trusted ∧ s.view.width = 0 }
  | .toggleBlock b => { s with view := s.view.toggleBlock R b }
  | .toggleAll => { s with view := s.view.toggleAll R, trusted := True }
  | .searchStart => { s with view := s.view.searchStart }
  | .searchInput c => { s with view := s.view.searchInput R c }
  | .searchBackspace => { s with view := s.view.searchBackspace R }
  | .searchConfirm => { s with view := s.view.searchConfirm }
  | .searchCancel => { s with view := s.view.searchCancel R }
  | .searchNext => { s with view := s.view.searchNext R }
  | .searchPrev => { s with view := s.view.searchPrev R }
  | .scrollBy delta => { s with view := s.view.scrollBy delta }
  | .lineAt i => { s with view := (s.view.lineAt R i).1 }
  | .renderedLines width => { s with view := s.view.renderedLines width, trusted := True }
  | .update blocks => { s with view := s.view.update R blocks }
  | .applyFrom blocks d => { s with view := s.view.applyFrom R blocks d }
  | .applyView committedLen committed provisional changedFrom =>
    { s with view := s.view.applyView R committedLen committed provisional changedFrom }
  | .reopen blocks sidecar =>
    let parked := s.parked ++ [(s.view, s.trusted)]
    match sidecar.bind (parked[·]?) with
    | none => { view := View.new R blocks, trusted := True, parked }
    | some (p, trusted) =>
      { view := (View.new R blocks).adoptSidecar p.intoSidecar
        -- another number of blocks refuses the sidecar
        trusted := p.heights.length = blocks.length → p.collapsed.length = blocks.length →
          trusted ∧ Fits R p blocks
        parked }

def run (s : Session Block Line) (es : List (Event Block)) : Session Block Line :=
  es.foldl (step R) s

/-- What an operation may rely on: an update names a block before which nothing has changed, and
a layout does not take at its word a geometry that is not of what is shown. -/
def Allowed (s : Session Block Line) : Event Block → Prop
  | .layout width _ => s.trusted ∨ width ≠ s.view.width ∨ s.view.dirtyFrom = some 0
  | .applyFrom blocks d => View.Agree s.view.blocks blocks (min d s.view.blocks.length)
  | .applyView committedLen committed provisional changedFrom =>
    View.Agree s.view.blocks
      (s.view.blocks.take (min (committedLen - committed.length) s.view.blocks.length) ++
        committed ++ provisional) changedFrom
  | _ => True

/-- Every operation of the run is allowed where it is done. -/
def Sound (s : Session Block Line) : List (Event Block) → Prop
  | [] => True
  | e :: es => s.Allowed e ∧ Sound (s.step R e) es

end Session

/-! ## what a layout must leave -/

/-- **The geometry of a view.** Each block is as high as it renders to lines, the offsets are the
running sums, and a line is found of the block that it lies in. -/
structure Geometry (v : View Block Line) : Prop where
  count : v.heights.length = v.blocks.length
  heights : ∀ b < v.blocks.length, v.heights[b]? =
    some (v.wrappedBlockLines R b (decide (0 < (v.heights.take b).sum))).length
  starts : v.starts.length = v.blocks.length + 1 ∧
    ∀ b ≤ v.blocks.length, v.starts[b]? = some (v.heights.take b).sum
  /-- the lines of a block and the block of a line -/
  tagOf : ∀ line b, v.tagOf line = some b ↔
    ∃ start k, v.blockStart b = some start ∧ k < v.heights[b]?.getD 0 ∧ line = start + k
  /-- a line is drawn as its block renders it -/
  lineAt : ∀ line b, v.tagOf line = some b → (v.lineAt R line).2 =
    (v.wrappedBlockLines R b (decide (0 < (v.heights.take b).sum)))[
      line - (v.heights.take b).sum]?

namespace View

variable {R} {v : View Block Line}

/-- Lines are counted to the end of the last block. -/
theorem Shaped.totalWrapped_eq (h : Shaped v) : v.totalWrapped = v.heights.sum := by
  rw [totalWrapped, h.starts, Lib.getLast?_offsets, Option.getD_some]

/-- A line is of the block between whose offsets it lies. -/
theorem Shaped.tagOf_eq_some_iff (h : Shaped v) (line b : Nat) :
    v.tagOf line = some b ↔
      b < v.heights.length ∧ (v.heights.take b).sum ≤ line ∧
        line < (v.heights.take (b + 1)).sum := by
  rw [tagOf, h.totalWrapped_eq, h.starts]
  constructor
  · intro htag
    split at htag
    · next hlt => exact (Lib.ownerOf_eq_iff hlt b).mp (Option.some.inj htag)
    · nomatch htag
  · intro hin
    have hlt : line < v.heights.sum := by
      have hmono := @Lib.sum_take_mono v.heights (b + 1) v.heights.length hin.1
      rw [List.take_length] at hmono
      omega
    rw [if_pos hlt, (Lib.ownerOf_eq_iff hlt b).mpr hin]

theorem Shaped.blockStart_eq_some_iff (h : Shaped v) (b start : Nat) :
    v.blockStart b = some start ↔
      0 < v.heights[b]?.getD 0 ∧ start = (v.heights.take b).sum := by
  rw [blockStart]
  by_cases hpos : 0 < v.heights[b]?.getD 0
  · have hlt : b < v.heights.length := by
      by_contra hge
      rw [List.getElem?_eq_none (Nat.le_of_not_lt hge)] at hpos
      exact Nat.lt_irrefl 0 hpos
    rw [if_pos hpos, h.starts, Lib.getElem?_offsets _ (Nat.le_of_lt hlt), Option.some.injEq]
    constructor
    · exact fun heq => ⟨hpos, heq.symm⟩
    · exact fun heq => heq.2.symm
  · rw [if_neg hpos]
    constructor
    · exact fun hnone => nomatch hnone
    · exact fun heq => absurd heq.1 hpos

/-- **Of a line and its block**: the lines found of a block are those from its start on, as many
as it is high. -/
theorem Shaped.tagOf_iff_blockStart (h : Shaped v) (line b : Nat) :
    v.tagOf line = some b ↔
      ∃ start k, v.blockStart b = some start ∧ k < v.heights[b]?.getD 0 ∧ line = start + k := by
  rw [h.tagOf_eq_some_iff]
  constructor
  · rintro ⟨hb, hfrom, hto⟩
    rw [Lib.sum_take_succ hb] at hto
    refine ⟨(v.heights.take b).sum, line - (v.heights.take b).sum, ?_, by omega, by omega⟩
    exact (h.blockStart_eq_some_iff b _).mpr ⟨by omega, rfl⟩
  · rintro ⟨start, k, hstart, hk, rfl⟩
    obtain ⟨hpos, rfl⟩ := (h.blockStart_eq_some_iff b start).mp hstart
    have hb : b < v.heights.length := by
      by_contra hge
      rw [List.getElem?_eq_none (Nat.le_of_not_lt hge)] at hpos
      exact Nat.lt_irrefl 0 hpos
    rw [Lib.sum_take_succ hb]
    omega

/-- Nothing stale, so that the lines above a block are those measured. -/
theorem UpToDate.rendered_take (h : UpToDate R v) (hclean : v.dirtyFrom = none) (b : Nat) :
    v.rendered R b = v.wrappedBlockLines R b (decide (0 < (v.heights.take b).sum)) := by
  rw [rendered, carryIn, h.heights_eq hclean]

/-- The cache is asked first, and holds what the block renders to. -/
theorem UpToDate.lineAt_eq (hshaped : Shaped v) (h : UpToDate R v) (hclean : v.dirtyFrom = none)
    {line b : Nat} (htag : v.tagOf line = some b) :
    (v.lineAt R line).2 = (v.rendered R b)[line - (v.heights.take b).sum]? := by
  obtain ⟨hb, _, _⟩ := (hshaped.tagOf_eq_some_iff line b).mp htag
  have hsettled : v.settled = v.heights.length := by
    rw [settled, hclean, Option.getD_none, Nat.min_self]
  have hstart : v.starts[b]?.getD 0 = (v.heights.take b).sum := by
    rw [hshaped.starts, Lib.getElem?_offsets _ (Nat.le_of_lt hb), Option.getD_some]
  rw [lineAt, htag]
  simp only [hstart]
  cases hhot : v.hotLines b with
  | some lines =>
    rw [Option.isSome_some, if_pos rfl, hhot]
    -- what the cache holds was rendered for this geometry
    rw [hotLines, Option.map_eq_some_iff] at hhot
    obtain ⟨p, hfind, rfl⟩ := hhot
    obtain rfl : p.1 = b := by simpa using List.find?_some hfind
    rw [Option.bind_some, h.hot p (List.mem_of_find?_eq_some hfind) (by omega)]
  | none =>
    rw [Option.isSome_none, if_neg Bool.false_ne_true]
    have hlines := h.wrappedBlockLines_start hshaped (b := b) (by omega)
    rw [hstart] at hlines
    rw [hotLines, insertHot, List.find?_cons_of_pos (by simp), Option.map_some, Option.bind_some,
      hlines]

/-- A view in step with nothing stale has the geometry it must. -/
theorem UpToDate.geometry (hshaped : Shaped v) (h : UpToDate R v) (hclean : v.dirtyFrom = none) :
    Geometry R v := by
  have hcount := h.whole hclean
  constructor
  · exact hcount
  · intro b hb
    rw [← h.rendered_take hclean, h.heights_eq hclean]
    exact getElem?_measured hb
  · constructor
    · rw [hshaped.starts, Lib.length_offsets, hcount]
    · intro b hb
      rw [hshaped.starts, Lib.getElem?_offsets _ (by omega)]
  · exact hshaped.tagOf_iff_blockStart
  · intro line b htag
    rw [h.lineAt_eq hshaped hclean htag, h.rendered_take hclean]

end View

/-! ## every run -/

namespace Session

variable {R}

/-- A view that may be relied on where it is trusted. -/
structure Sane (R : Render Block Line) (v : View Block Line) (trusted : Prop) : Prop where
  shaped : View.Shaped v
  upToDate : trusted → View.UpToDate R v

theorem Sane.keeps {v w : View Block Line} {trusted : Prop} (h : Sane R v trusted)
    (hkeeps : View.Keeps R v w) : Sane R w trusted where
  shaped := hkeeps.shaped h.shaped
  upToDate := fun ht => hkeeps.upToDate h.shaped (h.upToDate ht)

theorem sane_new (blocks : List Block) : Sane R (View.new R blocks : View Block Line) True where
  shaped := View.shaped_new blocks
  upToDate := fun _ => View.upToDate_of_top rfl

/-- What is called stale from the top is trusted. -/
theorem Sane.top {v w : View Block Line} {trusted : Prop} (h : Sane R v trusted)
    (hw : View.Shaped v → View.Shaped w) (htop : w.dirtyFrom = some 0) : Sane R w True where
  shaped := hw h.shaped
  upToDate := fun _ => View.upToDate_of_top htop

/-- **A layout** of a view that is trusted, or whose geometry is not asked. -/
theorem Sane.layout {v : View Block Line} {trusted : Prop} {width : Nat} (height : Nat)
    (h : Sane R v trusted) (hallowed : trusted ∨ width ≠ v.width ∨ v.dirtyFrom = some 0) :
    Sane R (v.layout R width height) True ∧ (v.layout R width height).dirtyFrom = none := by
  have hup : width = v.width → View.UpToDate R v := by
    intro hwidth
    obtain ht | hother | htop := hallowed
    · exact h.upToDate ht
    · exact absurd hwidth hother
    · exact View.upToDate_of_top htop
  obtain ⟨hshaped, hlaid, hclean, _⟩ := View.UpToDate.layout h.shaped height hup
  exact ⟨⟨hshaped, fun _ => hlaid⟩, hclean⟩

/-- The sidecar's view: in step, and as trusted as it was if it fits. -/
theorem Sane.adopt {p : View Block Line} {trusted : Prop} (h : Sane R p trusted)
    (blocks : List Block) :
    Sane R ((View.new R blocks).adoptSidecar p.intoSidecar)
      (p.heights.length = blocks.length → p.collapsed.length = blocks.length →
        trusted ∧ Fits R p blocks) := by
  refine ⟨View.shaped_adoptSidecar h.shaped blocks, fun hfits => ?_⟩
  by_cases hcounts : p.heights.length = blocks.length ∧ p.collapsed.length = blocks.length
  · obtain ⟨ht, hfit⟩ := hfits hcounts.1 hcounts.2
    exact View.upToDate_adoptSidecar h.shaped (h.upToDate ht) hfit.clean hcounts.1 hcounts.2
      hfit.lines
  · have hrefused : (View.new R blocks).adoptSidecar p.intoSidecar =
        (View.new R blocks : View Block Line) := by
      rw [View.adoptSidecar, if_pos]
      by_contra hnot
      rw [not_or, not_not, not_not] at hnot
      exact hcounts hnot
    rw [hrefused]
    exact View.upToDate_of_top rfl

/-- The view on screen and all that were left are so. -/
structure Inv (R : Render Block Line) (s : Session Block Line) : Prop where
  view : Sane R s.view s.trusted
  parked : ∀ p ∈ s.parked, Sane R p.1 p.2

theorem inv_start (blocks : List Block) : Inv R (start R blocks : Session Block Line) where
  view := sane_new blocks
  parked := fun _ hp => nomatch hp

variable [DecidableEq Block] {s : Session Block Line}

/-- **A step.** -/
theorem Inv.step (h : Inv R s) {e : Event Block} (hallowed : s.Allowed e) : Inv R (s.step R e) := by
  cases e with
  | layout width height => exact ⟨(h.view.layout height hallowed).1, h.parked⟩
  | invalidateWrap =>
    refine ⟨⟨⟨h.view.shaped.starts, h.view.shaped.collapsed⟩, fun ht => ?_⟩, h.parked⟩
    have hsame : View.SameGeometry s.view s.view.invalidateWrap := by
      constructor <;> first | rfl | exact ht.2.symm
    exact hsame.upToDate (h.view.upToDate ht.1)
  | toggleBlock b => exact ⟨h.view.keeps (View.keeps_toggleBlock b), h.parked⟩
  | toggleAll => exact ⟨h.view.top View.shaped_toggleAll rfl, h.parked⟩
  | searchStart =>
    refine ⟨h.view.keeps (View.SameGeometry.keeps ?_), h.parked⟩
    constructor <;> rfl
  | searchInput c => exact ⟨h.view.keeps (View.keeps_searchInput c), h.parked⟩
  | searchBackspace => exact ⟨h.view.keeps View.keeps_searchBackspace, h.parked⟩
  | searchConfirm => exact ⟨h.view.keeps View.sameGeometry_searchConfirm.keeps, h.parked⟩
  | searchCancel => exact ⟨h.view.keeps View.keeps_searchCancel, h.parked⟩
  | searchNext => exact ⟨h.view.keeps View.keeps_searchNext, h.parked⟩
  | searchPrev => exact ⟨h.view.keeps View.keeps_searchPrev, h.parked⟩
  | scrollBy delta =>
    refine ⟨h.view.keeps (View.SameGeometry.keeps ?_), h.parked⟩
    constructor <;> rfl
  | lineAt i => exact ⟨h.view.keeps (View.keeps_lineAt i), h.parked⟩
  | renderedLines width =>
    exact ⟨h.view.top (fun hv => ⟨hv.starts, hv.collapsed⟩) rfl, h.parked⟩
  | update blocks => exact ⟨h.view.keeps (View.keeps_update blocks), h.parked⟩
  | applyFrom blocks d => exact ⟨h.view.keeps (View.keeps_applyFrom hallowed), h.parked⟩
  | applyView committedLen committed provisional changedFrom =>
    exact ⟨h.view.keeps (View.keeps_applyView hallowed), h.parked⟩
  | reopen blocks sidecar =>
    have hparked : ∀ p ∈ s.parked ++ [(s.view, s.trusted)], Sane R p.1 p.2 := by
      intro p hp
      obtain hp | hp := List.mem_append.mp hp
      · exact h.parked p hp
      · rw [List.mem_singleton.mp hp]
        exact h.view
    simp only [Session.step]
    cases hfrom : sidecar.bind ((s.parked ++ [(s.view, s.trusted)])[·]?) with
    | none => exact ⟨sane_new blocks, hparked⟩
    | some p =>
      obtain ⟨i, _, hi⟩ := Option.bind_eq_some_iff.mp hfrom
      exact ⟨(hparked p (List.mem_of_getElem? hi)).adopt blocks, hparked⟩

/-- **A run.** -/
theorem Inv.run (h : Inv R s) {es : List (Event Block)} (hsound : Sound R s es) :
    Inv R (s.run R es) := by
  induction es generalizing s with
  | nil => exact h
  | cons e es ih => exact ih (h.step hsound.1) hsound.2

theorem sound_append {es es' : List (Event Block)} (h : Sound R s (es ++ es')) :
    Sound R s es ∧ Sound R (s.run R es) es' := by
  induction es generalizing s with
  | nil => exact ⟨trivial, h⟩
  | cons e es ih => exact ⟨⟨h.1, (ih h.2).1⟩, (ih h.2).2⟩

/-- **The geometry after a layout.** Whatever was done to the views of a session in a run that
never takes a geometry at its word where it is not of what is shown: after each layout every block
is as high as it renders to lines, the offsets are the running sums, and the lines of a block and
the block of a line are inverse to each other. -/
theorem run_layout_geometry (blocks : List Block) (es : List (Event Block)) (width height : Nat)
    (hsound : Sound R (start R blocks : Session Block Line) (es ++ [.layout width height])) :
    Geometry R ((start R blocks : Session Block Line).run R
      (es ++ [.layout width height])).view := by
  obtain ⟨hrun, hlast⟩ := sound_append hsound
  have hlaid := (((inv_start blocks).run hrun).view).layout height hlast.1
  have hview : ((start R blocks : Session Block Line).run R (es ++ [.layout width height])).view =
      ((start R blocks : Session Block Line).run R es).view.layout R width height := by
    rw [Session.run, List.foldl_append]
    rfl
  rw [hview]
  exact (hlaid.1.upToDate trivial).geometry hlaid.1.shaped hlaid.2

/-- Paragraphs of so many characters: a line of each where it is folded, and a blank line above
each but the first. -/
def paragraphs : Render Nat String where
  lines n folded width carry :=
    List.replicate ((if folded then 1 else (n + width - 1) / width) + carry.toNat) "line"
  foldable n := decide (100 < n)
  collapses n := decide (200 < n)
  occurrences := fun _ => none

/-- A block is unfolded, one is added, the session is left and come back to, and the terminal is
made narrower. -/
theorem run_layout_geometry_back :
    Geometry paragraphs ((start paragraphs [120, 30]).run paragraphs
      ([.layout 80 24, .toggleBlock 0, .applyFrom [120, 30, 250] 2, .layout 80 24,
        .reopen [5] none, .layout 80 24, .reopen [120, 30, 250] (some 0)] ++
          [.layout 40 24])).view :=
  run_layout_geometry [120, 30] _ 40 24
    ⟨Or.inl trivial, trivial, rfl, Or.inl trivial, trivial, Or.inl trivial, trivial,
      Or.inl fun _ _ => ⟨trivial, rfl, fun _ _ => rfl⟩, trivial⟩

/-- The session is left with a call in its last block, whose output is there when it is come back
to: as many blocks, and the block is still as high as the call. So too where the output came
before the session was left, and had not been laid out. -/
theorem run_layout_geometry_away :
    ¬Geometry paragraphs ((start paragraphs [30, 10]).run paragraphs
      [.layout 80 24, .reopen [30, 190] (some 0), .layout 80 24]).view ∧
    ¬Geometry paragraphs ((start paragraphs [30, 10]).run paragraphs
      [.layout 80 24, .update [30, 190], .reopen [30, 190] (some 0), .layout 80 24]).view :=
  ⟨fun h => absurd (h.heights 1 (by decide)) (by decide),
    fun h => absurd (h.heights 1 (by decide)) (by decide)⟩

end Session

end ClaudeReplay.Viewer
