import ClaudeReplay.Lib.Offsets

/-!
# ClaudeReplay.Viewer.View

The terminal's view of a session: its blocks, what is folded, and the geometry its scrolling
rests on, the height of every block and the running sums of the heights.

The geometry is kept, not recomputed. A fold toggle measures one block and moves the offsets
behind it; a live update, a search that opens a fold and a change of policy say from where it is
stale (`dirtyFrom`), and `layout` measures from there, or everything at another width. When a
view is dropped its geometry can be parked as a sidecar, and a view built later of as many blocks
adopts it. How a block is drawn is a parameter (`Render`).
-/

namespace ClaudeReplay.Viewer

open Lib (offsets totals ownerOf)

/-- How blocks are drawn, folded and searched. -/
structure Render (Block Line : Type) where
  /-- a block's wrapped lines, folded or not, at a width; whether a line stands above it -/
  lines : Block → (folded : Bool) → (width : Nat) → (carry : Bool) → List Line
  foldable : Block → Bool
  /-- the default fold policy -/
  collapses : Block → Bool
  /-- how often a query occurs in a block; nothing to look for in an empty one -/
  occurrences : List Char → Option (Block → Nat)

/-- A view, as far as its geometry goes. -/
structure View (Block Line : Type) where
  blocks : List Block
  collapsed : List Bool
  /-- explicit fold gestures -/
  userFolds : Nat → Option Bool := fun _ => none
  /-- the first block whose geometry is stale -/
  dirtyFrom : Option Nat := some 0
  heights : List Nat := []
  /-- where each block starts -/
  starts : List Nat := [0]
  /-- rendered lines of the blocks near the viewport -/
  hot : List (Nat × List Line) := []
  width : Nat := 0
  viewH : Nat := 0
  scroll : Nat := 0
  follow : Bool := true
  newCount : Nat := 0
  query : List Char := []
  searching : Bool := false
  matches_ : List Nat := []
  found : Nat := 0
  /-- the hit block a search has opened -/
  peeked : Option Nat := none
  matchPos : Nat := 0
  searchOrigin : Nat := 0

/-- What outlives a dropped view. -/
structure ViewSidecar where
  width : Nat
  heights : List Nat
  starts : List Nat
  collapsed : List Bool
  userFolds : Nat → Option Bool
  scroll : Nat
  follow : Bool

namespace View

variable {Block Line : Type} (R : Render Block Line)

/-- `new_shared` -/
def new (blocks : List Block) : View Block Line where
  blocks := blocks
  collapsed := blocks.map R.collapses

/-! ## measuring -/

/-- Is the block drawn folded? -/
def isCollapsed (v : View Block Line) (b : Nat) : Bool :=
  v.collapsed[b]?.getD false && v.blocks[b]?.any R.foldable

/-- `wrapped_block_lines` -/
def wrappedBlockLines (v : View Block Line) (b : Nat) (carry : Bool) : List Line :=
  match v.blocks[b]? with
  | some block => R.lines block (v.isCollapsed R b) v.width carry
  | none => []

/-- `measure_block` -/
def measureBlock (v : View Block Line) (b : Nat) (carry : Bool) : Nat :=
  (v.wrappedBlockLines R b carry).length

/-- The heights of `n` blocks from `b` on: one by one until a line stands above, and the rest at
once. -/
def measureRun (v : View Block Line) (carry : Bool) (b : Nat) : Nat → List Nat
  | 0 => []
  | n + 1 =>
    if carry then (List.range' b (n + 1)).map fun b => v.measureBlock R b true
    else
      let h := v.measureBlock R b carry
      h :: v.measureRun (carry || 0 < h) (b + 1) n

/-- `measure_from` -/
def measureFrom (v : View Block Line) (d : Nat) : View Block Line :=
  let d := min (min d v.blocks.length) v.heights.length
  let total := v.starts[d]?.getD 0
  let measured := v.measureRun R (0 < total) d (v.blocks.length - d)
  { v with
    heights := v.heights.take d ++ measured
    starts := v.starts.take (d + 1) ++ totals total measured
    hot := v.hot.filter (·.1 < d) }

/-- `total_wrapped` -/
def totalWrapped (v : View Block Line) : Nat := v.starts.getLast?.getD 0

/-- `tag_of`: the block a line is of. -/
def tagOf (v : View Block Line) (line : Nat) : Option Nat :=
  if line < v.totalWrapped then some (ownerOf v.starts line) else none

/-- `block_start`: the block's first line, if it has one. -/
def blockStart (v : View Block Line) (b : Nat) : Option Nat :=
  if 0 < v.heights[b]?.getD 0 then v.starts[b]? else none

/-- `max_scroll` -/
def maxScroll (v : View Block Line) : Nat := v.totalWrapped - v.viewH

/-- `evict_hot`: past its bound the cache keeps what is near the viewport. -/
def evictHot (v : View Block Line) : View Block Line :=
  if v.hot.length < 96 then v
  else
    let total := v.totalWrapped
    let lo := (v.tagOf (min v.scroll (total - 1))).getD 0 - 8
    let hi := (v.tagOf (min (v.scroll + v.viewH) (total - 1))).map (· + 8)
    { v with hot := v.hot.filter fun p => lo ≤ p.1 && hi.all (p.1 ≤ ·) }

/-- What the cache holds of a block. -/
def hotLines (v : View Block Line) (b : Nat) : Option (List Line) :=
  (v.hot.find? (·.1 = b)).map (·.2)

/-- `hot.insert` -/
def insertHot (v : View Block Line) (b : Nat) (lines : List Line) : View Block Line :=
  { v with hot := (b, lines) :: v.hot.filter (·.1 ≠ b) }

/-- `line_at`: a line, rendered through the cache. -/
def lineAt (v : View Block Line) (i : Nat) : View Block Line × Option Line :=
  match v.tagOf i with
  | none => (v, none)
  | some b =>
    let start := v.starts[b]?.getD 0
    let v :=
      if (v.hotLines b).isSome then v
      else v.evictHot.insertHot b (v.wrappedBlockLines R b (0 < start))
    (v, (v.hotLines b).bind (·[i - start]?))

/-- The geometry is stale from `b` on, too. -/
def dirty (v : View Block Line) (b : Nat) : View Block Line :=
  { v with dirtyFrom := some ((v.dirtyFrom.map (min · b)).getD b) }

/-- `remeasure_block`: one block anew, in place; everything from it on if it comes to show a line
or shows none any more. -/
def remeasureBlock (v : View Block Line) (b : Nat) : View Block Line :=
  match v.heights[b]? with
  | none => v.dirty b
  | some old =>
    let wrapped := v.wrappedBlockLines R b (0 < v.starts[b]?.getD 0)
    let new := wrapped.length
    if (old == 0) ≠ (new == 0) then v.measureFrom R b
    else
      { v.insertHot b wrapped with
        heights := v.heights.set b new
        starts := v.starts.take (b + 1) ++ (v.starts.drop (b + 1)).map fun p => p + new - old }

/-! ## searching -/

/-- `recompute_matches` -/
def recomputeMatches (v : View Block Line) : View Block Line :=
  match R.occurrences v.query with
  | none => { v with matches_ := [], found := 0 }
  | some occurrences =>
    let hits := (List.range v.blocks.length).filter fun b =>
      decide (0 < (v.blocks[b]?.map occurrences).getD 0)
    { v with
      matches_ := hits
      found := (v.blocks.map occurrences).sum
      matchPos := if hits.length ≤ v.matchPos then 0 else v.matchPos }

/-- `unpeek`: close what a search has opened, unless the reader has touched it. -/
def unpeek (v : View Block Line) : View Block Line :=
  match v.peeked with
  | none => v
  | some p =>
    let v := { v with peeked := none }
    if v.userFolds p = none ∧ p < v.collapsed.length ∧ v.blocks[p]?.any R.foldable = true then
      { v with collapsed := v.collapsed.set p true }.dirty p
    else v

/-- Open the hit block if it is folded. -/
def peek (v : View Block Line) (b : Nat) : View Block Line :=
  if v.isCollapsed R b then
    { v with collapsed := v.collapsed.set b false, peeked := some b }.dirty b
  else v

/-- Scroll to the block, unless it starts on screen. -/
def scrollTo (v : View Block Line) (b : Nat) : View Block Line :=
  match v.starts[b]? with
  | none => v
  | some line =>
    { v with
      scroll := if v.scroll ≤ line ∧ line < v.scroll + v.viewH then v.scroll
        else min line v.maxScroll
      follow := false }

/-- `jump_to_current_match` -/
def jumpToCurrentMatch (v : View Block Line) : View Block Line :=
  let v := v.unpeek R
  match v.matches_[v.matchPos]? with
  | none => v
  | some b => (v.peek R b).scrollTo b

/-- How many hits start above a line. -/
def matchesAbove (v : View Block Line) (line : Nat) : Nat :=
  (v.matches_.takeWhile fun b => v.starts[b]?.getD 0 < line).length

/-- `first_match_from` -/
def firstMatchFrom (v : View Block Line) (origin : Nat) : Nat :=
  if v.matchesAbove origin = v.matches_.length then 0 else v.matchesAbove origin

/-- `last_match_before` -/
def lastMatchBefore (v : View Block Line) (limit : Nat) : Nat :=
  if v.matchesAbove limit = 0 then v.matches_.length - 1 else v.matchesAbove limit - 1

/-- `current_match_on_screen` -/
def currentMatchOnScreen (v : View Block Line) : Bool :=
  match v.matches_[v.matchPos]? with
  | none => false
  | some b =>
    let top := v.starts[b]?.getD 0
    top < v.scroll + v.viewH && v.scroll < top + v.heights[b]?.getD 0

def searchStart (v : View Block Line) : View Block Line :=
  { v with searching := true, query := [], matches_ := [], matchPos := 0, searchOrigin := v.scroll }

def searchInput (v : View Block Line) (c : Char) : View Block Line :=
  let v := { v with query := v.query ++ [c] }.recomputeMatches R
  { v with matchPos := v.firstMatchFrom v.searchOrigin }.jumpToCurrentMatch R

def searchBackspace (v : View Block Line) : View Block Line :=
  let v := { v with query := v.query.dropLast }.recomputeMatches R
  { v with matchPos := v.firstMatchFrom v.searchOrigin }

/-- `search_confirm`: what was opened stays open. -/
def searchConfirm (v : View Block Line) : View Block Line :=
  let v := { v with searching := false }
  match v.peeked with
  | none => v
  | some p =>
    { v with peeked := none, userFolds := fun b => if b = p then some false else v.userFolds b }

def searchCancel (v : View Block Line) : View Block Line :=
  { v.unpeek R with searching := false, query := [], matches_ := [], found := 0 }

def searchNext (v : View Block Line) : View Block Line :=
  if v.matches_ = [] then v
  else
    { v with
      matchPos := if v.currentMatchOnScreen then (v.matchPos + 1) % v.matches_.length
        else v.firstMatchFrom v.scroll }.jumpToCurrentMatch R

def searchPrev (v : View Block Line) : View Block Line :=
  if v.matches_ = [] then v
  else
    { v with
      matchPos := if v.currentMatchOnScreen then
          (v.matchPos + v.matches_.length - 1) % v.matches_.length
        else v.lastMatchBefore (v.scroll + v.viewH) }.jumpToCurrentMatch R

/-! ## laying out -/

/-- `invalidate_wrap`: nought is the width that is never the terminal's. -/
def invalidateWrap (v : View Block Line) : View Block Line := { v with width := 0 }

/-- `layout` -/
def layout (v : View Block Line) (width height : Nat) : View Block Line :=
  let v := { v with viewH := height - 1 }
  let measured :=
    if width ≠ v.width then
      (({ v with width, dirtyFrom := none, hot := [] }.measureFrom R 0).recomputeMatches R)
    else
      match v.dirtyFrom with
      | some d => ({ v with dirtyFrom := none }.measureFrom R d).recomputeMatches R
      | none => v
  let scroll := if measured.follow then measured.maxScroll else measured.scroll
  { measured with scroll := min scroll measured.maxScroll }

/-- `scroll_by` -/
def scrollBy (v : View Block Line) (delta : Int) : View Block Line :=
  let scroll := if 0 ≤ delta then min (v.scroll + delta.toNat) v.maxScroll
    else v.scroll - (-delta).toNat
  { v with
    scroll
    follow := decide (v.maxScroll ≤ scroll)
    newCount := if v.maxScroll ≤ scroll then 0 else v.newCount }

/-- `rendered_lines`, as far as it changes the view: the dump draws at a width of its own. -/
def renderedLines (v : View Block Line) (width : Nat) : View Block Line :=
  { v with width, dirtyFrom := some 0 }

/-! ## folding -/

/-- `toggle_block` -/
def toggleBlock (v : View Block Line) (b : Nat) : View Block Line :=
  if v.blocks[b]?.any R.foldable then
    let v :=
      match v.collapsed[b]? with
      | some c =>
        { v with
          collapsed := v.collapsed.set b (!c)
          userFolds := fun i => if i = b then some !c else v.userFolds i }
      | none => v
    v.remeasureBlock R b
  else v

/-- `toggle_all` -/
def toggleAll (v : View Block Line) : View Block Line :=
  let anyExpanded := (List.range v.blocks.length).any fun b =>
    v.blocks[b]?.any R.foldable && !v.collapsed[b]?.getD false
  { v with
    collapsed := v.collapsed.mapIdx fun b c =>
      if v.blocks[b]?.any R.foldable then anyExpanded else c
    userFolds := fun b =>
      if v.blocks[b]?.any R.foldable then some anyExpanded else v.userFolds b
    dirtyFrom := some 0 }.invalidateWrap

/-! ## live updates -/

/-- `post_splice`: fold the changed tail by policy, and as the reader folded it. -/
def postSplice (v : View Block Line) (d : Nat) : View Block Line :=
  let d := min d v.blocks.length
  let collapsed := v.collapsed.take d ++ (v.blocks.drop d).map R.collapses
  let overlaid := collapsed.mapIdx fun b c =>
    if d ≤ b ∧ v.blocks[b]?.any R.foldable = true then (v.userFolds b).getD c else c
  { v with collapsed := overlaid }.dirty d

/-- `apply_from` -/
def applyFrom (v : View Block Line) (blocks : List Block) (d : Nat) : View Block Line :=
  let d := min (min d v.blocks.length) blocks.length
  { v with
    newCount := if v.follow then v.newCount else v.newCount + (blocks.length - v.blocks.length)
    blocks }.postSplice R d

/-- `update`: from the first block that differs. -/
def update [DecidableEq Block] (v : View Block Line) (blocks : List Block) : View Block Line :=
  v.applyFrom R blocks ((v.blocks.zip blocks).takeWhile fun p => p.1 = p.2).length

/-- `apply_view`: what was committed since, and the open turn. -/
def applyView (v : View Block Line) (committedLen : Nat) (committed provisional : List Block)
    (changedFrom : Nat) : View Block Line :=
  let kept := min (committedLen - committed.length) v.blocks.length
  let joined := committedLen + provisional.length
  { v with
    newCount := if v.follow then v.newCount else v.newCount + (joined - v.blocks.length)
    blocks := v.blocks.take kept ++ committed ++ provisional }.postSplice R changedFrom

/-! ## parking -/

/-- `into_sidecar` -/
def intoSidecar (v : View Block Line) : ViewSidecar where
  width := v.width
  heights := v.heights
  starts := v.starts
  collapsed := v.collapsed
  userFolds := v.userFolds
  scroll := v.scroll
  follow := v.follow

/-- `adopt_sidecar`: taken if it is of as many blocks. -/
def adoptSidecar (v : View Block Line) (sc : ViewSidecar) : View Block Line :=
  if sc.heights.length ≠ v.blocks.length ∨ sc.collapsed.length ≠ v.blocks.length then v
  else
    { v with
      width := sc.width
      heights := sc.heights
      starts := sc.starts
      collapsed := sc.collapsed
      userFolds := sc.userFolds
      scroll := sc.scroll
      follow := sc.follow
      dirtyFrom := none }

end View

end ClaudeReplay.Viewer
