import ClaudeReplay.Lib.Squeeze
import ClaudeReplay.Viewer.Wrap

/-!
# ClaudeReplay.Viewer.Assemble

The bodies of the blocks, put together: a blank line after each that ends in none, and never two
blank lines in a row.

`assemble` does it in one pass over the whole document. The viewer draws only what is in sight, so
it asks one block for its share (`assembleOne`), and tells it one thing of what stands above:
whether any earlier block drew a line. That is enough, because what an earlier block drew ends
with a blank line.
-/

namespace ClaudeReplay.Viewer

open Lib (squeeze carryOut)

variable {Color : Type} (W : Widths)

/-- A line that takes no column: `l.width() == 0`. -/
def isBlank (l : Line Color) : Bool := W.textWidth l.text = 0

/-- `Line::from("")` -/
def separator : Line Color := { spans := [] }

@[simp] theorem isBlank_separator : isBlank W (separator : Line Color) = true := by
  simp [isBlank, separator, Line.text, Widths.textWidth]

/-- Lines, each with the block it is of. -/
structure Rendered (Color : Type) where
  lines : List (Line Color)
  blockOf : List Nat

def Rendered.ofTagged (tagged : List (Line Color × Nat)) : Rendered Color where
  lines := tagged.map (·.1)
  blockOf := tagged.map (·.2)

/-- Do the lines end in one that is not blank? -/
def endsInText (lines : List (Line Color)) : Bool := lines.getLast?.any (!isBlank W ·)

/-- The lines so far, with those of a block more. -/
def pushBody (tagged : List (Line Color × Nat)) (block : List (Line Color) × Nat) :
    List (Line Color × Nat) :=
  let tagged := tagged ++ block.1.map (·, block.2)
  if endsInText W (tagged.map (·.1)) then tagged ++ [(separator, block.2)] else tagged

/-- `assemble` -/
def assemble (bodies : List (List (Line Color))) : Rendered Color :=
  .ofTagged (squeeze (isBlank W ·.1) false (bodies.zipIdx.foldl (pushBody W) []))

/-- A body and the blank line that parts it from the next. -/
def separated (body : List (Line Color)) : List (Line Color) :=
  if endsInText W body then body ++ [separator] else body

/-- `assemble_one` -/
def assembleOne (body : List (Line Color)) (carryIn : Bool) : List (Line Color) :=
  squeeze (isBlank W) carryIn (separated W body)

/-- A block more, drawn by itself: `carry` is whether an earlier block drew a line. -/
def Rendered.pushOne (s : Bool × Rendered Color) (block : List (Line Color) × Nat) :
    Bool × Rendered Color :=
  let part := assembleOne W block.1 s.1
  (s.1 || !part.isEmpty,
    { lines := s.2.lines ++ part
      blockOf := s.2.blockOf ++ List.replicate part.length block.2 })

/-- The document, a block at a time. -/
def assembleEach (bodies : List (List (Line Color))) : Rendered Color :=
  (bodies.zipIdx.foldl (Rendered.pushOne W) (false, ⟨[], []⟩)).2

/-! ## a body ends in a blank line -/

@[simp] theorem endsInText_nil : endsInText W ([] : List (Line Color)) = false := rfl

@[simp] theorem endsInText_append (xs ys : List (Line Color)) (h : ys ≠ []) :
    endsInText W (xs ++ ys) = endsInText W ys := by
  obtain ⟨front, last, rfl⟩ := (List.eq_nil_or_concat ys).resolve_left h
  simp [endsInText]

theorem endsInText_separated (body : List (Line Color)) :
    endsInText W (separated W body) = false := by
  unfold separated
  split
  case isTrue => simp [endsInText]
  case isFalse h => simpa using h

theorem separated_eq_nil_iff {body : List (Line Color)} : separated W body = [] ↔ body = [] := by
  constructor
  · intro h
    unfold separated at h
    split at h
    · exact (List.append_ne_nil_of_right_ne_nil _ (List.cons_ne_nil _ _) h).elim
    · exact h
  · rintro rfl
    rfl

theorem carryOut_separated (carry : Bool) {body : List (Line Color)} (h : body ≠ []) :
    carryOut (isBlank W) carry (separated W body) = true := by
  have hne := mt (separated_eq_nil_iff W).mp h
  have hends := endsInText_separated W body
  obtain ⟨front, last, hlast⟩ := (List.eq_nil_or_concat (separated W body)).resolve_left hne
  simpa [hlast, endsInText, carryOut] using hends

/-- The bit after a block is whether it, or one before it, drew a line. -/
theorem carryOut_eq (carry : Bool) (body : List (Line Color)) :
    carryOut (isBlank W) carry (separated W body) =
      (carry || !(assembleOne W body carry).isEmpty) := by
  by_cases hbody : body = []
  · subst hbody
    simp [separated, assembleOne, squeeze]
  · rw [carryOut_separated W carry hbody]
    cases carry with
    | true => rfl
    | false =>
      have hdrawn : assembleOne W body false ≠ [] :=
        Lib.squeeze_ne_nil _ (mt (separated_eq_nil_iff W).mp hbody)
      simp [hdrawn]

/-! ## the flat pass, block by block -/

/-- The lines of a block and the one that parts it from the next, with the block's number. -/
def share (block : List (Line Color) × Nat) : List (Line Color × Nat) :=
  (separated W block.1).map (·, block.2)

/-- What stands so far ends in a blank line, so a block looks at its own last line only. -/
theorem pushBody_eq {tagged : List (Line Color × Nat)} (block : List (Line Color) × Nat)
    (h : endsInText W (tagged.map (·.1)) = false) :
    pushBody W tagged block = tagged ++ share W block := by
  obtain ⟨body, i⟩ := block
  by_cases hbody : body = []
  · subst hbody
    simp [pushBody, h, share, separated]
  · simp only [pushBody, share, separated, List.map_append, List.map_map,
      Function.comp_def, List.map_id']
    rw [endsInText_append W _ _ hbody]
    split <;> simp

theorem endsInText_share {tagged : List (Line Color × Nat)} (block : List (Line Color) × Nat)
    (h : endsInText W (tagged.map (·.1)) = false) :
    endsInText W ((tagged ++ share W block).map (·.1)) = false := by
  have hshare : (share W block).map (·.1) = separated W block.1 := by
    simp [share, Function.comp_def]
  rw [List.map_append, hshare]
  by_cases hbody : block.1 = []
  · simp [hbody, (separated_eq_nil_iff W).mpr, h]
  · rw [endsInText_append W _ _ (mt (separated_eq_nil_iff W).mp hbody)]
    exact endsInText_separated W block.1

/-- Before blanks are squeezed, the document is the shares of its blocks. -/
theorem foldl_pushBody {tagged : List (Line Color × Nat)}
    (h : endsInText W (tagged.map (·.1)) = false) (blocks : List (List (Line Color) × Nat)) :
    blocks.foldl (pushBody W) tagged = tagged ++ blocks.flatMap (share W) := by
  induction blocks generalizing tagged with
  | nil => simp
  | cons block blocks ih =>
    rw [List.foldl_cons, pushBody_eq W block h, ih (endsInText_share W block h),
      List.flatMap_cons, List.append_assoc]

/-! ## the windowed pass -/

/-- A block's share, squeezed behind the bit, is what it draws by itself. -/
theorem squeeze_share (carry : Bool) (block : List (Line Color) × Nat) :
    squeeze (isBlank W ·.1) carry (share W block) =
      (assembleOne W block.1 carry).map (·, block.2) := by
  rw [share, Lib.squeeze_map]
  rfl

theorem carryOut_share (carry : Bool) (block : List (Line Color) × Nat) :
    carryOut (isBlank W ·.1) carry (share W block) =
      (carry || !(assembleOne W block.1 carry).isEmpty) := by
  rw [← carryOut_eq, carryOut, carryOut, share, List.getLast?_map, Option.map_map]
  rfl

/-- What the blocks draw by themselves is the squeezed document, whatever stands above. -/
theorem foldl_pushOne (carry : Bool) (above : List (Line Color × Nat))
    (blocks : List (List (Line Color) × Nat)) :
    (blocks.foldl (Rendered.pushOne W) (carry, .ofTagged above)).2 =
      .ofTagged (above ++ squeeze (isBlank W ·.1) carry (blocks.flatMap (share W))) := by
  induction blocks generalizing carry above with
  | nil => simp [squeeze]
  | cons block blocks ih =>
    have hpush : Rendered.pushOne W (carry, .ofTagged above) block =
        (carry || !(assembleOne W block.1 carry).isEmpty,
          .ofTagged (above ++ (assembleOne W block.1 carry).map (·, block.2))) := by
      simp [Rendered.pushOne, Rendered.ofTagged, Function.comp_def, List.map_const']
    rw [List.foldl_cons, hpush, ih, List.flatMap_cons, Lib.squeeze_append, squeeze_share,
      carryOut_share, List.append_assoc]

/-- **A block by itself is the block in the document.** The bodies put together one at a time,
each told only whether an earlier one drew a line, give the lines and the block of each line that
the pass over the whole document gives; and no two blank lines follow one another in it. -/
theorem assembleEach_eq_assemble (bodies : List (List (Line Color))) :
    assembleEach W bodies = assemble W bodies ∧
      (assemble W bodies).lines.IsChain fun l l' => ¬(isBlank W l = true ∧ isBlank W l' = true) := by
  constructor
  · rw [assemble, foldl_pushBody W rfl]
    exact foldl_pushOne W false [] bodies.zipIdx
  · exact List.isChain_map_of_isChain (fun line : Line Color × Nat => line.1) (fun _ _ h => h)
      (Lib.isChain_squeeze (fun line : Line Color × Nat => isBlank W line.1) false _)

end ClaudeReplay.Viewer
