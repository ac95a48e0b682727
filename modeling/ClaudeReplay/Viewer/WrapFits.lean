import ClaudeReplay.Viewer.WrapText

/-!
# ClaudeReplay.Viewer.WrapFits

Which rows fit.

A text that fits is never broken (`First.foldl_putWord`), and rows fit wherever the indent leaves
two columns (`Roomy.foldl_putWord`). An indent that leaves one column has no room for a wide
character (`wide_overflows`), so that there the rows fit only if no such character comes behind
the first row, but in blanks that are dropped (`Spared`).
-/

namespace ClaudeReplay.Viewer

variable {Color : Type} {W : Widths} {p : Page Color}

/-! ## the columns -/

theorem textWidth_append (xs ys : List Char) :
    W.textWidth (xs ++ ys) = W.textWidth xs + W.textWidth ys := by
  simp [Widths.textWidth]

theorem textWidth_cons (c : Char) (cs : List Char) :
    W.textWidth (c :: cs) = W.width c + W.textWidth cs := by
  simp [Widths.textWidth]

@[simp] theorem textWidth_nil : W.textWidth [] = 0 := rfl

theorem textWidth_singleton (c : Char) : W.textWidth [c] = W.width c := by
  simp [Widths.textWidth]

theorem textWidth_replicate_space (n : Nat) : W.textWidth (List.replicate n ' ') = n := by
  simp [Widths.textWidth, W.space]

theorem width_le_textWidth {c : Char} {cs : List Char} (h : c ∈ cs) :
    W.width c ≤ W.textWidth cs := by
  obtain ⟨before, behind, rfl⟩ := List.append_of_mem h
  rw [textWidth_append, textWidth_cons]
  omega

/-- The columns of a row. -/
def rowWidth (W : Widths) (row : List (Span Color)) : Nat := W.textWidth (row.flatMap Span.content)

theorem rowWidth_append (row row' : List (Span Color)) :
    rowWidth W (row ++ row') = rowWidth W row + rowWidth W row' := by
  rw [rowWidth, List.flatMap_append, textWidth_append, rowWidth, rowWidth]

theorem rowWidth_singleton (span : Span Color) : rowWidth W [span] = W.textWidth span.content := by
  rw [rowWidth, List.flatMap_singleton]

theorem rowWidth_hang (p : Page Color) : rowWidth W p.hang = p.indent := by
  rw [Page.hang]
  split
  · rw [rowWidth_singleton, textWidth_replicate_space]
  · next hzero => exact (Nat.eq_zero_of_not_pos hzero).symm

namespace Cursor

/-- The column is where the row ends. -/
def Tracked (W : Widths) (s : Cursor Color) : Prop := rowWidth W s.cur = s.col

/-- Every row fits, the one begun too. -/
def Fits (W : Widths) (p : Page Color) (s : Cursor Color) : Prop :=
  ∀ row ∈ s.rows ++ [s.cur], rowWidth W row ≤ p.width

variable {s : Cursor Color}

theorem tracked_breakRow (s : Cursor Color) : (s.breakRow p).Tracked W := rowWidth_hang p

theorem Tracked.place (h : s.Tracked W) (span : Span Color) : (s.place W span).Tracked W := by
  rw [Tracked] at h
  rw [Tracked, Cursor.place, rowWidth_append, rowWidth_singleton, h]

theorem fits_breakRow_iff (hindent : p.indent ≤ p.width) :
    (s.breakRow p).Fits W p ↔ s.Fits W p := by
  constructor
  · exact fun h row hrow => h row (List.mem_append_left _ hrow)
  · intro h row hrow
    obtain hrow | hrow := List.mem_append.mp hrow
    · exact h row hrow
    · rw [List.mem_singleton.mp hrow]
      exact (rowWidth_hang p).symm ▸ hindent

theorem fits_place_iff (h : s.Tracked W) (span : Span Color) :
    (s.place W span).Fits W p ↔ s.Fits W p ∧ s.col + W.textWidth span.content ≤ p.width := by
  have hplaced : rowWidth W (s.cur ++ [span]) = s.col + W.textWidth span.content := by
    rw [rowWidth_append, rowWidth_singleton, h]
  constructor
  · intro hfits
    have hlast := hfits (s.cur ++ [span]) (List.mem_append_right _ (List.mem_singleton_self _))
    rw [hplaced] at hlast
    refine ⟨fun row hrow => ?_, hlast⟩
    obtain hrow | hrow := List.mem_append.mp hrow
    · exact hfits row (List.mem_append_left _ hrow)
    · rw [List.mem_singleton.mp hrow, h]
      omega
  · rintro ⟨hfits, hlast⟩ row hrow
    obtain hrow | hrow := List.mem_append.mp hrow
    · exact hfits row (List.mem_append_left _ hrow)
    · rw [List.mem_singleton.mp hrow]
      exact hplaced.symm ▸ hlast

/-- A row begun that fits ends within the width. -/
theorem Fits.col_le (hfits : s.Fits W p) (h : s.Tracked W) : s.col ≤ p.width := by
  rw [← h]
  exact hfits s.cur (List.mem_append_right _ (List.mem_singleton_self _))

theorem Fits.of_breakRow (h : (s.breakRow p).Fits W p) : s.Fits W p :=
  fun row hrow => h row (List.mem_append_left _ hrow)

theorem Fits.of_place {span : Span Color} (h : (s.place W span).Fits W p) : s.Fits W p := by
  intro row hrow
  obtain hrow | hrow := List.mem_append.mp hrow
  · exact h row (List.mem_append_left _ hrow)
  · rw [List.mem_singleton.mp hrow]
    have hlast := h (s.cur ++ [span]) (List.mem_append_right _ (List.mem_singleton_self _))
    rw [rowWidth_append] at hlast
    omega

/-- A row that is too wide stays so. -/
theorem Fits.of_putChars {style : Style Color} {cs : List Char}
    (h : (cs.foldl (putChar W p style) s).Fits W p) : s.Fits W p := by
  by_contra hnot
  exact putChars_keeps (P := fun s => ¬s.Fits W p) (fun _ hs hfits => hs hfits.of_breakRow)
    (fun _ _ hs hfits => hs hfits.of_place) style hnot h

theorem Fits.of_foldl_putWord {words : List (Span Color)}
    (h : (words.foldl (putWord W p) s).Fits W p) : s.Fits W p := by
  by_contra hnot
  exact foldl_putWord_keeps (P := fun s => ¬s.Fits W p) (fun _ hs hfits => hs hfits.of_breakRow)
    (fun _ _ hs hfits => hs hfits.of_place) hnot words h

/-! ## a text that fits -/

/-- Still on the first row, after so many columns. -/
structure First (W : Widths) (p : Page Color) (s : Cursor Color) (total : Nat) : Prop where
  rows : s.rows = []
  floor : s.floor = 0
  col : s.col = total
  le : total ≤ p.width
  tracked : s.Tracked W

theorem first_start : First W p {} 0 := ⟨rfl, rfl, rfl, Nat.zero_le _, rfl⟩

theorem First.fits {total : Nat} (h : First W p s total) : s.Fits W p := by
  intro row hrow
  rw [h.rows] at hrow
  rw [List.mem_singleton.mp hrow, h.tracked, h.col]
  exact h.le

theorem First.place {total : Nat} (h : First W p s total) (span : Span Color)
    (hle : total + W.textWidth span.content ≤ p.width) :
    First W p (s.place W span) (total + W.textWidth span.content) :=
  ⟨h.rows, h.floor, congrArg (· + W.textWidth span.content) h.col, hle, h.tracked.place span⟩

/-- A word that the first row has room for is put there. -/
theorem First.putWord {total : Nat} (h : First W p s total) {word : Span Color}
    (hle : total + W.textWidth word.content ≤ p.width) :
    First W p (s.putWord W p word) (total + W.textWidth word.content) := by
  have hroom : ¬(p.width < s.col + W.textWidth word.content ∧ s.floor < s.col) := by
    rw [h.col]
    omega
  have hstays : s.putWord W p word = s.place W word := by
    rw [putWord_of_room hroom, putDown, if_neg (by rw [h.floor]; omega)]
  rw [hstays]
  exact h.place word hle

/-- **A text that fits is one row.** -/
theorem First.foldl_putWord {total : Nat} (h : First W p s total) {words : List (Span Color)}
    (hle : total + rowWidth W words ≤ p.width) :
    First W p (words.foldl (Cursor.putWord W p) s) (total + rowWidth W words) := by
  induction words generalizing s total with
  | nil => exact h
  | cons word words ih =>
    have hcons : rowWidth W (word :: words) = W.textWidth word.content + rowWidth W words := by
      rw [rowWidth, List.flatMap_cons, textWidth_append, rowWidth]
    rw [hcons, ← Nat.add_assoc] at hle ⊢
    exact ih (h.putWord (by omega)) hle

/-! ## an indent that leaves two columns -/

/-- Every row fits, and the one begun started with two columns free. -/
structure Roomy (W : Widths) (p : Page Color) (s : Cursor Color) : Prop where
  tracked : s.Tracked W
  fits : s.Fits W p
  floor : s.floor + 2 ≤ p.width
  le : s.floor ≤ s.col

theorem roomy_start (hwidth : 2 ≤ p.width) : Roomy W p {} :=
  ⟨rfl, first_start.fits, by simpa using hwidth, Nat.le_refl _⟩

/-- Room is made for what fits behind an indent. -/
theorem Roomy.makeRoom (h : Roomy W p s) (hindent : p.indent + 2 ≤ p.width) (w : Nat) :
    Roomy W p (s.makeRoom p w) ∧ ((s.makeRoom p w).col + w ≤ p.width ∨
      (s.makeRoom p w).col = (s.makeRoom p w).floor) := by
  rw [Cursor.makeRoom]
  split
  · exact ⟨⟨tracked_breakRow s, (fits_breakRow_iff (by omega)).mpr h.fits, hindent, Nat.le_refl _⟩,
      .inr rfl⟩
  · next hno =>
    have hle := h.le
    exact ⟨h, by omega⟩

theorem Roomy.place (h : Roomy W p s) (span : Span Color)
    (hle : s.col + W.textWidth span.content ≤ p.width) : Roomy W p (s.place W span) :=
  ⟨h.tracked.place span, (fits_place_iff h.tracked span).mpr ⟨h.fits, hle⟩, h.floor,
    Nat.le_add_right_of_le h.le⟩

theorem Roomy.putChars (h : Roomy W p s) (hindent : p.indent + 2 ≤ p.width) (style : Style Color)
    (cs : List Char) : Roomy W p (cs.foldl (putChar W p style) s) := by
  induction cs generalizing s with
  | nil => exact h
  | cons c cs ih =>
    obtain ⟨hmade, hroom⟩ := h.makeRoom hindent (W.width c)
    have hfloor := hmade.floor
    have hwide := W.le_two c
    exact ih (hmade.place ⟨[c], style⟩ (by rw [textWidth_singleton]; omega))

theorem Roomy.putWord (h : Roomy W p s) (hindent : p.indent + 2 ≤ p.width) (word : Span Color) :
    Roomy W p (s.putWord W p word) := by
  obtain ⟨hmade, hroom⟩ := h.makeRoom hindent (W.textWidth word.content)
  rw [Cursor.putWord]
  split
  · exact hmade
  · split
    · exact hmade.putChars hindent word.style word.content
    · next hshort =>
      have hfloor := hmade.floor
      exact hmade.place word (by omega)

theorem Roomy.foldl_putWord (h : Roomy W p s) (hindent : p.indent + 2 ≤ p.width)
    (words : List (Span Color)) : Roomy W p (words.foldl (Cursor.putWord W p) s) := by
  induction words generalizing s with
  | nil => exact h
  | cons word words ih => exact ih (h.putWord hindent word)
/-! ## an indent that leaves one column -/

/-- On a row behind an indent, every row fitting so far; `fresh` where nothing with a width stands
behind the indent. -/
structure Next (W : Widths) (p : Page Color) (s : Cursor Color) (fresh : Bool) : Prop where
  tracked : s.Tracked W
  fits : s.Fits W p
  floor : s.floor = p.indent
  le : p.indent ≤ s.col
  fresh_iff : fresh = true ↔ s.col = p.indent

theorem next_breakRow (hfits : s.Fits W p) (hindent : p.indent ≤ p.width) :
    Next W p (s.breakRow p) true :=
  ⟨tracked_breakRow s, (fits_breakRow_iff hindent).mpr hfits, rfl, Nat.le_refl _, by simp [breakRow]⟩

theorem Next.place {fresh : Bool} (h : Next W p s fresh) (span : Span Color)
    (hle : s.col + W.textWidth span.content ≤ p.width) :
    Next W p (s.place W span) (fresh && W.textWidth span.content == 0) := by
  have hcol := h.le
  refine ⟨h.tracked.place span, (fits_place_iff h.tracked span).mpr ⟨h.fits, hle⟩, h.floor,
    Nat.le_add_right_of_le h.le, ?_⟩
  rw [Bool.and_eq_true, beq_iff_eq, h.fresh_iff]
  show _ ↔ s.col + W.textWidth span.content = p.indent
  omega

/-- A narrow character more. -/
theorem Next.putChar {fresh : Bool} (h : Next W p s fresh) (hindent : p.indent + 1 = p.width)
    (style : Style Color) {c : Char} (hc : W.width c ≤ 1) :
    Next W p (s.putChar W p style c) (fresh && W.width c == 0) := by
  have hcol := h.fits.col_le h.tracked
  have hle := h.le
  rw [Cursor.putChar, makeRoom]
  split
  · next hover =>
    -- what is wider than nothing, on a new row
    have hplaced := (next_breakRow h.fits (by omega)).place ⟨[c], style⟩
      (by rw [textWidth_singleton]; show p.indent + _ ≤ _; omega)
    have hfresh : fresh = false := by
      rw [← Bool.not_eq_true, h.fresh_iff]
      have hfloor := h.floor
      omega
    have hzero : (W.width c == 0) = false := beq_eq_false_iff_ne.mpr (by omega)
    rw [textWidth_singleton, hzero, Bool.and_false] at hplaced
    rwa [hfresh, Bool.false_and]
  · next hroom =>
    have hfloor := h.floor
    have hplaced := h.place ⟨[c], style⟩ (by rw [textWidth_singleton]; omega)
    rwa [textWidth_singleton] at hplaced

/-- Narrow characters. -/
theorem Next.putChars {fresh : Bool} (h : Next W p s fresh) (hindent : p.indent + 1 = p.width)
    (style : Style Color) {cs : List Char} (hcs : ∀ c ∈ cs, W.width c ≤ 1) :
    Next W p (cs.foldl (Cursor.putChar W p style) s) (fresh && W.textWidth cs == 0) := by
  induction cs generalizing s fresh with
  | nil => simpa using h
  | cons c cs ih =>
    have hrest := ih (h.putChar hindent style (hcs c (List.mem_cons_self ..)))
      fun c hc => hcs c (List.mem_cons_of_mem _ hc)
    have hzero : ((fresh && W.width c == 0) && W.textWidth cs == 0) =
        (fresh && W.textWidth (c :: cs) == 0) := by
      rw [textWidth_cons, Bool.and_assoc]
      congr 1
      rw [Bool.eq_iff_iff]
      simp
    rwa [hzero] at hrest

/-- Narrow characters that begin on the first row and end behind it. -/
theorem First.putChars {total : Nat} (h : First W p s total) (hindent : p.indent + 1 = p.width)
    (hwidth : 2 ≤ p.width) (style : Style Color) {cs : List Char} (hcs : ∀ c ∈ cs, W.width c ≤ 1)
    (hover : p.width < total + W.textWidth cs) :
    Next W p (cs.foldl (putChar W p style) s) false := by
  induction cs generalizing s total with
  | nil =>
    have hle := h.le
    rw [textWidth_nil] at hover
    omega
  | cons c cs ih =>
    have hc := hcs c (List.mem_cons_self ..)
    have hcs' : ∀ c ∈ cs, W.width c ≤ 1 := fun c hc => hcs c (List.mem_cons_of_mem _ hc)
    rw [textWidth_cons, ← Nat.add_assoc] at hover
    rw [List.foldl_cons]
    have hle := h.le
    by_cases hroom : total + W.width c ≤ p.width
    · have hstays : s.makeRoom p (W.width c) = s := by
        rw [makeRoom, if_neg (by rw [h.col]; omega)]
      have hfirst : First W p (s.putChar W p style c) (total + W.width c) := by
        rw [Cursor.putChar, hstays, ← textWidth_singleton (W := W)]
        exact h.place ⟨[c], style⟩ (by rwa [textWidth_singleton])
      exact ih hfirst hcs' hover
    · have hbreaks : s.makeRoom p (W.width c) = s.breakRow p := by
        rw [makeRoom, if_pos (by rw [h.col, h.floor]; omega)]
      have hnext : Next W p (s.putChar W p style c) false := by
        rw [Cursor.putChar, hbreaks]
        have hplaced := (next_breakRow (W := W) h.fits (by omega)).place ⟨[c], style⟩
          (by rw [textWidth_singleton]; show p.indent + _ ≤ _; omega)
        have hzero : (W.width c == 0) = false := beq_eq_false_iff_ne.mpr (by omega)
        rwa [textWidth_singleton, hzero, Bool.and_false] at hplaced
      have hrest := hnext.putChars hindent style hcs'
      rwa [Bool.false_and] at hrest

/-- **A wide character has no room** behind such an indent. -/
theorem wide_overflows (hindent : p.indent + 1 = p.width) (htracked : s.Tracked W)
    (hle : p.indent ≤ s.col) (hfloor : s.floor = p.indent) (style : Style Color) {cs : List Char}
    {c : Char} (hc : c ∈ cs) (hwide : W.width c = 2) :
    ¬(cs.foldl (putChar W p style) s).Fits W p := by
  induction cs generalizing s with
  | nil => nomatch hc
  | cons c' cs ih =>
    rw [List.foldl_cons]
    -- the row a character more is put on is behind the indent as well
    have hroom : (s.makeRoom p (W.width c')).Tracked W ∧
        p.indent ≤ (s.makeRoom p (W.width c')).col ∧
        (s.makeRoom p (W.width c')).floor = p.indent := by
      rw [makeRoom]
      split
      · exact ⟨tracked_breakRow s, Nat.le_refl _, rfl⟩
      · exact ⟨htracked, hle, hfloor⟩
    obtain rfl | hc := List.mem_cons.mp hc
    · intro hfits
      have hplaced := ((fits_place_iff hroom.1 _).mp hfits.of_putChars).2
      rw [textWidth_singleton] at hplaced
      omega
    · exact ih (hroom.1.place _) (Nat.le_add_right_of_le hroom.2.1) hroom.2.2 hc

/-! ## words behind such an indent -/

/-- Narrow characters put down at the indent, or nothing with a width wherever it is. -/
theorem Next.putDown {fresh : Bool} (h : Next W p s fresh) (hindent : p.indent + 1 = p.width)
    {word : Span Color} (hnarrow : ∀ c ∈ word.content, W.width c ≤ 1)
    (hat : s.col = p.indent ∨ W.textWidth word.content = 0) :
    Next W p (Cursor.putDown W p s word) (fresh && W.textWidth word.content == 0) := by
  have hcol := h.fits.col_le h.tracked
  rw [Cursor.putDown]
  split
  · exact h.putChars hindent word.style hnarrow
  · next hshort =>
    rw [h.floor] at hshort
    exact h.place word (by omega)

end Cursor

/-- A word that is not drawn: a blank that does not fit on the first row any more, behind something
with a width. -/
def dropped (W : Widths) (width : Nat) (fresh : Bool) (total : Nat) (word : Span Color) : Bool :=
  word.content.all isWhitespace && !fresh && decide (width < total + W.textWidth word.content)

/-- A word that fits on the first row, is dropped, or has no wide character. -/
def Spares (W : Widths) (width : Nat) (fresh : Bool) (total : Nat) (word : Span Color) : Prop :=
  total + W.textWidth word.content ≤ width ∨ dropped W width fresh total word = true ∨
    ∀ c ∈ word.content, W.width c ≤ 1

/-- No wide character comes behind the first row but in blanks that are dropped. Of the words so
far, `total` is the width, and `fresh` says that the last with a width was dropped (or that there
was none). -/
def Spared (W : Widths) (width : Nat) : Bool → Nat → List (Span Color) → Prop
  | _, _, [] => True
  | fresh, total, word :: words =>
    Spares W width fresh total word ∧
      Spared W width
        (if W.textWidth word.content = 0 then fresh else dropped W width fresh total word)
        (total + W.textWidth word.content) words

namespace Cursor

variable {s : Cursor Color}

/-- Where the words so far have led, every row fitting. -/
def Walk (W : Widths) (p : Page Color) (s : Cursor Color) (fresh : Bool) (total : Nat) : Prop :=
  (First W p s total ∧ (fresh = true ↔ total = 0)) ∨ (Next W p s fresh ∧ p.width < total)

theorem Walk.fits {fresh : Bool} {total : Nat} (h : Walk W p s fresh total) : s.Fits W p := by
  obtain ⟨hfirst, _⟩ | ⟨hnext, _⟩ := h
  · exact hfirst.fits
  · exact hnext.fits

/-- A word that begins a new row. -/
theorem walk_of_over {fresh : Bool} {total : Nat} (hindent : p.indent + 1 = p.width)
    (hfits : s.Fits W p) {word : Span Color} (hfresh : fresh = false)
    (hbehind : p.width < total + W.textWidth word.content)
    (hover : p.width < s.col + W.textWidth word.content ∧ s.floor < s.col)
    (hcol : s.col ≤ p.width) (hword : Spares W p.width fresh total word) :
    Next W p (s.putWord W p word) (dropped W p.width fresh total word) := by
  have hdropped : dropped W p.width fresh total word = word.content.all isWhitespace := by
    rw [dropped, hfresh, decide_eq_true hbehind, Bool.not_false, Bool.and_true, Bool.and_true]
  have hbroken := next_breakRow (W := W) hfits (by omega)
  rw [Spares, hdropped] at hword
  rw [putWord_of_over hover, hdropped]
  split
  · next hblank => rwa [hblank]
  · next hnot =>
    have hnarrow : ∀ c ∈ word.content, W.width c ≤ 1 := by
      obtain hroom | hblank | hnarrow := hword
      · omega
      · exact absurd hblank hnot
      · exact hnarrow
    have hput := hbroken.putDown hindent hnarrow (.inl rfl)
    have hzero : (W.textWidth word.content == 0) = false := beq_eq_false_iff_ne.mpr (by omega)
    rw [hzero, Bool.and_false] at hput
    rwa [(Bool.not_eq_true _).mp hnot]

/-- **A word more**, where it is spared. -/
theorem Walk.putWord {fresh : Bool} {total : Nat} (h : Walk W p s fresh total)
    (hindent : p.indent + 1 = p.width) (hwidth : 2 ≤ p.width) {word : Span Color}
    (hword : Spares W p.width fresh total word) :
    Walk W p (s.putWord W p word)
      (if W.textWidth word.content = 0 then fresh else dropped W p.width fresh total word)
      (total + W.textWidth word.content) := by
  obtain ⟨hfirst, hfresh⟩ | ⟨hnext, htotal⟩ := h
  · have hcol := hfirst.col
    have hfloor := hfirst.floor
    have hle := hfirst.le
    by_cases hroom : total + W.textWidth word.content ≤ p.width
    · refine .inl ⟨hfirst.putWord hroom, ?_⟩
      have hdropped : dropped W p.width fresh total word = false := by
        rw [dropped, decide_eq_false (by omega), Bool.and_false]
      split
      · rw [hfresh]
        omega
      · rw [hdropped]
        constructor
        · intro h
          cases h
        · omega
    · refine .inr ⟨?_, by omega⟩
      rw [if_neg (by omega)]
      by_cases hzero : total = 0
      · -- nothing stands before the word, which fits no row
        have hdropped : dropped W p.width fresh total word = false := by
          rw [dropped, hfresh.mpr hzero, Bool.not_true, Bool.and_false, Bool.false_and]
        have hnarrow : ∀ c ∈ word.content, W.width c ≤ 1 := by
          obtain hroom' | hblank | hnarrow := hword
          · omega
          · rw [hdropped] at hblank
            cases hblank
          · exact hnarrow
        rw [hdropped, putWord_of_room (by omega), Cursor.putDown, if_pos (by omega)]
        exact hfirst.putChars hindent hwidth word.style hnarrow (by omega)
      · exact walk_of_over hindent hfirst.fits (by rw [← Bool.not_eq_true, hfresh]; exact hzero)
          (by omega) (by omega) (by omega) hword
  · have hcol := hnext.fits.col_le hnext.tracked
    have hfloor := hnext.floor
    have hle := hnext.le
    refine .inr ⟨?_, by omega⟩
    by_cases hover : p.width < s.col + W.textWidth word.content ∧ s.floor < s.col
    · rw [if_neg (by omega)]
      refine walk_of_over hindent hnext.fits ?_ (by omega) hover hcol hword
      rw [← Bool.not_eq_true, hnext.fresh_iff]
      omega
    · rw [putWord_of_room hover]
      by_cases hzero : W.textWidth word.content = 0
      · have hput := hnext.putDown hindent (fun c hc => by
          have hc := width_le_textWidth (W := W) hc
          omega) (.inr hzero)
        rw [hzero, beq_self_eq_true, Bool.and_true] at hput
        rwa [if_pos hzero]
      · rw [if_neg hzero]
        have hfresh : fresh = true := hnext.fresh_iff.mpr (by omega)
        have hdropped : dropped W p.width fresh total word = false := by
          rw [dropped, hfresh, Bool.not_true, Bool.and_false, Bool.false_and]
        have hnarrow : ∀ c ∈ word.content, W.width c ≤ 1 := by
          obtain hroom | hblank | hnarrow := hword
          · omega
          · rw [hdropped] at hblank
            cases hblank
          · exact hnarrow
        have hput := hnext.putDown hindent hnarrow (.inl (by omega))
        rw [beq_eq_false_iff_ne.mpr hzero, Bool.and_false] at hput
        rwa [hdropped]

/-- **A word that is not spared** makes a row too wide. -/
theorem Walk.not_fits {fresh : Bool} {total : Nat} (h : Walk W p s fresh total)
    (hindent : p.indent + 1 = p.width) (hpos : 0 < total) {word : Span Color}
    (hword : ¬Spares W p.width fresh total word) : ¬(s.putWord W p word).Fits W p := by
  simp only [Spares, not_or, not_forall] at hword
  obtain ⟨hroom, hdropped, c, hc, hwide⟩ := hword
  have htwo := W.le_two c
  have hw := width_le_textWidth (W := W) hc
  -- put down behind an indent, the word does not fit
  have hput : ∀ s : Cursor Color, s.Tracked W → p.indent ≤ s.col → s.floor = p.indent →
      ¬(Cursor.putDown W p s word).Fits W p := by
    intro s htracked hle hfloor
    rw [Cursor.putDown, if_pos (by omega)]
    exact wide_overflows hindent htracked hle hfloor word.style hc (by omega)
  have hbroken := hput (s.breakRow p) (tracked_breakRow s) (Nat.le_refl _) rfl
  by_cases hover : p.width < s.col + W.textWidth word.content ∧ s.floor < s.col
  · have hblank : fresh = false → word.content.all isWhitespace = false := by
      intro hfresh
      rw [dropped, hfresh, decide_eq_true (by omega), Bool.not_false, Bool.and_true,
        Bool.and_true] at hdropped
      exact (Bool.not_eq_true _).mp hdropped
    have hfresh : fresh = false := by
      obtain ⟨hfirst, hfresh⟩ | ⟨hnext, _⟩ := h
      · rw [← Bool.not_eq_true, hfresh]
        omega
      · rw [← Bool.not_eq_true, hnext.fresh_iff]
        have hfloor := hnext.floor
        omega
    rw [putWord_of_over hover, hblank hfresh, if_neg Bool.false_ne_true]
    exact hbroken
  · rw [putWord_of_room hover]
    obtain ⟨hfirst, _⟩ | ⟨hnext, _⟩ := h
    · have hcol := hfirst.col
      have hfloor := hfirst.floor
      omega
    · exact hput s hnext.tracked hnext.le hnext.floor

/-- **The rest of a line** whose first words have a width. -/
theorem Walk.fits_iff {fresh : Bool} {total : Nat} (h : Walk W p s fresh total)
    (hindent : p.indent + 1 = p.width) (hwidth : 2 ≤ p.width) (hpos : 0 < total)
    (words : List (Span Color)) :
    (words.foldl (Cursor.putWord W p) s).Fits W p ↔ Spared W p.width fresh total words := by
  induction words generalizing s fresh total with
  | nil => exact ⟨fun _ => trivial, fun _ => h.fits⟩
  | cons word words ih =>
    constructor
    · intro hfits
      have hword : Spares W p.width fresh total word := by
        by_contra hnot
        exact h.not_fits hindent hpos hnot (@Fits.of_foldl_putWord _ W p _ words hfits)
      exact ⟨hword, (ih (h.putWord hindent hwidth hword) (by omega)).mp hfits⟩
    · rintro ⟨hword, hrest⟩
      exact (ih (h.putWord hindent hwidth hword) (by omega)).mpr hrest

end Cursor

/-! ## the opening of a line -/

/-- The first word of a text begins it. -/
theorem wordsOf_cons {line : Line Color} {c : Char} {text : List Char}
    (h : line.text = c :: text) :
    ∃ rest style words, wordsOf line = ⟨c :: rest, style⟩ :: words ∧
      text = rest ++ words.flatMap Span.content := by
  have htext := text_wordsOf line
  cases hwords : wordsOf line with
  | nil =>
    rw [hwords, h] at htext
    nomatch htext
  | cons word words =>
    have hword := isWord_of_mem_wordsOf (hwords ▸ List.mem_cons_self ..)
    obtain ⟨content, style⟩ := word
    cases content with
    | nil => exact absurd rfl hword.ne_nil
    | cons c' rest =>
      rw [hwords, h, List.flatMap_cons, List.cons_append] at htext
      obtain ⟨rfl, htail⟩ := List.cons.inj htext
      exact ⟨rest, style, words, rfl, htail.symm⟩

/-- A word that begins with a space is of spaces. -/
theorem IsWord.spaces {word : List Char} (h : IsWord word) {rest : List Char}
    (hword : word = ' ' :: rest) : ∀ c ∈ word, c = ' ' := by
  obtain ⟨sp, halike⟩ := h.alike
  intro c hc
  have hspace := halike ' ' (hword ▸ List.mem_cons_self ..)
  exact eq_of_beq ((halike c hc).trans hspace.symm)

/-- **How a line with an indent of its own opens**: with spaces, or with a marker and spaces. -/
theorem opening {line : Line Color} (h : 0 < leadingIndent line) :
    ∃ before word words, wordsOf line = before ++ word :: words ∧ word.content ≠ [] ∧
      (∀ c ∈ word.content, c = ' ') ∧
      (before = [] ∨ ∃ c style, before = [⟨[c], style⟩]) := by
  have hspaces : ∀ (word : Span Color) (rest : List Char), word ∈ wordsOf line →
      word.content = ' ' :: rest → word.content ≠ [] ∧ ∀ c ∈ word.content, c = ' ' := by
    intro word rest hword hcontent
    exact ⟨(isWord_of_mem_wordsOf hword).ne_nil, (isWord_of_mem_wordsOf hword).spaces hcontent⟩
  simp only [leadingIndent] at h
  split at h
  · next hlead =>
    cases htext : line.text with
    | nil =>
      rw [htext] at hlead
      nomatch hlead
    | cons c text =>
      obtain rfl : c = ' ' := by
        by_contra hne
        rw [htext, List.takeWhile_cons_of_neg (by simpa using hne)] at hlead
        exact Nat.lt_irrefl 0 hlead
      obtain ⟨rest, style, words, hwords, _⟩ := wordsOf_cons htext
      obtain ⟨hne, hall⟩ := hspaces ⟨' ' :: rest, style⟩ rest (by rw [hwords]; simp) rfl
      exact ⟨[], _, words, hwords, hne, hall, .inl rfl⟩
  · next hlead =>
    split at h
    · next c text htext =>
      have hc : c ≠ ' ' := by
        rintro rfl
        rw [htext, List.takeWhile_cons_of_pos (by simp)] at hlead
        exact hlead (Nat.zero_lt_succ _)
      obtain ⟨rest, style, words, hwords, hsplit⟩ := wordsOf_cons htext
      -- the marker is a word of its own, as a space follows it
      obtain rfl : rest = [] := by
        cases rest with
        | nil => rfl
        | cons c' rest =>
          rw [List.cons_append] at hsplit
          obtain ⟨rfl, _⟩ := List.cons.inj hsplit
          obtain ⟨sp, halike⟩ := (isWord_of_mem_wordsOf (hwords ▸ List.mem_cons_self ..)).alike
          have hspace := halike ' ' (by simp)
          have hmarker := halike c (by simp)
          exact absurd (eq_of_beq (hmarker.trans hspace.symm)) hc
      cases words with
      | nil => nomatch hsplit
      | cons word words =>
        have hmem : word ∈ wordsOf line := by rw [hwords]; simp
        cases hcontent : word.content with
        | nil => exact absurd hcontent (isWord_of_mem_wordsOf hmem).ne_nil
        | cons c' rest =>
          rw [List.nil_append, List.flatMap_cons, hcontent, List.cons_append] at hsplit
          obtain ⟨rfl, _⟩ := List.cons.inj hsplit
          obtain ⟨hne, hall⟩ := hspaces word rest hmem hcontent
          exact ⟨[_], word, words, hwords, hne, hall, .inr ⟨c, style, rfl⟩⟩
    · exact absurd h (Nat.lt_irrefl 0)

namespace Cursor

/-- **A line behind whose opening one column is left** fits if it is spared, and only then. -/
theorem fits_iff_spared {line : Line Color} (hlead : 0 < leadingIndent line)
    (hindent : p.indent + 1 = p.width) (hwidth : 2 ≤ p.width) :
    ((wordsOf line).foldl (putWord W p) {}).Fits W p ↔
      Spared W p.width true 0 (wordsOf line) := by
  obtain ⟨before, word, words, hwords, hne, hspaces, hbefore⟩ := opening hlead
  -- from any state with nothing of a width before it, through the spaces to the rest
  have hrest : ∀ (s : Cursor Color) (fresh : Bool) (total : Nat), Walk W p s fresh total →
      (((word :: words).foldl (putWord W p) s).Fits W p ↔
        Spared W p.width fresh total (word :: words)) := by
    intro s fresh total hwalk
    have hnarrow : ∀ c ∈ word.content, W.width c ≤ 1 := by
      intro c hc
      have hspace := W.space
      rw [hspaces c hc]
      omega
    have hpos : 0 < W.textWidth word.content := by
      obtain ⟨c, rest, hcontent⟩ := List.exists_cons_of_ne_nil hne
      have hc : c = ' ' := hspaces c (by rw [hcontent]; simp)
      rw [hcontent, textWidth_cons, hc, W.space]
      omega
    have hspared : Spares W p.width fresh total word := .inr (.inr hnarrow)
    have hiff := (hwalk.putWord hindent hwidth hspared).fits_iff hindent hwidth (by omega) words
    rw [List.foldl_cons, hiff, Spared]
    exact ⟨fun h => ⟨hspared, h⟩, fun h => h.2⟩
  have hstart : Walk W p {} true 0 := .inl ⟨first_start, by simp⟩
  obtain rfl | ⟨c, style, rfl⟩ := hbefore
  · rw [hwords, List.nil_append]
    exact hrest {} true 0 hstart
  · have hspared : Spares W p.width true 0 (⟨[c], style⟩ : Span Color) := by
      have htwo := W.le_two c
      exact .inl (by rw [textWidth_singleton]; omega)
    rw [hwords, List.singleton_append, List.foldl_cons,
      hrest _ _ _ (hstart.putWord hindent hwidth hspared)]
    exact ⟨fun h => ⟨hspared, h⟩, fun h => h.2⟩

end Cursor

/-! ## the whole line -/

/-- A text that fits is one row. -/
theorem length_wrapLine {line : Line Color} {width : Nat}
    (h : W.textWidth (sanitizeLine W line).text ≤ width) : (wrapLine W line width).length = 1 := by
  by_cases hzero : width = 0
  · rw [wrapLine, if_pos hzero]
    rfl
  have hwords : rowWidth W (wordsOf (sanitizeLine W line)) =
      W.textWidth (sanitizeLine W line).text := by
    rw [rowWidth, text_wordsOf]
  have hlaid := @Cursor.First.foldl_putWord _ W (pageOf (sanitizeLine W line) width) _ 0
    Cursor.first_start (wordsOf (sanitizeLine W line)) (by rw [hwords, Nat.zero_add]; exact h)
  rw [wrapLine_eq line hzero]
  simp only [List.length_map, List.length_append, hlaid.rows]
  rfl

/-- The rows of a line fit. -/
theorem fits_wrapLine_iff (line : Line Color) {width : Nat} (hwidth : width ≠ 0) :
    (∀ row ∈ wrapLine W line width, W.textWidth row.text ≤ width) ↔
      (laidOut W (sanitizeLine W line) width).Fits W (pageOf (sanitizeLine W line) width) := by
  rw [wrapLine_eq line hwidth]
  simp only [List.forall_mem_map]
  rfl

/-- **Where wrapping keeps what it is to keep.** Of a line at a width of two columns or more,
every row fits, the rows joined without their indents are the text but for the blanks dropped
between them, each character in its line's and its span's style, and a text that fits is one row:
exactly if the line has no style of its own (or no text), and its indent leaves two columns or no
wide character comes behind the first row but in a blank that is dropped. -/
theorem wrapped_iff (line : Line Color) {width : Nat} (hwidth : 2 ≤ width) :
    Wrapped W line width ↔
      (line.style = {} ∨ (sanitizeLine W line).text = []) ∧
        (leadingIndent (sanitizeLine W line) + 2 ≤ width ∨
          Spared W width true 0 (wordsOf (sanitizeLine W line))) := by
  have hzero : width ≠ 0 := by omega
  have hfits : (∀ row ∈ wrapLine W line width, W.textWidth row.text ≤ width) ↔
      leadingIndent (sanitizeLine W line) + 2 ≤ width ∨
        Spared W width true 0 (wordsOf (sanitizeLine W line)) := by
    rw [fits_wrapLine_iff line hzero]
    by_cases hroom : leadingIndent (sanitizeLine W line) + 2 ≤ width
    · have hindent : (pageOf (sanitizeLine W line) width).indent + 2 ≤ width := by
        show min _ _ + 2 ≤ width
        omega
      have hroomy := (Cursor.roomy_start (W := W) (p := pageOf (sanitizeLine W line) width)
        hwidth).foldl_putWord hindent (wordsOf (sanitizeLine W line))
      exact ⟨fun _ => .inl hroom, fun _ => hroomy.fits⟩
    · have hindent : (pageOf (sanitizeLine W line) width).indent + 1 = width := by
        show min _ _ + 1 = width
        omega
      have hiff := @Cursor.fits_iff_spared _ W (pageOf (sanitizeLine W line) width)
        (sanitizeLine W line) (by omega) hindent hwidth
      rw [or_iff_right hroom]
      exact hiff
  constructor
  · intro h
    exact ⟨(rejoined_iff line hzero).mp h.rejoined, hfits.mp h.fits⟩
  · rintro ⟨hstyle, hwide⟩
    exact ⟨hfits.mpr hwide, (rejoined_iff line hzero).mpr hstyle, length_wrapLine⟩

/-- Han characters take two columns, the others of the lines below one. -/
def hanWide : Widths where
  width c := if 0x4E00 ≤ c.toNat ∧ c.toNat ≤ 0x9FFF then 2 else 1
  le_two c := by split <;> omega
  space := by decide

/-- A marker's line in two styles, its continuation indented by two. -/
theorem wrapped_marker :
    Wrapped hanWide
      { spans := [⟨"⏺ alpha 世".toList, { fg := some 7 }⟩, ⟨"界 beta".toList, { bg := some 2 }⟩] }
      8 :=
  (wrapped_iff _ (by decide)).mpr ⟨.inl rfl, .inl (by decide)⟩

/-- A wide character behind three spaces does not fit in four columns, and a line styled as a
whole comes out in no style. -/
theorem wrapped_deep_indent :
    ¬Wrapped hanWide ({ spans := [⟨"   世界".toList, {}⟩] } : Line Nat) 4 ∧
      ¬Wrapped hanWide { spans := [⟨"output".toList, {}⟩], style := { fg := some 8 } } 80 := by
  constructor
  · exact fun h => absurd h.fits (by decide)
  · exact fun h => absurd ((rejoined_iff _ (by decide)).mp h.rejoined) (by decide)

end ClaudeReplay.Viewer
