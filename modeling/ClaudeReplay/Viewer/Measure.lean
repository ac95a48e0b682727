import ClaudeReplay.Viewer.Render
import ClaudeReplay.Viewer.WrapFits

/-!
# ClaudeReplay.Viewer.Measure

How many rows a block takes, counted without most of it being highlighted, and how many it has
when it is drawn.

A line that cannot wrap takes one row however it is cut into pieces, so the measuring leaves it in
one. A row of a diff is judged with its gutter; the lines of a file that was written are judged
without theirs.

* `measured_iff` — for which blocks the two agree, whatever the highlighter does.
-/

namespace ClaudeReplay.Viewer.Draw

open Lib (weigh WeighsAlike)

variable {Prose Color : Type}

/-- `wrap_all_tagged`, less the tags -/
def wrapAll (W : Widths) (lines : List (Line Color)) (width : Nat) : List (Line Color) :=
  lines.flatMap fun l => wrapLine W l width

/-- `assembled_lines_of` -/
def assembledLinesOf (K : Look Prose Color) (H : Highlighter Color) (b : Block Prose)
    (isCollapsed : Bool) (width : Nat) (carryIn : Bool) (hl : Hl) : List (Line Color) :=
  wrapAll K.widths (assembleOne K.widths (blockBody K H b isCollapsed width hl) carryIn) width

/-- `wrapped_lines_of` -/
def wrappedLinesOf (K : Look Prose Color) (H : Highlighter Color) (b : Block Prose)
    (isCollapsed : Bool) (width : Nat) (carryIn : Bool) : List (Line Color) :=
  assembledLinesOf K H b isCollapsed width carryIn .styled

/-- `measure_one` -/
def measureOne (K : Look Prose Color) (H : Highlighter Color) (b : Block Prose)
    (isCollapsed : Bool) (width : Nat) (carryIn : Bool) : Nat :=
  (assembledLinesOf K H b isCollapsed width carryIn (.measure width)).length

/-! ## when they are to agree -/

/-- The file that a call's card shows whole. -/
def Call.written (u : Call) : List Text :=
  if u.sent.isNone && u.published.isNone && isWrite u.name && !u.overwrite then
    match u.refused with
    | some (.failed _) => []
    | some (.rejected _) | none => [writeContent u.diffs]
  else []

/-- The files that a block shows whole. -/
def Block.written : Block Prose → List Text
  | .toolUse u => u.written
  | .thinking _ _ tools => tools.flatMap Call.written
  | _ => []

/-- Is each line of a file judged to fit? -/
def AllFit (W : Widths) (width : Nat) (content : Text) : Prop :=
  ∀ l ∈ codeLines content, '\t' ∉ l ∧ W.textWidth l ≤ width

/-- The rows of a line. -/
def rowsOf (W : Widths) (width : Nat) (line : Line Color) : Nat := (wrapLine W line width).length

/-- However a line of a file is cut into pieces, it takes as many rows behind its number as in one
piece. -/
def Steady (K : Look Prose Color) (width : Nat) (content : Text) : Prop :=
  ∀ (i : Nat) (l code : Text) (pieces : List (HlSpan Color)), (strLines content)[i]? = some l →
    (codeLines content)[i]? = some code → pieces.flatMap HlSpan.text = code →
      let gutter := gutterFor (strLines content).length
      rowsOf K.widths width (numberedRow K gutter i l (some pieces)) =
        rowsOf K.widths width (numberedRow K gutter i l (some [⟨code, none⟩]))

/-! ## lines that fit -/

section fits

variable {W : Widths}

theorem textWidth_filter_le (p : Char → Bool) (cs : List Char) :
    W.textWidth (cs.filter p) ≤ W.textWidth cs := by
  induction cs with
  | nil => exact Nat.le_refl _
  | cons c cs ih =>
    rw [List.filter_cons, textWidth_cons]
    split
    · rw [textWidth_cons]
      omega
    · omega

/-- Without tabs, making a text safe only drops characters. -/
theorem foldl_sanitizeChar {cs : List Char} (h : '\t' ∉ cs) (s : Nat × List Char) :
    (cs.foldl (sanitizeChar W) s).2 = s.2 ++ cs.filter (!isControl ·) := by
  induction cs generalizing s with
  | nil => simp
  | cons c cs ih =>
    rw [List.mem_cons, not_or] at h
    rw [List.foldl_cons, ih h.2, sanitizeChar, if_neg (Ne.symm h.1)]
    cases hcontrol : isControl c <;> simp [hcontrol]

theorem textWidth_sanitizeSpans_le {spans : List (Span Color)}
    (h : '\t' ∉ spans.flatMap Span.content) (col : Nat) :
    rowWidth W (sanitizeSpans W col spans) ≤ rowWidth W spans := by
  induction spans generalizing col with
  | nil => exact Nat.le_refl _
  | cons span spans ih =>
    rw [List.flatMap_cons, List.mem_append, not_or] at h
    have hrest := ih h.2 (span.content.foldl (sanitizeChar W) (col, [])).1
    have hspan := textWidth_filter_le (W := W) (!isControl ·) span.content
    simp only [sanitizeSpans, rowWidth, List.flatMap_cons, textWidth_append,
      foldl_sanitizeChar h.1, List.nil_append] at hrest hspan ⊢
    omega

/-- **A line without tabs that is no wider than the page is one row.** -/
theorem rowsOf_eq_one {line : Line Color} {width : Nat} (htab : '\t' ∉ line.text)
    (hle : W.textWidth line.text ≤ width) : rowsOf W width line = 1 := by
  refine length_wrapLine (Nat.le_trans ?_ hle)
  rw [sanitizeLine]
  split
  · exact textWidth_sanitizeSpans_le htab 0
  · exact Nat.le_refl _

/-- So is one that begins a text which fits behind what stands before it. -/
theorem rowsOf_behind {lead spans : List (Span Color)} {text : Text} {width : Nat}
    (hlead : '\t' ∉ lead.flatMap Span.content) (htab : '\t' ∉ text)
    (hle : rowWidth W lead + W.textWidth text ≤ width)
    (hbegins : spans.flatMap Span.content <+: text) :
    rowsOf W width ({ spans := lead ++ spans } : Line Color) = 1 := by
  obtain ⟨back, hback⟩ := hbegins
  have htext : Line.text ({ spans := lead ++ spans } : Line Color) =
      lead.flatMap Span.content ++ spans.flatMap Span.content := by
    rw [Line.text, List.flatMap_append]
  apply rowsOf_eq_one
  · rw [htext, List.mem_append, not_or]
    exact ⟨hlead, fun h => htab (hback ▸ List.mem_append_left back h)⟩
  · rw [← hback, textWidth_append, rowWidth] at hle
    rw [htext, textWidth_append]
    omega

end fits

/-! ## what stands before a line -/

theorem tab_not_mem_num (n : Nat) : '\t' ∉ num n := by
  intro h
  have hdigit := Nat.isDigit_of_mem_toDigits (b := 10) (by decide) (by decide) h
  contradiction

theorem tab_not_mem_padLeft (width n : Nat) : '\t' ∉ padLeft width (num n) := by
  rw [padLeft, List.mem_append, not_or]
  constructor
  · intro h
    exact absurd (List.eq_of_mem_replicate h) (by decide)
  · exact tab_not_mem_num n

section leads

variable (K : Look Prose Color)

theorem tab_not_mem_diffLead (gw : Nat) (n : Option Nat) {marker : Char} (hmarker : marker ≠ '\t')
    (bg : Option Color) : '\t' ∉ (diffLead K gw n marker bg).flatMap Span.content := by
  have hgutter : '\t' ∉ n.elim (List.replicate gw ' ') fun n => padLeft gw (num n) := by
    cases n with
    | none => exact fun h => absurd (List.eq_of_mem_replicate h) (by decide)
    | some n => exact tab_not_mem_padLeft gw n
  cases bg with
  | none => simp [diffLead, raw, inset, hgutter, Ne.symm hmarker]
  | some c => simp [diffLead, hgutter, Ne.symm hmarker]

theorem tab_not_mem_numberedLead (gutter i : Nat) :
    '\t' ∉ (numberedLead K gutter i).flatMap Span.content := by
  simp [numberedLead, raw, tab_not_mem_padLeft]

variable {W : Widths}

/-- A line with a blank in it is not blank. -/
theorem isBlank_of_mem {line : Line Color} (h : ' ' ∈ line.text) : isBlank W line = false := by
  have hle := width_le_textWidth (W := W) h
  rw [W.space] at hle
  rw [isBlank, decide_eq_false_iff_not]
  omega

theorem isBlank_diffLead (gw : Nat) (n : Option Nat) (marker : Char) (bg : Option Color)
    (spans : List (Span Color)) :
    isBlank W ({ spans := diffLead K gw n marker bg ++ spans } : Line Color) = false :=
  isBlank_of_mem (by cases bg <;> simp [Line.text, diffLead, raw, inset])

theorem isBlank_numberedRow (gutter i : Nat) (l : Text)
    (pieces : Option (List (HlSpan Color))) :
    isBlank W (numberedRow K gutter i l pieces) = false :=
  isBlank_of_mem (by simp [Line.text, numberedRow, numberedLead, raw, inset])

theorem spansWidth_eq (spans : List (Span Color)) : spansWidth W spans = rowWidth W spans := by
  induction spans with
  | nil => rfl
  | cons span spans ih =>
    have hrest : spansWidth W (span :: spans) = W.textWidth span.content + spansWidth W spans := by
      simp [spansWidth]
    rw [hrest, ih, ← rowWidth_singleton, ← rowWidth_append]
    rfl

end leads

/-! ## pieces -/

/-- The pieces of a line are its text. -/
theorem content_pieces (pieces : List (HlSpan Color)) (patch : Style Color → Style Color) :
    (pieces.map (hlSpan · patch)).flatMap Span.content = pieces.flatMap HlSpan.text := by
  rw [List.flatMap_map]
  rfl

/-- A file whose lines fit behind the margin and the gutter takes a row for each, however they are
cut. -/
theorem steady_of_fits {K : Look Prose Color} {width : Nat} {content : Text}
    (h : ∀ (i : Nat) (l code : Text), (strLines content)[i]? = some l →
      (codeLines content)[i]? = some code → ∀ text ∈ [l, code], '\t' ∉ text ∧
        rowWidth K.widths (numberedLead K (gutterFor (strLines content).length) i) +
          K.widths.textWidth text ≤ width) : Steady K width content := by
  intro i l code pieces hl hcode hpieces gutter
  have hfits := h i l code hl hcode
  have hone : ∀ text ∈ [l, code], ∀ spans : List (Span Color),
      spans.flatMap Span.content = text → rowsOf K.widths width
        ({ spans := numberedLead K gutter i ++ spans } : Line Color) = 1 :=
    fun text htext spans hspans => rowsOf_behind (tab_not_mem_numberedLead K gutter i)
      (hfits text htext).1 (hfits text htext).2 (hspans ▸ List.prefix_refl _)
  have hrow : ∀ ps : List (HlSpan Color), ps.flatMap HlSpan.text = code →
      rowsOf K.widths width (numberedRow K gutter i l (some ps)) = 1 := by
    intro ps hps
    cases ps with
    | nil => exact hone l (by simp) [raw l] (by simp [raw])
    | cons p ps => exact hone code (by simp) _ (by rw [content_pieces, hps])
  rw [hrow pieces hpieces, hrow [⟨code, none⟩] (by simp)]

theorem pieces_of_spans {H : Highlighter Color} {code token l : Text} {i : Nat}
    (h : (codeLines code)[i]? = some l) :
    ∃ pieces, (H.spans code token)[i]? = some pieces ∧ pieces.flatMap HlSpan.text = l := by
  rw [← H.text_spans code token, List.getElem?_map, Option.map_eq_some_iff] at h
  exact h

theorem prefix_codeLines (text : Text) : (codeLines text).head?.getD [] <+: text := by
  have hsplit := (Lib.unlines_splitLines '\n' text).1
  cases hended : (Lib.splitLines '\n' text).1 with
  | nil =>
    rw [hended] at hsplit
    have htext : (Lib.splitLines '\n' text).2 = text := hsplit
    simp only [codeLines, hended, htext]
    split <;> simp
  | cons l ls =>
    rw [hended, Lib.unlines_cons, List.append_assoc] at hsplit
    have hhead : (codeLines text).head?.getD [] = l := by simp [codeLines, hended]
    rw [hhead, ← hsplit]
    exact List.prefix_append _ _

/-- The pieces a line of a diff is drawn in are its first line. -/
theorem text_highlightOneWith (W : Widths) (H : Highlighter Color) (line token : Text) :
    (highlightOneWith W H line token .styled).flatMap HlSpan.text <+: line := by
  have htext : (highlightOneWith W H line token .styled).flatMap HlSpan.text =
      (codeLines line).head?.getD [] := by
    rw [highlightOneWith, highlightSpansWith, ← H.text_spans line token, List.head?_map]
    cases (H.spans line token).head? <;> rfl
  rw [htext]
  exact prefix_codeLines line

/-! ## lines that are measured and drawn -/

section alike

variable {K : Look Prose Color} {H : Highlighter Color} {width a b : Nat}

/-- Two lines at one place, blank alike, that take as many rows, or a and b. -/
abbrev Alike (K : Look Prose Color) (width a b : Nat) (l l' : Line Color) : Prop :=
  WeighsAlike (isBlank K.widths) (rowsOf K.widths width) a b l l'

theorem alike_refl (lines : List (Line Color)) : List.Forall₂ (Alike K width a b) lines lines :=
  List.forall₂_same.mpr fun _ _ => ⟨rfl, .inl rfl⟩

theorem alike_append {ls ls' ms ms' : List (Line Color)}
    (h : List.Forall₂ (Alike K width a b) ls ls') (h' : List.Forall₂ (Alike K width a b) ms ms') :
    List.Forall₂ (Alike K width a b) (ls ++ ms) (ls' ++ ms') :=
  List.rel_append h h'

theorem alike_flatMap {α : Type} {f g : α → List (Line Color)} {xs : List α}
    (h : ∀ x ∈ xs, List.Forall₂ (Alike K width a b) (f x) (g x)) :
    List.Forall₂ (Alike K width a b) (xs.flatMap f) (xs.flatMap g) := by
  induction xs with
  | nil => exact .nil
  | cons x xs ih =>
    rw [List.flatMap_cons, List.flatMap_cons]
    exact alike_append (h x List.mem_cons_self) (ih fun y hy => h y (List.mem_cons_of_mem x hy))

/-- A row of a diff is judged with what stands before it. -/
theorem alike_diffRow (gw : Nat) (n : Option Nat) {marker : Char} (hmarker : marker ≠ '\t')
    (text token : Text) (bg : Option Color) :
    Alike K width a b (diffRow K H gw n marker text token (.measure width) bg)
      (diffRow K H gw n marker text token .styled bg) := by
  simp only [diffRow]
  split
  next hfits =>
    simp only [fitsUnwrapped, Bool.and_eq_true, Bool.not_eq_true', List.contains_eq_mem,
      decide_eq_true_eq, decide_eq_false_iff_not, spansWidth_eq] at hfits
    obtain ⟨htab, hle⟩ := hfits
    have hone : ∀ spans : List (Span Color), spans.flatMap Span.content <+: text →
        rowsOf K.widths width ({ spans := diffLead K gw n marker bg ++ spans } : Line Color) = 1 :=
      fun _ => rowsOf_behind (tab_not_mem_diffLead K gw n hmarker bg) htab hle
    constructor
    · simp only [fitsUnwrapped, Bool.false_eq_true, if_false]
      rw [isBlank_diffLead, isBlank_diffLead]
    · refine .inl ?_
      simp only [fitsUnwrapped, Bool.false_eq_true, if_false]
      rw [hone [raw text] (by simp [raw]), hone _ (content_pieces _ _ ▸ text_highlightOneWith ..)]
  next => exact ⟨by simp [fitsUnwrapped], .inl (by simp [fitsUnwrapped])⟩

theorem alike_renderDiff (diffs : List (Text × Text)) (patch : Option (List Diff.Hunk))
    (token : Text) :
    List.Forall₂ (Alike K width a b) (renderDiff K H diffs patch token (.measure width))
      (renderDiff K H diffs patch token .styled) := by
  apply alike_flatMap
  intro group _
  rw [List.forall₂_map_left_iff, List.forall₂_map_right_iff, List.forall₂_same]
  intro r _
  apply alike_diffRow
  cases r.kind <;> simp [rowLook]

/-- A file's lines, in one piece and as they are cut, take as many rows, or a and b; where they are
not all judged to fit they are cut when they are measured. -/
def Judged (K : Look Prose Color) (H : Highlighter Color) (width a b : Nat) (content token : Text) :
    Prop :=
  AllFit K.widths width content →
    ∀ (i : Nat) (l code : Text) (pieces : List (HlSpan Color)), (strLines content)[i]? = some l →
      (codeLines content)[i]? = some code → (H.spans content token)[i]? = some pieces →
        let gutter := gutterFor (strLines content).length
        Alike K width a b (numberedRow K gutter i l (some [⟨code, none⟩]))
          (numberedRow K gutter i l (some pieces))

theorem length_codeLines (content : Text) :
    (codeLines content).length = (strLines content).length := by
  simp [codeLines, strLines]

/-- A whole file, numbered. -/
theorem writeNumbered_eq (content token : Text) (hl : Hl) :
    writeNumbered K H content token none hl =
      (strLines content).mapIdx fun i l =>
        numberedRow K (gutterFor (strLines content).length) i l
          (highlightSpansWith K.widths H content token hl)[i]? := by
  simp [writeNumbered]

theorem allFit_iff {content : Text} :
    ((codeLines content).all fun l => fitsUnwrapped K.widths l 0 (.measure width)) = true ↔
      AllFit K.widths width content := by
  simp [AllFit, fitsUnwrapped]

/-- Where a file's lines are judged to fit, they are measured in one piece each. -/
theorem measured_piece {content token l : Text} {i : Nat} (hfit : AllFit K.widths width content)
    (h : (codeLines content)[i]? = some l) :
    (highlightSpansWith K.widths H content token (.measure width))[i]? = some [⟨l, none⟩] := by
  rw [highlightSpansWith, if_pos (allFit_iff.mpr hfit), List.getElem?_map, h]
  rfl

theorem code_of_line {content l : Text} {i : Nat} (h : (strLines content)[i]? = some l) :
    ∃ code, (codeLines content)[i]? = some code := by
  obtain ⟨hlt, -⟩ := List.getElem?_eq_some_iff.mp h
  rw [← length_codeLines] at hlt
  exact ⟨_, List.getElem?_eq_getElem hlt⟩

theorem alike_writeNumbered {content token : Text} (h : Judged K H width a b content token) :
    List.Forall₂ (Alike K width a b) (writeNumbered K H content token none (.measure width))
      (writeNumbered K H content token none .styled) := by
  by_cases hfit : AllFit K.widths width content
  · rw [writeNumbered_eq, writeNumbered_eq, List.forall₂_iff_get]
    constructor
    · simp
    · intro i hi hi'
      simp only [List.get_eq_getElem, List.getElem_mapIdx]
      rw [List.length_mapIdx] at hi
      have hl := List.getElem?_eq_getElem hi
      obtain ⟨code, hcode⟩ := code_of_line hl
      obtain ⟨pieces, hpieces, -⟩ := @pieces_of_spans _ H content token code i hcode
      rw [measured_piece hfit hcode]
      show Alike K width a b _ (numberedRow K _ i _ (H.spans content token)[i]?)
      rw [hpieces]
      exact h hfit i _ code pieces hl hcode hpieces
  · have hsame : highlightSpansWith K.widths H content token (.measure width) =
        highlightSpansWith K.widths H content token .styled := by
      simp only [highlightSpansWith, if_neg (mt allFit_iff.mp hfit)]
    rw [writeNumbered_eq, writeNumbered_eq, hsame]
    exact alike_refl _

/-- A line that is drawn the same in either mode. -/
theorem alike_cons (l : Line Color) {ls ls' : List (Line Color)}
    (h : List.Forall₂ (Alike K width a b) ls ls') :
    List.Forall₂ (Alike K width a b) (l :: ls) (l :: ls') :=
  .cons ⟨rfl, .inl rfl⟩ h

theorem alike_publishedLines (u : Call) (p : Published) :
    List.Forall₂ (Alike K width a b) (u.publishedLines K H (.measure width) p)
      (u.publishedLines K H .styled p) := by
  simp only [Call.publishedLines]
  apply alike_cons
  refine alike_append (alike_append (alike_refl _) ?_) (alike_refl _)
  split
  · exact alike_cons _ (alike_renderDiff _ _ _)
  · exact .nil

theorem alike_editLines (u : Call) (said : Option Text) :
    List.Forall₂ (Alike K width a b) (u.editLines K H (.measure width) said)
      (u.editLines K H .styled said) := by
  simp only [Call.editLines]
  apply alike_cons
  have hdiff := @alike_renderDiff Prose Color K H width a b u.diffs u.patch
    (tokenForTarget u.target)
  cases said with
  | some said => exact alike_append (alike_refl _) hdiff
  | none => exact alike_append (alike_append (alike_refl _) hdiff) (alike_refl _)

theorem alike_otherLines (u : Call) :
    List.Forall₂ (Alike K width a b) (u.otherLines K H (.measure width))
      (u.otherLines K H .styled) := by
  simp only [Call.otherLines]
  refine alike_append (alike_refl _) (alike_flatMap ?_)
  intro group _
  simp only [Call.fileLines]
  apply alike_cons
  split
  · exact alike_renderDiff _ _ _
  · exact .nil

/-- What stands before a file is drawn the same in either mode. -/
theorem lines_of_written {u : Call} {content : Text} (h : content ∈ u.written) :
    ∃ front, ∀ hl, u.lines K H hl =
      front ++ writeNumbered K H content (tokenForTarget u.target) none hl := by
  rw [Call.written] at h
  split at h
  next hwrite =>
    simp only [Bool.and_eq_true, Option.isNone_iff_eq_none] at hwrite
    obtain ⟨⟨⟨hsent, hpublished⟩, hname⟩, hfresh⟩ := hwrite
    have hlines : ∀ said : Option Text, u.refused = said.map .rejected →
        ∀ hl, u.lines K H hl = u.writeLines K H hl said := by
      intro said hsaid hl
      cases said <;>
        simp only [Call.lines, hsent, hpublished, hsaid, hname, hfresh, Option.map, Bool.and_self,
          if_true]
    have hcontent : content = writeContent u.diffs ∧
        ∃ said : Option Text, u.refused = said.map .rejected := by
      split at h
      next => cases h
      next said hrefused => exact ⟨List.mem_singleton.mp h, some said, hrefused⟩
      next hrefused => exact ⟨List.mem_singleton.mp h, none, hrefused⟩
    obtain ⟨rfl, said, hsaid⟩ := hcontent
    exact ⟨u.writeHead K said, hlines said hsaid⟩
  next => cases h

theorem alike_lines {u : Call}
    (h : ∀ content ∈ u.written, Judged K H width a b content (tokenForTarget u.target)) :
    List.Forall₂ (Alike K width a b) (u.lines K H (.measure width)) (u.lines K H .styled) := by
  cases hwritten : u.written with
  | cons content more =>
    have hmem : content ∈ u.written := hwritten ▸ List.mem_cons_self
    obtain ⟨front, hfront⟩ := @lines_of_written Prose Color K H u content hmem
    rw [hfront, hfront]
    exact alike_append (alike_refl front) (alike_writeNumbered (h content hmem))
  | nil =>
    simp only [Call.lines]
    cases hsent : u.sent with
    | some text => exact alike_refl _
    | none =>
      cases hpublished : u.published with
      | some p => exact alike_publishedLines u p
      | none =>
        have hfresh : ∀ why, u.refused = why → (∀ reason, why ≠ some (.failed reason)) →
            (isWrite u.name && !u.overwrite) = false := by
          intro why hwhy hnot
          by_contra hwrite
          rw [Bool.not_eq_false, Bool.and_eq_true] at hwrite
          simp only [Call.written, hsent, hpublished, hwrite.1, hwrite.2, Option.isNone_none,
            Bool.and_self, if_true, hwhy] at hwritten
          split at hwritten
          next reason => exact hnot reason rfl
          next => cases hwritten
          next => cases hwritten
        cases hrefused : u.refused with
        | some why =>
          cases why with
          | failed reason => exact alike_refl _
          | rejected said =>
            simp only [hfresh _ hrefused (by simp), Bool.false_eq_true, if_false]
            exact alike_editLines u (some said)
        | none =>
          simp only [hfresh _ hrefused (by simp), Bool.false_eq_true, if_false]
          split
          · exact alike_editLines u none
          · exact alike_otherLines u

/-- The files a block shows, with what they are highlighted as. -/
def Block.judged (K : Look Prose Color) (H : Highlighter Color) (width a b : Nat)
    (block : Block Prose) : Prop :=
  match block with
  | .toolUse u => ∀ content ∈ u.written, Judged K H width a b content (tokenForTarget u.target)
  | .thinking _ _ tools => ∀ u ∈ tools, ∀ content ∈ u.written,
      Judged K H width a b content (tokenForTarget u.target)
  | _ => True

theorem alike_renderOne {block : Block Prose} (h : block.judged K H width a b) :
    List.Forall₂ (Alike K width a b) (renderOne K H block width (.measure width))
      (renderOne K H block width .styled) := by
  cases block with
  | toolUse u => exact alike_lines h
  | thinking text durationSecs tools =>
    have htools : List.Forall₂ (Alike K width a b)
        (tools.flatMap (Call.lines K H (.measure width))) (tools.flatMap (Call.lines K H .styled)) :=
      alike_flatMap fun u hu => alike_lines (h u hu)
    exact alike_append (alike_append (alike_refl _) htools) (alike_refl _)
  | prose p => exact alike_refl _
  | toolResult text => exact alike_refl _
  | safetyStop category note => exact alike_refl _
  | subAgent sa => exact alike_refl _
  | agentDone agentId agentType description status result => exact alike_refl _
  | command name args output => exact alike_refl _
  | compaction trigger preTokens postTokens summary => exact alike_refl _

/-! ## the whole block -/

theorem length_wrapAll (W : Widths) (lines : List (Line Color)) (width : Nat) :
    (wrapAll W lines width).length = weigh (rowsOf W width) lines := by
  rw [wrapAll, List.length_flatMap, weigh]
  rfl

theorem endsInText_alike {ls ls' : List (Line Color)}
    (h : List.Forall₂ (Alike K width a b) ls ls') :
    endsInText K.widths ls = endsInText K.widths ls' := by
  have hblank : ls.map (isBlank K.widths) = ls'.map (isBlank K.widths) := by
    induction h with
    | nil => rfl
    | cons hl _ ih => rw [List.map_cons, List.map_cons, hl.1, ih]
  have hends : ∀ ms : List (Line Color), endsInText K.widths ms =
      (ms.map (isBlank K.widths)).getLast?.any (!·) := fun ms => by
    rw [List.getLast?_map, Option.any_map]
    rfl
  rw [hends, hends, hblank]

/-- **The rows of a body measured and drawn** are as many, but for so many times the difference of a
and b. -/
theorem length_assembled {ls ls' : List (Line Color)}
    (h : List.Forall₂ (Alike K width a b) ls ls') (carryIn : Bool) :
    ∃ k, (wrapAll K.widths (assembleOne K.widths ls carryIn) width).length + k * b =
        (wrapAll K.widths (assembleOne K.widths ls' carryIn) width).length + k * a ∧
      ∀ l l', (l, l') ∈ ls.zip ls' → isBlank K.widths l = false →
        rowsOf K.widths width l ≠ rowsOf K.widths width l' → 0 < k := by
  have hlength := h.length_eq
  have hends := endsInText_alike h
  have hseparated : List.Forall₂ (Alike K width a b) (separated K.widths ls)
      (separated K.widths ls') := by
    rw [separated, separated, hends]
    split
    · exact alike_append h (alike_refl _)
    · exact h
  obtain ⟨k, hk, hpos⟩ := Lib.weigh_squeeze (isBlank K.widths) hseparated carryIn
  rw [length_wrapAll, length_wrapAll]
  refine ⟨k, hk, fun l l' hmem => hpos l l' ?_⟩
  rw [separated, separated, hends]
  split
  · rw [List.zip_append hlength]
    exact List.mem_append_left _ hmem
  · exact hmem

end alike

/-! ## a highlighter that cuts one line -/

/-- One line of one file in pieces, every other line whole. -/
def cutLine (content code : Text) (i : Nat) (pieces : List (HlSpan Color))
    (hcode : (codeLines content)[i]? = some code) (hpieces : pieces.flatMap HlSpan.text = code) :
    Highlighter Color where
  spans c _ := (codeLines c).mapIdx fun j l =>
    if c = content ∧ j = i then pieces else [⟨l, none⟩]
  text_spans c token := by
    apply List.ext_getElem
    · simp
    · intro j hj hj'
      rw [List.getElem_map, List.getElem_mapIdx]
      split
      next hcut =>
        obtain ⟨rfl, rfl⟩ := hcut
        rw [List.getElem?_eq_getElem hj', Option.some.injEq] at hcode
        rw [hpieces, hcode]
      next => simp

theorem mem_zip_writeNumbered {K : Look Prose Color} {H : Highlighter Color} {width : Nat}
    {content token l code : Text} {i : Nat} {pieces : List (HlSpan Color)}
    (hfit : AllFit K.widths width content) (hl : (strLines content)[i]? = some l)
    (hcode : (codeLines content)[i]? = some code)
    (hpieces : (H.spans content token)[i]? = some pieces) :
    (numberedRow K (gutterFor (strLines content).length) i l (some [⟨code, none⟩]),
        numberedRow K (gutterFor (strLines content).length) i l (some pieces)) ∈
      (writeNumbered K H content token none (.measure width)).zip
        (writeNumbered K H content token none .styled) := by
  rw [writeNumbered_eq, writeNumbered_eq]
  apply List.mem_of_getElem? (i := i)
  rw [List.getElem?_zip_eq_some]
  constructor
  · simp [hl, measured_piece hfit hcode]
  · simp [hl, highlightSpansWith, hpieces]

theorem mem_zip_lines {K : Look Prose Color} {H : Highlighter Color} {width : Nat} {u : Call}
    {content : Text} (h : content ∈ u.written) {rows : Line Color × Line Color}
    (hrows : rows ∈ (writeNumbered K H content (tokenForTarget u.target) none (.measure width)).zip
      (writeNumbered K H content (tokenForTarget u.target) none .styled)) :
    rows ∈ (u.lines K H (.measure width)).zip (u.lines K H .styled) := by
  obtain ⟨front, hfront⟩ := @lines_of_written Prose Color K H u content h
  rw [hfront, hfront, List.zip_append rfl]
  exact List.mem_append_right _ hrows

theorem mem_zip_flatMap {α β : Type} {f g : α → List β} {xs : List α} {x : α} (hx : x ∈ xs)
    (hlength : ∀ y ∈ xs, (f y).length = (g y).length) {p : β × β} (hp : p ∈ (f x).zip (g x)) :
    p ∈ (xs.flatMap f).zip (xs.flatMap g) := by
  induction xs with
  | nil => cases hx
  | cons y xs ih =>
    rw [List.flatMap_cons, List.flatMap_cons, List.zip_append (hlength y List.mem_cons_self),
      List.mem_append]
    obtain rfl | hx := List.mem_cons.mp hx
    · exact .inl hp
    · exact .inr (ih hx fun z hz => hlength z (List.mem_cons_of_mem y hz))

/-- The rows of a file are among those of its block. -/
theorem mem_zip_renderOne {K : Look Prose Color} {H : Highlighter Color} {width a b : Nat}
    {block : Block Prose} (hjudged : block.judged K H width a b) {content : Text}
    (h : content ∈ block.written) :
    ∃ token, ∀ rows ∈ (writeNumbered K H content token none (.measure width)).zip
        (writeNumbered K H content token none .styled),
      rows ∈ (renderOne K H block width (.measure width)).zip
        (renderOne K H block width .styled) := by
  cases block with
  | toolUse u => exact ⟨_, fun rows hrows => mem_zip_lines h hrows⟩
  | thinking text durationSecs tools =>
    obtain ⟨u, hu, hcontent⟩ := List.mem_flatMap.mp h
    refine ⟨tokenForTarget u.target, fun rows hrows => ?_⟩
    have hlength : ∀ t ∈ tools, (t.lines K H (.measure width)).length =
        (t.lines K H .styled).length := fun t ht => (alike_lines (hjudged t ht)).length_eq
    have hrun := mem_zip_flatMap hu hlength (mem_zip_lines hcontent hrows)
    simp only [renderOne, thinkingLines]
    rw [List.append_assoc, List.append_assoc, List.zip_append rfl]
    apply List.mem_append_right
    rw [List.zip_append]
    · exact List.mem_append_left _ hrun
    · exact (alike_flatMap fun t ht => alike_lines (hjudged t ht)).length_eq
  | prose p => cases h
  | toolResult text => cases h
  | safetyStop category note => cases h
  | subAgent sa => cases h
  | agentDone agentId agentType description status result => cases h
  | command name args output => cases h
  | compaction trigger preTokens postTokens summary => cases h

/-! ## measuring and drawing agree -/

theorem judged_of_steady {K : Look Prose Color} {H : Highlighter Color} {width : Nat}
    {content token : Text} (h : AllFit K.widths width content → Steady K width content) :
    Judged K H width 0 0 content token := by
  intro hfit i l code pieces hl hcode hpieces
  obtain ⟨pieces', hpieces', htext⟩ := @pieces_of_spans _ H content token code i hcode
  rw [hpieces, Option.some.injEq] at hpieces'
  rw [← hpieces'] at htext
  constructor
  · rw [isBlank_numberedRow, isBlank_numberedRow]
  · exact .inl (h hfit i l code pieces hl hcode htext).symm

theorem judged_block_of_steady {K : Look Prose Color} {H : Highlighter Color} {width : Nat}
    {block : Block Prose}
    (h : ∀ content ∈ block.written, AllFit K.widths width content → Steady K width content) :
    block.judged K H width 0 0 := by
  cases block with
  | toolUse u => exact fun content hcontent => judged_of_steady (h content hcontent)
  | thinking text durationSecs tools =>
    intro u hu content hcontent
    exact judged_of_steady (h content (List.mem_flatMap.mpr ⟨u, hu, hcontent⟩))
  | _ => trivial

/-- Where one line is cut, the rows that differ are its own. -/
theorem judged_cutLine {K : Look Prose Color} {width : Nat} {content l code : Text} {i : Nat}
    {pieces : List (HlSpan Color)} (hl : (strLines content)[i]? = some l)
    (hcode : (codeLines content)[i]? = some code) (hpieces : pieces.flatMap HlSpan.text = code)
    (content' token : Text) :
    let gutter := gutterFor (strLines content).length
    Judged K (cutLine content code i pieces hcode hpieces) width
      (rowsOf K.widths width (numberedRow K gutter i l (some [⟨code, none⟩])))
      (rowsOf K.widths width (numberedRow K gutter i l (some pieces))) content' token := by
  intro gutter _ i' l' code' pieces' hl' hcode' hpieces'
  simp only [cutLine, List.getElem?_mapIdx, hcode', Option.map_some, Option.some.injEq] at hpieces'
  constructor
  · rw [isBlank_numberedRow, isBlank_numberedRow]
  · split at hpieces'
    next hcut =>
      obtain ⟨rfl, rfl⟩ := hcut
      rw [hl, Option.some.injEq] at hl'
      rw [hcode, Option.some.injEq] at hcode'
      rw [← hl', ← hcode', ← hpieces']
      exact .inr ⟨rfl, rfl⟩
    next => exact .inl (by rw [hpieces'])

theorem judged_block_cutLine {K : Look Prose Color} {width a b : Nat} {H : Highlighter Color}
    (h : ∀ content token, Judged K H width a b content token) (block : Block Prose) :
    block.judged K H width a b := by
  cases block with
  | toolUse u => exact fun content _ => h content _
  | thinking text durationSecs tools => exact fun u _ content _ => h content _
  | _ => trivial

/-- **Where the measured height is the rendered one.** A block takes as many rows measured as drawn,
whatever the highlighter does, exactly if it is folded, or each file it shows whole has a line
that is judged not to fit, or takes as many rows however its lines are cut. -/
theorem measured_iff (K : Look Prose Color) (block : Block Prose) (isCollapsed : Bool)
    (width : Nat) (carryIn : Bool) :
    (∀ H, measureOne K H block isCollapsed width carryIn =
        (wrappedLinesOf K H block isCollapsed width carryIn).length) ↔
      (isCollapsed = false → ∀ content ∈ block.written, AllFit K.widths width content →
        Steady K width content) := by
  cases isCollapsed with
  | true => exact iff_of_true (fun _ => rfl) (by simp)
  | false =>
    constructor
    · intro h _ content hcontent hfit i l code pieces hl hcode hpieces
      have hjudged := judged_block_cutLine
        (@judged_cutLine _ _ K width content l code i pieces hl hcode hpieces) block
      obtain ⟨k, hk, hpos⟩ := length_assembled (alike_renderOne hjudged) carryIn
      obtain ⟨token, hrows⟩ := mem_zip_renderOne hjudged hcontent
      by_contra hne
      have hspans : ((cutLine content code i pieces hcode hpieces).spans content token)[i]? =
          some pieces := by
        simp [cutLine, hcode]
      have hmem := hrows _ (mem_zip_writeNumbered hfit hl hcode hspans)
      have hkpos := hpos _ _ hmem (isBlank_numberedRow ..) (Ne.symm hne)
      have hsame := h (cutLine content code i pieces hcode hpieces)
      simp only [measureOne, wrappedLinesOf, assembledLinesOf, blockBody, Bool.false_eq_true,
        if_false] at hsame
      rw [hsame, Nat.add_left_cancel_iff] at hk
      exact hne (Nat.eq_of_mul_eq_mul_left hkpos hk)
    · intro h H
      have hjudged := @judged_block_of_steady _ _ K H width block (h rfl)
      obtain ⟨k, hk, -⟩ := length_assembled (alike_renderOne hjudged) carryIn
      exact hk

/-- The line of a fresh file in two halves, and the call that writes it. -/
def halves : Highlighter Nat :=
  cutLine "abcdef".toList "abcdef".toList 0 [⟨"abc".toList, none⟩, ⟨"def".toList, none⟩] rfl rfl

def freshWrite : Block Empty :=
  .toolUse { name := "Write", target := "a".toList, diffs := [([], "abcdef".toList)] }

/-- Six columns fit in twelve, but not behind nine: in one piece they go to two rows more, and in
two halves the first stays. -/
theorem measured_higher :
    measureOne plainLook halves freshWrite false 12 false = 7 ∧
      (wrappedLinesOf plainLook halves freshWrite false 12 false).length = 6 := by
  decide +kernel

end ClaudeReplay.Viewer.Draw
