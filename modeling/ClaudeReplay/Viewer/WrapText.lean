import Mathlib.Data.List.Induction
import ClaudeReplay.Viewer.Wrap

/-!
# ClaudeReplay.Viewer.WrapText

Nothing is lost in wrapping.

The words of a line joined are its text (`text_wordsOf`), and each is a run of spaces or of
anything else. However a word is put down, only new rows and spans are put down
(`Cursor.putWord_keeps`); and the rows always join up to the text again, each character in the
style of its span (`Cursor.Holds.foldl_putWord`).
-/

namespace ClaudeReplay.Viewer

variable {Color : Type} {W : Widths} {p : Page Color}

/-! ## words -/

/-- A run of spaces, or of anything else. -/
structure IsWord (word : List Char) : Prop where
  ne_nil : word ≠ []
  alike : ∃ sp : Bool, ∀ c ∈ word, (c == ' ') = sp

/-- What the splitting has done of a text so far. -/
structure SplitSoFar (s : List (List Char) × List Char × Bool) (text : List Char) : Prop where
  joined : s.1.flatten ++ s.2.1 = text
  words : ∀ word ∈ s.1, IsWord word
  begun : ∀ c ∈ s.2.1, (c == ' ') = s.2.2

theorem SplitSoFar.step {s : List (List Char) × List Char × Bool} {text : List Char}
    (h : SplitSoFar s text) (ch : Char) : SplitSoFar (splitStep s ch) (text ++ [ch]) := by
  rw [splitStep]
  split
  · next hempty =>
    have hjoined := h.joined
    rw [List.isEmpty_iff.mp hempty, List.append_nil] at hjoined
    exact ⟨by rw [hjoined], h.words, by simp⟩
  · next hne =>
    split
    · next hsame =>
      refine ⟨by rw [← h.joined, List.append_assoc], h.words, fun c hc => ?_⟩
      obtain hc | hc := List.mem_append.mp hc
      · exact h.begun c hc
      · rw [List.mem_singleton.mp hc]
        exact eq_of_beq hsame
    · have hword : IsWord s.2.1 := ⟨fun hnil => hne (by rw [hnil]; rfl), s.2.2, h.begun⟩
      refine ⟨by simp [← h.joined], fun word hw => ?_, by simp⟩
      obtain hw | hw := List.mem_append.mp hw
      · exact h.words word hw
      · rw [List.mem_singleton.mp hw]
        exact hword

theorem splitSoFar_foldl (text : List Char) :
    SplitSoFar (text.foldl splitStep ([], [], false)) text := by
  induction text using List.reverseRecOn with
  | nil => exact ⟨rfl, by simp, by simp⟩
  | append_singleton text ch ih =>
    rw [List.foldl_append]
    exact ih.step ch

theorem flatten_splitKeepSpaces (text : List Char) : (splitKeepSpaces text).flatten = text := by
  have hjoined := (splitSoFar_foldl text).joined
  rw [splitKeepSpaces]
  split
  · next hempty => rwa [List.isEmpty_iff.mp hempty, List.append_nil] at hjoined
  · rw [List.flatten_append, List.flatten_singleton]
    exact hjoined

theorem isWord_of_mem_split {text word : List Char} (h : word ∈ splitKeepSpaces text) :
    IsWord word := by
  have hsplit := splitSoFar_foldl text
  rw [splitKeepSpaces] at h
  split at h
  · exact hsplit.words word h
  · next hne =>
    obtain h | h := List.mem_append.mp h
    · exact hsplit.words word h
    · rw [List.mem_singleton.mp h]
      exact ⟨fun hnil => hne (by rw [hnil]; rfl), _, hsplit.begun⟩

/-- The words of a line, each in its span's style. -/
def wordsOf (line : Line Color) : List (Span Color) :=
  line.spans.flatMap fun span => (splitKeepSpaces span.content).map fun word => ⟨word, span.style⟩

theorem cells_wordsOf (line : Line Color) (style : Style Color) :
    (wordsOf line).flatMap (Span.cells style) = line.spans.flatMap (Span.cells style) := by
  rw [wordsOf, List.flatMap_assoc]
  congr 1
  funext span
  have hmap : ∀ words : List (List Char), (words.map fun word => (⟨word, span.style⟩ : Span Color)
      ).flatMap (Span.cells style) = Span.cells style ⟨words.flatten, span.style⟩ := by
    intro words
    induction words with
    | nil => rfl
    | cons word words ih =>
      rw [List.map_cons, List.flatMap_cons, ih]
      simp [Span.cells]
  rw [hmap, flatten_splitKeepSpaces]

theorem text_wordsOf (line : Line Color) : (wordsOf line).flatMap Span.content = line.text := by
  have hchars : ∀ spans : List (Span Color),
      spans.flatMap Span.content = (spans.flatMap (Span.cells {})).map Cell.char := by
    intro spans
    rw [List.map_flatMap]
    congr 1
    funext span
    simp [Span.cells, Function.comp_def]
  rw [hchars, cells_wordsOf, Line.text, hchars]

theorem isWord_of_mem_wordsOf {line : Line Color} {word : Span Color} (h : word ∈ wordsOf line) :
    IsWord word.content := by
  obtain ⟨span, _, hword⟩ := List.mem_flatMap.mp h
  obtain ⟨content, hcontent, rfl⟩ := List.mem_map.mp hword
  exact isWord_of_mem_split hcontent

/-- **Wrapping is putting down the words**, one after the other. -/
theorem wrapLine_eq (line : Line Color) {width : Nat} (hwidth : width ≠ 0) :
    wrapLine W line width =
      let line := sanitizeLine W line
      let s : Cursor Color := (wordsOf line).foldl (Cursor.putWord W (pageOf line width)) {}
      (s.rows ++ [s.cur]).map fun spans => { spans } := by
  rw [wrapLine]
  simp only [if_neg hwidth, wordsOf, List.foldl_flatMap, List.foldl_map]

/-! ## what is kept whatever is put down -/

namespace Cursor

/-- Put a word down where the row is at, character by character where it fits no row. -/
def putDown (W : Widths) (p : Page Color) (s : Cursor Color) (word : Span Color) : Cursor Color :=
  if p.width - s.floor < W.textWidth word.content then
    word.content.foldl (putChar W p word.style) s
  else s.place W word

theorem putWord_of_room {s : Cursor Color} {word : Span Color}
    (h : ¬(p.width < s.col + W.textWidth word.content ∧ s.floor < s.col)) :
    s.putWord W p word = putDown W p s word := by
  rw [putWord, makeRoom, if_neg h, decide_eq_false h, Bool.false_and, if_neg Bool.false_ne_true]
  rfl

theorem putWord_of_over {s : Cursor Color} {word : Span Color}
    (h : p.width < s.col + W.textWidth word.content ∧ s.floor < s.col) :
    s.putWord W p word = if word.content.all isWhitespace then s.breakRow p
      else putDown W p (s.breakRow p) word := by
  rw [putWord, makeRoom, if_pos h, decide_eq_true h, Bool.true_and]
  rfl

section Keeps

variable {P : Cursor Color → Prop} (hbreak : ∀ s, P s → P (s.breakRow p))
  (hplace : ∀ s span, P s → P (s.place W span))

include hbreak hplace

/-- What a new row and a span put down keep, characters keep. -/
theorem putChars_keeps (style : Style Color) {cs : List Char} {s : Cursor Color} (h : P s) :
    P (cs.foldl (putChar W p style) s) := by
  induction cs generalizing s with
  | nil => exact h
  | cons c cs ih =>
    refine ih (hplace _ _ ?_)
    rw [makeRoom]
    split
    · exact hbreak s h
    · exact h

theorem putDown_keeps {s : Cursor Color} (h : P s) (word : Span Color) :
    P (putDown W p s word) := by
  rw [putDown]
  split
  · exact putChars_keeps hbreak hplace word.style h
  · exact hplace s word h

/-- … and so does a word. -/
theorem putWord_keeps {s : Cursor Color} (h : P s) (word : Span Color) :
    P (s.putWord W p word) := by
  by_cases hover : p.width < s.col + W.textWidth word.content ∧ s.floor < s.col
  · rw [putWord_of_over hover]
    split
    · exact hbreak s h
    · exact putDown_keeps hbreak hplace (hbreak s h) word
  · rw [putWord_of_room hover]
    exact putDown_keeps hbreak hplace h word

theorem foldl_putWord_keeps {s : Cursor Color} (h : P s) (words : List (Span Color)) :
    P (words.foldl (putWord W p) s) := by
  induction words generalizing s with
  | nil => exact h
  | cons word words ih => exact ih (putWord_keeps hbreak hplace h word)

end Keeps

/-! ## the text -/

/-- The rows as they are drawn. -/
def shown (s : Cursor Color) : List (List (Cell Color)) :=
  (s.rows ++ [s.cur]).map fun row => row.flatMap (Span.cells {})

/-- The indent as it is drawn. -/
def hangCells (p : Page Color) : List (Cell Color) := p.hang.flatMap (Span.cells {})

theorem shown_breakRow (s : Cursor Color) : (s.breakRow p).shown = s.shown ++ [hangCells p] := by
  simp [shown, breakRow, hangCells]

theorem shown_place (s : Cursor Color) (span : Span Color) :
    ∃ rows row, s.shown = rows ++ [row] ∧
      (s.place W span).shown = rows ++ [row ++ span.cells {}] := by
  refine ⟨s.rows.map fun row => row.flatMap (Span.cells {}), s.cur.flatMap (Span.cells {}), ?_, ?_⟩
  · simp [shown]
  · simp [shown, place]

end Cursor

theorem Rejoined.push {hang row text : List (Cell Color)} {rows : List (List (Cell Color))}
    (h : Rejoined hang (rows ++ [row]) text) (more : List (Cell Color)) :
    Rejoined hang (rows ++ [row ++ more]) (text ++ more) := by
  generalize hrows : rows ++ [row] = all at h
  cases h with
  | first row' =>
    have hone : rows ++ [row] = [] ++ [text] := hrows
    obtain ⟨rfl, hrow⟩ := List.append_inj' hone rfl
    rw [List.cons.inj hrow |>.1]
    exact .first _
  | next gap row' hrest hgap =>
    obtain ⟨rfl, hrow⟩ := List.append_inj' hrows rfl
    rw [List.cons.inj hrow |>.1, List.append_assoc, List.append_assoc]
    exact .next gap (row' ++ more) hrest hgap

theorem Rejoined.breakRow {hang text : List (Cell Color)} {rows : List (List (Cell Color))}
    (h : Rejoined hang rows text) {gap : List (Cell Color)}
    (hgap : ∀ c ∈ gap, isWhitespace c.char = true) : Rejoined hang (rows ++ [hang]) (text ++ gap) := by
  have hnext := Rejoined.next gap [] h hgap
  rwa [List.append_nil, List.append_nil] at hnext

namespace Cursor

/-- The rows of the text so far. -/
def Holds (p : Page Color) (s : Cursor Color) (text : List (Cell Color)) : Prop :=
  Rejoined (hangCells p) s.shown text

theorem Holds.makeRoom {s : Cursor Color} {text : List (Cell Color)} (h : Holds p s text)
    (w : Nat) : Holds p (s.makeRoom p w) text := by
  rw [Cursor.makeRoom]
  split
  · rw [Holds, shown_breakRow]
    have hbroken := @Rejoined.breakRow _ _ _ _ h [] (by simp)
    rwa [List.append_nil] at hbroken
  · exact h

theorem Holds.place {s : Cursor Color} {text : List (Cell Color)} (h : Holds p s text)
    (span : Span Color) : Holds p (s.place W span) (text ++ span.cells {}) := by
  obtain ⟨rows, row, hshown, hplaced⟩ := @shown_place _ W s span
  rw [Holds, hshown] at h
  rw [Holds, hplaced]
  exact h.push _

theorem Holds.putChars {s : Cursor Color} {text : List (Cell Color)} (h : Holds p s text)
    (style : Style Color) (cs : List Char) :
    Holds p (cs.foldl (putChar W p style) s) (text ++ Span.cells {} ⟨cs, style⟩) := by
  induction cs generalizing s text with
  | nil => simpa [Span.cells] using h
  | cons c cs ih =>
    have hrest := ih ((h.makeRoom (W.width c)).place (W := W) ⟨[c], style⟩)
    rw [List.append_assoc] at hrest
    exact hrest

/-- **A word put down** adds its cells to the text, or it is a blank that is dropped. -/
theorem Holds.putWord {s : Cursor Color} {text : List (Cell Color)} (h : Holds p s text)
    (word : Span Color) : Holds p (s.putWord W p word) (text ++ word.cells {}) := by
  rw [Cursor.putWord]
  split
  · next hdropped =>
    rw [Bool.and_eq_true, decide_eq_true_eq] at hdropped
    rw [Cursor.makeRoom, if_pos hdropped.1, Holds, shown_breakRow]
    refine Rejoined.breakRow h fun c hc => ?_
    obtain ⟨ch, hch, rfl⟩ := List.mem_map.mp hc
    exact List.all_eq_true.mp hdropped.2 ch hch
  · split
    · exact (h.makeRoom _).putChars word.style word.content
    · exact (h.makeRoom _).place word

theorem Holds.foldl_putWord {s : Cursor Color} {text : List (Cell Color)} (h : Holds p s text)
    (words : List (Span Color)) :
    Holds p (words.foldl (Cursor.putWord W p) s) (text ++ words.flatMap (Span.cells {})) := by
  induction words generalizing s text with
  | nil => simpa using h
  | cons word words ih =>
    have hrest := ih (h.putWord (W := W) word)
    rwa [List.append_assoc] at hrest

end Cursor

/-! ## the whole line -/

/-- Where the words of a line have led. -/
def laidOut (W : Widths) (line : Line Color) (width : Nat) : Cursor Color :=
  (wordsOf line).foldl (Cursor.putWord W (pageOf line width)) {}

theorem map_cells_wrapLine (line : Line Color) {width : Nat} (hwidth : width ≠ 0) :
    (wrapLine W line width).map Line.cells =
      (laidOut W (sanitizeLine W line) width).shown := by
  rw [wrapLine_eq line hwidth]
  simp only [List.map_map]
  rfl

/-- **Nothing is lost**, and every character keeps the style of its span. -/
theorem holds_laidOut (line : Line Color) (width : Nat) :
    (laidOut W line width).Holds (pageOf line width) (line.spans.flatMap (Span.cells {})) := by
  have hstart : ({} : Cursor Color).Holds (pageOf line width) [] := .first []
  have hwords := hstart.foldl_putWord (W := W) (wordsOf line)
  rwa [List.nil_append, cells_wordsOf] at hwords

theorem Rejoined.ne_nil {hang text : List (Cell Color)} {rows : List (List (Cell Color))}
    (h : Rejoined hang rows text) : rows ≠ [] := by
  cases h with
  | first row => simp
  | next gap row _ _ => simp

/-- The first row begins the text. -/
theorem Rejoined.head {hang text row : List (Cell Color)} {rows : List (List (Cell Color))}
    (h : Rejoined hang (row :: rows) text) : ∃ rest, text = row ++ rest := by
  generalize hall : row :: rows = all at h
  induction h generalizing rows with
  | first row' => exact ⟨[], by rw [List.append_nil, (List.cons.inj hall).1]⟩
  | @next rows' text gap row' hrest hgap ih =>
    cases rows' with
    | nil => exact absurd rfl hrest.ne_nil
    | cons row'' rows'' =>
      obtain ⟨rfl, _⟩ := List.cons.inj hall
      obtain ⟨rest, rfl⟩ := ih rfl
      exact ⟨rest ++ gap ++ row', by simp⟩

/-- A character stands on the first row. -/
def Cursor.Begun (s : Cursor Color) : Prop :=
  ∃ c row rows, s.shown = (c :: row) :: rows ∧ c.line = ({} : Style Color)

theorem Cursor.Begun.breakRow {s : Cursor Color} (h : s.Begun) : (s.breakRow p).Begun := by
  obtain ⟨c, row, rows, hshown, hc⟩ := h
  exact ⟨c, row, rows ++ [hangCells p], by rw [shown_breakRow, hshown]; rfl, hc⟩

theorem Cursor.Begun.place {s : Cursor Color} (h : s.Begun) (span : Span Color) :
    (s.place W span).Begun := by
  obtain ⟨c, row, rows, hshown, hc⟩ := h
  obtain ⟨rows', row', hshown', hplaced⟩ := @shown_place _ W s span
  cases rows' with
  | nil =>
    rw [hshown, List.nil_append] at hshown'
    obtain ⟨rfl, _⟩ := List.cons.inj hshown'
    exact ⟨c, row ++ span.cells {}, [], hplaced, hc⟩
  | cons first rows' =>
    rw [hshown, List.cons_append] at hshown'
    obtain ⟨rfl, _⟩ := List.cons.inj hshown'
    exact ⟨c, row, rows' ++ [row' ++ span.cells {}], hplaced, hc⟩

/-- The first word is put on the first row. -/
theorem begun_laidOut {line : Line Color} (h : line.text ≠ []) (width : Nat) :
    (laidOut W line width).Begun := by
  cases hwords : wordsOf line with
  | nil =>
    rw [← text_wordsOf, hwords] at h
    exact absurd rfl h
  | cons word words =>
    have hword := isWord_of_mem_wordsOf (hwords ▸ List.mem_cons_self ..)
    obtain ⟨c, cs, hcontent⟩ := List.exists_cons_of_ne_nil hword.ne_nil
    have hplace : ∀ span : Span Color, span.content ≠ [] →
        (({} : Cursor Color).place W span).Begun := by
      intro span hne
      obtain ⟨c, cs, hcontent⟩ := List.exists_cons_of_ne_nil hne
      exact ⟨⟨c, {}, span.style⟩, cs.map fun c => ⟨c, {}, span.style⟩, [],
        by simp [Cursor.shown, Cursor.place, Span.cells, hcontent], rfl⟩
    have hfirst : (({} : Cursor Color).putWord W (pageOf line width) word).Begun := by
      rw [Cursor.putWord_of_room (by simp), Cursor.putDown]
      split
      · rw [hcontent, List.foldl_cons]
        refine Cursor.putChars_keeps (fun _ hs => hs.breakRow) (fun _ _ hs => hs.place _) _ ?_
        rw [Cursor.putChar, Cursor.makeRoom, if_neg (by simp)]
        exact hplace _ (by simp)
      · exact hplace word hword.ne_nil
    rw [laidOut, hwords, List.foldl_cons]
    exact Cursor.foldl_putWord_keeps (fun _ hs => hs.breakRow) (fun _ _ hs => hs.place _) hfirst words

/-- **The text is there again**, in the styles it had but for the line's own: the rows have none. -/
theorem rejoined_iff (line : Line Color) {width : Nat} (hwidth : width ≠ 0) :
    Rejoined (Line.cells { spans := (pageOf (sanitizeLine W line) width).hang })
        ((wrapLine W line width).map Line.cells)
        (Line.cells { sanitizeLine W line with style := line.style }) ↔
      line.style = {} ∨ (sanitizeLine W line).text = [] := by
  have hholds := @holds_laidOut _ W (sanitizeLine W line) width
  rw [map_cells_wrapLine line hwidth]
  constructor
  · intro hstyled
    by_contra hnot
    rw [not_or] at hnot
    obtain ⟨c, row, rows, hshown, hc⟩ := @begun_laidOut _ W _ hnot.2 width
    rw [hshown] at hstyled
    obtain ⟨rest, htext⟩ := hstyled.head
    have hmem : c ∈ Line.cells { sanitizeLine W line with style := line.style } := by
      rw [htext]
      simp
    obtain ⟨span, _, hspan⟩ := List.mem_flatMap.mp hmem
    obtain ⟨ch, _, rfl⟩ := List.mem_map.mp hspan
    exact hnot.1 hc
  · rintro (hplain | hempty)
    · rw [hplain]
      exact hholds
    · have hnone : ∀ style, (sanitizeLine W line).spans.flatMap (Span.cells style) = [] := by
        intro style
        rw [List.flatMap_eq_nil_iff]
        intro span hspan
        rw [Span.cells, List.flatMap_eq_nil_iff.mp hempty span hspan, List.map_nil]
      have hcells : Line.cells { sanitizeLine W line with style := line.style } = [] :=
        hnone line.style
      rw [Cursor.Holds, hnone] at hholds
      rw [hcells]
      exact hholds

end ClaudeReplay.Viewer
