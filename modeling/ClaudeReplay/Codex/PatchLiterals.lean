import ClaudeReplay.Codex.Patches
import ClaudeReplay.Lib.Unquote

/-!
# ClaudeReplay.Codex.PatchLiterals

The patches in the code of an `apply_patch` wrapper.

A wrapper carries each patch as a double-quoted literal. `patchLiterals` looks for the quote and
the first words of a patch, takes the text up to the quote that closes the literal, turns each
escaped apostrophe into an apostrophe, and reads the rest as JSON.

That turning goes by the characters. Where an escaped backslash stands right before an
apostrophe it takes the backslash's second half for the escape, what is left is no JSON, and the
literal is dropped (`patchLiterals_code`).
-/

namespace ClaudeReplay.Codex.Patches

open Lib

/-! ## the code -/

def quotedBegin : Text := '"' :: beginMark

/-- The text up to the quote that closes a literal, and what follows it. -/
def closeQuote : Bool → Text → Option (Text × Text)
  | _, [] => none
  | true, c :: cs => (closeQuote false cs).map fun cut => (c :: cut.1, cut.2)
  | false, c :: cs =>
    if c = '\\' then (closeQuote true cs).map fun cut => (c :: cut.1, cut.2)
    else if c = '"' then some ([], cs)
    else (closeQuote false cs).map fun cut => (c :: cut.1, cut.2)

/-- `.replace("\\'", "'")`. -/
def plainApostrophes (literal : Text) : Text := replaceAll ['\\', apostrophe] [apostrophe] literal

theorem length_closeQuote {escaped : Bool} {s content rest : Text}
    (h : closeQuote escaped s = some (content, rest)) : rest.length < s.length := by
  fun_induction closeQuote escaped s generalizing content with
  | case1 => simp at h
  | case2 c cs ih =>
    obtain ⟨cut, hcut, ⟨⟩⟩ := Option.map_eq_some_iff.mp h
    have := ih hcut
    simp only [List.length_cons]
    omega
  | case3 cs ih =>
    obtain ⟨cut, hcut, ⟨⟩⟩ := Option.map_eq_some_iff.mp h
    have := ih hcut
    simp only [List.length_cons]
    omega
  | case4 cs hslash =>
    cases h
    simp
  | case5 c cs hslash hquote ih =>
    obtain ⟨cut, hcut, ⟨⟩⟩ := Option.map_eq_some_iff.mp h
    have := ih hcut
    simp only [List.length_cons]
    omega

theorem length_literal {code before after content rest : Text}
    (hfind : splitAt? quotedBegin code = some (before, after))
    (hclose : closeQuote false (beginMark ++ after) = some (content, rest)) :
    rest.length < code.length := by
  have hlt := length_closeQuote hclose
  rw [splitAt?_eq_some hfind]
  simp only [quotedBegin, List.length_append, List.length_cons] at hlt ⊢
  omega

/-- `patch_literals`. -/
def patchLiterals (code : Text) : List Text :=
  match _hfind : splitAt? quotedBegin code with
  | none => []
  | some (_, after) =>
    match _hclose : closeQuote false (beginMark ++ after) with
    | none => []
    | some (content, rest) =>
      (readString (plainApostrophes ('"' :: content ++ ['"']))).toList ++ patchLiterals rest
termination_by code.length
decreasing_by exact length_literal (by assumption) (by assumption)

/-! ## wrappers -/

/-- Code without the start of a literal. -/
structure Gap where
  code : Text
  free : occurs quotedBegin code = false

/-- A patch in a literal. Its first words stand as they are. -/
structure Literal where
  patch : Patch
  spelled : List Spelled
  spells : beginMark ++ spelled.map Spelled.char = patch.text

/-- Code around literals. -/
structure Wrapper where
  pieces : List (Gap × Literal)
  tail : Gap

def spelledText (spelled : List Spelled) : Text := spelled.flatMap Spelled.text

def Literal.text (l : Literal) : Text := quotedBegin ++ spelledText l.spelled ++ ['"']

def Wrapper.code (w : Wrapper) : Text :=
  (w.pieces.flatMap fun piece => piece.1.code ++ piece.2.text) ++ w.tail.code

def Wrapper.patches (w : Wrapper) : List Patch := w.pieces.map fun piece => piece.2.patch

/-- A backslash stands right before an apostrophe, and neither belongs to the other. -/
def broken : List Spelled → Bool
  | s :: t :: rest =>
    (s.text.getLast? = some '\\' && t.text.head? = some apostrophe) || broken (t :: rest)
  | _ => false

/-! ## the end of a literal -/

/-- The scan for the closing quote goes through the text. -/
def Through (xs : Text) : Prop :=
  ∀ rest, closeQuote false (xs ++ rest) =
    (closeQuote false rest).map fun cut => (xs ++ cut.1, cut.2)

theorem through_nil : Through [] := by
  intro rest
  simp

theorem Through.append {xs ys : Text} (hxs : Through xs) (hys : Through ys) :
    Through (xs ++ ys) := by
  intro rest
  rw [List.append_assoc, hxs, hys]
  simp [Option.map_map, Function.comp_def]

theorem through_one {c : Char} (h : c ≠ '\\' ∧ c ≠ '"') : Through [c] := by
  intro rest
  simp [closeQuote, h]

theorem through_escape (c : Char) : Through ['\\', c] := by
  intro rest
  simp [closeQuote, Option.map_map, Function.comp_def]

theorem through_all {xs : Text} (h : ∀ c ∈ xs, c ≠ '\\' ∧ c ≠ '"') : Through xs := by
  induction xs with
  | nil => exact through_nil
  | cons c xs ih =>
    rw [List.forall_mem_cons] at h
    exact (through_one h.1).append (ih h.2)

/-! ## apostrophes -/

/-- No escaped apostrophe is in the text, or begins in it. -/
def Quiet (xs : Text) : Prop :=
  ∀ rest, plainApostrophes (xs ++ rest) = xs ++ plainApostrophes rest

theorem quiet_nil : Quiet [] := by
  intro rest
  simp

theorem Quiet.append {xs ys : Text} (hxs : Quiet xs) (hys : Quiet ys) : Quiet (xs ++ ys) := by
  intro rest
  rw [List.append_assoc, hxs, hys, List.append_assoc]

theorem quiet_one {c : Char} (h : c ≠ '\\') : Quiet [c] := by
  intro rest
  exact replaceAll_cons_of_ne h _ _ rest

theorem quiet_all {xs : Text} (h : ∀ c ∈ xs, c ≠ '\\') : Quiet xs := by
  intro rest
  exact replaceAll_append_of_notMem (fun hmem => h _ hmem rfl) _ _ rest

theorem quiet_escape {c : Char} (hslash : c ≠ '\\') (hapostrophe : c ≠ apostrophe) :
    Quiet ['\\', c] := by
  intro rest
  have hpre : ¬['\\', apostrophe] <+: '\\' :: c :: rest := by
    simp [Ne.symm hapostrophe]
  have hone := quiet_one hslash rest
  rw [plainApostrophes, List.cons_append, List.cons_append, List.nil_append,
    replaceAll_cons hpre]
  exact congrArg ('\\' :: ·) hone

theorem isHexDigit_ne {c : Char} (h : isHexDigit c = true) : c ≠ '\\' ∧ c ≠ '"' := by
  constructor <;> rintro rfl <;> contradiction

/-- The digits of a `\u`. -/
theorem through_digits {digits : Text} (h : UnicodeDigits digits) : Through digits := by
  have hall : ∀ {xs : Text}, xs.all isHexDigit = true → Through xs := fun hxs =>
    through_all fun c hc => isHexDigit_ne (List.all_eq_true.mp hxs c hc)
  cases h with
  | four h => exact hall h
  | pair h h' => exact (hall h).append ((through_escape 'u').append (hall h'))

theorem quiet_digits {digits : Text} (h : UnicodeDigits digits) : Quiet digits := by
  have hall : ∀ {xs : Text}, xs.all isHexDigit = true → Quiet xs := fun hxs =>
    quiet_all fun c hc => (isHexDigit_ne (List.all_eq_true.mp hxs c hc)).1
  cases h with
  | four h => exact hall h
  | pair h h' => exact (hall h).append ((quiet_escape (by decide) (by decide)).append (hall h'))

theorem getLast?_digits {digits : Text} (h : UnicodeDigits digits) :
    ∃ c, digits.getLast? = some c ∧ c ≠ '\\' := by
  cases h with
  | @four a b c d h =>
    exact ⟨d, rfl, (isHexDigit_ne (List.all_eq_true.mp h d (by simp))).1⟩
  | @pair a b c d e f g i h h' =>
    exact ⟨i, rfl, (isHexDigit_ne (List.all_eq_true.mp h' i (by simp))).1⟩

theorem digits_of_stands {digits : Text} {c : Char} (h : readUnicode digits = some (c, [])) :
    UnicodeDigits digits := by
  obtain ⟨front, hfront, hdigits, -⟩ := readUnicode_eq_some h
  rw [hfront, List.append_nil]
  exact hdigits

theorem isRaw_ne {c : Char} (h : isRaw c = true) : c ≠ '\\' ∧ c ≠ '"' := by
  constructor <;> rintro rfl <;> contradiction

/-! ## spelled characters -/

theorem spelled_through (s : Spelled) : Through s.text := by
  cases s with
  | raw c plain => exact through_one (isRaw_ne plain)
  | short letter c stands => exact through_escape letter
  | unicode digits c stands =>
    exact (through_escape 'u').append (through_digits (digits_of_stands stands))
  | apostrophe => exact through_escape Lib.apostrophe

/-- What a spelled character does to the turning of escaped apostrophes. -/
theorem spelled_cases (s : Spelled) :
    s.text = ['\\', '\\'] ∧ s.char = '\\' ∧ s.isJson = true ∨ s = .apostrophe ∨
      Quiet s.text ∧ s.isJson = true ∧ s.text.getLast? ≠ some '\\' := by
  cases s with
  | raw c plain =>
    have hc := isRaw_ne plain
    exact .inr (.inr ⟨quiet_one hc.1, rfl, by simp [Spelled.text, hc.1]⟩)
  | short letter c stands =>
    by_cases hletter : letter = '\\'
    · subst hletter
      have hc : c = '\\' := by
        simp [escapedChar] at stands
        exact stands.symm
      exact .inl ⟨rfl, hc, rfl⟩
    · have hapostrophe : letter ≠ Lib.apostrophe := by
        rintro rfl
        contradiction
      exact .inr (.inr ⟨quiet_escape hletter hapostrophe, rfl, by simp [Spelled.text, hletter]⟩)
  | unicode digits c stands =>
    have hdigits := digits_of_stands stands
    obtain ⟨d, hd, hne⟩ := getLast?_digits hdigits
    refine .inr (.inr ⟨(quiet_escape (by decide) (by decide)).append (quiet_digits hdigits),
      rfl, ?_⟩)
    cases digits with
    | nil => simp at hd
    | cons e es => simpa [Spelled.text, hd] using hne
  | apostrophe => exact .inr (.inl rfl)

theorem spelledText_cons (s : Spelled) (rest : List Spelled) :
    spelledText (s :: rest) = s.text ++ spelledText rest := rfl

/-- Whether a list is broken at its first, by what comes next. -/
theorem broken_cons (s : Spelled) (rest : List Spelled) :
    broken (s :: rest) = ((s.text.getLast? = some '\\' &&
      (spelledText rest ++ ['"']).head? = some apostrophe) || broken rest) := by
  cases rest with
  | nil =>
    have hquote : ¬some '"' = some apostrophe := by decide
    simp [broken, spelledText, hquote]
  | cons t more =>
    obtain ⟨c, cs, hc⟩ := List.exists_cons_of_ne_nil t.text_ne_nil
    simp [broken, spelledText_cons, hc]

/-- Two backslashes: the second is half of an escaped apostrophe if one comes next. -/
theorem plainApostrophes_backslash (rest : Text) :
    plainApostrophes ('\\' :: '\\' :: rest) =
      '\\' :: if rest.head? = some apostrophe then apostrophe :: plainApostrophes rest.tail
        else '\\' :: plainApostrophes rest := by
  have hpre : ¬['\\', apostrophe] <+: '\\' :: '\\' :: rest := by
    simp
    decide
  rw [plainApostrophes, replaceAll_cons hpre]
  congr 1
  split
  · next hhead =>
    cases rest with
    | nil => simp at hhead
    | cons c rest =>
      simp only [List.head?_cons, Option.some.injEq] at hhead
      subst hhead
      exact replaceAll_append _ _
  · next hhead =>
    have hnext : ¬['\\', apostrophe] <+: '\\' :: rest := by
      rintro ⟨more, hmore⟩
      simp only [List.cons_append, List.nil_append, List.cons.injEq, true_and] at hmore
      exact hhead (by rw [← hmore]; rfl)
    exact replaceAll_cons hnext _

/-- **What the turning leaves is read, or is no JSON.** -/
theorem unquote_plainApostrophes (spelled : List Spelled) :
    unquote (plainApostrophes (spelledText spelled ++ ['"'])) =
      if broken spelled then none else some (spelled.map Spelled.char) := by
  induction spelled with
  | nil =>
    have hend : plainApostrophes ['"'] = ['"'] := by decide
    simp [spelledText, hend, unquote_eq, broken]
  | cons s rest ih =>
    rw [spelledText_cons, List.append_assoc, broken_cons]
    generalize spelledText rest ++ ['"'] = more at ih ⊢
    rcases spelled_cases s with ⟨htext, hchar, hjson⟩ | rfl | ⟨hquiet, hjson, hlast⟩
    · -- an escaped backslash
      have hread := unquote_spelled hjson (plainApostrophes more)
      rw [htext, hchar] at hread
      rw [htext, List.cons_append, List.cons_append, List.nil_append, plainApostrophes_backslash]
      by_cases hhead : more.head? = some apostrophe
      · simp [hhead, unquote_apostrophe]
      · rw [if_neg hhead]
        simp only [List.cons_append, List.nil_append] at hread
        rw [hread, ih]
        cases broken rest <;> simp [hhead, hchar]
    · -- an escaped apostrophe
      have htext : plainApostrophes (Spelled.text .apostrophe ++ more) =
          Spelled.text (.raw apostrophe (by decide)) ++ plainApostrophes more :=
        replaceAll_append _ _
      have hlast : (Spelled.text .apostrophe).getLast? ≠ some '\\' := by decide
      rw [htext, unquote_spelled rfl, ih]
      cases broken rest <;> simp [Spelled.char, hlast]
    · have hread := unquote_spelled hjson (plainApostrophes more)
      rw [hquiet, hread, ih]
      cases broken rest <;> simp [hlast]

/-! ## the literals of a wrapper -/

theorem through_spelledText (spelled : List Spelled) : Through (spelledText spelled) := by
  induction spelled with
  | nil => exact through_nil
  | cons s rest ih => exact (spelled_through s).append ih

theorem beginMark_plain {c : Char} (h : c ∈ beginMark) : c ≠ '\\' ∧ c ≠ '"' := by
  have hall : beginMark.all isRaw = true := by decide
  exact isRaw_ne (List.all_eq_true.mp hall c h)

theorem closeQuote_literal (spelled : List Spelled) (rest : Text) :
    closeQuote false (beginMark ++ (spelledText spelled ++ '"' :: rest)) =
      some (beginMark ++ spelledText spelled, rest) := by
  have hthrough := (through_all fun c hc => beginMark_plain hc).append
    (through_spelledText spelled) ('"' :: rest)
  rw [List.append_assoc] at hthrough
  simp [hthrough, closeQuote]

theorem readString_literal (spelled : List Spelled) :
    readString (plainApostrophes ('"' :: (beginMark ++ spelledText spelled) ++ ['"'])) =
      if broken spelled then none else some (beginMark ++ spelled.map Spelled.char) := by
  have hquiet := (quiet_one (by decide : '"' ≠ '\\')).append
    (quiet_all fun c hc => (beginMark_plain hc).1) (spelledText spelled ++ ['"'])
  have hraw := unquote_append_of_isRaw (by decide : beginMark.all isRaw = true)
    (plainApostrophes (spelledText spelled ++ ['"']))
  rw [unquote_plainApostrophes] at hraw
  simp only [List.append_assoc, List.cons_append, List.nil_append] at hquiet ⊢
  rw [hquiet, readString, hraw]
  cases broken spelled <;> simp

theorem patchLiterals_gap (gap : Gap) : patchLiterals gap.code = [] := by
  have hnone : splitAt? quotedBegin gap.code = none := by
    have hfree := gap.free
    rwa [occurs, Option.isSome_eq_false_iff, Option.isNone_iff_eq_none] at hfree
  rw [patchLiterals]
  split
  · rfl
  · next hfind =>
    rw [hnone] at hfind
    contradiction

/-- One literal is read, and the reading goes on behind it. -/
theorem patchLiterals_literal (gap : Gap) (l : Literal) (rest : Text) :
    patchLiterals (gap.code ++ l.text ++ rest) =
      (if broken l.spelled then none else some l.patch.text).toList ++ patchLiterals rest := by
  have hfind : splitAt? quotedBegin (gap.code ++ l.text ++ rest) =
      some (gap.code, spelledText l.spelled ++ '"' :: rest) := by
    have hcut := @splitAt?_append _ _ '"' beginMark (by decide) _ gap.free
      (spelledText l.spelled ++ '"' :: rest)
    simpa [Literal.text, quotedBegin] using hcut
  have hread := readString_literal l.spelled
  rw [l.spells] at hread
  rw [patchLiterals]
  split
  · next hnone =>
    rw [hfind] at hnone
    contradiction
  · next before after hsome =>
    rw [hfind] at hsome
    cases hsome
    split
    · next hnone =>
      rw [closeQuote_literal] at hnone
      contradiction
    · next content more hsome =>
      rw [closeQuote_literal] at hsome
      cases hsome
      rw [hread]

/-- **What is read of a wrapper's literals**: each that is not broken. -/
theorem patchLiterals_code (w : Wrapper) :
    patchLiterals w.code = w.pieces.filterMap fun piece =>
      if broken piece.2.spelled then none else some piece.2.patch.text := by
  obtain ⟨pieces, tail⟩ := w
  induction pieces with
  | nil => exact patchLiterals_gap tail
  | cons piece pieces ih =>
    have hcode : Wrapper.code ⟨piece :: pieces, tail⟩ =
        piece.1.code ++ piece.2.text ++ Wrapper.code ⟨pieces, tail⟩ := by
      simp [Wrapper.code]
    rw [hcode, patchLiterals_literal, ih]
    cases hbroken : broken piece.2.spelled <;> simp [hbroken]

/-- **Patches are read back as written**, exactly when no literal has an escaped backslash right
before an apostrophe and no line of a patch ends in a carriage return. -/
theorem patches_read_iff (w : Wrapper) :
    (patchLiterals w.code = w.patches.map Patch.text ∧
      ∀ p ∈ w.patches, patchFiles p.text = p.files.map FilePatch.text ∧
        ∀ f ∈ p.files, patchTarget f.text = some f.path.text ∧ patchDiffs f.text = f.diffs) ↔
    (∀ piece ∈ w.pieces, broken piece.2.spelled = false) ∧
      ∀ p ∈ w.patches, ∀ f ∈ p.files, ∀ line ∈ f.lines, line.getLast? ≠ some '\r' := by
  rw [patchLiterals_code]
  constructor
  · rintro ⟨hliterals, hpatches⟩
    constructor
    · have hlen := congrArg List.length hliterals
      rw [Wrapper.patches, List.map_map, List.length_map, List.filterMap_length_eq_length] at hlen
      intro piece hpiece
      simpa using hlen piece hpiece
    · intro p hp
      exact (patchFiles_iff p).mp (hpatches p hp).1
  · rintro ⟨hwhole, hreturns⟩
    constructor
    · rw [Wrapper.patches, List.map_map, ← List.filterMap_eq_map]
      apply List.filterMap_congr
      intro piece hpiece
      simp [hwhole piece hpiece]
    · intro p hp
      exact ⟨(patchFiles_iff p).mpr (hreturns p hp), fun f hf => file_read (hreturns p hp f hf)⟩

/-- The writers of JSON escape a newline and a backslash, and leave an apostrophe as it is. -/
def spell (c : Char) : Spelled :=
  if plain : isRaw c = true then .raw c plain
  else if c = '\n' then .short 'n' '\n' rfl
  else .short '\\' '\\' rfl

/-- An added line with an apostrophe behind a backslash. -/
def quotedLine : Patch where
  files := [.add ⟨['a'], by decide⟩ [⟨['\\', apostrophe], by decide⟩]]
  newline := false

/-- Its literal is dropped, and the patch with it. -/
theorem quotedLine_dropped :
    ∃ w : Wrapper, w.patches = [quotedLine] ∧ patchLiterals w.code = [] := by
  let rest := quotedLine.text.drop beginMark.length
  let w : Wrapper := ⟨[(⟨"const patch = ".toList, by decide⟩,
    ⟨quotedLine, rest.map spell, by decide +kernel⟩)], ⟨";".toList, by decide⟩⟩
  refine ⟨w, rfl, ?_⟩
  rw [patchLiterals_code]
  decide +kernel

end ClaudeReplay.Codex.Patches
