import ClaudeReplay.Lib.Replace
import ClaudeReplay.Text

/-!
# ClaudeReplay.Codex.Patches

A patch, as Codex writes it and as the replay reads it.

A patch is a list of files, added, deleted or updated, and an updated file is a list of hunks of
kept, removed and added lines. `Patch.text` writes it, `patchFiles` cuts that text into one for
each file, and `patchTarget` and `patchDiffs` read a file's path and its hunks.

The readers go by `str::lines`, which takes a carriage return at the end of a line for part of
the line's end. So they read the patch with those returns dropped (`patchFiles_text`,
`patchTarget_text`, `patchDiffs_text`).
-/

namespace ClaudeReplay.Codex.Patches

open Lib

abbrev Text := List Char

/-! ## the code -/

def updateMark : Text := "*** Update File: ".toList

def addMark : Text := "*** Add File: ".toList

def deleteMark : Text := "*** Delete File: ".toList

def beginMark : Text := "*** Begin Patch".toList

def endMark : Text := "*** End Patch".toList

def headers : List Text := [updateMark, addMark, deleteMark]

def isHeader (line : Text) : Bool := headers.any fun mark => mark.isPrefixOf line

/-- Add to the last of the texts, if there is one. -/
def addToLast (s : Text) : List Text → List Text
  | [] => []
  | [last] => [last ++ s]
  | first :: out => first :: addToLast s out

/-- One line of `patch_files`. -/
def fileStep (out : List Text) (line : Text) : List Text :=
  if isHeader line then addToLast (line ++ ['\n']) (out ++ [[]])
  else if out = [] ∨ beginMark.isPrefixOf line ∨ endMark.isPrefixOf line then out
  else addToLast (line ++ ['\n']) out

/-- `patch_files`. -/
def patchFiles (patch : Text) : List Text := (strLines patch).foldl fileStep []

/-- `patch_target`. -/
def patchTarget (patch : Text) : Option Text :=
  (strLines patch).findSome? fun line => headers.findSome? fun mark => stripFront? mark line

/-- What `patch_diffs` has gathered. -/
structure Gathered where
  out : List (Text × Text)
  old : List Text
  new : List Text

def joinLines (lines : List Text) : Text := ['\n'].intercalate lines

/-- `flush`. -/
def Gathered.flush (g : Gathered) : Gathered :=
  if g.old ≠ [] ∨ g.new ≠ [] then
    { out := g.out ++ [(joinLines g.old, joinLines g.new)], old := [], new := [] }
  else g

/-- One line of `patch_diffs`. -/
def diffStep (g : Gathered) (line : Text) : Gathered :=
  if "@@".toList.isPrefixOf line ∨ "*** ".toList.isPrefixOf line then g.flush
  else
    match line with
    | '-' :: line => { g with old := g.old ++ [line] }
    | '+' :: line => { g with new := g.new ++ [line] }
    | ' ' :: line => { g with old := g.old ++ [line], new := g.new ++ [line] }
    | _ => g

/-- `patch_diffs`. -/
def patchDiffs (patch : Text) : List (Text × Text) :=
  ((strLines patch).foldl diffStep ⟨[], [], []⟩).flush.out

/-! ## patches as they are written -/

/-- A text without a newline. -/
structure OneLine where
  text : Text
  whole : '\n' ∉ text

inductive Change
  | kept
  | removed
  | added

def Change.mark : Change → Char
  | .kept => ' '
  | .removed => '-'
  | .added => '+'

structure Line where
  change : Change
  content : OneLine

/-- Lines that changed together, behind the contexts that say where. -/
structure Hunk where
  contexts : List OneLine
  lines : List Line
  placed : contexts ≠ []
  changed : lines ≠ []

/-- One file of a patch. The lines of an update that come first may stand without a context. -/
inductive FilePatch
  | add (path : OneLine) (lines : List OneLine)
  | delete (path : OneLine)
  | update (path : OneLine) (moveTo : Option OneLine) (first : List Line) (hunks : List Hunk)
      (endOfFile : Bool)

/-- `newline`: whether one ends the patch. -/
structure Patch where
  files : List FilePatch
  newline : Bool

def Line.text (l : Line) : Text := l.change.mark :: l.content.text

def contextText (context : OneLine) : Text := '@' :: '@' :: context.text

def Hunk.texts (h : Hunk) : List Text := h.contexts.map contextText ++ h.lines.map Line.text

def moveMark : Text := "*** Move to: ".toList

def endOfFileMark : Text := "*** End of File".toList

namespace FilePatch

def path : FilePatch → OneLine
  | add path _ => path
  | delete path => path
  | update path _ _ _ _ => path

def mark : FilePatch → Text
  | add _ _ => addMark
  | delete _ => deleteMark
  | update _ _ _ _ _ => updateMark

/-- The lines behind the header. -/
def body : FilePatch → List Text
  | add _ lines => lines.map fun line => '+' :: line.text
  | delete _ => []
  | update _ moveTo first hunks endOfFile =>
    (moveTo.map fun path => moveMark ++ path.text).toList ++ first.map Line.text ++
      hunks.flatMap Hunk.texts ++ if endOfFile then [endOfFileMark] else []

def lines (f : FilePatch) : List Text := (f.mark ++ f.path.text) :: f.body

def text (f : FilePatch) : Text := unlines '\n' f.lines

end FilePatch

def Patch.text (p : Patch) : Text :=
  unlines '\n' (beginMark :: p.files.flatMap FilePatch.lines) ++ endMark ++
    if p.newline then ['\n'] else []

/-! ## what a patch says -/

def Change.isOld : Change → Bool
  | .added => false
  | _ => true

def Change.isNew : Change → Bool
  | .removed => false
  | _ => true

def oldLines (lines : List Line) : List Text :=
  (lines.filter (·.change.isOld)).map (·.content.text)

def newLines (lines : List Line) : List Text :=
  (lines.filter (·.change.isNew)).map (·.content.text)

/-- The kept and removed lines, and the kept and added. -/
def diffOf (lines : List Line) : Text × Text :=
  (joinLines (oldLines lines), joinLines (newLines lines))

/-- What lines say, if there are any. -/
def diffsOf (lines : List Line) : List (Text × Text) :=
  if lines = [] then [] else [diffOf lines]

def added (content : OneLine) : Line := ⟨.added, content⟩

/-- What each hunk says. An added file is one hunk of added lines. -/
def FilePatch.diffs : FilePatch → List (Text × Text)
  | add _ lines => diffsOf (lines.map added)
  | delete _ => []
  | update _ _ first hunks _ => diffsOf first ++ hunks.map fun h => diffOf h.lines

/-! ## lines -/

/-- A line as `str::lines` gives it. -/
def dropReturn (line : Text) : Text := if line.getLast? = some '\r' then line.dropLast else line

theorem dropReturn_cons {c : Char} (hc : c ≠ '\r') (line : Text) :
    dropReturn (c :: line) = c :: dropReturn line := by
  cases line with
  | nil => simp [dropReturn, hc]
  | cons d line =>
    simp only [dropReturn, List.getLast?_cons_cons]
    split <;> simp

theorem dropReturn_append {mark : Text} (h : '\r' ∉ mark) (line : Text) :
    dropReturn (mark ++ line) = mark ++ dropReturn line := by
  induction mark with
  | nil => rfl
  | cons c mark ih =>
    rw [List.mem_cons, not_or] at h
    rw [List.cons_append, dropReturn_cons (Ne.symm h.1), ih h.2, List.cons_append]

theorem dropReturn_eq_self {line : Text} : dropReturn line = line ↔ line.getLast? ≠ some '\r' := by
  rw [dropReturn]
  split
  · next hlast =>
    have hne : line ≠ [] := by
      rintro rfl
      simp at hlast
    have hlen := List.length_pos_iff.mpr hne
    constructor
    · intro heq
      have := congrArg List.length heq
      rw [List.length_dropLast] at this
      omega
    · intro hnot
      exact absurd hlast hnot
  · next hlast => simp [hlast]

theorem newline_notMem_dropReturn {line : Text} (h : '\n' ∉ line) : '\n' ∉ dropReturn line := by
  rw [dropReturn]
  split
  · exact fun hmem => h (List.dropLast_subset _ hmem)
  · exact h

theorem strLines_unlines {lines : List Text} (h : ∀ line ∈ lines, '\n' ∉ line) :
    strLines (unlines '\n' lines) = lines.map dropReturn := by
  simp only [strLines, splitLines_whole h, if_true, List.append_nil]
  rfl

/-- The last line may go without its newline, when no return ends it. -/
theorem strLines_unlines_append {lines : List Text} (h : ∀ line ∈ lines, '\n' ∉ line) {last : Text}
    (hlast : '\n' ∉ last) (hne : last ≠ []) (hreturn : last.getLast? ≠ some '\r') (newline : Bool) :
    strLines (unlines '\n' lines ++ last ++ if newline then ['\n'] else []) =
      lines.map dropReturn ++ [last] := by
  cases newline with
  | false =>
    simp only [Bool.false_eq_true, if_false, List.append_nil, strLines,
      splitLines_unlines h last, splitLines_torn hlast, if_neg hne]
    rfl
  | true =>
    have hall : ∀ line ∈ lines ++ [last], '\n' ∉ line := by
      intro line hline
      rcases List.mem_append.mp hline with hline | hline
      · exact h line hline
      · rw [List.mem_singleton.mp hline]
        exact hlast
    have htext : unlines '\n' lines ++ last ++ ['\n'] = unlines '\n' (lines ++ [last]) := by
      simp [unlines_append]
    rw [if_pos rfl, htext, strLines_unlines hall, List.map_append, List.map_singleton,
      dropReturn_eq_self.mpr hreturn]

theorem unlines_inj {lines lines' : List Text} (h : ∀ line ∈ lines, '\n' ∉ line)
    (h' : ∀ line ∈ lines', '\n' ∉ line) (heq : unlines '\n' lines = unlines '\n' lines') :
    lines = lines' := by
  have hsplit := splitLines_whole h
  rw [heq, splitLines_whole h'] at hsplit
  exact (Prod.mk.inj hsplit).1.symm

/-! ## a patch with its returns dropped -/

def OneLine.dropReturn (l : OneLine) : OneLine :=
  ⟨Patches.dropReturn l.text, newline_notMem_dropReturn l.whole⟩

def Line.dropReturn (l : Line) : Line := ⟨l.change, l.content.dropReturn⟩

def Hunk.dropReturn (h : Hunk) : Hunk where
  contexts := h.contexts.map OneLine.dropReturn
  lines := h.lines.map Line.dropReturn
  placed := by simp [h.placed]
  changed := by simp [h.changed]

def FilePatch.dropReturn : FilePatch → FilePatch
  | add path lines => add path.dropReturn (lines.map OneLine.dropReturn)
  | delete path => delete path.dropReturn
  | update path moveTo first hunks endOfFile =>
    update path.dropReturn (moveTo.map OneLine.dropReturn) (first.map Line.dropReturn)
      (hunks.map Hunk.dropReturn) endOfFile

theorem Line.text_dropReturn (l : Line) : l.dropReturn.text = Patches.dropReturn l.text := by
  obtain ⟨change, content⟩ := l
  cases change <;>
    simp [Line.text, Line.dropReturn, Change.mark, OneLine.dropReturn, dropReturn_cons]

theorem Hunk.texts_dropReturn (h : Hunk) :
    h.dropReturn.texts = h.texts.map Patches.dropReturn := by
  have hcontext : ∀ context : OneLine,
      contextText context.dropReturn = Patches.dropReturn (contextText context) := by
    intro context
    simp [contextText, OneLine.dropReturn, dropReturn_cons]
  simp [Hunk.texts, Hunk.dropReturn, Function.comp_def, hcontext, Line.text_dropReturn]

theorem FilePatch.lines_dropReturn (f : FilePatch) :
    f.dropReturn.lines = f.lines.map Patches.dropReturn := by
  cases f with
  | add path lines =>
    have hpath := @dropReturn_append addMark (by decide) path.text
    simp [FilePatch.dropReturn, FilePatch.lines, mark, FilePatch.path, body, OneLine.dropReturn,
      hpath, Function.comp_def, dropReturn_cons]
  | delete path =>
    have hpath := @dropReturn_append deleteMark (by decide) path.text
    simp [FilePatch.dropReturn, FilePatch.lines, mark, FilePatch.path, body, OneLine.dropReturn,
      hpath]
  | update path moveTo first hunks endOfFile =>
    have hpath := @dropReturn_append updateMark (by decide) path.text
    have hmove : ∀ target : OneLine, Patches.dropReturn (moveMark ++ target.text) =
        moveMark ++ Patches.dropReturn target.text :=
      fun target => dropReturn_append (by decide) target.text
    have hend : Patches.dropReturn endOfFileMark = endOfFileMark := by
      rw [dropReturn_eq_self]
      decide
    have hlast : (if endOfFile then [endOfFileMark] else []).map Patches.dropReturn =
        if endOfFile then [endOfFileMark] else [] := by
      cases endOfFile <;> simp [hend]
    have hmoved : (moveTo.map OneLine.dropReturn).map (fun path => moveMark ++ path.text) =
        (moveTo.map fun path => moveMark ++ path.text).map Patches.dropReturn := by
      cases moveTo <;> simp [OneLine.dropReturn, hmove]
    have hfirst : (first.map Line.dropReturn).map Line.text =
        (first.map Line.text).map Patches.dropReturn := by
      simp [Function.comp_def, Line.text_dropReturn]
    have hhunks : (hunks.map Hunk.dropReturn).flatMap Hunk.texts =
        (hunks.flatMap Hunk.texts).map Patches.dropReturn := by
      simp [List.flatMap_map, List.map_flatMap, Hunk.texts_dropReturn]
    simp only [FilePatch.dropReturn, FilePatch.lines, mark, FilePatch.path, body,
      OneLine.dropReturn, hmoved, hfirst, hhunks, List.map_cons, List.map_append, hpath, hlast,
      Option.toList_map]

/-! ## one patch for each file -/

/-- A line behind a header, which starts nothing and ends nothing. -/
def Plain (line : Text) : Prop :=
  isHeader line = false ∧ ¬beginMark <+: line ∧ ¬endMark <+: line

theorem isHeader_eq_false {line : Text} (h : ∀ mark ∈ headers, ¬mark <+: line) :
    isHeader line = false := by
  rw [isHeader, List.any_eq_false]
  intro mark hmark
  rw [List.isPrefixOf_iff_prefix]
  exact h mark hmark

theorem plain_cons {c : Char} (hc : c ≠ '*') (line : Text) : Plain (c :: line) := by
  have hmark : ∀ mark : Text, mark.head? = some '*' → ¬mark <+: c :: line := by
    rintro mark hhead ⟨rest, hrest⟩
    cases mark with
    | nil => simp at hhead
    | cons d mark =>
      simp only [List.head?_cons, Option.some.injEq] at hhead
      exact hc (hhead ▸ (List.cons.inj hrest).1).symm
  have hall : ∀ mark ∈ headers, mark.head? = some '*' := by decide
  exact ⟨isHeader_eq_false fun mark hmem => hmark mark (hall mark hmem), hmark _ (by decide),
    hmark _ (by decide)⟩

theorem plain_append {mark : Text}
    (h : ∀ other ∈ headers ++ [beginMark, endMark], ¬other <+: mark ∧ ¬mark <+: other)
    (rest : Text) : Plain (mark ++ rest) := by
  have hother : ∀ other ∈ headers ++ [beginMark, endMark], ¬other <+: mark ++ rest :=
    fun other hmem => not_prefix_append (h other hmem).1 (h other hmem).2
  exact ⟨isHeader_eq_false fun mark hmem => hother mark (by simp [hmem]), hother _ (by simp),
    hother _ (by simp)⟩

theorem Line.plain (l : Line) : Plain l.text := by
  have hmark : l.change.mark ≠ '*' := by cases l.change <;> decide
  exact plain_cons hmark l.content.text

theorem Hunk.plain {h : Hunk} {line : Text} (hline : line ∈ h.texts) : Plain line := by
  simp only [Hunk.texts, List.mem_append, List.mem_map] at hline
  obtain ⟨context, -, rfl⟩ | ⟨l, -, rfl⟩ := hline
  · exact plain_cons (by decide) _
  · exact l.plain

theorem FilePatch.plain_body {f : FilePatch} {line : Text} (hline : line ∈ f.body) :
    Plain line := by
  cases f with
  | add path lines =>
    obtain ⟨content, -, rfl⟩ := List.mem_map.mp hline
    exact plain_cons (by decide) _
  | delete path => simp [body] at hline
  | update path moveTo first hunks endOfFile =>
    simp only [body, List.mem_append, Option.mem_toList, Option.map_eq_some_iff, List.mem_map,
      List.mem_flatMap] at hline
    obtain ((⟨target, -, rfl⟩ | ⟨l, -, rfl⟩) | ⟨h, -, hline⟩) | hline := hline
    · exact plain_append (by decide) target.text
    · exact l.plain
    · exact Hunk.plain hline
    · split at hline
      · rw [List.mem_singleton.mp hline]
        have hend := @plain_append endOfFileMark (by decide) []
        rwa [List.append_nil] at hend
      · simp at hline

theorem addToLast_append (s : Text) (out : List Text) (last : Text) :
    addToLast s (out ++ [last]) = out ++ [last ++ s] := by
  induction out with
  | nil => rfl
  | cons first out ih =>
    cases out with
    | nil => rfl
    | cons second out =>
      simp only [List.cons_append] at ih ⊢
      rw [addToLast, ih]
      simp

theorem foldl_fileStep_plain {lines : List Text} (h : ∀ line ∈ lines, Plain line)
    (out : List Text) (last : Text) :
    lines.foldl fileStep (out ++ [last]) = out ++ [last ++ unlines '\n' lines] := by
  induction lines generalizing last with
  | nil => simp
  | cons line lines ih =>
    rw [List.forall_mem_cons] at h
    obtain ⟨hheader, hbegin, hend⟩ := h.1
    have hstep : fileStep (out ++ [last]) line = out ++ [last ++ (line ++ ['\n'])] := by
      simp only [← List.isPrefixOf_iff_prefix] at hbegin hend
      simp [fileStep, hheader, hbegin, hend, addToLast_append]
    rw [List.foldl_cons, hstep, ih h.2]
    simp

theorem FilePatch.mark_mem (f : FilePatch) : f.mark ∈ headers := by
  cases f <;> simp [mark, headers]

theorem isHeader_mark (f : FilePatch) : isHeader (f.mark ++ f.path.text) = true := by
  rw [isHeader, List.any_eq_true]
  exact ⟨f.mark, f.mark_mem, List.isPrefixOf_iff_prefix.mpr (List.prefix_append _ _)⟩

/-- The lines of one file make one more patch. -/
theorem foldl_fileStep_file (out : List Text) (f : FilePatch) :
    f.lines.foldl fileStep out = out ++ [f.text] := by
  have hstep : fileStep out (f.mark ++ f.path.text) =
      out ++ [[] ++ (f.mark ++ f.path.text ++ ['\n'])] := by
    rw [fileStep, if_pos (isHeader_mark f), addToLast_append]
  rw [FilePatch.lines, List.foldl_cons, hstep,
    foldl_fileStep_plain fun line hline => f.plain_body hline]
  simp [FilePatch.text, FilePatch.lines]

theorem foldl_fileStep_files (out : List Text) (files : List FilePatch) :
    (files.flatMap FilePatch.lines).foldl fileStep out = out ++ files.map FilePatch.text := by
  induction files generalizing out with
  | nil => simp
  | cons f files ih => simp [List.foldl_append, foldl_fileStep_file, ih]

theorem Line.newline_notMem (l : Line) : '\n' ∉ l.text := by
  have hmark : '\n' ≠ l.change.mark := by cases l.change <;> decide
  simp [Line.text, hmark, l.content.whole]

theorem Hunk.newline_notMem {h : Hunk} {line : Text} (hline : line ∈ h.texts) : '\n' ∉ line := by
  simp only [Hunk.texts, List.mem_append, List.mem_map] at hline
  obtain ⟨context, -, rfl⟩ | ⟨l, -, rfl⟩ := hline
  · simp [contextText, context.whole]
  · exact l.newline_notMem

theorem newline_notMem_append {mark : Text} (h : '\n' ∉ mark) (rest : OneLine) :
    '\n' ∉ mark ++ rest.text := by
  simp [h, rest.whole]

theorem FilePatch.newline_notMem {f : FilePatch} {line : Text} (hline : line ∈ f.lines) :
    '\n' ∉ line := by
  rw [FilePatch.lines, List.mem_cons] at hline
  rcases hline with rfl | hline
  · have hmark : ∀ mark ∈ headers, '\n' ∉ mark := by decide
    exact newline_notMem_append (hmark _ f.mark_mem) f.path
  · cases f with
    | add path lines =>
      obtain ⟨content, -, rfl⟩ := List.mem_map.mp hline
      simp [content.whole]
    | delete path => simp [body] at hline
    | update path moveTo first hunks endOfFile =>
      simp only [body, List.mem_append, Option.mem_toList, Option.map_eq_some_iff, List.mem_map,
        List.mem_flatMap] at hline
      obtain ((⟨target, -, rfl⟩ | ⟨l, -, rfl⟩) | ⟨h, -, hline⟩) | hline := hline
      · exact newline_notMem_append (by decide) target
      · exact l.newline_notMem
      · exact Hunk.newline_notMem hline
      · split at hline
        · rw [List.mem_singleton.mp hline]
          decide
        · simp at hline

/-- The lines that are read. -/
theorem strLines_patch (p : Patch) :
    strLines p.text =
      beginMark :: p.files.flatMap (fun f => f.dropReturn.lines) ++ [endMark] := by
  have hwhole : ∀ line ∈ beginMark :: p.files.flatMap FilePatch.lines, '\n' ∉ line := by
    rw [List.forall_mem_cons]
    constructor
    · decide
    · intro line hline
      obtain ⟨f, -, hline⟩ := List.mem_flatMap.mp hline
      exact f.newline_notMem hline
  have hbegin : Patches.dropReturn beginMark = beginMark := by
    rw [dropReturn_eq_self]
    decide
  rw [Patch.text, strLines_unlines_append hwhole (by decide) (by decide) (by decide),
    List.map_cons, hbegin, List.map_flatMap]
  simp only [FilePatch.lines_dropReturn]

/-- **A patch is cut into its files.** -/
theorem patchFiles_text (p : Patch) :
    patchFiles p.text = p.files.map fun f => f.dropReturn.text := by
  have hbegin : fileStep [] beginMark = [] := by decide
  have hend : ∀ out, fileStep out endMark = out := by
    intro out
    have hheader : isHeader endMark = false := by decide
    have hmark : endMark.isPrefixOf endMark = true := by decide
    simp [fileStep, hheader, hmark]
  have hfiles := foldl_fileStep_files [] (p.files.map FilePatch.dropReturn)
  rw [List.flatMap_map, List.map_map] at hfiles
  rw [patchFiles, strLines_patch, List.cons_append, List.foldl_cons, hbegin, List.foldl_append,
    hfiles, List.foldl_cons, hend]
  rfl

/-! ## the path -/

theorem stripFront?_of_not_prefix {mark line : Text} (h : ¬mark <+: line) :
    stripFront? mark line = none := by
  rw [stripFront?, if_neg (mt List.isPrefixOf_iff_prefix.mp h)]

theorem findSome?_mark (f : FilePatch) :
    (headers.findSome? fun mark => stripFront? mark (f.mark ++ f.path.text)) =
      some f.path.text := by
  have hother : ∀ mark ∈ headers, ∀ mark' ∈ headers, mark ≠ mark' →
      ¬mark <+: mark' ∧ ¬mark' <+: mark := by decide
  have hnone : ∀ mark ∈ headers, mark ≠ f.mark →
      stripFront? mark (f.mark ++ f.path.text) = none := by
    intro mark hmark hne
    obtain ⟨hleft, hright⟩ := hother mark hmark f.mark f.mark_mem hne
    exact stripFront?_of_not_prefix (not_prefix_append hleft hright)
  have hown : stripFront? f.mark (f.mark ++ f.path.text) = some f.path.text :=
    stripFront?_eq_some.mpr rfl
  have hfirst : ∀ (marks : List Text), f.mark ∈ marks → (∀ mark ∈ marks, mark ∈ headers) →
      (marks.findSome? fun mark => stripFront? mark (f.mark ++ f.path.text)) =
        some f.path.text := by
    intro marks hmem hsub
    induction marks with
    | nil => simp at hmem
    | cons mark marks ih =>
      rw [List.forall_mem_cons] at hsub
      rw [List.findSome?_cons]
      by_cases hmark : mark = f.mark
      · rw [hmark, hown]
      · rw [hnone mark hsub.1 hmark]
        exact ih ((List.mem_cons.mp hmem).resolve_left (Ne.symm hmark)) hsub.2
  exact hfirst headers f.mark_mem fun mark hmark => hmark

theorem strLines_file (f : FilePatch) : strLines f.text = f.dropReturn.lines := by
  rw [FilePatch.text, strLines_unlines fun line hline => f.newline_notMem hline,
    f.lines_dropReturn]

theorem findSome?_lines (f : FilePatch) :
    (f.lines.findSome? fun line => headers.findSome? fun mark => stripFront? mark line) =
      some f.path.text := by
  rw [FilePatch.lines, List.findSome?_cons, findSome?_mark]

/-- **A file's path is read.** -/
theorem patchTarget_text (f : FilePatch) :
    patchTarget f.text = some f.dropReturn.path.text := by
  rw [patchTarget, strLines_file, findSome?_lines]

/-! ## the hunks -/

/-- A line that ends a hunk. -/
def Ends (line : Text) : Prop := "@@".toList <+: line ∨ "*** ".toList <+: line

theorem diffStep_ends {line : Text} (h : Ends line) (g : Gathered) :
    diffStep g line = g.flush := by
  simp only [Ends, ← List.isPrefixOf_iff_prefix] at h
  unfold diffStep
  rw [if_pos h]

theorem ends_context (context : OneLine) : Ends (contextText context) :=
  .inl ⟨context.text, rfl⟩

theorem ends_append {mark : Text} (h : "*** ".toList <+: mark) (rest : Text) :
    Ends (mark ++ rest) :=
  .inr (h.trans (List.prefix_append _ _))

theorem Line.not_ends (l : Line) : ¬Ends l.text := by
  have hmark : l.change.mark ≠ '@' ∧ l.change.mark ≠ '*' := by cases l.change <;> decide
  rintro (⟨rest, hrest⟩ | ⟨rest, hrest⟩)
  · exact hmark.1 (List.cons.inj hrest).1.symm
  · exact hmark.2 (List.cons.inj hrest).1.symm

theorem diffStep_line (out : List (Text × Text)) (old new : List Text) (l : Line) :
    diffStep ⟨out, old, new⟩ l.text = ⟨out, old ++ oldLines [l], new ++ newLines [l]⟩ := by
  have hends := l.not_ends
  simp only [Ends, ← List.isPrefixOf_iff_prefix] at hends
  unfold diffStep
  rw [if_neg hends]
  obtain ⟨change, content⟩ := l
  cases change <;> simp [Line.text, Change.mark, oldLines, newLines, Change.isOld, Change.isNew]

/-- The lines of a hunk are gathered. -/
theorem foldl_diffStep_lines (out : List (Text × Text)) (old new : List Text)
    (lines : List Line) :
    (lines.map Line.text).foldl diffStep ⟨out, old, new⟩ =
      ⟨out, old ++ oldLines lines, new ++ newLines lines⟩ := by
  induction lines generalizing old new with
  | nil => simp [oldLines, newLines]
  | cons l lines ih =>
    have hold : oldLines (l :: lines) = oldLines [l] ++ oldLines lines := by
      simp [oldLines, List.filter_cons]
      split <;> simp
    have hnew : newLines (l :: lines) = newLines [l] ++ newLines lines := by
      simp [newLines, List.filter_cons]
      split <;> simp
    rw [List.map_cons, List.foldl_cons, diffStep_line, ih, hold, hnew, List.append_assoc,
      List.append_assoc]

/-- And given out, if there are any. -/
theorem flush_lines (out : List (Text × Text)) (lines : List Line) :
    Gathered.flush ⟨out, oldLines lines, newLines lines⟩ = ⟨out ++ diffsOf lines, [], []⟩ := by
  cases lines with
  | nil => simp [Gathered.flush, oldLines, newLines, diffsOf]
  | cons l lines =>
    have hsome : oldLines (l :: lines) ≠ [] ∨ newLines (l :: lines) ≠ [] := by
      obtain ⟨change, content⟩ := l
      cases change <;> simp [oldLines, newLines, Change.isOld, Change.isNew]
    simp [Gathered.flush, hsome, diffsOf, diffOf]

theorem flush_flush (g : Gathered) : g.flush.flush = g.flush := by
  by_cases hg : g.old ≠ [] ∨ g.new ≠ []
  · simp [Gathered.flush, hg]
  · simp [Gathered.flush, hg]

theorem flush_empty (out : List (Text × Text)) :
    Gathered.flush ⟨out, [], []⟩ = ⟨out, [], []⟩ := by
  simp [Gathered.flush]

/-- Lines that end a hunk end it once. -/
theorem foldl_diffStep_ends {lines : List Text} (hne : lines ≠ []) (h : ∀ line ∈ lines, Ends line)
    {g : Gathered} {out : List (Text × Text)} (hg : g.flush = ⟨out, [], []⟩) :
    lines.foldl diffStep g = ⟨out, [], []⟩ := by
  induction lines generalizing g with
  | nil => exact absurd rfl hne
  | cons line lines ih =>
    rw [List.forall_mem_cons] at h
    rw [List.foldl_cons, diffStep_ends h.1, hg]
    by_cases hlines : lines = []
    · rw [hlines, List.foldl_nil]
    · exact ih hlines h.2 (flush_empty out)

/-- One hunk more. -/
theorem flush_hunk {g : Gathered} {out : List (Text × Text)} (hg : g.flush = ⟨out, [], []⟩)
    (h : Hunk) : (h.texts.foldl diffStep g).flush = ⟨out ++ [diffOf h.lines], [], []⟩ := by
  have hends : ∀ line ∈ h.contexts.map contextText, Ends line := by
    intro line hline
    obtain ⟨context, -, rfl⟩ := List.mem_map.mp hline
    exact ends_context context
  have hdiffs : diffsOf h.lines = [diffOf h.lines] := if_neg h.changed
  rw [Hunk.texts, List.foldl_append,
    foldl_diffStep_ends (by simp [h.placed]) hends hg, foldl_diffStep_lines, List.nil_append,
    List.nil_append, flush_lines, hdiffs]

theorem flush_hunks {g : Gathered} {out : List (Text × Text)} (hg : g.flush = ⟨out, [], []⟩)
    (hunks : List Hunk) : ((hunks.flatMap Hunk.texts).foldl diffStep g).flush =
      ⟨out ++ hunks.map fun h => diffOf h.lines, [], []⟩ := by
  induction hunks generalizing g out with
  | nil => simpa using hg
  | cons h hunks ih =>
    rw [List.flatMap_cons, List.foldl_append, ih (flush_hunk hg h)]
    simp

theorem FilePatch.mark_ends (f : FilePatch) : "*** ".toList <+: f.mark := by
  have hall : ∀ mark ∈ headers, "*** ".toList <+: mark := by decide
  exact hall f.mark f.mark_mem

/-- A file's lines give its hunks. -/
theorem flush_file (f : FilePatch) :
    (f.lines.foldl diffStep ⟨[], [], []⟩).flush = ⟨f.diffs, [], []⟩ := by
  have hheader : diffStep ⟨[], [], []⟩ (f.mark ++ f.path.text) = ⟨[], [], []⟩ := by
    rw [diffStep_ends (ends_append f.mark_ends f.path.text), flush_empty]
  rw [FilePatch.lines, List.foldl_cons, hheader]
  cases f with
  | add path lines =>
    have htext : (lines.map fun line => '+' :: line.text) =
        (lines.map added).map Line.text := by
      simp [Line.text, added, Change.mark, Function.comp_def]
    rw [FilePatch.body, htext, foldl_diffStep_lines, List.nil_append, List.nil_append,
      flush_lines]
    rfl
  | delete path => rfl
  | update path moveTo first hunks endOfFile =>
    have hmove : (moveTo.map fun path => moveMark ++ path.text).toList.foldl diffStep
        ⟨[], [], []⟩ = ⟨[], [], []⟩ := by
      cases moveTo with
      | none => rfl
      | some target =>
        have hends : Ends (moveMark ++ target.text) := ends_append (by decide) target.text
        rw [Option.map_some, Option.toList_some, List.foldl_cons, diffStep_ends hends,
          flush_empty, List.foldl_nil]
    have hlast : ∀ g : Gathered,
        ((if endOfFile then [endOfFileMark] else []).foldl diffStep g).flush = g.flush := by
      intro g
      cases endOfFile with
      | false => rfl
      | true =>
        have hends : Ends endOfFileMark := .inr (by decide)
        rw [if_pos rfl, List.foldl_cons, List.foldl_nil, diffStep_ends hends,
          flush_flush]
    rw [FilePatch.body, List.foldl_append, List.foldl_append, List.foldl_append, hmove, hlast,
      foldl_diffStep_lines, List.nil_append, List.nil_append,
      flush_hunks (flush_lines [] first)]
    rfl

/-- **A file's hunks are read.** -/
theorem patchDiffs_text (f : FilePatch) : patchDiffs f.text = f.dropReturn.diffs := by
  rw [patchDiffs, strLines_file, flush_file]

/-! ## without returns -/

/-- No line of a file ends in a carriage return. -/
def FilePatch.NoReturns (f : FilePatch) : Prop := ∀ line ∈ f.lines, line.getLast? ≠ some '\r'

theorem FilePatch.noReturns_iff {f : FilePatch} : f.NoReturns ↔ f.dropReturn.lines = f.lines := by
  rw [f.lines_dropReturn]
  constructor
  · intro h
    rw [List.map_congr_left fun line hline => dropReturn_eq_self.mpr (h line hline), List.map_id']
  · intro h line hline
    have hsame := List.map_inj_left.mp (h.trans (List.map_id f.lines).symm) line hline
    exact dropReturn_eq_self.mp hsame

/-- **A file is read as it was written** when no line of it ends in a return. -/
theorem file_read {f : FilePatch} (h : f.NoReturns) :
    patchTarget f.text = some f.path.text ∧ patchDiffs f.text = f.diffs := by
  have hlines := FilePatch.noReturns_iff.mp h
  constructor
  · rw [patchTarget, strLines_file, hlines, findSome?_lines]
  · rw [patchDiffs, strLines_file, hlines, flush_file]

/-- **And a patch is cut where it was put together**, then and only then. -/
theorem patchFiles_iff (p : Patch) :
    patchFiles p.text = p.files.map FilePatch.text ↔ ∀ f ∈ p.files, f.NoReturns := by
  rw [patchFiles_text, List.map_inj_left]
  constructor
  · intro h f hf
    rw [FilePatch.noReturns_iff]
    exact unlines_inj (fun line hline => f.dropReturn.newline_notMem hline)
      (fun line hline => f.newline_notMem hline) (h f hf)
  · intro h f hf
    rw [FilePatch.text, FilePatch.noReturns_iff.mp (h f hf), FilePatch.text]

end ClaudeReplay.Codex.Patches
