import ClaudeReplay.Lib.Lcs
import ClaudeReplay.Text
import Mathlib.Algebra.Group.Nat.Defs
import Mathlib.Data.List.Forall2
import Mathlib.Data.List.Infix

/-!
# ClaudeReplay.Diff

The rows of an edit's diff and the line numbers in its gutter, as both frontends show them.

Where the transcript holds the patch, each hunk is a group of rows numbered from where the hunk
starts on either side. Where it does not, the old and the new text are compared line by line
(`lineDiff`), by the table of longest common subsequences of their ends, and the new lines are
numbered from one.

* `kept_lineDiff` — the comparison is a diff of the two texts, and keeps as many lines as any.
* `rows_right_iff` — which rows of a patch carry the number of their line, and which gutters hold
  their numbers. Both are machine words, and wrap.
-/

namespace ClaudeReplay.Diff

open Lib (lcsLen IsLongestCommon)

/-! ## comparing two texts -/

/-- One step of a line-level diff. -/
inductive LineOp (α : Type)
  | eq (line : α)
  | del (line : α)
  | ins (line : α)
  deriving DecidableEq

namespace LineOp

variable {α : Type}

def old? : LineOp α → Option α
  | .eq l | .del l => some l
  | .ins _ => none

def new? : LineOp α → Option α
  | .eq l | .ins l => some l
  | .del _ => none

def kept? : LineOp α → Option α
  | .eq l => some l
  | .del _ | .ins _ => none

/-- What is kept is of both sides. -/
theorem kept_sublist_old (ops : List (LineOp α)) :
    (ops.filterMap kept?).Sublist (ops.filterMap old?) := by
  induction ops with
  | nil => exact .slnil
  | cons op ops ih => cases op <;> simp [kept?, old?, ih, List.filterMap_cons]

theorem kept_sublist_new (ops : List (LineOp α)) :
    (ops.filterMap kept?).Sublist (ops.filterMap new?) := by
  induction ops with
  | nil => exact .slnil
  | cons op ops ih => cases op <;> simp [kept?, new?, ih, List.filterMap_cons]

end LineOp

section lineDiff

variable {α : Type}

theorem headD_map_tails {β : Type} (f : List α → β) (ys : List α) (d : β) :
    (ys.tails.map f).headD d = f ys := by
  cases ys <;> simp

theorem tail_drop {xs xs' : List α} {x : α} {i : Nat} (h : xs.drop i = x :: xs') :
    xs.drop (i + 1) = xs' := by
  rw [← List.tail_drop, h, List.tail_cons]

theorem lt_length_of_drop {xs xs' : List α} {x : α} {i : Nat} (h : xs.drop i = x :: xs') :
    i < xs.length := by
  by_contra hle
  rw [List.drop_of_length_le (Nat.le_of_not_lt hle)] at h
  cases h

variable [DecidableEq α]

/-- A row of the table, from the one below it: the entry of a line and of each end of the new
lines. -/
def dpRow (x : α) : List α → List Nat → List Nat
  | [], _ => [0]
  | y :: ys, below =>
    let right := dpRow x ys below.tail
    (if x = y then below.tail.headD 0 + 1 else max (below.headD 0) (right.headD 0)) :: right

/-- The table, a row for each end of the old lines. -/
def dpTable (nl : List α) : List α → List (List Nat)
  | [] => [List.replicate (nl.length + 1) 0]
  | x :: ol =>
    let below := dpTable nl ol
    dpRow x nl (below.headD []) :: below

/-- `dp[i][j]` -/
def dpAt (dp : List (List Nat)) (i j : Nat) : Nat := (dp[i]?.getD [])[j]?.getD 0

/-- The walk through the table from an entry on, with the lines that are left on either side. -/
def lineOps (dp : List (List Nat)) (i j : Nat) : List α → List α → List (LineOp α)
  | [], nl => nl.map .ins
  | x :: ol, [] => (x :: ol).map .del
  | x :: ol, y :: nl =>
    if x = y then .eq x :: lineOps dp (i + 1) (j + 1) ol nl
    else if dpAt dp i (j + 1) ≤ dpAt dp (i + 1) j then .del x :: lineOps dp (i + 1) j ol (y :: nl)
    else .ins y :: lineOps dp i (j + 1) (x :: ol) nl
  termination_by ol nl => ol.length + nl.length

/-- `line_diff` -/
def lineDiff (ol nl : List α) : List (LineOp α) := lineOps (dpTable nl ol) 0 0 ol nl

/-! ### the table -/

theorem dpRow_eq (x : α) (xs ys : List α) :
    dpRow x ys (ys.tails.map (lcsLen xs)) = ys.tails.map (lcsLen (x :: xs)) := by
  induction ys with
  | nil => simp [dpRow]
  | cons y ys ih =>
    rw [List.tails_cons, List.map_cons, List.map_cons, dpRow, List.tail_cons, ih, headD_map_tails,
      headD_map_tails, List.headD_cons]
    by_cases hxy : x = y
    · rw [if_pos hxy, ← hxy, Lib.lcsLen_cons_self]
    · rw [if_neg hxy, Lib.lcsLen_cons_of_ne hxy]

/-- **The table holds the longest common subsequence of each two ends.** -/
theorem dpTable_eq (nl ol : List α) :
    dpTable nl ol = ol.tails.map fun xs => nl.tails.map (lcsLen xs) := by
  induction ol with
  | nil =>
    have hzero : nl.tails.map (lcsLen ([] : List α)) = List.replicate (nl.length + 1) 0 := by
      rw [List.eq_replicate_iff, List.length_map, List.length_tails]
      simp
    simp [dpTable, hzero]
  | cons x ol ih =>
    rw [dpTable, ih, headD_map_tails, dpRow_eq, List.tails_cons, List.map_cons]

theorem dpAt_dpTable (nl ol : List α) {i j : Nat} (hi : i ≤ ol.length) (hj : j ≤ nl.length) :
    dpAt (dpTable nl ol) i j = lcsLen (ol.drop i) (nl.drop j) := by
  have hi' : i < ol.tails.length := by
    rw [List.length_tails]
    omega
  have hj' : j < nl.tails.length := by
    rw [List.length_tails]
    omega
  rw [dpAt, dpTable_eq, List.getElem?_map, List.getElem?_eq_getElem hi', List.getElem_tails,
    Option.map_some, Option.getD_some, List.getElem?_map, List.getElem?_eq_getElem hj',
    List.getElem_tails, Option.map_some, Option.getD_some]

/-! ### the walk -/

theorem old_lineOps (dp : List (List Nat)) (i j : Nat) (ol nl : List α) :
    (lineOps dp i j ol nl).filterMap LineOp.old? = ol := by
  fun_induction lineOps dp i j ol nl <;>
    simp_all [LineOp.old?, List.filterMap_cons, List.filterMap_map, Function.comp_def]

theorem new_lineOps (dp : List (List Nat)) (i j : Nat) (ol nl : List α) :
    (lineOps dp i j ol nl).filterMap LineOp.new? = nl := by
  fun_induction lineOps dp i j ol nl <;>
    simp_all [LineOp.new?, List.filterMap_cons, List.filterMap_map, Function.comp_def]

theorem dpAt_dpTable_right {ol nl ol' nl' : List α} {x y : α} {i j : Nat}
    (hol : ol.drop i = x :: ol') (hnl : nl.drop j = y :: nl') :
    dpAt (dpTable nl ol) i (j + 1) = lcsLen (x :: ol') nl' := by
  rw [dpAt_dpTable nl ol (lt_length_of_drop hol).le (lt_length_of_drop hnl), hol, tail_drop hnl]

theorem dpAt_dpTable_below {ol nl ol' nl' : List α} {x y : α} {i j : Nat}
    (hol : ol.drop i = x :: ol') (hnl : nl.drop j = y :: nl') :
    dpAt (dpTable nl ol) (i + 1) j = lcsLen ol' (y :: nl') := by
  rw [dpAt_dpTable nl ol (lt_length_of_drop hol) (lt_length_of_drop hnl).le, hnl, tail_drop hol]

/-- The walk keeps as many lines as the entry it starts from says: the step it takes is one to an
entry that holds as much. -/
theorem length_kept_lineOps (ol nl : List α) {i j : Nat} {ol' nl' : List α}
    (hol : ol.drop i = ol') (hnl : nl.drop j = nl') :
    ((lineOps (dpTable nl ol) i j ol' nl').filterMap LineOp.kept?).length = lcsLen ol' nl' := by
  fun_induction lineOps (dpTable nl ol) i j ol' nl' with
  | case1 i j nl' => simp [LineOp.kept?]
  | case2 i j x ol' => simp [LineOp.kept?]
  | case3 i j ol' x nl' ih =>
    simp only [List.filterMap_cons, LineOp.kept?]
    rw [List.length_cons, ih (tail_drop hol) (tail_drop hnl),
      Lib.lcsLen_cons_self]
  | case4 i j x ol' y nl' hne hle ih =>
    rw [dpAt_dpTable_right hol hnl, dpAt_dpTable_below hol hnl] at hle
    simp only [List.filterMap_cons, LineOp.kept?]
    rw [ih (tail_drop hol) hnl, Lib.lcsLen_cons_of_ne hne,
      Nat.max_eq_left hle]
  | case5 i j x ol' y nl' hne hlt ih =>
    rw [dpAt_dpTable_right hol hnl, dpAt_dpTable_below hol hnl] at hlt
    simp only [List.filterMap_cons, LineOp.kept?]
    rw [ih hol (tail_drop hnl), Lib.lcsLen_cons_of_ne hne,
      Nat.max_eq_right (Nat.le_of_not_le hlt)]

/-- **The comparison is a diff of the two texts, and keeps as many lines as any.** -/
theorem kept_lineDiff (ol nl : List α) :
    (lineDiff ol nl).filterMap LineOp.old? = ol ∧ (lineDiff ol nl).filterMap LineOp.new? = nl ∧
      IsLongestCommon ((lineDiff ol nl).filterMap LineOp.kept?) ol nl := by
  have hold : (lineDiff ol nl).filterMap LineOp.old? = ol := old_lineOps _ 0 0 ol nl
  have hnew : (lineDiff ol nl).filterMap LineOp.new? = nl := new_lineOps _ 0 0 ol nl
  have hlength := @length_kept_lineOps α _ ol nl 0 0 ol nl rfl rfl
  have hkeptOld := LineOp.kept_sublist_old (lineDiff ol nl)
  have hkeptNew := LineOp.kept_sublist_new (lineDiff ol nl)
  rw [hold] at hkeptOld
  rw [hnew] at hkeptNew
  exact ⟨hold, hnew, Lib.isLongestCommon_of_length hkeptOld hkeptNew hlength⟩

end lineDiff

/-! ## rows and their numbers -/

inductive DiffKind
  | ctx
  | add
  | del
  deriving DecidableEq

/-- A row of a diff: its kind, the number in its gutter, if any, and its text. -/
structure DiffRow where
  kind : DiffKind
  num : Option Nat
  text : List Char
  deriving DecidableEq

/-- Rows that share a gutter, and the largest number it must hold. -/
structure DiffGroup where
  rows : List DiffRow
  maxLine : Nat

/-- A hunk of a patch: where it starts on either side, and its lines, each behind its marker. The
starts are any machine words the transcript names. -/
structure Hunk where
  oldStart : Nat
  newStart : Nat
  lines : List (List Char)
  /-- the file it is of, where the call does not name it -/
  file : Option (List Char) := none
  old_lt : oldStart < 2 ^ 64 := by decide
  new_lt : newStart < 2 ^ 64 := by decide
  length_lt : lines.length < 2 ^ 64 := by decide

/-- `line.chars().next().unwrap_or(' ')` -/
def marker (line : List Char) : Char := line.headD ' '

/-- The rows of a hunk's lines, from a new and an old number on. -/
def hunkRows (n o : Nat) : List (List Char) → List DiffRow
  | [] => []
  | line :: lines =>
    let n' := (n + 1) % 2 ^ 64
    let o' := (o + 1) % 2 ^ 64
    if marker line = '+' then ⟨.add, some n, line.tail⟩ :: hunkRows n' o lines
    else if marker line = '-' then ⟨.del, some o, line.tail⟩ :: hunkRows n o' lines
    else ⟨.ctx, some n, line.tail⟩ :: hunkRows n' o' lines

/-- The number the lines of the new side count up to, the notes among them. -/
def Hunk.newLast (h : Hunk) : Nat := h.newStart + (h.lines.countP (marker · ≠ '-') - 1)

/-- And those of the old side. -/
def Hunk.oldLast (h : Hunk) : Nat := h.oldStart + (h.lines.countP (marker · ≠ '+') - 1)

def hunkGroup (h : Hunk) : DiffGroup where
  rows := hunkRows h.newStart h.oldStart h.lines
  maxLine := max (h.newLast % 2 ^ 64) (h.oldLast % 2 ^ 64)

/-- The rows of a comparison, the new lines numbered after a number. -/
def opRows (n : Nat) : List (LineOp (List Char)) → List DiffRow
  | [] => []
  | .eq l :: ops => ⟨.ctx, some (n + 1), l⟩ :: opRows (n + 1) ops
  | .del l :: ops => ⟨.del, none, l⟩ :: opRows n ops
  | .ins l :: ops => ⟨.add, some (n + 1), l⟩ :: opRows (n + 1) ops

def pairGroup (pair : List Char × List Char) : DiffGroup :=
  let ops := lineDiff (strLines pair.1) (strLines pair.2)
  { rows := opRows 0 ops, maxLine := (ops.filterMap LineOp.new?).length }

/-- `diff_row_groups` -/
def diffRowGroups (diffs : List (List Char × List Char)) (patch : Option (List Hunk)) :
    List DiffGroup :=
  match patch with
  | some hunks => hunks.map hunkGroup
  | none => (diffs.filter fun pair => !(pair.1 = [] ∧ pair.2 = [])).map pairGroup

theorem length_hunkRows (n o : Nat) (lines : List (List Char)) :
    (hunkRows n o lines).length = lines.length := by
  induction lines generalizing n o with
  | nil => rfl
  | cons line lines ih =>
    rw [hunkRows]
    split
    · simp [ih]
    · split <;> simp [ih]

/-! ## what the numbers are to be -/

/-- A line that says that a file ends without a newline; it is of neither file. -/
def isNote (line : List Char) : Bool := marker line = '\\'

/-- Is the line one of the old file? -/
def onOld (line : List Char) : Bool := marker line ≠ '+' && !isNote line

/-- Is the line one of the new file? -/
def onNew (line : List Char) : Bool := marker line ≠ '-' && !isNote line

/-- The row of a line that so many lines of a hunk stand before: an addition or a context line
has its number in the new file, a deletion that in the old one. -/
def Hunk.rowOf (h : Hunk) (before : List (List Char)) (line : List Char) : DiffRow :=
  if marker line = '+' then ⟨.add, some (h.newStart + before.countP onNew), line.tail⟩
  else if marker line = '-' then ⟨.del, some (h.oldStart + before.countP onOld), line.tail⟩
  else ⟨.ctx, some (h.newStart + before.countP onNew), line.tail⟩

/-- Each line that is of a file has the row it is to have. -/
def RowsRight (h : Hunk) (g : DiffGroup) : Prop :=
  ∀ before line after, h.lines = before ++ line :: after → isNote line = false →
    g.rows[before.length]? = some (h.rowOf before line)

/-- A note, being no line of a file, has no number. -/
def NotesUnnumbered (h : Hunk) (g : DiffGroup) : Prop :=
  ∀ before line after, h.lines = before ++ line :: after → isNote line = true →
    ∀ row ∈ g.rows[before.length]?, row.num = none

/-- The number each line of a file is to have is a machine word. -/
def Hunk.Within (h : Hunk) : Prop :=
  ∀ before line after, h.lines = before ++ line :: after → isNote line = false →
    ∀ num ∈ (h.rowOf before line).num, num < 2 ^ 64

/-- The new side's last number is a machine word, and so is the old side's, or no deletion counts
above the two; or the new side's is not, and the old side's is the largest there is. -/
def Hunk.Spans (h : Hunk) : Prop :=
  if h.newLast < 2 ^ 64 then
    h.oldLast < 2 ^ 64 ∨ ∀ before line after, h.lines = before ++ line :: after →
      marker line = '-' →
        (h.oldStart + before.countP (marker · ≠ '+')) % 2 ^ 64 ≤ max h.newLast (h.oldLast - 2 ^ 64)
  else h.oldLast = 2 ^ 64 - 1

/-- Behind a note there are notes only. -/
def Hunk.NotesLast (h : Hunk) : Prop :=
  h.lines.Pairwise fun line line' => isNote line = true → isNote line' = true

/-- No number is beyond what the gutter is made for. -/
def DiffGroup.Holds (g : DiffGroup) : Prop := ∀ row ∈ g.rows, ∀ num ∈ row.num, num ≤ g.maxLine

/-! ## what they are -/

/-- The number of a line that so many lines stand before: each of them that is not of the other
side is counted, the notes among them, and the count wraps. -/
def shownNum (n o : Nat) (before : List (List Char)) (line : List Char) : Nat :=
  if marker line = '-' then (o + before.countP (marker · ≠ '+')) % 2 ^ 64
  else (n + before.countP (marker · ≠ '-')) % 2 ^ 64

def kindOf (line : List Char) : DiffKind :=
  if marker line = '+' then .add else if marker line = '-' then .del else .ctx

/-- The row a line gets. -/
theorem getElem?_hunkRows {n o : Nat} (hn : n < 2 ^ 64) (ho : o < 2 ^ 64)
    (before : List (List Char)) (line : List Char) (after : List (List Char)) :
    (hunkRows n o (before ++ line :: after))[before.length]? =
      some ⟨kindOf line, some (shownNum n o before line), line.tail⟩ := by
  induction before generalizing n o with
  | nil =>
    rw [List.nil_append, hunkRows, kindOf, shownNum]
    by_cases hadd : marker line = '+'
    · simp [-Nat.reducePow, hadd, Nat.mod_eq_of_lt hn]
    · by_cases hdel : marker line = '-' <;>
        simp [-Nat.reducePow, hadd, hdel, Nat.mod_eq_of_lt hn, Nat.mod_eq_of_lt ho]
  | cons l before ih =>
    have hn' : (n + 1) % 2 ^ 64 < 2 ^ 64 := Nat.mod_lt _ (by decide)
    have ho' : (o + 1) % 2 ^ 64 < 2 ^ 64 := Nat.mod_lt _ (by decide)
    rw [List.cons_append, hunkRows, List.length_cons, shownNum, List.countP_cons, List.countP_cons]
    by_cases hadd : marker l = '+'
    · rw [if_pos hadd, List.getElem?_cons_succ, ih hn' ho, shownNum]
      simp [hadd, Nat.mod_add_mod, Nat.add_assoc, Nat.add_comm 1]
    · by_cases hdel : marker l = '-'
      · rw [if_neg hadd, if_pos hdel, List.getElem?_cons_succ, ih hn ho', shownNum]
        simp [hdel, Nat.mod_add_mod, Nat.add_assoc, Nat.add_comm 1]
      · rw [if_neg hadd, if_neg hdel, List.getElem?_cons_succ, ih hn' ho', shownNum]
        simp [hadd, hdel, Nat.mod_add_mod, Nat.add_assoc, Nat.add_comm 1]

/-- What is said of every number is said of every line. -/
theorem forall_num_hunkGroup (h : Hunk) (p : Nat → Prop) :
    (∀ row ∈ (hunkGroup h).rows, ∀ num ∈ row.num, p num) ↔
      ∀ before line after, h.lines = before ++ line :: after →
        p (shownNum h.newStart h.oldStart before line) := by
  constructor
  · intro hall before line after hlines
    have hrow := getElem?_hunkRows h.new_lt h.old_lt before line after
    rw [← hlines] at hrow
    exact hall _ (List.mem_of_getElem? hrow) _ rfl
  · intro hall row hrow num hnum
    obtain ⟨i, hi, hget⟩ := List.mem_iff_getElem.mp hrow
    have hlen : i < h.lines.length := by
      rwa [hunkGroup, length_hunkRows] at hi
    have hsplit : h.lines = h.lines.take i ++ h.lines[i] :: h.lines.drop (i + 1) := by simp
    have heq := getElem?_hunkRows h.new_lt h.old_lt (h.lines.take i) h.lines[i]
      (h.lines.drop (i + 1))
    rw [← hsplit, List.length_take, Nat.min_eq_left hlen.le] at heq
    have hat : (hunkGroup h).rows[i]? = some row := hget ▸ List.getElem?_eq_getElem hi
    obtain rfl := Option.some.inj (hat.symm.trans heq)
    cases hnum
    exact hall _ _ _ hsplit

theorem countP_not_del (lines : List (List Char)) :
    lines.countP (marker · ≠ '-') = lines.countP onNew + lines.countP isNote := by
  induction lines with
  | nil => rfl
  | cons l lines ih =>
    simp only [List.countP_cons, ih, onNew, isNote]
    by_cases hdel : marker l = '-'
    · simp [hdel]
    · by_cases hnote : marker l = '\\' <;> simp [hdel, hnote] <;> omega

theorem countP_not_add (lines : List (List Char)) :
    lines.countP (marker · ≠ '+') = lines.countP onOld + lines.countP isNote := by
  induction lines with
  | nil => rfl
  | cons l lines ih =>
    simp only [List.countP_cons, ih, onOld, isNote]
    by_cases hadd : marker l = '+'
    · simp [hadd]
    · by_cases hnote : marker l = '\\' <;> simp [hadd, hnote] <;> omega

/-- A wrapped count of lines and notes is that of the lines, where there is no note to count and
nothing to wrap. -/
theorem mod_eq_add_iff {start lines notes : Nat} (h : notes < 2 ^ 64) :
    (start + (lines + notes)) % 2 ^ 64 = start + lines ↔
      notes = 0 ∧ start + lines < 2 ^ 64 := by
  omega

/-- A line of a file has its row where no note stands before it, and its number is a word. -/
theorem row_eq_rowOf_iff {h : Hunk} {before after : List (List Char)} {line : List Char}
    (hlines : h.lines = before ++ line :: after) :
    (hunkGroup h).rows[before.length]? = some (h.rowOf before line) ↔
      before.countP isNote = 0 ∧ ∀ num ∈ (h.rowOf before line).num, num < 2 ^ 64 := by
  have hrow := getElem?_hunkRows h.new_lt h.old_lt before line after
  have hnotes : before.countP isNote < 2 ^ 64 := by
    have hlen := congrArg List.length hlines
    rw [List.length_append] at hlen
    have := h.length_lt
    have := before.countP_le_length (p := isNote)
    omega
  rw [hunkGroup, hlines, hrow, shownNum, countP_not_del, countP_not_add, Hunk.rowOf, kindOf]
  by_cases hadd : marker line = '+'
  · simp [-List.countP_eq_zero, -Nat.reducePow, hadd, mod_eq_add_iff hnotes]
  · by_cases hdel : marker line = '-' <;>
      simp [-List.countP_eq_zero, -Nat.reducePow, hadd, hdel, mod_eq_add_iff hnotes]

theorem rowsRight_iff (h : Hunk) : RowsRight h (hunkGroup h) ↔ h.NotesLast ∧ h.Within := by
  constructor
  · intro hright
    refine ⟨List.pairwise_iff_getElem.mpr fun i j hi hj hij hnote => ?_,
      fun before line after hlines hline =>
        ((row_eq_rowOf_iff hlines).mp (hright before line after hlines hline)).2⟩
    by_contra hline
    have hsplit : h.lines = h.lines.take j ++ h.lines[j] :: h.lines.drop (j + 1) := by simp
    have hnone := (row_eq_rowOf_iff hsplit).mp
      (hright _ _ _ hsplit (Bool.eq_false_iff.mpr hline))
    have hmem : h.lines[i] ∈ h.lines.take j := List.mem_take_iff_getElem.mpr ⟨i, by omega, rfl⟩
    exact List.countP_eq_zero.mp hnone.1 _ hmem hnote
  · rintro ⟨hlast, hwithin⟩ before line after hlines hline
    rw [row_eq_rowOf_iff hlines, List.countP_eq_zero]
    refine ⟨fun l hl hnote => ?_, hwithin before line after hlines hline⟩
    have hlater := hlast
    rw [Hunk.NotesLast, hlines, List.pairwise_append] at hlater
    have := hlater.2.2 l hl line List.mem_cons_self hnote
    rw [hline] at this
    cases this

/-- A note is given a number as if it were a context line. -/
theorem notesUnnumbered_iff (h : Hunk) :
    NotesUnnumbered h (hunkGroup h) ↔ ∀ line ∈ h.lines, isNote line = false := by
  constructor
  · intro hnum line hline
    by_contra hnote
    rw [Bool.not_eq_false] at hnote
    obtain ⟨before, after, hlines⟩ := List.append_of_mem hline
    have hrow := getElem?_hunkRows h.new_lt h.old_lt before line after
    rw [← hlines] at hrow
    have := hnum before line after hlines hnote _ hrow
    simp at this
  · intro hnone before line after hlines hnote
    have := hnone line (hlines ▸ List.mem_append_right before List.mem_cons_self)
    rw [hnote] at this
    cases this

/-- The line that so many lines of a kind stand before. -/
theorem exists_split_countP {α : Type} {p : α → Bool} {xs : List α} {k : Nat}
    (h : k < xs.countP p) :
    ∃ before x after, xs = before ++ x :: after ∧ p x = true ∧ before.countP p = k := by
  induction xs generalizing k with
  | nil => simp at h
  | cons x xs ih =>
    by_cases hx : p x = true
    · cases k with
      | zero => exact ⟨[], x, xs, rfl, hx, rfl⟩
      | succ k =>
        rw [List.countP_cons_of_pos hx] at h
        obtain ⟨before, y, after, rfl, hy, hk⟩ := ih (Nat.lt_of_succ_lt_succ h)
        exact ⟨x :: before, y, after, rfl, hy, by rw [List.countP_cons_of_pos hx, hk]⟩
    · rw [List.countP_cons_of_neg hx] at h
      obtain ⟨before, y, after, rfl, hy, hk⟩ := ih h
      exact ⟨x :: before, y, after, rfl, hy, by rw [List.countP_cons_of_neg hx, hk]⟩

theorem countP_lt_of_split {α : Type} {p : α → Bool} {xs before after : List α} {x : α}
    (h : xs = before ++ x :: after) (hx : p x = true) : before.countP p < xs.countP p := by
  rw [h, List.countP_append, List.countP_cons_of_pos hx]
  omega

/-- **The gutter holds every number of its rows** exactly where it spans them. -/
theorem holds_hunkGroup_iff (h : Hunk) : (hunkGroup h).Holds ↔ h.Spans := by
  have hcount : ∀ p : List Char → Bool, h.lines.countP p < 2 ^ 64 := fun p =>
    List.countP_le_length.trans_lt h.length_lt
  have hadds := hcount (marker · ≠ '-')
  have hdels := hcount (marker · ≠ '+')
  have hn := h.new_lt
  have ho := h.old_lt
  rw [DiffGroup.Holds, forall_num_hunkGroup, Hunk.Spans]
  simp only [hunkGroup, shownNum]
  split
  · next hnew =>
    -- what is on the new side is at most its last number
    have hside : ∀ before line after, h.lines = before ++ line :: after → marker line ≠ '-' →
        (h.newStart + before.countP (marker · ≠ '-')) % 2 ^ 64 ≤ h.newLast := by
      intro before line after hlines hline
      have := countP_lt_of_split (p := (marker · ≠ '-')) hlines (by simpa using hline)
      rw [Hunk.newLast] at hnew ⊢
      omega
    rw [Nat.mod_eq_of_lt hnew]
    by_cases hold : h.oldLast < 2 ^ 64
    · refine iff_of_true (fun before line after hlines => ?_) (.inl hold)
      rw [Nat.mod_eq_of_lt hold]
      split
      · next hdel =>
        have := countP_lt_of_split (p := (marker · ≠ '+')) hlines (by simp [hdel])
        refine Nat.le_trans ?_ (Nat.le_max_right _ _)
        rw [Hunk.oldLast] at hold ⊢
        omega
      · next hline => exact (hside _ _ _ hlines hline).trans (Nat.le_max_left _ _)
    · have hmod : h.oldLast % 2 ^ 64 = h.oldLast - 2 ^ 64 := by
        rw [Hunk.oldLast] at hold ⊢
        omega
      rw [hmod, or_iff_right hold]
      constructor
      · intro hall before line after hlines hdel
        have := hall before line after hlines
        rwa [if_pos hdel] at this
      · intro hall before line after hlines
        split
        · next hdel => exact hall _ _ _ hlines hdel
        · next hline => exact (hside _ _ _ hlines hline).trans (Nat.le_max_left _ _)
  · next hnew =>
    constructor
    · -- one of the new side's rows has the largest number there is
      intro hall
      have hat : 2 ^ 64 - 1 - h.newStart < h.lines.countP (marker · ≠ '-') := by
        rw [Hunk.newLast] at hnew
        omega
      obtain ⟨before, line, after, hlines, hline, hk⟩ := exists_split_countP hat
      have := hall before line after hlines
      rw [if_neg (by simpa using hline), hk] at this
      rw [Hunk.newLast] at hnew this
      rw [Hunk.oldLast] at this ⊢
      omega
    · intro hold before line after _
      rw [hold]
      refine Nat.le_trans ?_ (Nat.le_max_right _ _)
      split <;> omega

/-- **The diffs are sound and minimal, and which rows of a patch carry the number of their line.**
A comparison of two texts is a diff of them that keeps as many lines as any, and no number of a
patch's rows is beyond its gutter exactly where the gutter spans them. Every line of a file has its
number in the patch exactly where no note stands before one and the numbers are machine words; and
a note's row has none exactly where there is no note. -/
theorem rows_right_iff (diffs : List (List Char × List Char)) (hunks : List Hunk) :
    (∀ (α : Type) [DecidableEq α] (ol nl : List α),
      (lineDiff ol nl).filterMap LineOp.old? = ol ∧ (lineDiff ol nl).filterMap LineOp.new? = nl ∧
        IsLongestCommon ((lineDiff ol nl).filterMap LineOp.kept?) ol nl) ∧
    ((∀ g ∈ diffRowGroups diffs (some hunks), g.Holds) ↔ ∀ h ∈ hunks, h.Spans) ∧
    (List.Forall₂ RowsRight hunks (diffRowGroups diffs (some hunks)) ↔
      ∀ h ∈ hunks, h.NotesLast ∧ h.Within) ∧
    (List.Forall₂ NotesUnnumbered hunks (diffRowGroups diffs (some hunks)) ↔
      ∀ h ∈ hunks, ∀ line ∈ h.lines, isNote line = false) := by
  refine ⟨fun α _ ol nl => kept_lineDiff ol nl, ?_, ?_, ?_⟩
  · simp only [diffRowGroups, List.forall_mem_map, holds_hunkGroup_iff]
  · rw [diffRowGroups, List.forall₂_map_right_iff, List.forall₂_same]
    simp only [rowsRight_iff]
  · rw [diffRowGroups, List.forall₂_map_right_iff, List.forall₂_same]
    simp only [notesUnnumbered_iff]

/-- The last line of a file is changed, and the old one ended without a newline. -/
def lastLineChanged : Hunk where
  oldStart := 7
  newStart := 7
  lines := ["-a".toList, "\\ No newline at end of file".toList, "+b".toList]

/-- A hunk that starts on the largest number there is. -/
def largestStart : Hunk where
  oldStart := 1
  newStart := 2 ^ 64 - 1
  lines := [" a".toList, " b".toList]

/-- The new line is shown as the eighth; it is the seventh. And of a hunk that starts on the
largest number the second line is shown as line zero, in a gutter for the number two. -/
theorem addition_after_note_misnumbered :
    ¬RowsRight lastLineChanged (hunkGroup lastLineChanged) ∧
      (hunkGroup lastLineChanged).rows[2]? = some ⟨.add, some 8, ['b']⟩ ∧
      lastLineChanged.rowOf (lastLineChanged.lines.take 2) ['+', 'b'] =
        ⟨.add, some 7, ['b']⟩ ∧
      (hunkGroup largestStart).rows.map (·.num) = [some (2 ^ 64 - 1), some 0] ∧
      (hunkGroup largestStart).maxLine = 2 := by
  have hrow : (hunkGroup lastLineChanged).rows[2]? = some ⟨.add, some 8, ['b']⟩ := by decide
  have hright : lastLineChanged.rowOf (lastLineChanged.lines.take 2) ['+', 'b'] =
      ⟨.add, some 7, ['b']⟩ := by decide
  refine ⟨fun h => ?_, hrow, hright, by decide, by decide⟩
  have := h (lastLineChanged.lines.take 2) ['+', 'b'] [] (by decide) (by decide)
  rw [hright] at this
  exact absurd (hrow.symm.trans this) (by decide)

end ClaudeReplay.Diff
