import Mathlib.Data.List.Basic

/-!
# ClaudeReplay.Lib.Lines

A sequence cut into lines by a separator that ends each of them. `splitLines` gives
the lines that are ended and what stands behind the last of them, the torn tail;
`unlines` is its inverse on lines without the separator. What is appended to a
sequence adds to its lines and never changes them (`splitLines_append`).
-/

namespace ClaudeReplay.Lib

variable {α : Type}

/-- Each line with its separator. -/
def unlines (sep : α) (ls : List (List α)) : List α := ls.flatMap fun l => l ++ [sep]

@[simp] theorem unlines_nil (sep : α) : unlines sep [] = [] := rfl

@[simp] theorem unlines_cons (sep : α) (l : List α) (ls : List (List α)) :
    unlines sep (l :: ls) = l ++ sep :: unlines sep ls := by
  simp [unlines]

theorem unlines_append (sep : α) (ls ms : List (List α)) :
    unlines sep (ls ++ ms) = unlines sep ls ++ unlines sep ms := List.flatMap_append

variable [DecidableEq α]

/-- The lines that are ended, and the torn tail. -/
def splitLines (sep : α) : List α → List (List α) × List α
  | [] => ([], [])
  | x :: xs =>
    match splitLines sep xs with
    | ([], t) => if x = sep then ([[]], t) else ([], x :: t)
    | (l :: ls, t) => if x = sep then ([] :: l :: ls, t) else ((x :: l) :: ls, t)

theorem splitLines_cons_sep (sep : α) (xs : List α) :
    splitLines sep (sep :: xs) = ([] :: (splitLines sep xs).1, (splitLines sep xs).2) := by
  rw [splitLines]
  split <;> simp [*]

/-- A sequence without the separator is a torn tail. -/
theorem splitLines_torn {sep : α} {t : List α} (h : sep ∉ t) : splitLines sep t = ([], t) := by
  induction t with
  | nil => rfl
  | cons x t ih =>
    rw [List.mem_cons, not_or] at h
    have hx : x ≠ sep := fun heq => h.1 heq.symm
    simp [splitLines, ih h.2, hx]

theorem splitLines_line {sep : α} {l : List α} (h : sep ∉ l) (xs : List α) :
    splitLines sep (l ++ sep :: xs) = (l :: (splitLines sep xs).1, (splitLines sep xs).2) := by
  induction l with
  | nil => exact splitLines_cons_sep sep xs
  | cons x l ih =>
    rw [List.mem_cons, not_or] at h
    have hx : x ≠ sep := fun heq => h.1 heq.symm
    simp [splitLines, ih h.2, hx]

/-- **Lines are read back.** -/
theorem splitLines_unlines {sep : α} {ls : List (List α)} (hls : ∀ l ∈ ls, sep ∉ l) (xs : List α) :
    splitLines sep (unlines sep ls ++ xs) =
      (ls ++ (splitLines sep xs).1, (splitLines sep xs).2) := by
  induction ls with
  | nil => rfl
  | cons l ls ih =>
    rw [unlines_cons, List.append_assoc, List.cons_append,
      splitLines_line (hls l List.mem_cons_self), ih fun m hm => hls m (List.mem_cons_of_mem _ hm)]
    rfl

/-- **What a sequence is made of.** -/
theorem unlines_splitLines (sep : α) (xs : List α) :
    unlines sep (splitLines sep xs).1 ++ (splitLines sep xs).2 = xs ∧
      (∀ l ∈ (splitLines sep xs).1, sep ∉ l) ∧ sep ∉ (splitLines sep xs).2 := by
  induction xs with
  | nil => simp [splitLines]
  | cons x xs ih =>
    obtain ⟨hxs, hls, ht⟩ := ih
    rw [splitLines]
    cases h : splitLines sep xs with
    | mk ls t =>
      rw [h] at hxs hls ht
      by_cases hx : x = sep
      · cases ls with
        | nil => simpa [hx, ht] using hxs
        | cons l ls =>
          have hl : sep ∉ l ∧ ∀ m ∈ ls, sep ∉ m := by simpa using hls
          have hjoin : l ++ sep :: (unlines sep ls ++ t) = xs := by simpa using hxs
          simpa [hx, ht, hl.1] using ⟨hjoin, hl.2⟩
      · have hsep : ¬sep = x := fun heq => hx heq.symm
        cases ls with
        | nil => simpa [hx, hsep, ht] using hxs
        | cons l ls =>
          have hl : sep ∉ l ∧ ∀ m ∈ ls, sep ∉ m := by simpa using hls
          have hjoin : l ++ sep :: (unlines sep ls ++ t) = xs := by simpa using hxs
          simpa [hx, hsep, ht, hl.1] using ⟨hjoin, hl.2⟩

/-- **What is appended** goes on from the torn tail, and leaves the lines as they are. -/
theorem splitLines_append (sep : α) (xs ys : List α) :
    splitLines sep (xs ++ ys) =
      ((splitLines sep xs).1 ++ (splitLines sep ((splitLines sep xs).2 ++ ys)).1,
        (splitLines sep ((splitLines sep xs).2 ++ ys)).2) := by
  obtain ⟨hxs, hls, -⟩ := unlines_splitLines sep xs
  have hsplit := splitLines_unlines hls ((splitLines sep xs).2 ++ ys)
  rw [← List.append_assoc, hxs] at hsplit
  exact hsplit

/-- Whole lines alone. -/
theorem splitLines_whole {sep : α} {ls : List (List α)} (hls : ∀ l ∈ ls, sep ∉ l) :
    splitLines sep (unlines sep ls) = (ls, []) := by
  have h := splitLines_unlines hls []
  rwa [List.append_nil, splitLines, List.append_nil] at h

/-- The lines at the start of a sequence are lines of it. -/
theorem splitLines_start {sep : α} {xs zs : List α} (h : xs <+: zs) :
    (splitLines sep xs).1 <+: (splitLines sep zs).1 := by
  obtain ⟨ys, rfl⟩ := h
  rw [splitLines_append]
  exact List.prefix_append _ _

end ClaudeReplay.Lib
