import Mathlib.Data.List.SplitBy

/-!
# ClaudeReplay.Lib.Grouping

A list read from the left falls into maximal runs of neighbours that belong together,
`List.splitBy r`. A fold that keeps a state for the run it is in meets one element at a
time, which either joins the last run or opens a new one: `splitBy_concat` says which it
is and what it does to the runs.
-/

namespace ClaudeReplay.Lib

variable {α : Type u} {r : α → α → Bool}

/-- An element that joins the last one extends the last run. -/
theorem splitBy_concat_of_joins {l run : List α} {front : List (List α)} {x a : α}
    (hl : l.splitBy r = front ++ [run]) (hx : run.getLast? = some x) (hr : r x a = true) :
    (l ++ [a]).splitBy r = front ++ [run ++ [a]] := by
  obtain ⟨hflat, hnil, hchain, hcuts⟩ := List.splitBy_eq_iff.mp hl
  rw [List.splitBy_eq_iff]
  constructor
  · rw [hflat]
    simp
  constructor
  · simp only [List.mem_append, List.mem_singleton, not_or] at hnil ⊢
    exact ⟨hnil.1, by simp⟩
  constructor
  · intro g hg
    rcases List.mem_append.mp hg with hg | hg
    · exact hchain g (List.mem_append_left _ hg)
    · rw [List.mem_singleton.mp hg, List.isChain_append]
      refine ⟨hchain run (by simp), by simp, fun y hy z hz => ?_⟩
      rw [hx] at hy
      grind
  · rw [List.isChain_append] at hcuts ⊢
    obtain ⟨hfront, -, hcut⟩ := hcuts
    refine ⟨hfront, by simp, fun y hy z hz => ?_⟩
    obtain ⟨hny, hnr, hyr⟩ := hcut y hy run (by simp)
    obtain rfl : run ++ [a] = z := by simpa using hz
    exact ⟨hny, by simp, by rwa [List.head_append_of_ne_nil hnr]⟩

/-- An element that does not join the last one opens a run. -/
theorem splitBy_concat_of_opens {l : List α} {a : α}
    (h : ∀ x, l.getLast? = some x → r x a = false) :
    (l ++ [a]).splitBy r = l.splitBy r ++ [[a]] :=
  List.splitBy_append_cons [] fun x hx => h x (by simpa using hx)

/-- The last run ends where the list does. -/
theorem getLast?_of_splitBy {l run : List α} {front : List (List α)}
    (hl : l.splitBy r = front ++ [run]) : l.getLast? = run.getLast? := by
  obtain ⟨hflat, hnil, -, -⟩ := List.splitBy_eq_iff.mp hl
  have hrun : run ≠ [] := by
    rintro rfl
    simp at hnil
  rw [hflat, List.flatten_append, List.getLast?_append]
  simp [List.getLast?_eq_some_getLast hrun]

/-- The next element joins the last run or opens a run, and the last element decides. -/
theorem splitBy_concat (r : α → α → Bool) (l : List α) (a : α) :
    (∃ front run x, l.splitBy r = front ++ [run] ∧ run.getLast? = some x ∧
      l.getLast? = some x ∧ r x a = true ∧ (l ++ [a]).splitBy r = front ++ [run ++ [a]]) ∨
    ((∀ x, l.getLast? = some x → r x a = false) ∧
      (l ++ [a]).splitBy r = l.splitBy r ++ [[a]]) := by
  by_cases h : ∃ x, l.getLast? = some x ∧ r x a = true
  · left
    obtain ⟨x, hx, hr⟩ := h
    have hne : l.splitBy r ≠ [] := by
      rw [List.splitBy_ne_nil]
      rintro rfl
      simp at hx
    obtain ⟨front, run, hl⟩ : ∃ front run, l.splitBy r = front ++ [run] :=
      ⟨_, _, (List.dropLast_append_getLast hne).symm⟩
    have hrun : run.getLast? = some x := (getLast?_of_splitBy hl).symm.trans hx
    exact ⟨front, run, x, hl, hrun, hx, hr, splitBy_concat_of_joins hl hrun hr⟩
  · right
    have hopen : ∀ x, l.getLast? = some x → r x a = false := by grind
    exact ⟨hopen, splitBy_concat_of_opens hopen⟩

end ClaudeReplay.Lib
