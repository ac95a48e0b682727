import Mathlib.Data.List.DropRight

/-!
# ClaudeReplay.Lib.Trim

Dropping the elements of a kind (whitespace, say) from the ends of a list. What is left is what
stands between them (`trimBy_eq`), so every list is its trimmed self between two such ends
(`eq_trimBy`).
-/

namespace ClaudeReplay.Lib

variable {α : Type} (p : α → Bool)

def trimStartBy (xs : List α) : List α := xs.dropWhile p

def trimEndBy (xs : List α) : List α := xs.rdropWhile p

def trimBy (xs : List α) : List α := trimEndBy p (trimStartBy p xs)

/-- How many are dropped from the start. -/
def leadLen (xs : List α) : Nat := (xs.takeWhile p).length

/-- The list neither starts nor ends with one of the kind. -/
structure Trimmed (xs : List α) : Prop where
  start : ∀ x ∈ xs.head?, p x = false
  stop : ∀ x ∈ xs.getLast?, p x = false

variable {p} {xs ys : List α}

theorem trimEndBy_append (h : ∀ x ∈ xs.getLast?, p x = false) (hys : ∀ y ∈ ys, p y = true) :
    trimEndBy p (xs ++ ys) = xs := by
  unfold trimEndBy
  induction ys using List.reverseRecOn with
  | nil =>
    rw [List.append_nil, List.rdropWhile_eq_self_iff]
    intro hne
    rw [h _ (List.getLast?_eq_some_getLast hne)]
    decide
  | append_singleton ys y ih =>
    rw [← List.append_assoc, List.rdropWhile_concat_pos _ _ _ (hys y (by simp))]
    exact ih fun z hz => hys z (by simp [hz])

theorem length_trimEndBy_le (h : ∀ y ∈ ys, p y = true) :
    (trimEndBy p (xs ++ ys)).length ≤ xs.length := by
  unfold trimEndBy
  induction ys using List.reverseRecOn with
  | nil =>
    rw [List.append_nil]
    exact (List.rdropWhile_prefix _ _).length_le
  | append_singleton ys y ih =>
    rw [← List.append_assoc, List.rdropWhile_concat_pos _ _ _ (h y (by simp))]
    exact ih fun z hz => h z (by simp [hz])

/-- What stands between two ends of the kind. -/
theorem trimBy_eq {before after : List α} (h : Trimmed p xs) (hbefore : ∀ x ∈ before, p x = true)
    (hafter : ∀ x ∈ after, p x = true) : trimBy p (before ++ xs ++ after) = xs := by
  unfold trimBy trimStartBy
  rw [List.append_assoc, List.dropWhile_append_of_pos hbefore]
  cases xs with
  | nil =>
    rw [List.nil_append, List.dropWhile_eq_nil_iff.mpr hafter]
    rfl
  | cons x xs =>
    rw [List.cons_append, List.dropWhile_cons_of_neg (by simp [h.start x rfl])]
    exact trimEndBy_append h.stop hafter

theorem trimmed_trimBy (xs : List α) : Trimmed p (trimBy p xs) := by
  unfold trimBy trimEndBy trimStartBy
  constructor
  · intro x hx
    have hprefix := List.rdropWhile_prefix p (xs.dropWhile p)
    have hhead : (xs.dropWhile p).head? = some x := by
      obtain ⟨more, hmore⟩ := hprefix
      rw [← hmore, List.head?_append, hx]
      rfl
    have hnot := List.head?_dropWhile_not p xs
    rw [hhead] at hnot
    simpa using hnot
  · intro x hx
    have hne : (xs.dropWhile p).rdropWhile p ≠ [] := by
      rintro heq
      rw [heq] at hx
      contradiction
    have hlast := List.rdropWhile_last_not p (xs.dropWhile p) hne
    rw [List.getLast?_eq_some_getLast hne, Option.mem_some_iff] at hx
    rw [← hx]
    simpa using hlast

/-- Every list is its trimmed self between two ends of the kind. -/
theorem eq_trimBy (xs : List α) :
    ∃ before after, xs = before ++ trimBy p xs ++ after ∧ before.length = leadLen p xs ∧
      (∀ x ∈ before, p x = true) ∧ ∀ x ∈ after, p x = true := by
  refine ⟨xs.takeWhile p, (xs.dropWhile p).rtakeWhile p, ?_, rfl,
    fun x hx => List.mem_takeWhile_imp hx, fun x hx => List.mem_rtakeWhile_imp hx⟩
  rw [List.append_assoc, trimBy, trimEndBy, trimStartBy, List.rdropWhile_append_rtakeWhile,
    List.takeWhile_append_dropWhile]

theorem trimBy_eq_self (h : Trimmed p xs) : trimBy p xs = xs := by
  have hsame : trimBy p ([] ++ xs ++ []) = xs := trimBy_eq h (by simp) (by simp)
  simpa using hsame

theorem trimBy_append (hys : ∀ y ∈ ys, p y = true) : trimBy p (xs ++ ys) = trimBy p xs := by
  obtain ⟨before, after, hxs, -, hbefore, hafter⟩ := @eq_trimBy _ p xs
  have hall : ∀ y ∈ after ++ ys, p y = true := by
    intro y hy
    obtain hy | hy := List.mem_append.mp hy
    · exact hafter y hy
    · exact hys y hy
  conv_lhs => rw [hxs, List.append_assoc]
  exact trimBy_eq (trimmed_trimBy xs) hbefore hall

theorem length_trimBy_le (xs : List α) : (trimBy p xs).length ≤ xs.length := by
  obtain ⟨before, after, hxs, -, -, -⟩ := @eq_trimBy _ p xs
  have hlength := congrArg List.length hxs
  simp only [List.length_append] at hlength
  omega

/-- What a list begins with is left, where it is no end of the kind. -/
theorem length_le_trimBy (h : Trimmed p xs) (ys : List α) :
    xs.length ≤ (trimBy p (xs ++ ys)).length := by
  obtain ⟨before, after, heq, -, hbefore, hafter⟩ := @eq_trimBy _ p (xs ++ ys)
  cases xs with
  | nil => exact Nat.zero_le _
  | cons x xs =>
    have hnone : before = [] := by
      cases before with
      | nil => rfl
      | cons y before =>
        simp only [List.cons_append, List.cons.injEq] at heq
        have hx := h.start x rfl
        rw [heq.1, hbefore y List.mem_cons_self] at hx
        contradiction
    rw [hnone, List.nil_append] at heq
    obtain ⟨more, hmore, hafter'⟩ | ⟨more, hmore, -⟩ := List.append_eq_append_iff.mp heq.symm
    · -- the list ends among what is dropped
      cases hlast : more.getLast? with
      | none =>
        have hlength := congrArg List.length hmore
        rw [List.getLast?_eq_none_iff.mp hlast, List.append_nil] at hlength
        omega
      | some y =>
        have hy := h.stop y (by rw [hmore, List.getLast?_append, hlast]; rfl)
        have hmem : y ∈ after := by
          rw [hafter']
          exact List.mem_append_left _ (List.mem_of_getLast? hlast)
        rw [hafter y hmem] at hy
        contradiction
    · have hlength := congrArg List.length hmore
      rw [List.length_append] at hlength
      omega

/-- What a list begins with is where the trimmed list begins. -/
theorem prefix_trimBy (h : Trimmed p xs) (ys : List α) : xs <+: trimBy p (xs ++ ys) := by
  cases xs with
  | nil => exact List.nil_prefix
  | cons x xs =>
    have hpre : trimBy p (x :: xs ++ ys) <+: x :: xs ++ ys := by
      rw [trimBy, trimStartBy, List.cons_append,
        List.dropWhile_cons_of_neg (by simp [h.start x rfl])]
      exact List.rdropWhile_prefix _ _
    exact List.prefix_of_prefix_length_le (List.prefix_append _ _) hpre (length_le_trimBy h ys)

theorem trimBy_cons {x : α} (hx : p x = true) (xs : List α) : trimBy p (x :: xs) = trimBy p xs := by
  rw [trimBy, trimStartBy, List.dropWhile_cons_of_pos hx]
  rfl

theorem exists_trimBy_cons {x : α} (hx : p x = false) (xs : List α) :
    ∃ rest, trimBy p (x :: xs) = x :: rest := by
  have htrimmed : Trimmed p [x] := by
    constructor <;> simp [hx]
  have hle := length_le_trimBy htrimmed xs
  rw [List.singleton_append, List.length_singleton] at hle
  have hbegins : trimBy p (x :: xs) <+: x :: xs := by
    rw [trimBy, trimStartBy, List.dropWhile_cons_of_neg (by simp [hx])]
    exact List.rdropWhile_prefix _ _
  cases hrest : trimBy p (x :: xs) with
  | nil =>
    rw [hrest] at hle
    contradiction
  | cons y rest =>
    rw [hrest, List.cons_prefix_cons] at hbegins
    exact ⟨rest, by rw [hbegins.1]⟩

theorem leadLen_eq_zero (h : Trimmed p xs) : leadLen p xs = 0 := by
  unfold leadLen
  cases xs with
  | nil => rfl
  | cons x xs =>
    rw [List.takeWhile_cons_of_neg (by simp [h.start x rfl])]
    rfl

theorem trimEndBy_eq_self (h : Trimmed p xs) : trimEndBy p xs = xs := by
  have hsame := @trimEndBy_append _ p xs [] h.stop (by simp)
  simpa using hsame

end ClaudeReplay.Lib
