import ClaudeReplay.Lib.Lines
import Mathlib.Data.List.TakeWhile

/-!
# ClaudeReplay.Lib.LineLog

A log of lines, read from the middle.

`StartsLine` says whether a line can start at a position, from the element before it alone;
`leading` is what a reader takes of the lines from there on, up to the first it does not
accept. In a log of accepted lines with a torn tail the positions at which a line can start are
the ones where one does (`startsLine_iff`), and reading from the `n`-th gives the lines from
the `n`-th on (`leading_drop`).
-/

namespace ClaudeReplay.Lib

/-! ## where lines start -/

section

variable {α : Type} {sep : α} {ls : List (List α)} {tail : List α}

/-- Where the `n`-th line starts. -/
def lineStart (sep : α) (ls : List (List α)) (n : Nat) : Nat := (unlines sep (ls.take n)).length

@[simp] theorem lineStart_zero : lineStart sep ls 0 = 0 := rfl

@[simp] theorem lineStart_cons (l : List α) (n : Nat) :
    lineStart sep (l :: ls) (n + 1) = l.length + 1 + lineStart sep ls n := by
  simp only [lineStart, List.take_succ_cons, unlines_cons, List.length_append, List.length_cons]
  omega

/-- A log cut at the `n`-th line. -/
theorem split_lineStart (n : Nat) (xs : List α) :
    unlines sep ls ++ xs = unlines sep (ls.take n) ++ (unlines sep (ls.drop n) ++ xs) := by
  rw [← List.append_assoc, ← unlines_append, List.take_append_drop]

theorem drop_lineStart (n : Nat) (xs : List α) :
    (unlines sep ls ++ xs).drop (lineStart sep ls n) = unlines sep (ls.drop n) ++ xs := by
  rw [split_lineStart n, lineStart, List.drop_left]

theorem lineStart_le (n : Nat) (xs : List α) :
    lineStart sep ls n ≤ (unlines sep ls ++ xs).length := by
  rw [split_lineStart n, lineStart, List.length_append]
  omega

/-- A line can start at `at_`: at the front, or right after a separator. -/
def StartsLine (sep : α) (xs : List α) (at_ : Nat) : Prop :=
  at_ = 0 ∨ xs[at_ - 1]? = some sep

/-- Behind the first line, the rest of the log says where lines start. -/
theorem startsLine_cons (l xs : List α) (at_ : Nat) :
    StartsLine sep (l ++ sep :: xs) (l.length + 1 + at_) ↔ StartsLine sep xs at_ := by
  cases at_ with
  | zero => simp [StartsLine]
  | succ at_ =>
    have hindex : l.length + 1 + (at_ + 1) - 1 = l.length + (at_ + 1) := by omega
    have hbehind : (l ++ sep :: xs)[l.length + (at_ + 1)]? = xs[at_]? := by
      rw [List.getElem?_append_right (by omega), Nat.add_sub_cancel_left, List.getElem?_cons_succ]
    rw [StartsLine, StartsLine, hindex, hbehind, Nat.add_sub_cancel]
    simp

/-- **Where lines start.** In lines that are ended, with a torn tail, a line can start at the
positions where one does. -/
theorem startsLine_iff (hls : ∀ l ∈ ls, sep ∉ l) (htail : sep ∉ tail) (at_ : Nat) :
    StartsLine sep (unlines sep ls ++ tail) at_ ↔
      ∃ n ≤ ls.length, at_ = lineStart sep ls n := by
  induction ls generalizing at_ with
  | nil =>
    constructor
    · rintro (rfl | hlast)
      · exact ⟨0, Nat.le_refl 0, rfl⟩
      · exact absurd (List.mem_of_getElem? hlast) htail
    · rintro ⟨n, hn, rfl⟩
      exact .inl (by simp [lineStart])
  | cons l ls ih =>
    have hl : sep ∉ l := hls l List.mem_cons_self
    have ih := ih fun m hm => hls m (List.mem_cons_of_mem l hm)
    rw [unlines_cons, List.append_assoc, List.cons_append]
    obtain hlt | hge := Nat.lt_or_ge at_ (l.length + 1)
    · -- inside the first line, or at its front
      constructor
      · rintro (rfl | hlast)
        · exact ⟨0, Nat.zero_le _, rfl⟩
        · cases at_ with
          | zero => exact ⟨0, Nat.zero_le _, rfl⟩
          | succ at_ =>
            rw [Nat.add_sub_cancel, List.getElem?_append_left (by omega)] at hlast
            exact absurd (List.mem_of_getElem? hlast) hl
      · rintro ⟨n, hn, rfl⟩
        cases n with
        | zero => exact .inl rfl
        | succ n =>
          rw [lineStart_cons] at hlt
          omega
    · -- behind it
      obtain ⟨rest, rfl⟩ := Nat.exists_eq_add_of_le hge
      rw [startsLine_cons, ih]
      constructor
      · rintro ⟨n, hn, rfl⟩
        exact ⟨n + 1, Nat.succ_le_succ hn, (lineStart_cons l n).symm⟩
      · rintro ⟨n, hn, heq⟩
        cases n with
        | zero =>
          rw [lineStart_zero] at heq
          omega
        | succ n =>
          rw [lineStart_cons] at heq
          exact ⟨n, Nat.le_of_succ_le_succ hn, by omega⟩

end

/-! ## reading -/

variable {α : Type} [DecidableEq α]

instance (sep : α) (xs : List α) (at_ : Nat) : Decidable (StartsLine sep xs at_) :=
  inferInstanceAs (Decidable (_ ∨ _))

/-- The ended lines at the front that are accepted. -/
def leading (sep : α) (ok : List α → Bool) (xs : List α) : List (List α) :=
  (splitLines sep xs).1.takeWhile ok

section

variable {sep : α} {ok : List α → Bool} {ls : List (List α)} {tail : List α}

/-- Whole accepted lines are all taken. -/
theorem leading_lines (hls : ∀ l ∈ ls, sep ∉ l) (hok : ∀ l ∈ ls, ok l = true)
    (htail : sep ∉ tail) : leading sep ok (unlines sep ls ++ tail) = ls := by
  rw [leading, splitLines_unlines hls, splitLines_torn htail]
  simpa using hok

/-- **Reading from the `n`-th line** gives the lines from there on. -/
theorem leading_drop (hls : ∀ l ∈ ls, sep ∉ l) (hok : ∀ l ∈ ls, ok l = true)
    (htail : sep ∉ tail) (n : Nat) :
    leading sep ok ((unlines sep ls ++ tail).drop (lineStart sep ls n)) = ls.drop n := by
  rw [drop_lineStart]
  exact leading_lines (fun l hl => hls l (List.mem_of_mem_drop hl))
    (fun l hl => hok l (List.mem_of_mem_drop hl)) htail

end

end ClaudeReplay.Lib
