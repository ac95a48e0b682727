import Mathlib.Algebra.Order.BigOperators.Group.List
import Mathlib.Algebra.Order.Group.Nat
import Mathlib.Algebra.GroupWithZero.Nat

/-!
# ClaudeReplay.Lib.Offsets

Rows of given heights, stacked: where each starts, and which row a line falls in.

`offsets` are the running sums of the heights, from nought. The owner of a line is found by
counting the offsets that are not behind it, and it is the row the line is in
(`ownerOf_eq_iff`): finding a line's row and a row's lines are inverse to each other.
-/

namespace ClaudeReplay.Lib

/-- The running sums of some heights, from a sum on. -/
def totals (sum : Nat) : List Nat → List Nat
  | [] => []
  | h :: hs => (sum + h) :: totals (sum + h) hs

/-- Where each row starts, and where the last ends. -/
def offsets (hs : List Nat) : List Nat := 0 :: totals 0 hs

/-- The row a line falls in: one less than the offsets that are not behind the line. -/
def ownerOf (offs : List Nat) (line : Nat) : Nat := (offs.takeWhile (· ≤ line)).length - 1

/-! ## the sums -/

@[simp] theorem length_totals (sum : Nat) (hs : List Nat) : (totals sum hs).length = hs.length := by
  induction hs generalizing sum with
  | nil => rfl
  | cons h hs ih => simp [totals, ih]

@[simp] theorem length_offsets (hs : List Nat) : (offsets hs).length = hs.length + 1 := by
  simp [offsets]

theorem totals_append (sum : Nat) (xs ys : List Nat) :
    totals sum (xs ++ ys) = totals sum xs ++ totals (sum + xs.sum) ys := by
  induction xs generalizing sum with
  | nil => simp [totals]
  | cons x xs ih => simp [totals, ih, Nat.add_assoc]

theorem offsets_append (xs ys : List Nat) :
    offsets (xs ++ ys) = offsets xs ++ totals xs.sum ys := by
  rw [offsets, totals_append, Nat.zero_add, offsets, List.cons_append]

/-- Each offset is the sum of the heights before it. -/
theorem getElem?_cons_totals (sum : Nat) (hs : List Nat) {i : Nat} (hi : i ≤ hs.length) :
    (sum :: totals sum hs)[i]? = some (sum + (hs.take i).sum) := by
  induction hs generalizing sum i with
  | nil =>
    obtain rfl : i = 0 := Nat.le_zero.mp hi
    rfl
  | cons h hs ih =>
    cases i with
    | zero => rfl
    | succ i =>
      rw [List.getElem?_cons_succ, totals, ih (sum + h) (Nat.le_of_succ_le_succ hi),
        List.take_succ_cons, List.sum_cons, Nat.add_assoc]

theorem getElem?_offsets (hs : List Nat) {i : Nat} (hi : i ≤ hs.length) :
    (offsets hs)[i]? = some (hs.take i).sum := by
  rw [offsets, getElem?_cons_totals 0 hs hi, Nat.zero_add]

theorem take_offsets {hs : List Nat} {n : Nat} (hn : n ≤ hs.length) :
    (offsets hs).take (n + 1) = offsets (hs.take n) := by
  have happend := offsets_append (hs.take n) (hs.drop n)
  rw [List.take_append_drop] at happend
  rw [happend, List.take_left' (by simp [hn])]

theorem getLast?_offsets (hs : List Nat) : (offsets hs).getLast? = some hs.sum := by
  rw [List.getLast?_eq_getElem?, length_offsets, Nat.add_sub_cancel,
    getElem?_offsets hs (Nat.le_refl _), List.take_length]

/-- A row that grows moves the ones behind it. -/
theorem offsets_set {hs : List Nat} {b old : Nat} (hb : hs[b]? = some old) (new : Nat) :
    offsets (hs.set b new) = (offsets hs).take (b + 1) ++
      ((offsets hs).drop (b + 1)).map fun p => p + new - old := by
  obtain ⟨hlt, rfl⟩ := List.getElem?_eq_some_iff.mp hb
  have hmove : ∀ (sum : Nat) (ys : List Nat), totals (sum + new) ys =
      (totals (sum + hs[b]) ys).map fun p => p + new - hs[b] := by
    intro sum ys
    induction ys generalizing sum with
    | nil => rfl
    | cons y ys ih =>
      have hhead : sum + new + y = sum + hs[b] + y + new - hs[b] := by omega
      have hrest := ih (sum + y)
      rw [totals, totals, List.map_cons, ← hhead]
      congr 1
      rw [show sum + new + y = sum + y + new by omega, hrest,
        show sum + y + hs[b] = sum + hs[b] + y by omega]
  have hsplit : hs = hs.take b ++ hs[b] :: hs.drop (b + 1) := by
    rw [List.getElem_cons_drop, List.take_append_drop]
  have hset : hs.set b new = hs.take b ++ new :: hs.drop (b + 1) := by
    rw [List.set_eq_take_append_cons_drop, if_pos hlt]
  have hdrop : (offsets hs).drop (b + 1) = totals (hs.take b).sum (hs[b] :: hs.drop (b + 1)) := by
    have happend := offsets_append (hs.take b) (hs[b] :: hs.drop (b + 1))
    rw [← hsplit] at happend
    rw [happend, List.drop_left' (by simp; omega)]
  rw [take_offsets (Nat.le_of_lt hlt), hdrop, hset, offsets_append, totals, totals, List.map_cons, ← hmove]
  congr 2
  omega

/-- A row that shows lines as before, or none as before, leaves the sum's being nought. -/
theorem sum_set_pos {hs : List Nat} {b new : Nat}
    (h : ∀ old, hs[b]? = some old → (old = 0 ↔ new = 0)) :
    0 < (hs.set b new).sum ↔ 0 < hs.sum := by
  induction hs generalizing b with
  | nil => rfl
  | cons x xs ih =>
    cases b with
    | zero =>
      have hx := h x rfl
      rw [List.set_cons_zero, List.sum_cons, List.sum_cons]
      omega
    | succ b =>
      have hrest := @ih b fun old hold => h old (by simpa using hold)
      rw [List.set_cons_succ, List.sum_cons, List.sum_cons]
      omega

/-! ## lines and rows -/

theorem sum_take_mono (hs : List Nat) {i j : Nat} (h : i ≤ j) :
    (hs.take i).sum ≤ (hs.take j).sum := by
  have hfront : hs.take i = (hs.take j).take i := by rw [List.take_take, Nat.min_eq_left h]
  rw [hfront]
  exact ((hs.take j).take_sublist i).sum_le_sum (by simp)

/-- The offsets of a row and of the next are its height apart. -/
theorem sum_take_succ {hs : List Nat} {b : Nat} (hb : b < hs.length) :
    (hs.take (b + 1)).sum = (hs.take b).sum + hs[b]?.getD 0 := by
  rw [List.take_add_one, List.sum_append, List.getElem?_eq_getElem hb]
  rfl

/-- The offsets that are not behind a line. -/
theorem length_takeWhile_totals {sum line : Nat} {hs : List Nat} (hle : sum ≤ line)
    (hlt : line < sum + hs.sum) :
    ∃ b < hs.length, ((sum :: totals sum hs).takeWhile (· ≤ line)).length = b + 1 ∧
      sum + (hs.take b).sum ≤ line ∧ line < sum + (hs.take (b + 1)).sum := by
  induction hs generalizing sum with
  | nil => simp at hlt; omega
  | cons h hs ih =>
    rw [List.takeWhile_cons_of_pos (by simpa using hle), totals]
    obtain hnext | hnext := Nat.lt_or_ge line (sum + h)
    · refine ⟨0, Nat.zero_lt_succ _, ?_, by simpa using hle, by simpa using hnext⟩
      rw [List.takeWhile_cons_of_neg (by simpa using hnext)]
      rfl
    · obtain ⟨b, hb, hlen, hfrom, hto⟩ := ih hnext (by rw [List.sum_cons] at hlt; omega)
      refine ⟨b + 1, Nat.succ_lt_succ hb, by rw [List.length_cons, hlen], ?_, ?_⟩
      · rw [List.take_succ_cons, List.sum_cons]
        omega
      · rw [List.take_succ_cons, List.sum_cons]
        omega

/-- **The owner of a line** is the row it is in, and no other. -/
theorem ownerOf_eq_iff {hs : List Nat} {line : Nat} (hline : line < hs.sum) (b : Nat) :
    ownerOf (offsets hs) line = b ↔
      b < hs.length ∧ (hs.take b).sum ≤ line ∧ line < (hs.take (b + 1)).sum := by
  obtain ⟨b', hb', hlen, hfrom, hto⟩ :=
    @length_takeWhile_totals 0 line hs (Nat.zero_le _) (by omega)
  have howner : ownerOf (offsets hs) line = b' := by
    rw [ownerOf, offsets, hlen, Nat.add_sub_cancel]
  rw [howner]
  constructor
  · rintro rfl
    exact ⟨hb', by omega, by omega⟩
  · rintro ⟨-, hfrom', hto'⟩
    -- a line is in one row only
    obtain hlt | heq | hgt := Nat.lt_trichotomy b' b
    · have hmono := @sum_take_mono hs (b' + 1) b hlt
      omega
    · exact heq
    · have hmono := @sum_take_mono hs (b + 1) b' hgt
      omega

end ClaudeReplay.Lib
