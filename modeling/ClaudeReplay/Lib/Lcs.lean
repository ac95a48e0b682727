import Mathlib.Data.List.Basic

/-!
# ClaudeReplay.Lib.Lcs

Longest common subsequences.

`lcsLen` is the recursion every table of a diff is filled by. No common subsequence is longer than
it (`length_le_lcsLen`), so a common subsequence of that length is a longest one.
-/

namespace ClaudeReplay.Lib

variable {α : Type}

/-- A longest common subsequence of two lists. -/
structure IsLongestCommon (zs xs ys : List α) : Prop where
  left : zs.Sublist xs
  right : zs.Sublist ys
  longest : ∀ ws : List α, ws.Sublist xs → ws.Sublist ys → ws.length ≤ zs.length

variable [DecidableEq α]

/-- How long a longest common subsequence is. -/
def lcsLen : List α → List α → Nat
  | [], _ => 0
  | _ :: _, [] => 0
  | x :: xs, y :: ys =>
    if x = y then lcsLen xs ys + 1 else max (lcsLen xs (y :: ys)) (lcsLen (x :: xs) ys)
  termination_by xs ys => xs.length + ys.length

@[simp] theorem lcsLen_nil_left (ys : List α) : lcsLen [] ys = 0 := by simp [lcsLen]

@[simp] theorem lcsLen_nil_right (xs : List α) : lcsLen xs [] = 0 := by
  cases xs <;> simp [lcsLen]

theorem lcsLen_cons_self (x : α) (xs ys : List α) :
    lcsLen (x :: xs) (x :: ys) = lcsLen xs ys + 1 := by simp [lcsLen]

theorem lcsLen_cons_of_ne {x y : α} (h : x ≠ y) (xs ys : List α) :
    lcsLen (x :: xs) (y :: ys) = max (lcsLen xs (y :: ys)) (lcsLen (x :: xs) ys) := by
  rw [lcsLen, if_neg h]

/-- A common subsequence is at most as long: where the heads agree it can take them, and where
they do not it is one of the rest of one list. -/
theorem length_le_lcsLen {ws xs ys : List α} (hxs : ws.Sublist xs) (hys : ws.Sublist ys) :
    ws.length ≤ lcsLen xs ys := by
  fun_induction lcsLen xs ys generalizing ws with
  | case1 ys => simp [List.sublist_nil.mp hxs]
  | case2 x xs => simp [List.sublist_nil.mp hys]
  | case3 xs x ys ih =>
    have htail := ih hxs.tail hys.tail
    rw [List.length_tail] at htail
    omega
  | case4 x xs y ys hne ihx ihy =>
    cases hxs with
    | cons _ hxs =>
      have := ihx hxs hys
      omega
    | cons_cons _ hxs =>
      cases hys with
      | cons _ hys =>
        have := ihy (hxs.cons_cons x) hys
        omega
      | cons_cons _ hys => exact (hne rfl).elim

/-- A common subsequence of that length is a longest one. -/
theorem isLongestCommon_of_length {zs xs ys : List α} (hxs : zs.Sublist xs) (hys : zs.Sublist ys)
    (h : zs.length = lcsLen xs ys) : IsLongestCommon zs xs ys where
  left := hxs
  right := hys
  longest _ hws hws' := h ▸ length_le_lcsLen hws hws'

end ClaudeReplay.Lib
