import Mathlib.Data.List.Basic
import Mathlib.Data.List.TakeDrop

/-!
# ClaudeReplay.Lib.ListScan

Searching a list from its end, resizing it, and dropping the entries at a set
of absolute positions.

* `rposition p xs` — the index of the last element satisfying `p`;
* `resize xs n d` — `xs` cut or padded to length `n`;
* `dropAt lo drop xs` — `xs`, whose first element stands at position `lo`,
  without the elements at the positions `drop` names;
* `modifyFirst p f xs` — `xs` with the first element satisfying `p` changed by `f`.

`rposition_append_of_pos` and `dropAt_append` say how the scans of a
concatenation follow from those of its parts.
-/

namespace ClaudeReplay.Lib

/-! ## the last match -/

/-- The index of the last element satisfying `p`. -/
def rposition (p : α → Bool) : List α → Option Nat
  | [] => none
  | x :: xs =>
    match rposition p xs with
    | some i => some (i + 1)
    | none => if p x then some 0 else none

theorem rposition_eq_none {p : α → Bool} {xs : List α} :
    rposition p xs = none ↔ ∀ x ∈ xs, p x = false := by
  induction xs with
  | nil => simp [rposition]
  | cons x xs ih =>
    simp only [rposition, List.forall_mem_cons]
    cases h : rposition p xs with
    | some i =>
      have hne : ¬∀ x ∈ xs, p x = false := fun hall => by simp [ih.mpr hall] at h
      simp only [hne, and_false, reduceCtorEq]
    | none =>
      have hall := ih.mp h
      cases hx : p x with
      | true => simp
      | false => simpa using hall

/-- What the last match is: a match, with no match after it. -/
theorem rposition_eq_some {p : α → Bool} {xs : List α} {i : Nat}
    (h : rposition p xs = some i) :
    ∃ pre x post, xs = pre ++ x :: post ∧ pre.length = i ∧ p x = true ∧
      ∀ y ∈ post, p y = false := by
  induction xs generalizing i with
  | nil => simp [rposition] at h
  | cons x xs ih =>
    simp only [rposition] at h
    split at h
    · next j hj =>
      rw [Option.some.injEq] at h
      subst h
      obtain ⟨pre, y, post, rfl, hlen, hy, hpost⟩ := ih hj
      exact ⟨x :: pre, y, post, rfl, by simp [hlen], hy, hpost⟩
    · next hnone =>
      split at h
      · next hx =>
        rw [Option.some.injEq] at h
        subst h
        exact ⟨[], x, xs, rfl, rfl, hx, rposition_eq_none.mp hnone⟩
      · contradiction

theorem rposition_lt {p : α → Bool} {xs : List α} {i : Nat} (h : rposition p xs = some i) :
    i < xs.length := by
  obtain ⟨pre, x, post, rfl, rfl, -, -⟩ := rposition_eq_some h
  simp

/-- A last match in the second part is the last match of the whole. -/
theorem rposition_append (p : α → Bool) (xs ys : List α) :
    rposition p (xs ++ ys) =
      ((rposition p ys).map (xs.length + ·)).orElse fun _ => rposition p xs := by
  induction xs with
  | nil => cases h : rposition p ys <;> simp [rposition, h]
  | cons x xs ih =>
    simp only [List.cons_append, rposition, ih]
    cases rposition p ys with
    | some j => simp; omega
    | none => simp

/-- The last match is found from any split at a match with none after it. -/
theorem rposition_of_split {p : α → Bool} (pre : List α) (x : α) (post : List α)
    (hx : p x = true) (hpost : ∀ y ∈ post, p y = false) :
    rposition p (pre ++ x :: post) = some pre.length := by
  have hright : rposition p (x :: post) = some 0 := by
    simp [rposition, rposition_eq_none.mpr hpost, hx]
  rw [rposition_append, hright]
  simp

/-! ## resizing -/

/-- `xs` cut or padded with `d` to length `n`. -/
def resize (xs : List α) (n : Nat) (d : α) : List α :=
  xs.take n ++ List.replicate (n - xs.length) d

@[simp] theorem length_resize (xs : List α) (n : Nat) (d : α) : (resize xs n d).length = n := by
  simp only [resize, List.length_append, List.length_take, List.length_replicate]
  omega

theorem resize_self (xs : List α) (d : α) : resize xs xs.length d = xs := by
  simp [resize]

theorem resize_of_length (h : xs.length = n) (d : α) : resize xs n d = xs := by
  subst h
  exact resize_self xs d

theorem resize_of_ge (h : xs.length ≤ n) (d : α) :
    resize xs n d = xs ++ List.replicate (n - xs.length) d := by
  simp [resize, List.take_of_length_le h]

/-! ## dropping positions -/

/-- The list whose first element stands at `lo`, without the elements at the
positions of `drop`. -/
def dropAt (drop : List Nat) (lo : Nat) : List α → List α
  | [] => []
  | x :: xs => if drop.contains lo then dropAt drop (lo + 1) xs else x :: dropAt drop (lo + 1) xs

theorem dropAt_append (drop : List Nat) (lo : Nat) (xs ys : List α) :
    dropAt drop lo (xs ++ ys) = dropAt drop lo xs ++ dropAt drop (lo + xs.length) ys := by
  induction xs generalizing lo with
  | nil => rfl
  | cons x xs ih =>
    simp only [List.cons_append, dropAt, ih, List.length_cons]
    have hlo : lo + 1 + xs.length = lo + (xs.length + 1) := by omega
    split <;> simp [hlo]

/-- Only the positions inside the list matter. -/
theorem dropAt_congr (xs : List α)
    (h : ∀ i, lo ≤ i → i < lo + xs.length → (i ∈ drop ↔ i ∈ drop')) :
    dropAt drop lo xs = dropAt drop' lo xs := by
  induction xs generalizing lo with
  | nil => rfl
  | cons x xs ih =>
    have hhead : drop.contains lo = drop'.contains lo := by
      rw [Bool.eq_iff_iff, List.contains_iff_mem, List.contains_iff_mem]
      exact h lo (Nat.le_refl lo) (by simp)
    have htail : dropAt drop (lo + 1) xs = dropAt drop' (lo + 1) xs := ih fun i hi hi' =>
      h i (by omega) (by simp only [List.length_cons]; omega)
    simp only [dropAt, hhead, htail]

/-- Shifting the positions and the start by the same amount changes nothing. -/
theorem dropAt_shift (drop : List Nat) (d lo : Nat) (xs : List α) :
    dropAt (drop.map (· + d)) (lo + d) xs = dropAt drop lo xs := by
  induction xs generalizing lo with
  | nil => rfl
  | cons x xs ih =>
    have hhead : (drop.map (· + d)).contains (lo + d) = drop.contains lo := by
      simp
    have hlo : lo + d + 1 = lo + 1 + d := by omega
    simp only [dropAt, hhead, hlo, ih]

theorem dropAt_sublist (drop : List Nat) (lo : Nat) (xs : List α) :
    (dropAt drop lo xs).Sublist xs := by
  induction xs generalizing lo with
  | nil => exact List.Sublist.refl []
  | cons x xs ih =>
    simp only [dropAt]
    split
    · exact (ih _).cons x
    · exact (ih _).cons_cons x

/-- Dropping positions where `p` fails leaves what satisfies `p`. -/
theorem dropAt_filter (p : α → Bool) (xs : List α)
    (h : ∀ j, ∀ x, xs[j]? = some x → lo + j ∈ drop → p x = false) :
    (dropAt drop lo xs).filter p = xs.filter p := by
  induction xs generalizing lo with
  | nil => rfl
  | cons x xs ih =>
    have htail : (dropAt drop (lo + 1) xs).filter p = xs.filter p := ih fun j y hy hmem =>
      h (j + 1) y (by simpa using hy) (by rwa [Nat.add_right_comm, Nat.add_assoc] at hmem)
    simp only [dropAt]
    split
    · next hdrop =>
      have hx := h 0 x rfl (by simpa using hdrop)
      rw [htail, List.filter_cons_of_neg (by simp [hx])]
    · rw [List.filter_cons, List.filter_cons, htail]

/-- An element no position drops survives. -/
theorem dropAt_cons_of_notMem (h : lo ∉ drop) :
    dropAt drop lo (x :: xs) = x :: dropAt drop (lo + 1) xs := by
  have : drop.contains lo = false := by simpa using h
  simp only [dropAt, this, Bool.false_eq_true, if_false]

/-- What is left are the elements whose position is not dropped. -/
theorem dropAt_eq_filter (drop : List Nat) (lo : Nat) (xs : List α) :
    dropAt drop lo xs = ((xs.zipIdx lo).filter fun x => decide (x.2 ∉ drop)).map (·.1) := by
  induction xs generalizing lo with
  | nil => rfl
  | cons x xs ih =>
    rw [dropAt, ih, List.zipIdx_cons, List.filter_cons]
    by_cases h : lo ∈ drop
    · simp [h]
    · simp [h]

/-! ## the first match -/

/-- Change the first element satisfying `p`. -/
def modifyFirst (p : α → Bool) (f : α → α) : List α → List α
  | [] => []
  | x :: xs => if p x then f x :: xs else x :: modifyFirst p f xs

end ClaudeReplay.Lib
