import Mathlib.Data.List.Chain
import Mathlib.Data.List.Forall2
import Mathlib.Algebra.GroupWithZero.Nat

/-!
# ClaudeReplay.Lib.Squeeze

Runs of blanks squeezed to one.

`squeeze` reads a list once and carries one bit: whether what came before was blank. That bit is
all a part of the list has to know of the parts before it (`squeeze_append`), so a list in parts
can be squeezed part by part.
-/

namespace ClaudeReplay.Lib

variable {α β : Type} (blank : α → Bool)

/-- A list less each blank that follows a blank; `carry` is whether one came before. -/
def squeeze (carry : Bool) : List α → List α
  | [] => []
  | x :: xs =>
    if blank x && carry then squeeze carry xs else x :: squeeze (blank x) xs

/-- The bit after a list: its last is blank, or none was there and the bit is as before. -/
def carryOut (carry : Bool) (xs : List α) : Bool := (xs.getLast?.map blank).getD carry

@[simp] theorem carryOut_nil (carry : Bool) : carryOut blank carry [] = carry := rfl

theorem carryOut_cons (carry : Bool) (x : α) (xs : List α) :
    carryOut blank carry (x :: xs) = carryOut blank (blank x) xs := by
  cases xs with
  | nil => rfl
  | cons y ys => simp [carryOut, List.getLast?_cons]

/-- The parts of a list are squeezed one by one. -/
theorem squeeze_append (carry : Bool) (xs ys : List α) :
    squeeze blank carry (xs ++ ys) =
      squeeze blank carry xs ++ squeeze blank (carryOut blank carry xs) ys := by
  induction xs generalizing carry with
  | nil => rfl
  | cons x xs ih =>
    rw [carryOut_cons, List.cons_append, squeeze, squeeze]
    cases hx : blank x && carry with
    | true =>
      obtain ⟨hblank, hcarry⟩ := (Bool.and_eq_true _ _).mp hx
      simp only [if_true, ih, hblank, hcarry]
    | false => simp [ih]

theorem squeeze_map (f : β → α) (carry : Bool) (xs : List β) :
    squeeze blank carry (xs.map f) = (squeeze (blank ∘ f) carry xs).map f := by
  induction xs generalizing carry with
  | nil => rfl
  | cons x xs ih =>
    simp only [List.map_cons, squeeze, Function.comp_apply, ih]
    cases blank (f x) && carry <;> rfl

/-- The first of a list is kept where no blank came before. -/
theorem squeeze_ne_nil {xs : List α} (h : xs ≠ []) : squeeze blank false xs ≠ [] := by
  obtain ⟨x, xs, rfl⟩ := List.exists_cons_of_ne_nil h
  simp [squeeze]

/-- Behind a blank, the first that is kept is none. -/
theorem head_squeeze_true (xs : List α) :
    ∀ x ∈ (squeeze blank true xs).head?, blank x = false := by
  induction xs with
  | nil => simp [squeeze]
  | cons x xs ih =>
    cases hx : blank x with
    | true => simpa [squeeze, hx] using ih
    | false => simp [squeeze, hx]

/-- **No two blanks in a row are left.** -/
theorem isChain_squeeze (carry : Bool) (xs : List α) :
    (squeeze blank carry xs).IsChain fun x y => ¬(blank x = true ∧ blank y = true) := by
  induction xs generalizing carry with
  | nil => exact .nil
  | cons x xs ih =>
    cases hx : blank x && carry with
    | true =>
      simp only [squeeze, hx, if_true]
      exact ih carry
    | false =>
      simp only [squeeze, hx]
      have hnext : ∀ y ∈ (squeeze blank (blank x) xs).head?, ¬(blank x = true ∧ blank y = true) := by
        rintro y hy ⟨hx, hy'⟩
        rw [hx] at hy
        exact Bool.false_ne_true ((head_squeeze_true blank xs y hy).symm.trans hy')
      exact List.isChain_cons.mpr ⟨hnext, ih (blank x)⟩

/-- What the elements of a list weigh. -/
def weigh (f : α → Nat) (xs : List α) : Nat := (xs.map f).sum

/-- Elements of two lists, at one place, that are blank alike and weigh alike, or a and b. -/
def WeighsAlike (f : α → Nat) (a b : Nat) (x y : α) : Prop :=
  blank x = blank y ∧ (f x = f y ∨ (f x = a ∧ f y = b))

/-- **Lists that are alike weigh alike squeezed**, but for so many times the difference of a and b;
and not for none, if there is a difference at a place that is not blank. -/
theorem weigh_squeeze {f : α → Nat} {a b : Nat} {xs ys : List α}
    (h : List.Forall₂ (WeighsAlike blank f a b) xs ys) (carry : Bool) :
    ∃ k, weigh f (squeeze blank carry xs) + k * b = weigh f (squeeze blank carry ys) + k * a ∧
      ∀ x y, (x, y) ∈ xs.zip ys → blank x = false → f x ≠ f y → 0 < k := by
  induction h generalizing carry with
  | nil => exact ⟨0, by simp [squeeze, weigh], by simp⟩
  | @cons x y xs ys hxy _ ih =>
    obtain ⟨hblank, hweigh⟩ := hxy
    cases hskip : blank x && carry with
    | true =>
      obtain ⟨hx, rfl⟩ := (Bool.and_eq_true _ _).mp hskip
      obtain ⟨k, hk, hpos⟩ := ih true
      refine ⟨k, by simpa [squeeze, hx, ← hblank] using hk, ?_⟩
      intro x' y' hmem hx' hne
      obtain heq | hmem := List.mem_cons.mp hmem
      · cases heq
        rw [hx] at hx'
        contradiction
      · exact hpos x' y' hmem hx' hne
    | false =>
      obtain ⟨k, hk, hpos⟩ := ih (blank x)
      have hsqueeze : squeeze blank carry (x :: xs) = x :: squeeze blank (blank x) xs := by
        simp [squeeze, hskip]
      have hsqueeze' : squeeze blank carry (y :: ys) = y :: squeeze blank (blank x) ys := by
        simp [squeeze, ← hblank, hskip]
      have hcons : ∀ (z : α) (zs : List α), weigh f (z :: zs) = f z + weigh f zs := fun z zs => by
        simp [weigh]
      rw [hsqueeze, hsqueeze', hcons, hcons]
      by_cases hsame : f x = f y
      · refine ⟨k, by omega, ?_⟩
        intro x' y' hmem hx' hne
        obtain heq | hmem := List.mem_cons.mp hmem
        · cases heq
          exact (hne hsame).elim
        · exact hpos x' y' hmem hx' hne
      · obtain ⟨ha, hb⟩ := hweigh.resolve_left hsame
        refine ⟨k + 1, ?_, fun _ _ _ _ _ => Nat.succ_pos k⟩
        rw [Nat.succ_mul, Nat.succ_mul]
        omega

end ClaudeReplay.Lib
