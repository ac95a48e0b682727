import Mathlib.Data.List.Basic

/-!
# ClaudeReplay.Lib.Pieces

A list cut at the elements that satisfy a predicate. `cutAt p` gives what comes before the
first such element, and then each of them with what follows it; `paste` puts the pieces
together again. The pieces between the cuts are the `stretches`.

The two are inverse: what is cut is pasted back (`paste_cutAt`), and pieces without a cut in
them are what the pasted list is cut into (`cutAt_paste`).
-/

namespace ClaudeReplay.Lib

variable {α : Type _} {p : α → Bool}

/-- The list before its first cut, and every cut with what follows it. -/
def cutAt (p : α → Bool) : List α → List α × List (α × List α)
  | [] => ([], [])
  | x :: xs =>
    if p x then ([], (x, (cutAt p xs).1) :: (cutAt p xs).2)
    else (x :: (cutAt p xs).1, (cutAt p xs).2)

/-- The pieces in a row. -/
def paste (first : List α) (rest : List (α × List α)) : List α :=
  first ++ rest.flatMap fun piece => piece.1 :: piece.2

/-- The pieces between the cuts. -/
def stretches (p : α → Bool) (xs : List α) : List (List α) :=
  (cutAt p xs).1 :: (cutAt p xs).2.map (·.2)

@[simp] theorem paste_nil (first : List α) : paste first [] = first := by
  simp [paste]

@[simp] theorem paste_cons (first : List α) (x : α) (next : List α) (rest : List (α × List α)) :
    paste first ((x, next) :: rest) = first ++ x :: paste next rest := by
  simp [paste]

theorem paste_append (first : List α) (rest more : List (α × List α)) :
    paste first (rest ++ more) = paste first rest ++ more.flatMap fun piece => piece.1 :: piece.2 := by
  simp [paste]

/-- What is cut is pasted back. -/
theorem paste_cutAt (p : α → Bool) (xs : List α) : paste (cutAt p xs).1 (cutAt p xs).2 = xs := by
  induction xs with
  | nil => rfl
  | cons x xs ih =>
    rw [cutAt]
    split
    · rw [paste_cons, ih, List.nil_append]
    · show x :: paste (cutAt p xs).1 (cutAt p xs).2 = x :: xs
      rw [ih]

/-- Pieces as a cut leaves them: the cuts satisfy `p` and nothing between them does. -/
structure Pieces (p : α → Bool) (first : List α) (rest : List (α × List α)) : Prop where
  first : ∀ x ∈ first, p x = false
  cuts : ∀ piece ∈ rest, p piece.1 = true
  clear : ∀ piece ∈ rest, ∀ x ∈ piece.2, p x = false

theorem Pieces.tail {first next : List α} {x : α} {rest : List (α × List α)}
    (h : Pieces p first ((x, next) :: rest)) : Pieces p next rest where
  first := h.clear _ List.mem_cons_self
  cuts piece hp := h.cuts piece (List.mem_cons_of_mem _ hp)
  clear piece hp := h.clear piece (List.mem_cons_of_mem _ hp)

theorem pieces_cutAt (p : α → Bool) (xs : List α) : Pieces p (cutAt p xs).1 (cutAt p xs).2 := by
  induction xs with
  | nil => constructor <;> simp [cutAt]
  | cons x xs ih =>
    rw [cutAt]
    split
    · next hx =>
      constructor
      case first => simp
      case cuts =>
        intro piece hp
        obtain rfl | hp := List.mem_cons.mp hp
        · exact hx
        · exact ih.cuts piece hp
      case clear =>
        intro piece hp
        obtain rfl | hp := List.mem_cons.mp hp
        · exact ih.first
        · exact ih.clear piece hp
    · next hx =>
      constructor
      case first =>
        intro y hy
        obtain rfl | hy := List.mem_cons.mp hy
        · simpa using hx
        · exact ih.first y hy
      case cuts => exact ih.cuts
      case clear => exact ih.clear

/-- Elements that are no cuts go to the first piece. -/
theorem cutAt_append_of_clear {first : List α} (h : ∀ x ∈ first, p x = false) (xs : List α) :
    cutAt p (first ++ xs) = (first ++ (cutAt p xs).1, (cutAt p xs).2) := by
  induction first with
  | nil => rfl
  | cons x first ih =>
    have hx := h x List.mem_cons_self
    rw [List.cons_append, cutAt, hx, ih fun y hy => h y (List.mem_cons_of_mem _ hy)]
    rfl

/-- Pieces without a cut in them are what the pasted list is cut into. -/
theorem cutAt_paste {first : List α} {rest : List (α × List α)} (h : Pieces p first rest) :
    cutAt p (paste first rest) = (first, rest) := by
  induction rest generalizing first with
  | nil =>
    have hcut := cutAt_append_of_clear h.first []
    rw [List.append_nil] at hcut
    rw [paste_nil, hcut]
    simp [cutAt]
  | cons piece rest ih =>
    obtain ⟨x, next⟩ := piece
    have hx : p x = true := h.cuts (x, next) List.mem_cons_self
    rw [paste_cons, cutAt_append_of_clear h.first, cutAt, if_pos hx, ih h.tail, List.append_nil]

/-- A list is cut on both sides of a cut. -/
theorem cutAt_append_cons (xs : List α) {x : α} (hx : p x = true) (ys : List α) :
    cutAt p (xs ++ x :: ys) =
      ((cutAt p xs).1, (cutAt p xs).2 ++ (x, (cutAt p ys).1) :: (cutAt p ys).2) := by
  induction xs with
  | nil => simp [cutAt, hx]
  | cons y xs ih =>
    rw [List.cons_append, cutAt, cutAt, ih]
    split <;> rfl

end ClaudeReplay.Lib
