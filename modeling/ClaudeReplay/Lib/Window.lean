import Mathlib.Logic.Relation
import Mathlib.Order.Nat
import Mathlib.Data.List.Basic

/-!
# ClaudeReplay.Lib.Window

The resident window of an append-only log. Entries are appended at the end,
edited in place, and dropped from the front; an entry's *logical index* is how
many entries were appended before it. `base` is the logical index of the first
resident entry.

`Evolves R w w'` says that `w'` is a later state of `w`: no logical index is
ever reused, and an index resident in both designates one entry, changed only by
edits of the relation `R`. It is reflexive and transitive, and each operation
(`append`, `set`, `drop`) is an instance, so it holds along any run of them.
-/

namespace ClaudeReplay.Lib

/-- The resident part of an append-only log. -/
structure Window (α : Type u) where
  base : Nat
  items : List α

namespace Window

variable {α : Type u} {R : α → α → Prop}

/-- The logical index one past the last entry. -/
def stop (w : Window α) : Nat := w.base + w.items.length

/-- The entry at a logical index, while it is resident. -/
def at? (w : Window α) (i : Nat) : Option α :=
  if w.base ≤ i then w.items[i - w.base]? else none

theorem at?_eq_some {w : Window α} {i : Nat} {x : α} :
    w.at? i = some x ↔ w.base ≤ i ∧ w.items[i - w.base]? = some x := by
  unfold at?
  split
  · next h => simp [h]
  · next h => simp [h]

theorem at?_of_base_le {w : Window α} {i : Nat} (h : w.base ≤ i) :
    w.at? i = w.items[i - w.base]? := if_pos h

theorem lt_stop_of_at? {w : Window α} {i : Nat} {x : α} (h : w.at? i = some x) : i < w.stop := by
  obtain ⟨hbase, hx⟩ := at?_eq_some.mp h
  have := (List.getElem?_eq_some_iff.mp hx).1
  simp only [stop]
  omega

/-- Every index between the base and the end is resident. -/
theorem exists_at? {w : Window α} {i : Nat} (h : w.base ≤ i) (h' : i < w.stop) :
    ∃ x, w.at? i = some x := by
  have hlt : i - w.base < w.items.length := by simp only [stop] at h'; omega
  exact ⟨w.items[i - w.base], by rw [at?_of_base_le h, List.getElem?_eq_getElem hlt]⟩

/-- Append entries at the end. -/
def append (w : Window α) (xs : List α) : Window α := { w with items := w.items ++ xs }

/-- Drop the first `k` entries. -/
def drop (w : Window α) (k : Nat) : Window α := ⟨w.base + k, w.items.drop k⟩

theorem stop_append (w : Window α) (xs : List α) :
    (w.append xs).stop = w.stop + xs.length := by
  simp [stop, append, Nat.add_assoc]

theorem lt_stop_append {w : Window α} {i : Nat} (h : i < w.stop) (xs : List α) :
    i < (w.append xs).stop := by
  rw [stop_append]
  exact Nat.lt_add_right _ h

theorem stop_drop (w : Window α) (k : Nat) (h : k ≤ w.items.length) :
    (w.drop k).stop = w.stop := by
  simp only [stop, drop, List.length_drop]
  omega

theorem at?_append_of_lt {w : Window α} {i : Nat} (h : i < w.stop) (xs : List α) :
    (w.append xs).at? i = w.at? i := by
  by_cases hb : w.base ≤ i
  · have hlt : i - w.base < w.items.length := by simp only [stop] at h; omega
    rw [at?_of_base_le (w := w.append xs) hb, at?_of_base_le hb]
    exact List.getElem?_append_left hlt
  · have hb' : ¬(w.append xs).base ≤ i := hb
    rw [at?, at?, if_neg hb, if_neg hb']

/-- The first appended entry stands at the old end. -/
theorem at?_append_stop (w : Window α) (x : α) (xs : List α) :
    (w.append (x :: xs)).at? w.stop = some x := by
  rw [at?_eq_some]
  refine ⟨Nat.le_add_right _ _, ?_⟩
  simp only [append, stop, Nat.add_sub_cancel_left]
  simp

theorem at?_drop {w : Window α} {k i : Nat} (h : w.base + k ≤ i) :
    (w.drop k).at? i = w.at? i := by
  have hb : w.base ≤ i := by omega
  have hsub : k + (i - (w.base + k)) = i - w.base := by omega
  rw [at?_of_base_le hb, at?_of_base_le (w := w.drop k) h]
  simp only [drop, List.getElem?_drop, hsub]

/-- `w'` is a later state of `w`: indices are never reused, and a common index
designates the same entry up to edits of `R`. -/
structure Evolves (R : α → α → Prop) (w w' : Window α) : Prop where
  base_le : w.base ≤ w'.base
  stop_le : w.stop ≤ w'.stop
  entry : ∀ i, w'.base ≤ i → i < w.stop →
    ∃ x x', w.at? i = some x ∧ w'.at? i = some x' ∧ Relation.ReflTransGen R x x'

theorem Evolves.refl (w : Window α) : Evolves R w w where
  base_le := le_rfl
  stop_le := le_rfl
  entry i hi hi' := by
    obtain ⟨x, hx⟩ := exists_at? hi hi'
    exact ⟨x, x, hx, hx, .refl⟩

theorem Evolves.trans {w₁ w₂ w₃ : Window α} (h : Evolves R w₁ w₂) (h' : Evolves R w₂ w₃) :
    Evolves R w₁ w₃ where
  base_le := h.base_le.trans h'.base_le
  stop_le := h.stop_le.trans h'.stop_le
  entry i hi hi' := by
    obtain ⟨x, y, hx, hy, hxy⟩ := h.entry i (h'.base_le.trans hi) hi'
    obtain ⟨y', z, hy', hz, hyz⟩ := h'.entry i hi (hi'.trans_le h.stop_le)
    rw [hy, Option.some.injEq] at hy'
    subst hy'
    exact ⟨x, z, hx, hz, hxy.trans hyz⟩

theorem evolves_append (w : Window α) (xs : List α) : Evolves R w (w.append xs) where
  base_le := le_rfl
  stop_le := by rw [stop_append]; omega
  entry i hi hi' := by
    obtain ⟨x, hx⟩ := exists_at? (w := w) hi hi'
    exact ⟨x, x, hx, by rw [at?_append_of_lt hi', hx], .refl⟩

theorem evolves_drop (w : Window α) (k : Nat) (h : k ≤ w.items.length) :
    Evolves R w (w.drop k) where
  base_le := Nat.le_add_right _ _
  stop_le := (stop_drop w k h).ge
  entry i hi hi' := by
    have hbase : w.base + k ≤ i := hi
    obtain ⟨x, hx⟩ := exists_at? (w := w) (Nat.le_trans (Nat.le_add_right _ _) hbase) hi'
    exact ⟨x, x, hx, by rw [at?_drop hbase, hx], .refl⟩

end Window

end ClaudeReplay.Lib
