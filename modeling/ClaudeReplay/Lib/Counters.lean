import ClaudeReplay.Lib.StrMap
import Mathlib.Algebra.Order.Sub.Basic

/-!
# ClaudeReplay.Lib.Counters

Delta encoding of counter maps. A monotone counter map is persisted as the
differences between captures: `delta now before` keeps a key only where the
counter moved, and `addAll` sums a difference back in, key by key.

A key whose counter is zero never reaches a difference, so what a sum of deltas
gives back is the map without its zero entries (`nonzero`). The main result is
`addAll_delta`: summing the difference of two captures onto the earlier one,
both stripped of zeros, gives the later one.

Counters are any ordered commutative monoid with truncated subtraction.
-/

namespace ClaudeReplay.Lib

namespace StrMap

variable {α : Type u} [DecidableEq α] [AddCommMonoid α] [PartialOrder α] [CanonicallyOrderedAdd α]
  [Sub α] [OrderedSub α]

/-- The counter at a key, zero where the map has none. -/
def count (m : StrMap α) (k : String) : α := (m[k]?).getD 0

/-- Every counter of `m` is at most its value in `m'`, and no key is lost. -/
def Grows (m m' : StrMap α) : Prop :=
  ∀ (k : String) (c : α), m[k]? = some c → ∃ c', m'[k]? = some c' ∧ c ≤ c'

/-- The entries that are not zero. -/
def nonzero (m : StrMap α) : StrMap α := m.retain (· ≠ 0)

/-- What `now` holds beyond `before`, where it moved. -/
def delta (now before : StrMap α) : StrMap α :=
  now.filterMap fun k c =>
    let d := c - before.count k
    if d ≠ 0 then some d else none

/-- Sum a difference into a map. -/
def addAll (m d : StrMap α) : StrMap α :=
  d.foldl (fun acc k c => acc.insert k (acc.count k + c)) m

omit [DecidableEq α] [PartialOrder α] [CanonicallyOrderedAdd α] [Sub α] [OrderedSub α] in
theorem count_of_some {m : StrMap α} (h : m[k]? = some c) : m.count k = c := by
  rw [count, h, Option.getD_some]

omit [DecidableEq α] [PartialOrder α] [CanonicallyOrderedAdd α] [Sub α] [OrderedSub α] in
theorem count_of_none {m : StrMap α} (h : m[k]? = none) : m.count k = 0 := by
  rw [count, h, Option.getD_none]

omit [DecidableEq α] [CanonicallyOrderedAdd α] [Sub α] [OrderedSub α] [AddCommMonoid α] in
theorem Grows.refl (m : StrMap α) : m.Grows m := fun _ c h => ⟨c, h, le_rfl⟩

omit [DecidableEq α] [CanonicallyOrderedAdd α] [Sub α] [OrderedSub α] [AddCommMonoid α] in
theorem Grows.trans {m₁ m₂ m₃ : StrMap α} (h : m₁.Grows m₂) (h' : m₂.Grows m₃) :
    m₁.Grows m₃ := by
  intro k c hc
  obtain ⟨c₂, hc₂, hle⟩ := h k c hc
  obtain ⟨c₃, hc₃, hle'⟩ := h' k c₂ hc₂
  exact ⟨c₃, hc₃, hle.trans hle'⟩

omit [CanonicallyOrderedAdd α] [PartialOrder α] [Sub α] [OrderedSub α] in
theorem getElem?_nonzero (m : StrMap α) (k : String) :
    m.nonzero[k]? = if m.count k = 0 then none else m[k]? := by
  rw [nonzero, getElem?_retain]
  cases h : m[k]? with
  | none => simp
  | some c =>
    rw [count_of_some h]
    by_cases hc : c = 0 <;> simp [Option.filter, hc]

omit [CanonicallyOrderedAdd α] [PartialOrder α] [Sub α] [OrderedSub α] in
theorem count_nonzero (m : StrMap α) (k : String) : m.nonzero.count k = m.count k := by
  rw [count, getElem?_nonzero]
  split
  · next h => rw [h, Option.getD_none]
  · rfl

omit [PartialOrder α] [CanonicallyOrderedAdd α] [OrderedSub α] in
theorem getElem?_delta (now before : StrMap α) (k : String) :
    (delta now before)[k]? =
      if now.count k - before.count k = 0 then none
      else (now[k]?).map fun c => c - before.count k := by
  rw [delta, Std.ExtTreeMap.getElem?_filterMap']
  cases h : now[k]? with
  | none => simp
  | some c =>
    rw [count_of_some h]
    by_cases hc : c - before.count k = 0 <;> simp [hc]

omit [DecidableEq α] [PartialOrder α] [CanonicallyOrderedAdd α] [Sub α] [OrderedSub α] in
/-- Summing a list of entries with distinct keys, looked up at one key. -/
private theorem getElem?_addEntries (es : List (String × α)) (m : StrMap α) (k : String)
    (hes : es.Pairwise fun a b => ¬compare a.1 b.1 = .eq) :
    (es.foldl (fun acc e => acc.insert e.1 (acc.count e.1 + e.2)) m)[k]? =
      match es.find? (fun e => e.1 = k) with
      | some e => some (m.count k + e.2)
      | none => m[k]? := by
  induction es generalizing m with
  | nil => rfl
  | cons e es ih =>
    rw [List.pairwise_cons] at hes
    rw [List.foldl_cons, ih _ hes.2, List.find?_cons]
    by_cases hk : e.1 = k
    · have hnone : es.find? (fun e => e.1 = k) = none := by
        rw [List.find?_eq_none]
        intro b hb he
        have hne := hes.1 b hb
        simp only [decide_eq_true_eq] at he
        exact hne (by rw [hk, he]; simp)
      simp only [hnone, hk, decide_true, getElem?_insert, if_true]
    · have hcount : count (m.insert e.1 (m.count e.1 + e.2)) k = m.count k := by
        rw [count, getElem?_insert, if_neg hk, count]
      simp only [hk, decide_false, hcount, getElem?_insert, if_false]

omit [DecidableEq α] [PartialOrder α] [CanonicallyOrderedAdd α] [Sub α] [OrderedSub α] in
/-- Summing a map in adds its counter at every key it has. -/
theorem getElem?_addAll (m d : StrMap α) (k : String) :
    (m.addAll d)[k]? = match d[k]? with
      | some c => some (m.count k + c)
      | none => m[k]? := by
  rw [addAll, Std.ExtTreeMap.foldl_eq_foldl_toList,
    getElem?_addEntries d.toList m k Std.ExtTreeMap.distinct_keys_toList]
  cases h : d.toList.find? (fun e => e.1 = k) with
  | none =>
    have hd : d[k]? = none := by
      cases hd : d[k]? with
      | none => rfl
      | some c =>
        have hmem := Std.ExtTreeMap.mem_toList_iff_getElem?_eq_some.mpr hd
        have := List.find?_eq_none.mp h _ hmem
        simp at this
    rw [hd]
  | some e =>
    have hmem := List.mem_of_find?_eq_some h
    have hk : e.1 = k := by simpa using List.find?_some h
    have hd : d[e.1]? = some e.2 := Std.ExtTreeMap.mem_toList_iff_getElem?_eq_some.mp hmem
    rw [← hk, hd]

/-- **A delta sums back**: adding the difference of two captures to the earlier
one gives the later one, zero entries aside. -/
theorem addAll_delta (now before : StrMap α) (h : before.Grows now) :
    before.nonzero.addAll (now.delta before) = now.nonzero := by
  refine ext fun k => ?_
  rw [getElem?_addAll, getElem?_delta, count_nonzero]
  have hle : before.count k ≤ now.count k := by
    cases hb : before[k]? with
    | none => rw [count_of_none hb]; exact zero_le
    | some c =>
      obtain ⟨c', hc', hle⟩ := h k c hb
      rwa [count_of_some hb, count_of_some hc']
  split
  · next c hc =>
    split at hc
    · contradiction
    · next hne =>
      obtain ⟨c', hc', rfl⟩ := Option.map_eq_some_iff.mp hc
      rw [count_of_some hc'] at hne hle
      have hpos : c' ≠ 0 := by
        rintro rfl
        exact hne (by rw [zero_tsub])
      rw [add_tsub_cancel_of_le hle, getElem?_nonzero, count_of_some hc', if_neg hpos, hc']
  · next hnone =>
    -- nothing moved: the two captures agree at this key
    have hsub : now.count k - before.count k = 0 := by
      by_contra hne
      rw [if_neg hne, Option.map_eq_none_iff] at hnone
      exact hne (by rw [count_of_none hnone, zero_tsub])
    have heq : now.count k = before.count k := le_antisymm (tsub_eq_zero_iff_le.mp hsub) hle
    rw [getElem?_nonzero, getElem?_nonzero, heq]
    split
    · rfl
    · next hne =>
      cases hb : before[k]? with
      | none => exact absurd (count_of_none hb) hne
      | some c =>
        obtain ⟨c', hc', -⟩ := h k c hb
        rw [count_of_some hb, count_of_some hc'] at heq
        rw [hc', heq]

omit [CanonicallyOrderedAdd α] [PartialOrder α] [Sub α] [OrderedSub α] in
theorem nonzero_nonzero (m : StrMap α) : m.nonzero.nonzero = m.nonzero := by
  refine ext fun k => ?_
  rw [getElem?_nonzero, count_nonzero]
  split
  · next h => rw [getElem?_nonzero, if_pos h]
  · rfl

end StrMap

end ClaudeReplay.Lib
