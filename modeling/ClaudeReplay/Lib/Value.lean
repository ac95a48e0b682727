import Mathlib.Data.List.Basic
import Mathlib.Algebra.Group.Int.Defs

/-!
# ClaudeReplay.Lib.Value

JSON values as trees, with the field access of a dynamic JSON library: reading a
field of anything but an object, or a field that is missing, gives `null`.

A number is an integer or, with a fraction or an exponent, its text.
-/

namespace ClaudeReplay.Lib

/-- A JSON value. -/
inductive Value
  | null
  | bool (b : Bool)
  | num (n : Int)
  | dec (digits : String)
  | str (s : String)
  | arr (items : List Value)
  | obj (fields : List (String × Value))

namespace Value

instance : Inhabited Value := ⟨.null⟩

/-- The field `k`, if the value is an object that has it. -/
def get? (v : Value) (k : String) : Option Value :=
  match v with
  | .obj fields => fields.lookup k
  | _ => none

/-- The field `k`, `null` when it is missing: `v[k]`. -/
def get (v : Value) (k : String) : Value := (v.get? k).getD .null

/-- The fields of an object. -/
def asObject : Value → Option (List (String × Value))
  | .obj fields => some fields
  | _ => none

/-- The elements of an array. -/
def asArray : Value → Option (List Value)
  | .arr items => some items
  | _ => none

/-- The text of a string. -/
def asStr : Value → Option String
  | .str s => some s
  | _ => none

/-- The truth value of a boolean. -/
def asBool : Value → Option Bool
  | .bool b => some b
  | _ => none

/-- A number that fits 64 bits without sign. -/
def asU64 : Value → Option UInt64
  | .num n => if 0 ≤ n ∧ n < 2 ^ 64 then some (UInt64.ofNat n.toNat) else none
  | _ => none

theorem asU64_num (n : UInt64) : asU64 (.num n.toNat) = some n := by
  have hbound : n.toNat < 2 ^ 64 := n.toNat_lt
  simp only [asU64]
  rw [if_pos (by omega), Int.toNat_natCast, UInt64.ofNat_toNat]

/-- A number that fits 32 bits without sign. -/
def asU32 (v : Value) : Option UInt32 :=
  v.asU64.bind fun n => if n.toNat < UInt32.size then some n.toUInt32 else none

theorem asU32_num (n : UInt32) : asU32 (.num n.toNat) = some n := by
  have hwide : Value.asU64 (.num n.toNat) = some n.toUInt64 := by
    rw [← asU64_num, UInt32.toNat_toUInt64]
  have hsmall : n.toUInt64.toNat < UInt32.size := by
    rw [UInt32.toNat_toUInt64]
    exact n.toNat_lt_size
  rw [asU32, hwide, Option.bind_some, if_pos hsmall, UInt32.toUInt32_toUInt64]

/-- Write the field `k` of an object, in its place or at the end. -/
def set (v : Value) (k : String) (x : Value) : Value :=
  match v with
  | .obj fields =>
    if fields.any (·.1 = k) then
      .obj (fields.map fun f => if f.1 = k then (k, x) else f)
    else
      .obj (fields ++ [(k, x)])
  | v => v

/-! ## equality -/

mutual
/-- Whether two values are the same. -/
def same : (v w : Value) → Decidable (v = w)
  | .null, .null => isTrue rfl
  | .bool b, .bool c => if h : b = c then isTrue (h ▸ rfl) else isFalse (by simpa using h)
  | .num m, .num n => if h : m = n then isTrue (h ▸ rfl) else isFalse (by simpa using h)
  | .dec s, .dec t => if h : s = t then isTrue (h ▸ rfl) else isFalse (by simpa using h)
  | .str s, .str t => if h : s = t then isTrue (h ▸ rfl) else isFalse (by simpa using h)
  | .arr xs, .arr ys =>
    match sameItems xs ys with
    | isTrue h => isTrue (h ▸ rfl)
    | isFalse h => isFalse (by simpa using h)
  | .obj fs, .obj gs =>
    match sameFields fs gs with
    | isTrue h => isTrue (h ▸ rfl)
    | isFalse h => isFalse (by simpa using h)
  | .null, .bool _ | .null, .num _ | .null, .dec _ | .null, .str _ | .null, .arr _ | .null, .obj _
  | .bool _, .null | .bool _, .num _ | .bool _, .dec _ | .bool _, .str _ | .bool _, .arr _
  | .bool _, .obj _ | .num _, .null | .num _, .bool _ | .num _, .dec _ | .num _, .str _
  | .num _, .arr _ | .num _, .obj _ | .dec _, .null | .dec _, .bool _ | .dec _, .num _
  | .dec _, .str _ | .dec _, .arr _ | .dec _, .obj _ | .str _, .null | .str _, .bool _
  | .str _, .num _ | .str _, .dec _ | .str _, .arr _ | .str _, .obj _ | .arr _, .null
  | .arr _, .bool _ | .arr _, .num _ | .arr _, .dec _ | .arr _, .str _ | .arr _, .obj _
  | .obj _, .null | .obj _, .bool _ | .obj _, .num _ | .obj _, .dec _ | .obj _, .str _
  | .obj _, .arr _ => isFalse (by simp)

def sameItems : (xs ys : List Value) → Decidable (xs = ys)
  | [], [] => isTrue rfl
  | [], _ :: _ | _ :: _, [] => isFalse (by simp)
  | x :: xs, y :: ys =>
    match same x y, sameItems xs ys with
    | isTrue h, isTrue hs => isTrue (h ▸ hs ▸ rfl)
    | isFalse h, _ => isFalse (by simp [h])
    | _, isFalse hs => isFalse (by simp [hs])

def sameFields : (fs gs : List (String × Value)) → Decidable (fs = gs)
  | [], [] => isTrue rfl
  | [], _ :: _ | _ :: _, [] => isFalse (by simp)
  | (j, v) :: fs, (k, w) :: gs =>
    match same v w, sameFields fs gs with
    | isTrue h, isTrue hs =>
      if hk : j = k then isTrue (h ▸ hs ▸ hk ▸ rfl) else isFalse (by simp [hk])
    | isFalse h, _ => isFalse (by simp [h])
    | _, isFalse hs => isFalse (by simp [hs])
end

instance : DecidableEq Value := same

/-! ## writing -/

/-- Drop the field `k` of an object. -/
def erase (v : Value) (k : String) : Value :=
  match v with
  | .obj fields => .obj (fields.filter fun f => f.1 ≠ k)
  | v => v

/-- `v[k] = x`: `null` becomes an object; any other value without fields is left alone. -/
def write (v : Value) (k : String) (x : Value) : Value :=
  match v with
  | .null => .obj [(k, x)]
  | v => v.set k x

/-- Change `v[k]` in place. -/
def modify (v : Value) (k : String) (f : Value → Value) : Value := v.write k (f (v.get k))

/-- Change the elements of `v[k]` in place, if it is an array. -/
def mapArr (v : Value) (k : String) (f : List Value → List Value) : Value :=
  v.modify k fun
    | .arr items => .arr (f items)
    | x => x

theorem get?_set (fields : List (String × Value)) (j k : String) (x : Value) :
    ((Value.obj fields).set k x).get? j = if j = k then some x else (Value.obj fields).get? j := by
  simp only [set]
  split
  · next hany =>
    show List.lookup j (fields.map fun f => if f.1 = k then (k, x) else f) =
      if j = k then some x else fields.lookup j
    by_cases hj : j = k
    · subst hj
      rw [if_pos rfl]
      induction fields with
      | nil => simp at hany
      | cons f fields ih =>
        obtain ⟨i, w⟩ := f
        rw [List.map_cons, List.lookup_cons]
        grind
    · rw [if_neg hj]
      clear hany
      induction fields with
      | nil => rfl
      | cons f fields ih =>
        obtain ⟨i, w⟩ := f
        rw [List.map_cons, List.lookup_cons, List.lookup_cons, ih]
        grind
  · next hany =>
    show List.lookup j (fields ++ [(k, x)]) = if j = k then some x else fields.lookup j
    induction fields with
    | nil =>
      rw [List.nil_append, List.lookup_cons]
      grind
    | cons f fields ih =>
      obtain ⟨i, w⟩ := f
      rw [List.cons_append, List.lookup_cons, List.lookup_cons]
      grind

/-- Writing one field leaves the others. -/
theorem get_write_of_ne {j k : String} (h : j ≠ k) (v x : Value) :
    (v.write k x).get j = v.get j := by
  cases v with
  | null =>
    show (List.lookup j [(k, x)]).getD .null = .null
    rw [List.lookup_cons, beq_eq_false_iff_ne.mpr h]
    rfl
  | obj fields =>
    show (((Value.obj fields).set k x).get? j).getD .null = _
    rw [get?_set, if_neg h]
    rfl
  | _ => rfl

theorem get_write {v : Value} (h : v.asObject.isSome) (k : String) (x : Value) :
    (v.write k x).get k = x := by
  cases v with
  | obj fields =>
    show (((Value.obj fields).set k x).get? k).getD .null = _
    rw [get?_set, if_pos rfl]
    rfl
  | _ => contradiction

theorem get_mapArr_of_ne {j k : String} (h : j ≠ k) (v : Value) (f : List Value → List Value) :
    (v.mapArr k f).get j = v.get j :=
  get_write_of_ne h v _

/-- The elements of an array that was changed. -/
theorem asArray_mapArr (v : Value) (k : String) (f : List Value → List Value) :
    ((v.mapArr k f).get k).asArray = (v.get k).asArray.map f := by
  cases v with
  | null => simp [mapArr, modify, write, get, get?, asArray]
  | obj fields =>
    rw [mapArr, modify, get_write rfl]
    cases (Value.obj fields).get k <;> rfl
  | _ => rfl

end Value

end ClaudeReplay.Lib
