import ClaudeReplay.Lib.JsonString

/-!
# ClaudeReplay.Lib.Unquote

Reading a JSON string: characters, short escapes, and `\u` escapes with their surrogate pairs.

`Spelled` is one character as a double-quoted JavaScript literal may spell it, which is as JSON
does but for an escaped apostrophe. What JSON spells is read back a character at a time
(`unquote_spelled`), and an escaped apostrophe ends the reading (`unquote_apostrophe`).
-/

namespace ClaudeReplay.Lib

def apostrophe : Char := Char.ofNat 39

/-! ## reading -/

/-- The value of a hexadecimal digit. -/
def digitValue (c : Char) : Option Nat :=
  if '0' ≤ c ∧ c ≤ '9' then some (c.toNat - 0x30)
  else if 'a' ≤ c ∧ c ≤ 'f' then some (c.toNat - 0x61 + 10)
  else if 'A' ≤ c ∧ c ≤ 'F' then some (c.toNat - 0x41 + 10)
  else none

/-- The value of four hexadecimal digits. -/
def digitsValue (a b c d : Char) : Option Nat := do
  return (← digitValue a) * 4096 + (← digitValue b) * 256 + (← digitValue c) * 16 + (← digitValue d)

/-- What stands behind a `\u`: a character, or the two halves of one. -/
def readUnicode : List Char → Option (Char × List Char)
  | a :: b :: c :: d :: rest =>
    (digitsValue a b c d).bind fun cp =>
      if isLow cp then none
      else if isHigh cp then
        match rest with
        | '\\' :: 'u' :: a :: b :: c :: d :: rest =>
          (digitsValue a b c d).bind fun lo =>
            if isLow lo then some (Char.ofNat (pairOf cp lo), rest) else none
        | _ => none
      else some (Char.ofNat cp, rest)
  | _ => none

/-- The character an escape of two stands for. -/
def escapedChar (e : Char) : Option Char :=
  if e = '"' ∨ e = '\\' ∨ e = '/' then some e
  else if e = 'b' then some (Char.ofNat 8)
  else if e = 'f' then some (Char.ofNat 12)
  else if e = 'n' then some '\n'
  else if e = 'r' then some '\r'
  else if e = 't' then some '\t'
  else none

/-- A character that stands for itself. -/
def isRaw (c : Char) : Bool := 0x20 ≤ c.toNat && c ≠ '"' && c ≠ '\\'

/-- The next character of a string, and what follows it. -/
def readUnit : List Char → Option (Char × List Char)
  | [] => none
  | c :: rest =>
    if c = '\\' then
      match rest with
      | [] => none
      | e :: rest => if e = 'u' then readUnicode rest else (escapedChar e).map fun c => (c, rest)
    else if isRaw c then some (c, rest)
    else none

/-- The characters up to the quote that ends the text, in so many steps. -/
def unquoteFrom : Nat → List Char → Option (List Char)
  | 0, _ => none
  | n + 1, xs =>
    if xs = ['"'] then some []
    else (readUnit xs).bind fun unit => (unquoteFrom n unit.2).map (unit.1 :: ·)

/-- The characters up to the quote that ends the text. -/
def unquote (xs : List Char) : Option (List Char) := unquoteFrom xs.length xs

/-- The string that a JSON text is. -/
def readString : List Char → Option (List Char)
  | '"' :: rest => unquote rest
  | _ => none

def isHexDigit (c : Char) : Bool := (digitValue c).isSome

/-- The digits behind a `\u`: four, or four for each half of a pair. -/
inductive UnicodeDigits : List Char → Prop
  | four {a b c d : Char} (h : [a, b, c, d].all isHexDigit = true) : UnicodeDigits [a, b, c, d]
  | pair {a b c d e f g i : Char} (h : [a, b, c, d].all isHexDigit = true)
      (h' : [e, f, g, i].all isHexDigit = true) :
      UnicodeDigits [a, b, c, d, '\\', 'u', e, f, g, i]

theorem isHexDigit_of_digitsValue {a b c d : Char} {n : Nat} (h : digitsValue a b c d = some n) :
    [a, b, c, d].all isHexDigit = true := by
  simp only [digitsValue, Option.bind_eq_bind, Option.bind_eq_some_iff] at h
  obtain ⟨va, ha, vb, hb, vc, hc, vd, hd, -⟩ := h
  simp [isHexDigit, ha, hb, hc, hd]

/-- How a `\u` is read. -/
theorem readUnicode_eq_some {xs ys : List Char} {c : Char} (h : readUnicode xs = some (c, ys)) :
    ∃ front, xs = front ++ ys ∧ UnicodeDigits front ∧
      ∀ rest, readUnicode (front ++ rest) = some (c, rest) := by
  fun_cases readUnicode xs with
  | case2 xs hshort => simp [readUnicode] at h
  | case1 a b c d rest =>
    simp only [readUnicode] at h
    obtain ⟨cp, hcp, h⟩ := Option.bind_eq_some_iff.mp h
    split at h
    · contradiction
    · next hlow =>
      split at h
      · next hhigh =>
        split at h
        · next e f g i tail _ =>
          obtain ⟨lo, hlo, h⟩ := Option.bind_eq_some_iff.mp h
          split at h
          · next hlowPair =>
            simp only [Option.some.injEq, Prod.mk.injEq] at h
            obtain ⟨rfl, rfl⟩ := h
            refine ⟨[a, b, c, d, '\\', 'u', e, f, g, i], rfl,
              .pair (isHexDigit_of_digitsValue hcp) (isHexDigit_of_digitsValue hlo),
              fun rest => ?_⟩
            simp [readUnicode, hcp, hlow, hhigh, hlo, hlowPair]
          · contradiction
        · contradiction
      · next hhigh =>
        simp only [Option.some.injEq, Prod.mk.injEq] at h
        obtain ⟨rfl, rfl⟩ := h
        refine ⟨[a, b, c, d], rfl, .four (isHexDigit_of_digitsValue hcp), fun rest => ?_⟩
        simp [readUnicode, hcp, hlow, hhigh]

theorem readUnicode_append {xs ys : List Char} {c : Char} (h : readUnicode xs = some (c, ys))
    (rest : List Char) : readUnicode (xs ++ rest) = some (c, ys ++ rest) := by
  obtain ⟨front, rfl, -, hfront⟩ := readUnicode_eq_some h
  rw [List.append_assoc, hfront]

theorem length_readUnit {xs ys : List Char} {c : Char} (h : readUnit xs = some (c, ys)) :
    ys.length < xs.length := by
  fun_cases readUnit xs with
  | case1 => simp [readUnit] at h
  | case2 => simp [readUnit] at h
  | case3 rest =>
    simp only [readUnit, if_true] at h
    obtain ⟨front, rfl, -, -⟩ := readUnicode_eq_some h
    simp only [List.length_cons, List.length_append]
    omega
  | case4 e rest he =>
    simp only [readUnit, if_true, if_neg he, Option.map_eq_some_iff, Prod.mk.injEq] at h
    obtain ⟨d, -, -, rfl⟩ := h
    simp only [List.length_cons]
    omega
  | case5 c rest hslash hraw =>
    simp only [readUnit, if_neg hslash, if_pos hraw, Option.some.injEq, Prod.mk.injEq] at h
    simp [← h.2]
  | case6 c rest hslash hraw => simp [readUnit, hslash, hraw] at h

/-- More steps than characters change nothing. -/
theorem unquoteFrom_eq {n m : Nat} {xs : List Char} (hn : xs.length ≤ n) (hm : xs.length ≤ m) :
    unquoteFrom n xs = unquoteFrom m xs := by
  induction n generalizing m xs with
  | zero =>
    obtain rfl := List.length_eq_zero_iff.mp (Nat.le_zero.mp hn)
    cases m <;> simp [unquoteFrom, readUnit]
  | succ n ih =>
    cases m with
    | zero =>
      obtain rfl := List.length_eq_zero_iff.mp (Nat.le_zero.mp hm)
      simp [unquoteFrom, readUnit]
    | succ m =>
      simp only [unquoteFrom]
      split
      · rfl
      · cases hunit : readUnit xs with
        | none => rfl
        | some unit =>
          have hlt := length_readUnit hunit
          rw [Option.bind_some, Option.bind_some, @ih m unit.2 (by omega) (by omega)]

theorem unquote_eq (xs : List Char) :
    unquote xs = if xs = ['"'] then some []
      else (readUnit xs).bind fun unit => (unquote unit.2).map (unit.1 :: ·) := by
  have hmore : unquote xs = unquoteFrom (xs.length + 1) xs :=
    unquoteFrom_eq (Nat.le_refl _) (Nat.le_succ _)
  rw [hmore, unquoteFrom]
  split
  · rfl
  · cases hunit : readUnit xs with
    | none => rfl
    | some unit =>
      have hlt := length_readUnit hunit
      rw [Option.bind_some, Option.bind_some, unquote, 
        @unquoteFrom_eq _ unit.2.length unit.2 (by omega) (Nat.le_refl _)]

/-! ## spelling -/

/-- A character as a double-quoted literal spells it. -/
inductive Spelled
  | raw (c : Char) (plain : isRaw c = true)
  | short (letter c : Char) (stands : escapedChar letter = some c)
  | unicode (digits : List Char) (c : Char) (stands : readUnicode digits = some (c, []))
  | apostrophe

namespace Spelled

def text : Spelled → List Char
  | raw c _ => [c]
  | short letter _ _ => ['\\', letter]
  | unicode digits _ _ => '\\' :: 'u' :: digits
  | apostrophe => ['\\', Lib.apostrophe]

def char : Spelled → Char
  | raw c _ => c
  | short _ c _ => c
  | unicode _ c _ => c
  | apostrophe => Lib.apostrophe

theorem text_ne_nil (s : Spelled) : s.text ≠ [] := by
  cases s <;> simp [text]

/-- JSON has the spelling too. -/
def isJson : Spelled → Bool
  | apostrophe => false
  | _ => true

end Spelled

/-- **A spelled character is read.** -/
theorem unquote_spelled {s : Spelled} (h : s.isJson = true) (rest : List Char) :
    unquote (s.text ++ rest) = (unquote rest).map (s.char :: ·) := by
  have hunit : s.text ++ rest ≠ ['"'] ∧ readUnit (s.text ++ rest) = some (s.char, rest) := by
    cases s with
    | raw c plain =>
      have hc := plain
      simp only [isRaw, Bool.and_eq_true, decide_eq_true_eq, ne_eq, decide_not,
        Bool.not_eq_true', decide_eq_false_iff_not] at hc
      simp [Spelled.text, Spelled.char, readUnit, plain, hc]
    | short letter c stands =>
      have hletter : letter ≠ 'u' := by
        rintro rfl
        contradiction
      simp [Spelled.text, Spelled.char, readUnit, hletter, stands]
    | unicode digits c stands =>
      have hread := readUnicode_append stands rest
      simp [Spelled.text, Spelled.char, readUnit, hread]
    | apostrophe => contradiction
  rw [unquote_eq, if_neg hunit.1, hunit.2, Option.bind_some]

/-- Characters that stand for themselves are read as they are. -/
theorem unquote_append_of_isRaw {xs : List Char} (h : xs.all isRaw = true) (rest : List Char) :
    unquote (xs ++ rest) = (unquote rest).map (xs ++ ·) := by
  induction xs with
  | nil => simp
  | cons c xs ih =>
    simp only [List.all_cons, Bool.and_eq_true] at h
    have hone := @unquote_spelled (.raw c h.1) rfl (xs ++ rest)
    rw [ih h.2] at hone
    simpa [Spelled.text, Spelled.char, Option.map_map, Function.comp_def] using hone

/-- **JSON does not escape an apostrophe.** -/
theorem unquote_apostrophe (rest : List Char) : unquote ('\\' :: apostrophe :: rest) = none := by
  rw [unquote_eq]
  simp [readUnit, apostrophe, escapedChar]

end ClaudeReplay.Lib
