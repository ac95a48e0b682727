import ClaudeReplay.Lib.JsonString

/-!
# ClaudeReplay.Lib.Hex

Bytes in hexadecimal, two digits each. What is written reads back (`pairVal_hexByte`), and
what is read was written, up to the case of its digits (`hexByte_of_pairVal`).
-/

namespace ClaudeReplay.Lib

/-- A lowercase hexadecimal digit. -/
def lowerHex (n : Nat) : UInt8 := UInt8.ofNat (if n < 10 then 0x30 + n else 0x57 + n)

/-- The two digits of a byte: `{:02x}`. -/
def hexByte (b : UInt8) : List UInt8 := [lowerHex (b.toNat / 16), lowerHex (b.toNat % 16)]

/-- The byte of two digits. -/
def pairVal (a b : UInt8) : Option UInt8 := do
  let high ← hexVal a
  let low ← hexVal b
  some (UInt8.ofNat (16 * high + low))

/-- `to_ascii_lowercase`. -/
def asciiLower (b : UInt8) : UInt8 := if 0x41 ≤ b && b ≤ 0x5A then b + 0x20 else b

/-! ## digits -/

/-- A digit is one of three ranges. -/
theorem hexVal_cases {b : UInt8} {n : Nat} (h : hexVal b = some n) :
    b.toNat = 0x30 + n ∧ n < 10 ∨ b.toNat = 0x57 + n ∧ 10 ≤ n ∧ n < 16 ∨
      b.toNat = 0x37 + n ∧ 10 ≤ n ∧ n < 16 := by
  simp only [hexVal, Bool.and_eq_true, decide_eq_true_eq, UInt8.le_iff_toNat_le] at h
  have h30 : (0x30 : UInt8).toNat = 0x30 := rfl
  have h39 : (0x39 : UInt8).toNat = 0x39 := rfl
  have h61 : (0x61 : UInt8).toNat = 0x61 := rfl
  have h66 : (0x66 : UInt8).toNat = 0x66 := rfl
  have h41 : (0x41 : UInt8).toNat = 0x41 := rfl
  have h46 : (0x46 : UInt8).toNat = 0x46 := rfl
  split at h
  · cases h
    omega
  · split at h
    · cases h
      omega
    · split at h
      · cases h
        omega
      · contradiction

theorem hexVal_lt {b : UInt8} {n : Nat} (h : hexVal b = some n) : n < 16 := by
  have := hexVal_cases h
  omega

/-- A digit is ASCII. -/
theorem ascii_of_hexVal {b : UInt8} {n : Nat} (h : hexVal b = some n) : b < 0x80 := by
  have := hexVal_cases h
  rw [UInt8.lt_iff_toNat_lt]
  have h80 : (0x80 : UInt8).toNat = 0x80 := rfl
  omega

theorem hexVal_lowerHex : ∀ n < 16, hexVal (lowerHex n) = some n := by
  decide

theorem lowerHex_of_hexVal {b : UInt8} {n : Nat} (h : hexVal b = some n) :
    lowerHex n = asciiLower b := by
  have h41 : (0x41 : UInt8).toNat = 0x41 := rfl
  have h5A : (0x5A : UInt8).toNat = 0x5A := rfl
  have h20 : (0x20 : UInt8).toNat = 0x20 := rfl
  rw [← UInt8.toNat_inj, lowerHex, asciiLower, UInt8.toNat_ofNat']
  simp only [Bool.and_eq_true, decide_eq_true_eq, UInt8.le_iff_toNat_le]
  obtain ⟨hb, hn⟩ | ⟨hb, hn⟩ | ⟨hb, hn⟩ := hexVal_cases h
  · rw [if_pos hn, if_neg (by omega)]
    omega
  · rw [if_neg (by omega), if_neg (by omega)]
    omega
  · rw [if_neg (by omega), if_pos (by omega), UInt8.toNat_add]
    omega

/-! ## bytes -/

theorem pairVal_hexByte (b : UInt8) :
    pairVal (lowerHex (b.toNat / 16)) (lowerHex (b.toNat % 16)) = some b := by
  have hb : b.toNat < 256 := b.toNat_lt
  rw [pairVal, hexVal_lowerHex _ (by omega), hexVal_lowerHex _ (by omega)]
  simp only [Option.bind_eq_bind, Option.bind_some, Nat.div_add_mod, UInt8.ofNat_toNat]

theorem hexByte_of_pairVal {a b x : UInt8} (h : pairVal a b = some x) :
    hexByte x = [asciiLower a, asciiLower b] := by
  obtain ⟨high, hhigh, h⟩ := Option.bind_eq_some_iff.mp h
  obtain ⟨low, hlow, ⟨⟩⟩ := Option.bind_eq_some_iff.mp h
  have hhigh16 := hexVal_lt hhigh
  have hlow16 := hexVal_lt hlow
  have hx : (UInt8.ofNat (16 * high + low)).toNat = 16 * high + low := by
    rw [UInt8.toNat_ofNat']
    omega
  have hdiv : (16 * high + low) / 16 = high := by omega
  have hmod : (16 * high + low) % 16 = low := by omega
  rw [hexByte, hx, hdiv, hmod, lowerHex_of_hexVal hhigh, lowerHex_of_hexVal hlow]

end ClaudeReplay.Lib
