import ClaudeReplay.Lib.Checked
import ClaudeReplay.Lib.Cut
import ClaudeReplay.Lib.Hex
import ClaudeReplay.Lib.Utf8

/-!
# ClaudeReplay.Codex.AgentPath

The key of a sub-agent that has no thread id: its path in hexadecimal, behind a prefix. A key
comes back from transcripts and links, so it may be any text.

The decoder cuts the text every two bytes and reads each piece as a number. A cut within a
character is a panic, here a fault; and a number may have a sign in front, so a key with a `+`
for a digit is read as well. `Clear` says of a key that it meets neither, and
`agent_path_keys` is what holds of the keys that do not.
-/

namespace ClaudeReplay.Codex.AgentPath

open Lib

/-! ## texts -/

/-- A text: bytes that are UTF-8. -/
structure Str where
  bytes : List UInt8
  valid : Utf8.valid bytes = true
  deriving DecidableEq, Repr

/-- `String::from_utf8`. -/
def fromUtf8 (bytes : List UInt8) : Option Str :=
  if h : Utf8.valid bytes = true then some ⟨bytes, h⟩ else none

/-- `&s[i..j]`. -/
def sliceStr (s : List UInt8) (i j : Nat) : Except Fault (List UInt8) :=
  if i ≤ j ∧ Utf8.isBoundary s i ∧ Utf8.isBoundary s j then .ok ((s.take j).drop i)
  else .error .outOfRange

/-! ## numbers -/

def plus : UInt8 := 0x2B

def minus : UInt8 := 0x2D

/-- The digits of a number, which must fit a byte. -/
def readDigits (digits : List UInt8) : Option UInt8 :=
  (digits.foldlM (fun n d => do
    let v ← hexVal d
    if n * 16 + v < 256 then some (n * 16 + v) else none) 0).map UInt8.ofNat

/-- `u8::from_str_radix(_, 16)`. -/
def fromStrRadix (src : List UInt8) : Option UInt8 :=
  match src with
  | [] => none
  | [b] => if b = plus ∨ b = minus then none else readDigits [b]
  | b :: digits => if b = plus then readDigits digits else readDigits (b :: digits)

/-! ## keys -/

/-- `codex-agent-`. -/
def AGENT_PATH_KEY_PREFIX : List UInt8 :=
  [0x63, 0x6F, 0x64, 0x65, 0x78, 0x2D, 0x61, 0x67, 0x65, 0x6E, 0x74, 0x2D]

example : AGENT_PATH_KEY_PREFIX = "codex-agent-".toUTF8.data.toList := by decide +kernel

theorem prefix_ascii : ∀ b ∈ AGENT_PATH_KEY_PREFIX, b < 0x80 := by
  decide +kernel

theorem prefix_valid (bytes : List UInt8) :
    Utf8.valid (AGENT_PATH_KEY_PREFIX ++ bytes) = Utf8.valid bytes :=
  Utf8.valid_append (Utf8.valid_ascii prefix_ascii) bytes

theorem ascii_hexByte {b c : UInt8} (h : c ∈ hexByte b) : c < 0x80 := by
  have hb : b.toNat < 256 := b.toNat_lt
  simp only [hexByte, List.mem_cons, List.not_mem_nil, or_false] at h
  obtain rfl | rfl := h
  · exact ascii_of_hexVal (hexVal_lowerHex _ (by omega))
  · exact ascii_of_hexVal (hexVal_lowerHex _ (by omega))

/-- `encode_agent_path`. -/
def encodeAgentPath (path : Str) : Str where
  bytes := AGENT_PATH_KEY_PREFIX ++ path.bytes.flatMap hexByte
  valid := by
    rw [prefix_valid]
    apply Utf8.valid_ascii
    intro c hc
    obtain ⟨b, -, hc⟩ := List.mem_flatMap.mp hc
    exact ascii_hexByte hc

theorem bytes_encodeAgentPath (path : Str) :
    (encodeAgentPath path).bytes = AGENT_PATH_KEY_PREFIX ++ path.bytes.flatMap hexByte := rfl

/-- The numbers of the pieces that begin at some places, up to the first that is none. -/
def decodeFrom (encoded : List UInt8) : List Nat → Except Fault (Option (List UInt8))
  | [] => return some []
  | index :: rest => do
    match fromStrRadix (← sliceStr encoded index (index + 2)) with
    | none => return none
    | some byte => return (← decodeFrom encoded rest).map (byte :: ·)

/-- `decode_agent_path`. -/
def decodeAgentPath (key : Str) : Except Fault (Option Str) :=
  match stripFront? AGENT_PATH_KEY_PREFIX key.bytes with
  | none => return none
  | some encoded => do
    if encoded.length % 2 ≠ 0 then return none
    return (← decodeFrom encoded (List.range' 0 (encoded.length / 2) 2)).bind fromUtf8

/-! ## what is asked of a key -/

/-- The two keys differ in the case of their hexadecimal digits at most. -/
def SameKey (key encoding : Str) : Prop :=
  ∃ digits, key.bytes = AGENT_PATH_KEY_PREFIX ++ digits ∧
    encoding.bytes = AGENT_PATH_KEY_PREFIX ++ digits.map asciiLower

/-- A key is decoded without a failure, and to a path only if it is the encoding of that path. -/
def Right (key : Str) : Prop :=
  ∃ r, decodeAgentPath key = .ok r ∧ ∀ path, r = some path → SameKey key (encodeAgentPath path)

/-- The bytes of a text, two at a time. -/
def pairs : List UInt8 → List (UInt8 × UInt8)
  | a :: b :: rest => (a, b) :: pairs rest
  | _ => []

/-- The number of a pair. -/
def number (p : UInt8 × UInt8) : Option UInt8 := fromStrRadix [p.1, p.2]

/-- A piece that is reached ends within a character: the pairs before it all have a number. -/
def Cut (encoded : List UInt8) : Prop :=
  ∃ front a b c rest, encoded = front ++ a :: b :: c :: rest ∧ front.length % 2 = 0 ∧
    (∀ p ∈ pairs front, (number p).isSome) ∧ Utf8.continues c = true

/-- All pairs have a number, the numbers are a text, and a pair has a sign. -/
def Signed (encoded : List UInt8) : Prop :=
  ∃ bytes, (pairs encoded).mapM number = some bytes ∧ Utf8.valid bytes = true ∧
    ∃ p ∈ pairs encoded, p.1 = plus

/-- What a key must be to be decoded right. -/
def Clear (key : Str) : Prop :=
  ∀ encoded, key.bytes = AGENT_PATH_KEY_PREFIX ++ encoded → encoded.length % 2 = 0 →
    ¬Cut encoded ∧ ¬Signed encoded

/-! ## numbers read -/

theorem readDigits_one (b : UInt8) : readDigits [b] = (hexVal b).map UInt8.ofNat := by
  cases hb : hexVal b with
  | none => simp [readDigits, hb]
  | some v =>
    have hv := hexVal_lt hb
    simp [readDigits, hb, show v < 256 by omega]

theorem readDigits_two (a b : UInt8) : readDigits [a, b] = pairVal a b := by
  cases ha : hexVal a with
  | none => simp [readDigits, pairVal, ha]
  | some v =>
    have hv := hexVal_lt ha
    cases hb : hexVal b with
    | none => simp [readDigits, pairVal, ha, hb, show v < 256 by omega]
    | some w =>
      have hw := hexVal_lt hb
      simp [readDigits, pairVal, ha, hb, show v < 256 by omega, show v * 16 + w < 256 by omega,
        Nat.mul_comm]

/-- A pair is a sign and a digit, or two digits. -/
theorem number_eq (a b : UInt8) :
    number (a, b) = if a = plus then (hexVal b).map UInt8.ofNat else pairVal a b := by
  rw [number, fromStrRadix, readDigits_one, readDigits_two]
  exact nofun

theorem ascii_of_number {a b x : UInt8} (h : number (a, b) = some x) : a < 0x80 ∧ b < 0x80 := by
  rw [number_eq] at h
  split at h
  · next hplus =>
    obtain ⟨v, hv, -⟩ := Option.map_eq_some_iff.mp h
    exact ⟨hplus ▸ by decide, ascii_of_hexVal hv⟩
  · obtain ⟨v, hv, h⟩ := Option.bind_eq_some_iff.mp h
    obtain ⟨w, hw, -⟩ := Option.bind_eq_some_iff.mp h
    exact ⟨ascii_of_hexVal hv, ascii_of_hexVal hw⟩

/-- Texts of an even length, pair by pair. -/
theorem pairs_induct {motive : (xs : List UInt8) → xs.length % 2 = 0 → Prop} (nil : motive [] rfl)
    (cons : ∀ a b rest (h : rest.length % 2 = 0), motive rest h →
      motive (a :: b :: rest) (by grind)) : ∀ xs h, motive xs h
  | [], _ => nil
  | [_], h => by cases h
  | a :: b :: rest, h => cons a b rest (by grind) (pairs_induct nil cons rest (by grind))

/-! ## pieces read -/

/-- The first piece of a text that does not begin in a character. -/
theorem sliceStr_front {front rest : List UInt8} {a b : UInt8}
    (ha : front = [] ∨ Utf8.continues a = false) :
    sliceStr (front ++ a :: b :: rest) front.length (front.length + 2) =
      if rest.head?.any Utf8.continues then .error .outOfRange else .ok [a, b] := by
  have hstart : Utf8.isBoundary (front ++ a :: b :: rest) front.length = true := by
    cases front with
    | nil => rfl
    | cons x front =>
      rw [Utf8.isBoundary_append _ _ (List.cons_ne_nil _ _)]
      simpa using ha
  have hend : Utf8.isBoundary (front ++ a :: b :: rest) (front.length + 2) =
      !(rest.head?.any Utf8.continues) := by
    have h := Utf8.isBoundary_append (front ++ [a, b]) rest (by simp)
    rwa [List.append_assoc, List.length_append] at h
  have hpiece : ((front ++ a :: b :: rest).take (front.length + 2)).drop front.length = [a, b] := by
    rw [List.take_length_add_append, List.drop_left]
    rfl
  rw [sliceStr, hstart, hend, hpiece]
  cases rest.head?.any Utf8.continues <;> simp

theorem not_cut_nil : ¬Cut [] := by
  rintro ⟨front, a, b, c, rest, heq, -⟩
  simp at heq

/-- A first pair is cut behind, or read and a later one is cut. -/
theorem cut_cons_iff {a b : UInt8} {rest : List UInt8} : Cut (a :: b :: rest) ↔
    rest.head?.any Utf8.continues = true ∨ (number (a, b)).isSome = true ∧ Cut rest := by
  constructor
  · rintro ⟨front, a', b', c, more, heq, heven, hread, hc⟩
    match front with
    | [] =>
      simp only [List.nil_append, List.cons.injEq] at heq
      obtain ⟨rfl, rfl, rfl⟩ := heq
      exact .inl hc
    | [_] => cases heven
    | x :: y :: front =>
      simp only [List.cons_append, List.cons.injEq] at heq
      obtain ⟨rfl, rfl, rfl⟩ := heq
      rw [pairs, List.forall_mem_cons] at hread
      exact .inr ⟨hread.1, front, a', b', c, more, rfl, by grind, hread.2, hc⟩
  · rintro (hc | ⟨hfirst, front, a', b', c, more, rfl, heven, hread, hc⟩)
    · cases rest with
      | nil => cases hc
      | cons c rest => exact ⟨[], a, b, c, rest, rfl, rfl, nofun, hc⟩
    · refine ⟨a :: b :: front, a', b', c, more, rfl, by grind, ?_, hc⟩
      rw [pairs, List.forall_mem_cons]
      exact ⟨hfirst, hread⟩

/-- **What the pieces come to**: a failure where one that is reached is cut, and else the numbers
of the pairs, if they all have one. -/
theorem decodeFrom_spec {encoded : List UInt8} (heven : encoded.length % 2 = 0)
    (front : List UInt8) (hvalid : Utf8.valid encoded = true) :
    decodeFrom (front ++ encoded) (List.range' front.length (encoded.length / 2) 2) =
        .error .outOfRange ∧ Cut encoded ∨
      decodeFrom (front ++ encoded) (List.range' front.length (encoded.length / 2) 2) =
        .ok ((pairs encoded).mapM number) ∧ ¬Cut encoded := by
  induction encoded, heven using pairs_induct generalizing front with
  | nil => exact .inr ⟨rfl, not_cut_nil⟩
  | cons a b rest heven ih =>
    have hlen : (a :: b :: rest).length / 2 = rest.length / 2 + 1 := by
      rw [List.length_cons, List.length_cons]
      omega
    rw [hlen, List.range'_succ, decodeFrom,
      sliceStr_front (.inr (Utf8.not_continues_of_valid hvalid)), cut_cons_iff]
    by_cases hcut : rest.head?.any Utf8.continues = true
    · exact .inl ⟨by rw [if_pos hcut]; rfl, .inl hcut⟩
    · rw [if_neg hcut, bind_ok, pairs, List.mapM_cons,
        show fromStrRadix [a, b] = number (a, b) from rfl]
      cases hnumber : number (a, b) with
      | none => exact .inr ⟨rfl, by simp [hcut]⟩
      | some byte =>
        -- the bytes of a number are characters of their own, so the rest is a text
        obtain ⟨ha, hb⟩ := ascii_of_number hnumber
        rw [Utf8.valid_cons_ascii ha, Utf8.valid_cons_ascii hb] at hvalid
        have hrest := ih (front ++ [a, b]) hvalid
        simp only [List.append_assoc, List.cons_append, List.nil_append, List.length_append,
          List.length_cons, List.length_nil] at hrest
        obtain ⟨hfail, hcut'⟩ | ⟨hread, hcut'⟩ := hrest
        · refine .inl ⟨?_, .inr ⟨rfl, hcut'⟩⟩
          simp only [hfail]
          rfl
        · refine .inr ⟨?_, by simp [hcut, hcut']⟩
          simp only [hread, bind_ok]
          cases (pairs rest).mapM number <;> rfl

/-! ## keys read -/

theorem mem_of_mem_pairs {xs : List UInt8} {p : UInt8 × UInt8} (h : p ∈ pairs xs) : p.1 ∈ xs := by
  fun_induction pairs xs with
  | case1 a b rest ih =>
    obtain rfl | h := List.mem_cons.mp h
    · exact .head _
    · exact .tail _ (.tail _ (ih h))
  | case2 => cases h

theorem plus_notMem_hex (bytes : List UInt8) : plus ∉ bytes.flatMap hexByte := by
  have hdigit : ∀ n < 16, lowerHex n ≠ plus := by decide
  rw [List.mem_flatMap]
  rintro ⟨b, -, hb⟩
  have hlt : b.toNat < 256 := b.toNat_lt
  simp only [hexByte, List.mem_cons, List.not_mem_nil, or_false] at hb
  obtain hb | hb := hb
  · exact hdigit _ (by omega) hb.symm
  · exact hdigit _ (by omega) hb.symm

/-- Pairs without a sign are the digits of their numbers, up to case. -/
theorem hex_of_numbers {encoded bytes : List UInt8} (heven : encoded.length % 2 = 0)
    (hsign : ∀ p ∈ pairs encoded, p.1 ≠ plus)
    (h : (pairs encoded).mapM number = some bytes) :
    bytes.flatMap hexByte = encoded.map asciiLower := by
  induction encoded, heven using pairs_induct generalizing bytes with
  | nil =>
    obtain rfl := Option.some.inj h
    rfl
  | cons a b rest heven ih =>
    rw [pairs, List.forall_mem_cons] at hsign
    rw [pairs, List.mapM_cons] at h
    obtain ⟨byte, hbyte, h⟩ := Option.bind_eq_some_iff.mp h
    obtain ⟨more, hmore, ⟨⟩⟩ := Option.bind_eq_some_iff.mp h
    rw [number_eq, if_neg hsign.1] at hbyte
    rw [List.flatMap_cons, hexByte_of_pairVal hbyte, ih hsign.2 hmore]
    rfl

/-- The digits of some bytes are read back. -/
theorem numbers_of_hex (bytes : List UInt8) :
    (pairs (bytes.flatMap hexByte)).mapM number = some bytes := by
  induction bytes with
  | nil => rfl
  | cons b bytes ih =>
    have hb : b.toNat < 256 := b.toNat_lt
    have hsign : ∀ n < 16, lowerHex n ≠ plus := by decide
    have hnumber := number_eq (lowerHex (b.toNat / 16)) (lowerHex (b.toNat % 16))
    rw [if_neg (hsign _ (by omega)), pairVal_hexByte] at hnumber
    rw [List.flatMap_cons, hexByte, List.cons_append, List.cons_append, List.nil_append, pairs,
      List.mapM_cons, hnumber, ih]
    rfl

theorem length_hex (bytes : List UInt8) : (bytes.flatMap hexByte).length % 2 = 0 := by
  induction bytes with
  | nil => rfl
  | cons b bytes ih =>
    rw [List.flatMap_cons, List.length_append]
    simp only [hexByte, List.length_cons, List.length_nil]
    omega

/-- ASCII is not cut. -/
theorem not_cut_of_ascii {encoded : List UInt8} (h : ∀ b ∈ encoded, b < 0x80) : ¬Cut encoded := by
  rintro ⟨front, a, b, c, rest, rfl, -, -, hc⟩
  have hc' := Utf8.not_continues_of_ascii (h c (by simp))
  rw [hc] at hc'
  cases hc'

/-- The decoder on a key with the prefix, and an even length behind it. -/
theorem decodeAgentPath_eq {key : Str} {encoded : List UInt8}
    (hkey : key.bytes = AGENT_PATH_KEY_PREFIX ++ encoded) (heven : encoded.length % 2 = 0) :
    decodeAgentPath key = .error .outOfRange ∧ Cut encoded ∨
      decodeAgentPath key = .ok (((pairs encoded).mapM number).bind fromUtf8) ∧ ¬Cut encoded := by
  have hvalid : Utf8.valid encoded = true := by
    rw [← prefix_valid, ← hkey]
    exact key.valid
  rw [decodeAgentPath, stripFront?_eq_some.mpr hkey]
  simp only [heven, ne_eq, not_true, if_false]
  obtain ⟨hfail, hcut⟩ | ⟨hread, hcut⟩ := decodeFrom_spec heven [] hvalid
  · rw [List.nil_append, List.length_nil] at hfail
    exact .inl ⟨by rw [hfail]; rfl, hcut⟩
  · rw [List.nil_append, List.length_nil] at hread
    exact .inr ⟨by rw [hread]; rfl, hcut⟩

theorem fromUtf8_eq_some {bytes : List UInt8} {path : Str} :
    fromUtf8 bytes = some path ↔ bytes = path.bytes := by
  obtain ⟨text, hvalid⟩ := path
  rw [fromUtf8]
  constructor
  · intro h
    split at h
    · exact congrArg Str.bytes (Option.some.inj h)
    · cases h
  · rintro rfl
    rw [dif_pos hvalid]

/-- **A path comes back** from its key. -/
theorem decode_encode (path : Str) : decodeAgentPath (encodeAgentPath path) = .ok (some path) := by
  have hascii : ∀ c ∈ path.bytes.flatMap hexByte, c < 0x80 := by
    intro c hc
    obtain ⟨b, -, hc⟩ := List.mem_flatMap.mp hc
    exact ascii_hexByte hc
  obtain ⟨-, hcut⟩ | ⟨hread, -⟩ :=
    decodeAgentPath_eq (bytes_encodeAgentPath path) (length_hex path.bytes)
  · exact absurd hcut (not_cut_of_ascii hascii)
  · rw [hread, numbers_of_hex, Option.bind_some, fromUtf8_eq_some.mpr rfl]

/-- A key with the prefix is right unless it is cut, or has a sign for a digit. -/
theorem right_iff {key : Str} {encoded : List UInt8}
    (hkey : key.bytes = AGENT_PATH_KEY_PREFIX ++ encoded) (heven : encoded.length % 2 = 0) :
    Right key ↔ ¬Cut encoded ∧ ¬Signed encoded := by
  obtain ⟨hfail, hcut⟩ | ⟨hread, hcut⟩ := decodeAgentPath_eq hkey heven
  · constructor
    · rintro ⟨r, hr, -⟩
      cases hfail.symm.trans hr
    · exact fun h => absurd hcut h.1
  · rw [Right, hread]
    constructor
    · rintro ⟨r, hr, hsame⟩
      obtain rfl := Except.ok.inj hr
      refine ⟨hcut, ?_⟩
      rintro ⟨bytes, hnumbers, hvalid, p, hp, hplus⟩
      -- the sign would be among the digits of the path
      rw [hnumbers, Option.bind_some] at hsame
      obtain ⟨digits, hdigits, hencoding⟩ := hsame ⟨bytes, hvalid⟩ (fromUtf8_eq_some.mpr rfl)
      obtain rfl := List.append_cancel_left (hkey.symm.trans hdigits)
      have hhex : bytes.flatMap hexByte = encoded.map asciiLower := List.append_cancel_left hencoding
      have hmem := List.mem_map_of_mem (f := asciiLower) (mem_of_mem_pairs hp)
      rw [hplus, ← hhex] at hmem
      exact plus_notMem_hex bytes hmem
    · rintro ⟨-, hsigned⟩
      refine ⟨_, rfl, fun path hpath => ⟨encoded, hkey, ?_⟩⟩
      obtain ⟨bytes, hnumbers, hpath⟩ := Option.bind_eq_some_iff.mp hpath
      obtain rfl := fromUtf8_eq_some.mp hpath
      have hsign : ∀ p ∈ pairs encoded, p.1 ≠ plus := fun p hp hplus =>
        hsigned ⟨path.bytes, hnumbers, path.valid, p, hp, hplus⟩
      rw [bytes_encodeAgentPath, hex_of_numbers heven hsign hnumbers]

/-- **Agent path keys.** Every path comes back from its key. A key is decoded without a failure,
and to a path only if it is that path's key up to the case of its digits, exactly if no piece
that is reached is cut within a character, and no path comes of numbers with a sign. -/
theorem agent_path_keys (path key : Str) :
    decodeAgentPath (encodeAgentPath path) = .ok (some path) ∧ (Right key ↔ Clear key) := by
  refine ⟨decode_encode path, ?_⟩
  by_cases h : ∃ encoded, key.bytes = AGENT_PATH_KEY_PREFIX ++ encoded ∧ encoded.length % 2 = 0
  · obtain ⟨encoded, hkey, heven⟩ := h
    rw [right_iff hkey heven]
    constructor
    · intro hclear encoded' hkey' _
      obtain rfl := List.append_cancel_left (hkey.symm.trans hkey')
      exact hclear
    · exact fun hclear => hclear encoded hkey heven
  · have hnone : decodeAgentPath key = .ok none := by
      rw [decodeAgentPath]
      cases hstrip : stripFront? AGENT_PATH_KEY_PREFIX key.bytes with
      | none => rfl
      | some encoded =>
        have hodd : encoded.length % 2 ≠ 0 := fun heven =>
          h ⟨encoded, stripFront?_eq_some.mp hstrip, heven⟩
        simp only [if_pos hodd]
        rfl
    constructor
    · exact fun _ encoded hkey heven => absurd ⟨encoded, hkey, heven⟩ h
    · exact fun _ => ⟨none, hnone, nofun⟩

/-- `codex-agent-+f`. -/
def signedKey : Str := ⟨AGENT_PATH_KEY_PREFIX ++ [0x2B, 0x66], by decide⟩

/-- `codex-agent-aéb`. -/
def cutKey : Str := ⟨AGENT_PATH_KEY_PREFIX ++ [0x61, 0xC3, 0xA9, 0x62], by decide⟩

/-- **A key that no path has, and a key that fails.** A sign is read for a digit, and the first
two bytes of `aéb` end within a character. -/
theorem agent_path_keys_signed_and_cut :
    (decodeAgentPath signedKey = .ok (some ⟨[0x0F], by decide⟩) ∧ ¬Right signedKey) ∧
      decodeAgentPath cutKey = .error .outOfRange ∧ ¬Right cutKey := by
  have hsigned : Signed [0x2B, 0x66] :=
    ⟨[0x0F], by decide, by decide, (0x2B, 0x66), .head _, rfl⟩
  refine ⟨⟨rfl, fun h => ((right_iff rfl rfl).mp h).2 hsigned⟩, rfl, ?_⟩
  rintro ⟨r, hr, -⟩
  cases hr

end ClaudeReplay.Codex.AgentPath
