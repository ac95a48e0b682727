import ClaudeReplay.Lib.Checked
import ClaudeReplay.Lib.Zstd
import Mathlib.Data.Nat.Bitwise

/-!
# ClaudeReplay.Compressed.DeclaredLen

The decoded length that a compressed transcript states in its frame header, taken only where
the file is that one frame and nothing else: the blocks are walked by their headers, and must
end where the file does.

Additions, shifts and slices are checked (`Lib.Checked`), so a result that is `.ok` says that
none of them left its range. The main result is `declared_len_proved`.
-/

namespace ClaudeReplay.Compressed

open Lib Lib.Zstd

/-! ## the file -/

/-- A file as long as it is read from. A position in it is an `i64` to the system, which also
decides how much of what it is asked for a read gives: something, unless the file ends there. -/
structure File where
  bytes : List UInt8
  given : Nat → Nat → Nat
  length_lt : bytes.length < 2 ^ 63
  given_le : ∀ pos n, given pos n ≤ n
  given_pos : ∀ pos n, 0 < n → 0 < given pos n

namespace File

variable (f : File)

/-- `read_at`. -/
def readAt (pos n : Nat) : List UInt8 := (f.bytes.drop pos).take (f.given pos n)

theorem length_readAt_le (pos n : Nat) : (f.readAt pos n).length ≤ n := by
  rw [readAt, List.length_take]
  exact Nat.le_trans (Nat.min_le_left _ _) (f.given_le pos n)

/-- The loops that fill a buffer of `n` bytes, of which `got` has been read. -/
def fill (pos n : Nat) (got : List UInt8) : Except Fault (List UInt8) :=
  if got.length < n then do
    let start ← checkedAdd 64 pos got.length
    if f.readAt start (n - got.length) = [] then return got
    fill pos n (got ++ f.readAt start (n - got.length))
  else return got
termination_by n - got.length
decreasing_by
  next hread =>
    have := List.length_pos_iff.mpr hread
    rw [List.length_append]
    omega

end File

/-! ## the header -/

def MAGIC : Nat := 0xFD2FB528

/-- How many bytes state the content size. -/
def sizeBytes (descriptor : UInt8) (singleSegment : Bool) : Option Nat :=
  match (descriptor >>> 6).toNat with
  | 0 => if singleSegment then some 1 else none
  | 1 => some 2
  | 2 => some 4
  | _ => some 8

/-- `size |= u64::from(*b) << (8 * i)`. -/
def orByte (size : Nat) (b : UInt8 × Nat) : Except Fault Nat := do
  return size ||| (← checkedShl 64 b.1.toNat (8 * b.2))

/-- The content size, from its field. -/
def sizeOf (field : List UInt8) : Except Fault Nat := field.zipIdx.foldlM orByte 0

/-- What the first bytes say behind the descriptor: whether a checksum follows the blocks, the
size that is stated, and where the blocks begin. -/
def headerFields (head : List UInt8) (descriptor : UInt8) :
    Except Fault (Option (Bool × Nat × Nat)) := do
  let singleSegment : Bool := descriptor &&& 0x20 ≠ 0
  let checksum : Bool := descriptor &&& 0x04 ≠ 0
  -- the reserved bit: not a frame this reader knows
  if descriptor &&& 0x08 ≠ 0 then return none
  let dictionary ← indexAt [0, 1, 2, 4] (descriptor &&& 3).toNat
  let window ← checkedAdd 64 5 (if singleSegment then 0 else 1)
  let start ← checkedAdd 64 window dictionary
  let some sizeBytes := sizeBytes descriptor singleSegment | return none
  let stop ← checkedAdd 64 start sizeBytes
  if head.length < stop then return none
  let size ← sizeOf (← slice head start stop)
  -- the format's offset for a two-byte size
  let size ← if sizeBytes = 2 then checkedAdd 64 size 256 else pure size
  return some (checksum, size, stop)

/-- `declared_len` up to its walk. -/
def File.frameHeader (f : File) : Except Fault (Option (Bool × Nat × Nat)) := do
  -- magic 4, descriptor 1, window 1, dictionary ≤ 4, size ≤ 8
  let head ← f.fill 0 18 []
  if head.length < 5 ∨ ofLe (head.take 4) ≠ MAGIC then return none
  headerFields head (← indexAt head 4)

/-! ## the blocks -/

/-- How long a block's body is, from its header; its kind may be reserved. -/
def bodyOf (header : Nat) : Option Nat :=
  match (header >>> 1) &&& 3 with
  | 0 | 2 => some (header >>> 3)
  | 1 => some 1
  | _ => none

/-- One block of the walk: whether it is the last one, and where it ends. -/
def File.block (f : File) (pos : Nat) : Except Fault (Option (Bool × Nat)) := do
  let block ← f.fill pos 3 []
  if block.length < 3 then return none
  let b0 ← indexAt block 0
  let b1 ← indexAt block 1
  let b2 ← indexAt block 2
  let header := b0.toNat ||| (← checkedShl 32 b1.toNat 8) ||| (← checkedShl 32 b2.toNat 16)
  let some body := bodyOf header | return none
  let stop ← checkedAdd 64 pos (← checkedAdd 64 3 body)
  if f.bytes.length < stop then return none
  return some (header &&& 1 ≠ 0, stop)

theorem checkedAdd_eq_ok {w a b n : Nat} (h : checkedAdd w a b = .ok n) : n = a + b := by
  rw [checkedAdd] at h
  split at h
  · cases h
    rfl
  · contradiction

/-- The walk moves on, within the file. -/
theorem File.block_lt {f : File} {pos stop : Nat} {last : Bool}
    (h : f.block pos = .ok (some (last, stop))) : pos < stop ∧ stop ≤ f.bytes.length := by
  simp only [block, bind_eq_ok] at h
  obtain ⟨block, -, h⟩ := h
  split at h
  · cases h
  · simp only [bind_eq_ok] at h
    obtain ⟨_, -, _, -, _, -, _, -, _, -, h⟩ := h
    split at h
    · simp only [bind_eq_ok] at h
      obtain ⟨more, hmore, next, hnext, h⟩ := h
      have hmore := checkedAdd_eq_ok hmore
      have hnext := checkedAdd_eq_ok hnext
      split at h
      · cases h
      · cases h
        omega
    · cases h

/-- The walk: where the last block ends. -/
def File.walk (f : File) (pos : Nat) : Except Fault (Option Nat) :=
  match _h : f.block pos with
  | .error e => .error e
  | .ok none => .ok none
  | .ok (some (true, stop)) => .ok (some stop)
  | .ok (some (false, stop)) => f.walk stop
termination_by f.bytes.length - pos
decreasing_by
  have := File.block_lt ‹_›
  omega

/-- `declared_len`. -/
def File.declaredLen (f : File) : Except Fault (Option Nat) := do
  let some (checksum, size, start) ← f.frameHeader | return none
  let some pos ← f.walk start | return none
  let pos ← if checksum then checkedAdd 64 pos 4 else pure pos
  return if pos = f.bytes.length then some size else none

/-! ## what a read finds -/

namespace File

variable {f : File} {pos n : Nat} {got : List UInt8}

/-- A buffer is filled with what the file has there, however the reads come. -/
theorem fill_eq (hpos : pos + n < 2 ^ 64) (hlen : got.length ≤ n)
    (hgot : got <+: f.bytes.drop pos) :
    f.fill pos n got = .ok ((f.bytes.drop pos).take n) := by
  have hfront := List.prefix_iff_eq_take.mp hgot
  induction hleft : n - got.length using Nat.strongRecOn generalizing got with
  | ind left ih =>
    rw [fill]
    split
    · next hlt =>
      rw [checkedAdd_of_lt (by omega), bind_ok]
      have hmore : got ++ f.readAt (pos + got.length) (n - got.length) =
          (f.bytes.drop pos).take (got.length + f.given (pos + got.length) (n - got.length)) := by
        rw [readAt, List.take_add, ← hfront, List.drop_drop]
      have hread := f.length_readAt_le (pos + got.length) (n - got.length)
      have hsome := f.given_pos (pos + got.length) (n - got.length) (by omega)
      split
      · next hnone =>
        -- nothing is read only at the end of the file
        have hend : f.bytes.length ≤ pos + got.length := by
          rw [readAt, List.take_eq_nil_iff, List.drop_eq_nil_iff] at hnone
          omega
        have hshort : (f.bytes.drop pos).length ≤ got.length := by
          rw [List.length_drop]
          omega
        rw [List.take_of_length_le hshort] at hfront
        rw [List.take_of_length_le (by omega), ← hfront]
        rfl
      · next hread =>
        have hprefix : got ++ f.readAt (pos + got.length) (n - got.length) <+:
            f.bytes.drop pos := hmore ▸ List.take_prefix _ _
        have hgrown := List.length_pos_iff.mpr hread
        refine ih _ ?_ ?_ hprefix (List.prefix_iff_eq_take.mp hprefix) rfl
        · rw [List.length_append]
          omega
        · rw [List.length_append]
          omega
    · next hfull =>
      rw [hfront, show got.length = n by omega]
      rfl

theorem fill_start (hpos : pos + n < 2 ^ 64) :
    f.fill pos n [] = .ok ((f.bytes.drop pos).take n) :=
  fill_eq hpos (Nat.zero_le n) List.nil_prefix

end File

/-! ## what the bits say -/

theorem or_shl {x i : Nat} (hx : x < 2 ^ i) (y : Nat) : x ||| y * 2 ^ i = x + 2 ^ i * y := by
  rw [Nat.or_comm, Nat.mul_comm, ← Nat.two_pow_add_eq_or_of_lt hx, Nat.add_comm]

theorem sizeOf_from {field : List UInt8} {size k : Nat} (hsize : size < 2 ^ (8 * k))
    (hlen : k + field.length ≤ 8) :
    (field.zipIdx k).foldlM orByte size = .ok (size + 2 ^ (8 * k) * ofLe field) := by
  induction field generalizing size k with
  | nil => rfl
  | cons b bs ih =>
    rw [List.length_cons] at hlen
    have hb : b.toNat < 256 := b.toNat_lt
    have hpow : 2 ^ (8 * (k + 1)) = 2 ^ (8 * k) * 256 := by
      rw [Nat.mul_succ]
      exact Nat.pow_add 2 (8 * k) 8
    have hfits : b.toNat * 2 ^ (8 * k) < 2 ^ 64 := by
      calc b.toNat * 2 ^ (8 * k) < 256 * 2 ^ (8 * k) :=
            Nat.mul_lt_mul_of_pos_right hb (Nat.two_pow_pos _)
        _ = 2 ^ (8 * (k + 1)) := by rw [hpow, Nat.mul_comm]
        _ ≤ 2 ^ 64 := Nat.pow_le_pow_right (by decide) (by omega)
    have hnext : size + 2 ^ (8 * k) * b.toNat < 2 ^ (8 * (k + 1)) := by
      have hmul : 2 ^ (8 * k) * (b.toNat + 1) ≤ 2 ^ (8 * k) * 256 := Nat.mul_le_mul_left _ hb
      rw [hpow]
      rw [Nat.mul_succ] at hmul
      omega
    have hbyte : orByte size (b, k) = .ok (size + 2 ^ (8 * k) * b.toNat) := by
      rw [orByte, checkedShl_of_lt (by omega) hfits, bind_ok, or_shl hsize]
      rfl
    rw [List.zipIdx_cons, List.foldlM_cons, hbyte, bind_ok, ih hnext (by omega), ofLe, hpow,
      Nat.mul_add, Nat.mul_assoc, Nat.add_assoc]

theorem sizeOf_eq {field : List UInt8} (h : field.length ≤ 8) : sizeOf field = .ok (ofLe field) := by
  rw [sizeOf, sizeOf_from (by decide) (by omega)]
  simp

theorem bit_iff (b : UInt8) {i : Nat} (hi : i < 8) :
    b &&& UInt8.ofNat (2 ^ i) ≠ 0 ↔ b.toNat / 2 ^ i % 2 = 1 := by
  have hlt : 2 ^ i < 2 ^ 8 := Nat.pow_lt_pow_right (by decide) hi
  rw [Ne, ← UInt8.toNat_inj, UInt8.toNat_and, UInt8.toNat_ofNat', Nat.mod_eq_of_lt hlt,
    Nat.and_two_pow, Nat.testBit_eq_decide_div_mod_eq]
  by_cases hbit : b.toNat / 2 ^ i % 2 = 1
  · simp [hbit]
  · simp [hbit]

theorem singleSegment_eq (b : UInt8) :
    decide (b &&& 0x20 ≠ 0) = (Descriptor.ofByte b).singleSegment :=
  decide_eq_decide.mpr (bit_iff b (i := 5) (by decide))

theorem checksum_eq (b : UInt8) : decide (b &&& 0x04 ≠ 0) = (Descriptor.ofByte b).checksum :=
  decide_eq_decide.mpr (bit_iff b (i := 2) (by decide))

theorem reserved_iff (b : UInt8) : b &&& 0x08 ≠ 0 ↔ ¬b.toNat / 8 % 2 = 0 := by
  rw [Nat.mod_two_not_eq_zero]
  exact bit_iff b (i := 3) (by decide)

theorem sizeBytes_eq (b : UInt8) : sizeBytes b (Descriptor.ofByte b).singleSegment =
    if (Descriptor.ofByte b).contentWidth = 0 then none
    else some (Descriptor.ofByte b).contentWidth := by
  have hflag : (b >>> 6).toNat = (Descriptor.ofByte b).contentFlag.val := by
    rw [UInt8.toNat_shiftRight]
    exact Nat.shiftRight_eq_div_pow _ 6
  generalize Descriptor.ofByte b = d at hflag ⊢
  obtain ⟨content, single, unused, checksum, dictionary⟩ := d
  simp only [sizeBytes, hflag, Descriptor.contentWidth]
  obtain rfl | rfl | rfl | rfl : content = 0 ∨ content = 1 ∨ content = 2 ∨ content = 3 := by
    omega
  · cases single <;> rfl
  all_goals rfl

theorem dictionary_eq (b : UInt8) : indexAt [0, 1, 2, 4] (b &&& 3).toNat =
    .ok (Descriptor.ofByte b).dictionaryWidth := by
  have hflag : (b &&& 3).toNat = (Descriptor.ofByte b).dictionaryFlag.val :=
    (UInt8.toNat_and b 3).trans (Nat.and_two_pow_sub_one_eq_mod b.toNat 2)
  generalize Descriptor.ofByte b = d at hflag ⊢
  obtain ⟨content, single, unused, checksum, dictionary⟩ := d
  simp only [hflag, Descriptor.dictionaryWidth]
  obtain rfl | rfl | rfl | rfl :
      dictionary = 0 ∨ dictionary = 1 ∨ dictionary = 2 ∨ dictionary = 3 := by
    omega
  all_goals rfl

theorem ofLe_three (b0 b1 b2 : UInt8) :
    b0.toNat ||| b1.toNat * 2 ^ 8 ||| b2.toNat * 2 ^ 16 = ofLe [b0, b1, b2] := by
  have h0 : b0.toNat < 2 ^ 8 := b0.toNat_lt
  have h1 : b1.toNat < 2 ^ 8 := b1.toNat_lt
  rw [or_shl h0, or_shl (by omega)]
  simp only [ofLe]
  omega

theorem bodyOf_eq_some {header n : Nat} : bodyOf header = some n ↔
    ∃ k : BlockKind, k.code = header / 2 % 4 ∧ k.bodyLength (header / 8) = n := by
  have hkind : (header >>> 1) &&& 3 = header / 2 % 4 :=
    Nat.and_two_pow_sub_one_eq_mod (header >>> 1) 2
  have hsize : header >>> 3 = header / 8 := Nat.shiftRight_eq_div_pow header 3
  have hlt : header / 2 % 4 < 4 := Nat.mod_lt _ (by decide)
  rw [bodyOf, hkind, hsize]
  generalize header / 2 % 4 = code at hlt
  constructor
  · intro h
    split at h
    · exact ⟨.raw, rfl, Option.some.inj h⟩
    · exact ⟨.compressed, rfl, Option.some.inj h⟩
    · exact ⟨.rle, rfl, Option.some.inj h⟩
    · contradiction
  · rintro ⟨k, rfl, rfl⟩
    cases k <;> rfl

/-! ## the header, as the format has it -/

/-- The check of the magic number. -/
theorem magic_iff {xs : List UInt8} :
    ((xs.take 18).length < 5 ∨ ofLe ((xs.take 18).take 4) ≠ MAGIC) ↔
      ¬∃ d rest, xs = magic ++ d :: rest := by
  rw [iff_not_comm, not_or, Nat.not_lt, not_not]
  constructor
  · rintro ⟨d, rest, rfl⟩
    have hfront : ((magic ++ d :: rest).take 18).take 4 = magic := rfl
    refine ⟨by simp [magic], ?_⟩
    rw [hfront]
    decide
  · rintro ⟨hlen, hmagic⟩
    match xs with
    | [] | [_] | [_, _] | [_, _, _] | [_, _, _, _] => simp at hlen
    | m0 :: m1 :: m2 :: m3 :: d :: rest =>
      have hfront : [m0, m1, m2, m3] = magic := by
        rw [← le_ofLe [m0, m1, m2, m3]]
        exact (congrArg (le 4) hmagic).trans (by decide)
      exact ⟨d, rest, congrArg (· ++ d :: rest) hfront⟩

/-- The fields, behind a descriptor without the reserved bit. -/
theorem headerFields_byte {head rest : List UInt8} {d : Descriptor}
    (hhead : head = (magic ++ d.byte :: rest).take 18) : ∃ r,
    headerFields head d.byte = .ok r ∧ ∀ checksum size start, r = some (checksum, size, start) ↔
      ∃ h : Header, h.bytes <+: d.byte :: rest ∧ h.descriptor.checksum = checksum ∧
        h.contentSize = some size ∧ start = 4 + h.bytes.length := by
  have hwindow := d.windowWidth_le
  have hdictionary := d.dictionaryWidth_le
  have hcontent := d.contentWidth_le
  have hlen : head.length = min 18 (5 + rest.length) := by
    rw [hhead, List.length_take, List.length_append, List.length_cons, Nat.add_comm rest.length,
      ← Nat.add_assoc]
    rfl
  have hreserved : ¬(d.byte &&& 0x08 ≠ 0) := fun h => (reserved_iff _).mp h d.reserved
  have hsizeBytes := sizeBytes_eq d.byte
  rw [Descriptor.ofByte_byte] at hsizeBytes
  simp only [headerFields, dictionary_eq, singleSegment_eq, checksum_eq, hsizeBytes, bind_ok,
    Descriptor.ofByte_byte, if_neg hreserved, Header.prefix_iff_ofFields]
  rw [show (if d.singleSegment = true then 0 else 1) = d.windowWidth from rfl,
    checkedAdd_of_lt (by omega), bind_ok, checkedAdd_of_lt (by omega), bind_ok]
  by_cases hwidth : d.contentWidth = 0
  · rw [if_pos hwidth]
    refine ⟨none, rfl, fun checksum size start => ⟨nofun, ?_⟩⟩
    rintro ⟨h, ⟨hfits, rfl⟩, -, hsize, -⟩
    rw [Header.contentSize_eq, Header.descriptor_ofFields, if_pos hwidth] at hsize
    cases hsize
  · rw [if_neg hwidth]
    simp only
    rw [checkedAdd_of_lt (by omega), bind_ok]
    split
    · next hshort =>
      refine ⟨none, rfl, fun checksum size start => ⟨nofun, ?_⟩⟩
      rintro ⟨h, ⟨hfits, rfl⟩, -⟩
      omega
    · next hlong =>
      have hfits : d.windowWidth + d.dictionaryWidth + d.contentWidth ≤ rest.length := by omega
      have hfield : slice head (5 + d.windowWidth + d.dictionaryWidth)
          (5 + d.windowWidth + d.dictionaryWidth + d.contentWidth) =
            .ok (Header.ofFields d rest hfits).content := by
        rw [slice_of_le (by omega) (by omega), hhead, List.take_take, List.drop_take,
          Nat.add_assoc 5, ← List.drop_drop]
        simp only [Header.ofFields]
        congr 2
        omega
      have hlt := ofLe_lt (Header.ofFields d rest hfits).content
      rw [Header.length_content, Header.descriptor_ofFields] at hlt
      -- the offset fits, as a size of two bytes does
      have hoffset (htwo : d.contentWidth = 2) :
          ofLe (Header.ofFields d rest hfits).content + 256 < 2 ^ 64 := by
        rw [htwo] at hlt
        omega
      rw [hfield, bind_ok, sizeOf_eq (by rwa [Header.length_content]), bind_ok,
        checkedAdd_ite hoffset]
      refine ⟨_, rfl, fun checksum size start => ⟨?_, ?_⟩⟩
      · intro h
        obtain ⟨rfl, hrest⟩ := Prod.mk.inj (Option.some.inj h)
        obtain ⟨rfl, rfl⟩ := Prod.mk.inj hrest
        refine ⟨_, ⟨hfits, rfl⟩, rfl, ?_, ?_⟩
        · rw [Header.contentSize_eq, Header.descriptor_ofFields, if_neg hwidth]
        · rw [Header.length_bytes, Header.descriptor_ofFields]
          omega
      · rintro ⟨h, ⟨_, rfl⟩, rfl, hsize, rfl⟩
        rw [Header.contentSize_eq, Header.descriptor_ofFields, if_neg hwidth] at hsize
        rw [Header.length_bytes, Header.descriptor_ofFields, Option.some.inj hsize]
        congr 3
        omega

/-- **The header** is taken where one stands that states a size. -/
theorem File.frameHeader_spec (f : File) : ∃ r, f.frameHeader = .ok r ∧
    ∀ checksum size start, r = some (checksum, size, start) ↔
      ∃ h : Header, magic ++ h.bytes <+: f.bytes ∧ h.descriptor.checksum = checksum ∧
        h.contentSize = some size ∧ start = 4 + h.bytes.length := by
  rw [frameHeader, fill_start (by decide), bind_ok, List.drop_zero]
  split
  · next hmagic =>
    refine ⟨none, rfl, fun checksum size start => ⟨nofun, ?_⟩⟩
    rintro ⟨h, ⟨more, heq⟩, -⟩
    exact absurd ⟨_, _, heq.symm⟩ (magic_iff.mp hmagic)
  · next hmagic =>
    obtain ⟨b, rest, hbytes⟩ := not_not.mp (mt magic_iff.mpr hmagic)
    have hget : indexAt (f.bytes.take 18) 4 = .ok b := by
      apply indexAt_of_getElem?
      rw [hbytes]
      rfl
    rw [hget, bind_ok]
    simp only [hbytes, List.prefix_append_right_inj]
    by_cases hreserved : b &&& 0x08 ≠ 0
    · refine ⟨none, by rw [headerFields, if_pos hreserved]; rfl, fun _ _ _ => ⟨nofun, ?_⟩⟩
      rintro ⟨h, hpre, -⟩
      obtain ⟨rfl, -⟩ := Header.eq_ofFields hpre
      exact absurd h.descriptor.reserved ((reserved_iff _).mp hreserved)
    · have hd := Descriptor.byte_ofByte (not_not.mp (mt (reserved_iff b).mpr hreserved))
      rw [← hd]
      exact headerFields_byte rfl

/-! ## the blocks, as the format has them -/

theorem bodyOf_le {header n : Nat} (h : bodyOf header = some n) : n ≤ header / 8 + 1 := by
  obtain ⟨k, -, rfl⟩ := bodyOf_eq_some.mp h
  cases k <;> simp only [BlockKind.bodyLength] <;> omega

theorem bodyOf_header (b : Block) (last : Bool) :
    bodyOf (b.header last) = some (b.kind.bodyLength b.size) := by
  have hcode := b.kind.code_lt
  have hlast := last.toNat_le
  rw [bodyOf_eq_some]
  refine ⟨b.kind, ?_, ?_⟩
  · rw [Block.header]
    omega
  · congr 1
    rw [Block.header]
    omega

theorem header_and_one (b : Block) (last : Bool) : decide (b.header last &&& 1 ≠ 0) = last := by
  rw [Nat.and_one_is_mod, Block.header]
  cases last <;> simp only [Bool.toNat_true, Bool.toNat_false, decide_eq_true_eq,
    decide_eq_false_iff_not] <;> omega

/-- A header that is not reserved, with the body it asks for, is a block. -/
theorem exists_block {header : Nat} {body : List UInt8} (hlt : header < 256 ^ 3)
    (h : bodyOf header = some body.length) :
    ∃ b : Block, b.header (header &&& 1 ≠ 0) = header ∧ b.body = body := by
  obtain ⟨k, hcode, hlen⟩ := bodyOf_eq_some.mp h
  refine ⟨⟨k, header / 8, body, by omega, hlen.symm⟩, ?_, rfl⟩
  simp only [Nat.and_one_is_mod, Block.header, hcode]
  obtain hbit | hbit := Nat.mod_two_eq_zero_or_one header
  · have hfalse : decide (header % 2 ≠ 0) = false := by simp [hbit]
    rw [hfalse, Bool.toNat_false]
    omega
  · have htrue : decide (header % 2 ≠ 0) = true := by simp [hbit]
    rw [htrue, Bool.toNat_true]
    omega

/-- Where a block stands, its header and its body do. -/
theorem block_prefix_iff {b : Block} {last : Bool} {b0 b1 b2 : UInt8} {rest : List UInt8} :
    b.bytes last <+: b0 :: b1 :: b2 :: rest ↔
      b.header last = ofLe [b0, b1, b2] ∧ b.body <+: rest := by
  have hsplit : b0 :: b1 :: b2 :: rest = [b0, b1, b2] ++ rest := rfl
  constructor
  · rintro ⟨more, heq⟩
    rw [hsplit, Block.bytes, List.append_assoc] at heq
    obtain ⟨hhead, hrest⟩ := List.append_inj heq (length_le 3 _)
    exact ⟨by rw [← hhead, ofLe_le (b.header_lt last)], more, hrest⟩
  · rintro ⟨hheader, more, rfl⟩
    refine ⟨more, ?_⟩
    rw [hsplit, Block.bytes, hheader, List.append_assoc]
    exact congrArg (· ++ (b.body ++ more)) (le_ofLe [b0, b1, b2])

theorem append_prefix_iff {xs ys zs : List α} :
    xs ++ ys <+: zs ↔ xs <+: zs ∧ ys <+: zs.drop xs.length := by
  constructor
  · rintro ⟨more, rfl⟩
    rw [List.append_assoc, List.drop_left]
    exact ⟨List.prefix_append _ _, List.prefix_append _ _⟩
  · rintro ⟨⟨more, rfl⟩, hys⟩
    rw [List.drop_left] at hys
    exact List.prefix_append_right_inj xs |>.mpr hys

namespace File

variable {f : File} {pos : Nat}

/-- **One step of the walk** takes the block that stands there, if one does. -/
theorem block_spec (hpos : pos ≤ f.bytes.length) : ∃ r, f.block pos = .ok r ∧
    ∀ last stop, r = some (last, stop) ↔
      ∃ b : Block, b.bytes last <+: f.bytes.drop pos ∧ stop = pos + (b.bytes last).length := by
  have hlt := f.length_lt
  rw [block, fill_start (by omega), bind_ok]
  have hdropped : (f.bytes.drop pos).length = f.bytes.length - pos := List.length_drop
  match hdrop : f.bytes.drop pos with
  | [] | [_] | [_, _] =>
    refine ⟨none, rfl, fun last stop => ⟨nofun, ?_⟩⟩
    rintro ⟨b, hb, -⟩
    have hlen := hb.length_le
    rw [Block.length_bytes] at hlen
    simp only [List.length_cons, List.length_nil] at hlen
    omega
  | b0 :: b1 :: b2 :: rest =>
    rw [hdrop] at hdropped
    simp only [List.length_cons] at hdropped
    have h1 : b1.toNat < 2 ^ 8 := b1.toNat_lt
    have h2 : b2.toNat < 2 ^ 8 := b2.toNat_lt
    have hheader : ofLe [b0, b1, b2] < 256 ^ 3 := ofLe_lt [b0, b1, b2]
    rw [if_neg (by simp), indexAt_of_getElem? (x := b0) rfl, bind_ok,
      indexAt_of_getElem? (x := b1) rfl, bind_ok, indexAt_of_getElem? (x := b2) rfl, bind_ok,
      checkedShl_of_lt (by decide) (by omega), bind_ok,
      checkedShl_of_lt (by decide) (by omega), bind_ok, ofLe_three]
    simp only [block_prefix_iff]
    cases hbody : bodyOf (ofLe [b0, b1, b2]) with
    | none =>
      refine ⟨none, rfl, fun last stop => ⟨nofun, ?_⟩⟩
      rintro ⟨b, ⟨hb, -⟩, -⟩
      rw [← hb, bodyOf_header] at hbody
      cases hbody
    | some body =>
      have hsmall := bodyOf_le hbody
      simp only [checkedAdd_of_lt (show 3 + body < 2 ^ 64 by omega),
        checkedAdd_of_lt (show pos + (3 + body) < 2 ^ 64 by omega), bind_ok]
      split
      · next hpast =>
        refine ⟨none, rfl, fun last stop => ⟨nofun, ?_⟩⟩
        rintro ⟨b, ⟨hb, hin⟩, -⟩
        have hlen := hin.length_le
        rw [← hb, bodyOf_header] at hbody
        rw [b.length_body, Option.some.inj hbody] at hlen
        omega
      · next hfits =>
        refine ⟨_, rfl, fun last stop => ⟨?_, ?_⟩⟩
        · intro h
          obtain ⟨rfl, rfl⟩ := Prod.mk.inj (Option.some.inj h)
          have htake : (rest.take body).length = body := by
            rw [List.length_take]
            omega
          obtain ⟨b, hb, hbody'⟩ := exists_block hheader (hbody.trans (congrArg some htake.symm))
          refine ⟨b, ⟨hb, hbody' ▸ List.take_prefix _ _⟩, ?_⟩
          rw [Block.bytes, List.length_append, length_le, hbody', htake]
        · rintro ⟨b, ⟨hb, -⟩, rfl⟩
          rw [← hb, bodyOf_header] at hbody
          rw [← hb, header_and_one, Block.length_bytes, Option.some.inj hbody]

/-- **The walk** passes the blocks that stand there, to the end of the last one. -/
theorem walk_spec (hpos : pos ≤ f.bytes.length) : ∃ r, f.walk pos = .ok r ∧
    ∀ stop, r = some stop ↔
      ∃ bs : Blocks, bs.bytes <+: f.bytes.drop pos ∧ stop = pos + bs.bytes.length := by
  induction hleft : f.bytes.length - pos using Nat.strongRecOn generalizing pos with
  | ind left ih =>
    obtain ⟨r, hblock, hspec⟩ := block_spec hpos
    -- a first block decides whether the walk ends
    have hfirst (b : Block) (last : Bool) (hb : b.bytes last <+: f.bytes.drop pos) :
        r = some (last, pos + (b.bytes last).length) := (hspec _ _).mpr ⟨b, hb, rfl⟩
    rw [walk]
    split
    · next e he => rw [hblock] at he; cases he
    · next hnone =>
      obtain rfl : r = none := Except.ok.inj (hblock.symm.trans hnone)
      refine ⟨none, rfl, fun stop => ⟨nofun, ?_⟩⟩
      rintro ⟨bs, hbs, -⟩
      obtain ⟨b, rfl⟩ | ⟨b, rest, rfl⟩ := bs.single_or_cons
      · cases hfirst b true hbs
      · rw [Blocks.bytes_cons, append_prefix_iff] at hbs
        cases hfirst b false hbs.1
    · next stop hlast =>
      obtain rfl : r = some (true, stop) := Except.ok.inj (hblock.symm.trans hlast)
      refine ⟨some stop, rfl, fun stop' => ⟨?_, ?_⟩⟩
      · intro h
        obtain rfl := Option.some.inj h
        obtain ⟨b, hb, heq⟩ := (hspec _ _).mp rfl
        exact ⟨⟨[], b⟩, hb, heq⟩
      · rintro ⟨bs, hbs, rfl⟩
        obtain ⟨b, rfl⟩ | ⟨b, rest, rfl⟩ := bs.single_or_cons
        · rw [Blocks.bytes_single] at hbs ⊢
          have hsame := hfirst b true hbs
          grind
        · rw [Blocks.bytes_cons, append_prefix_iff] at hbs
          cases hfirst b false hbs.1
    · next stop hmore =>
      obtain rfl : r = some (false, stop) := Except.ok.inj (hblock.symm.trans hmore)
      obtain ⟨b, hb, rfl⟩ := (hspec _ _).mp rfl
      have hlt := block_lt hblock
      obtain ⟨r', hwalk, hspec'⟩ := ih _ (by omega) hlt.2 rfl
      rw [← List.drop_drop] at hspec'
      refine ⟨r', hwalk, fun stop => ⟨?_, ?_⟩⟩
      · intro h
        obtain ⟨bs, hbs, rfl⟩ := (hspec' stop).mp h
        refine ⟨bs.cons b, ?_, ?_⟩
        · rw [Blocks.bytes_cons, append_prefix_iff]
          exact ⟨hb, hbs⟩
        · rw [Blocks.bytes_cons, List.length_append]
          omega
      · rintro ⟨bs, hbs, rfl⟩
        obtain ⟨b', rfl⟩ | ⟨b', rest, rfl⟩ := bs.single_or_cons
        · cases hfirst b' true hbs
        · rw [Blocks.bytes_cons, append_prefix_iff] at hbs
          have hsame := hfirst b' false hbs.1
          have hlen : (b.bytes false).length = (b'.bytes false).length := by grind
          refine (hspec' _).mpr ⟨rest, hlen ▸ hbs.2, ?_⟩
          rw [Blocks.bytes_cons, List.length_append]
          omega

end File

/-! ## the length that is declared -/

namespace File

variable (f : File)

theorem declaredLen_eq_ok : ∃ r, f.declaredLen = .ok r ∧
    ∀ n, r = some n ↔ ∃ frame : Frame, frame.bytes = f.bytes ∧ frame.contentSize = some n := by
  have hlt := f.length_lt
  obtain ⟨header, hheader, hspec⟩ := f.frameHeader_spec
  rw [declaredLen, hheader, bind_ok]
  cases header with
  | none =>
    refine ⟨none, rfl, fun n => ⟨nofun, ?_⟩⟩
    rintro ⟨frame, hframe, hsize⟩
    have hpre : magic ++ frame.header.bytes <+: f.bytes := by
      rw [← hframe, Frame.bytes, List.append_assoc]
      exact List.prefix_append _ _
    cases (hspec _ _ _).mpr ⟨frame.header, hpre, rfl, hsize, rfl⟩
  | some header =>
    obtain ⟨checksum, size, start⟩ := header
    obtain ⟨h, ⟨rest, hbytes⟩, rfl, hsize, rfl⟩ := (hspec _ _ _).mp rfl
    have hstart : 4 + h.bytes.length = (magic ++ h.bytes).length :=
      (@List.length_append _ magic h.bytes).symm
    have hdrop : f.bytes.drop (4 + h.bytes.length) = rest := by
      rw [hstart, ← hbytes, List.drop_left]
    have hlen : f.bytes.length = 4 + h.bytes.length + rest.length := by
      rw [hstart, ← hbytes, List.length_append]
    have hin : 4 + h.bytes.length ≤ f.bytes.length := by omega
    obtain ⟨stop, hwalk, hstop⟩ := walk_spec hin
    rw [hdrop] at hstop
    -- a frame of these bytes has this header, and so its blocks and its checksum behind it
    have hframes (n : Nat) :
        (∃ frame : Frame, frame.bytes = f.bytes ∧ frame.contentSize = some n) ↔
          size = n ∧ ∃ bs : Blocks, bs.bytes <+: rest ∧
            rest.length = bs.bytes.length + if h.descriptor.checksum then 4 else 0 := by
      rw [← Frame.exists_iff]
      constructor
      · rintro ⟨frame, hframe, hn⟩
        have hheader : frame.header = h := by
          rw [← hbytes, Frame.bytes, List.append_assoc, List.append_assoc, List.append_assoc,
            List.append_cancel_left_eq] at hframe
          exact (Header.bytes_inj hframe).1
        rw [Frame.contentSize, hheader, hsize] at hn
        exact ⟨Option.some.inj hn, frame, hheader, hframe.trans hbytes.symm⟩
      · rintro ⟨rfl, frame, hheader, hframe⟩
        exact ⟨frame, hframe.trans hbytes, by rw [Frame.contentSize, hheader, hsize]⟩
    simp only [hframes, hwalk, bind_ok]
    cases stop with
    | none =>
      refine ⟨none, rfl, fun n => ⟨nofun, ?_⟩⟩
      rintro ⟨-, bs, hbs, -⟩
      cases (hstop _).mpr ⟨bs, hbs, rfl⟩
    | some stop =>
      obtain ⟨blocks, hblocks, rfl⟩ := (hstop _).mp rfl
      have hfits := hblocks.length_le
      have hends (bs : Blocks) (hbs : bs.bytes <+: rest) :
          bs.bytes.length = blocks.bytes.length := by
        have hsame := (hstop _).mpr ⟨bs, hbs, rfl⟩
        grind
      simp only
      rw [checkedAdd_ite (fun _ => by omega)]
      refine ⟨_, rfl, fun n => ⟨?_, ?_⟩⟩
      · intro hfound
        obtain ⟨hend, hn⟩ := Option.ite_none_right_eq_some.mp hfound
        exact ⟨Option.some.inj hn, blocks, hblocks, by omega⟩
      · rintro ⟨rfl, bs, hbs, hend⟩
        rw [if_pos (by rw [hlen, hend, hends bs hbs]; omega)]

/-- **A declared length is a proved one.** Whatever the reads give, `declared_len` ends without
an addition, a shift or a slice out of its range. It finds a length where the file is one frame,
and that frame states it; there is none for any other file, as one with something behind a frame,
or one that is cut. -/
theorem declared_len_proved : ∃ r, f.declaredLen = .ok r ∧
    (∀ n, r = some n ↔ ∃ frame : Frame, frame.bytes = f.bytes ∧ frame.contentSize = some n) ∧
    ∀ (frame : Frame) (more : List UInt8), more ≠ [] →
      f.bytes = frame.bytes ++ more ∨ f.bytes ++ more = frame.bytes → r = none := by
  obtain ⟨r, hr, hspec⟩ := f.declaredLen_eq_ok
  refine ⟨r, hr, hspec, fun frame more hmore hother => Option.eq_none_iff_forall_ne_some.mpr ?_⟩
  intro n hn
  obtain ⟨whole, hwhole, -⟩ := (hspec n).mp hn
  obtain hlonger | hcut := hother
  · have hsame : whole.bytes ++ [] = frame.bytes ++ more := by
      rw [List.append_nil, hwhole, hlonger]
    exact hmore (Frame.bytes_inj hsame).2.symm
  · have hsame : whole.bytes ++ more = frame.bytes ++ [] := by
      rw [List.append_nil, hwhole, hcut]
    exact hmore (Frame.bytes_inj hsame).2

end File

end ClaudeReplay.Compressed
