import Mathlib.Algebra.Group.Nat.Defs
import Mathlib.Algebra.GroupWithZero.Nat
import Mathlib.Data.List.Basic

/-!
# ClaudeReplay.Lib.Zstd

The framing of the Zstandard format: how the bytes of a frame are laid out, without what the
bodies of its blocks decode to.

A frame is a magic number, a header, blocks and perhaps a checksum. Which fields a header has,
and how long they are, is told by its descriptor; how long a block's body is, by the block's
header. A value of one of the types here is well formed by its fields, and `bytes` writes it.
The format needs no marker where a frame ends: frames written one after another are read in
one way only (`Frame.bytes_inj`).
-/

namespace ClaudeReplay.Lib.Zstd

/-! ## numbers -/

/-- A number in `k` bytes, the lowest first. -/
def le : Nat → Nat → List UInt8
  | 0, _ => []
  | k + 1, n => UInt8.ofNat n :: le k (n / 256)

/-- What bytes stand for, the lowest first. -/
def ofLe : List UInt8 → Nat
  | [] => 0
  | b :: bs => b.toNat + 256 * ofLe bs

@[simp] theorem length_le (k n : Nat) : (le k n).length = k := by
  induction k generalizing n with
  | zero => rfl
  | succ k ih => rw [le, List.length_cons, ih]

theorem ofLe_lt (bs : List UInt8) : ofLe bs < 256 ^ bs.length := by
  induction bs with
  | nil => simp [ofLe]
  | cons b bs ih =>
    have hb : b.toNat < 256 := b.toNat_lt
    rw [ofLe, List.length_cons, Nat.pow_succ]
    omega

theorem ofLe_le {k n : Nat} (h : n < 256 ^ k) : ofLe (le k n) = n := by
  induction k generalizing n with
  | zero =>
    rw [Nat.pow_zero] at h
    rw [le, ofLe]
    omega
  | succ k ih =>
    rw [Nat.pow_succ] at h
    have hrest : ofLe (le k (n / 256)) = n / 256 := ih (by omega)
    rw [le, ofLe, hrest, UInt8.toNat_ofNat']
    omega

theorem le_ofLe (bs : List UInt8) : le bs.length (ofLe bs) = bs := by
  induction bs with
  | nil => rfl
  | cons b bs ih =>
    have hb : b.toNat < 256 := b.toNat_lt
    have hrest : (b.toNat + 256 * ofLe bs) / 256 = ofLe bs := by omega
    have hlow : UInt8.ofNat (b.toNat + 256 * ofLe bs) = b := by
      rw [← UInt8.toNat_inj, UInt8.toNat_ofNat']
      omega
    rw [List.length_cons, ofLe, le, hrest, ih, hlow]

/-! ## the header -/

/-- The fields of a frame header's descriptor. -/
structure Descriptor where
  contentFlag : Fin 4
  singleSegment : Bool
  /-- a bit without a meaning -/
  unused : Bool
  checksum : Bool
  dictionaryFlag : Fin 4
  deriving DecidableEq, Repr

namespace Descriptor

/-- The descriptor as a byte; its fourth bit is reserved, and zero. -/
def byte (d : Descriptor) : UInt8 :=
  UInt8.ofNat (64 * d.contentFlag.val + 32 * d.singleSegment.toNat + 16 * d.unused.toNat +
    4 * d.checksum.toNat + d.dictionaryFlag.val)

/-- A single segment has no window. -/
def windowWidth (d : Descriptor) : Nat := if d.singleSegment then 0 else 1

def dictionaryWidth (d : Descriptor) : Nat :=
  match d.dictionaryFlag with
  | 0 => 0
  | 1 => 1
  | 2 => 2
  | 3 => 4

/-- The width of the content size; with no width, none is stated. -/
def contentWidth (d : Descriptor) : Nat :=
  match d.contentFlag with
  | 0 => if d.singleSegment then 1 else 0
  | 1 => 2
  | 2 => 4
  | 3 => 8

theorem windowWidth_le (d : Descriptor) : d.windowWidth ≤ 1 := by
  rw [windowWidth]
  split <;> decide

theorem dictionaryWidth_le (d : Descriptor) : d.dictionaryWidth ≤ 4 := by
  rw [dictionaryWidth]
  split <;> decide

theorem contentWidth_le (d : Descriptor) : d.contentWidth ≤ 8 := by
  rw [contentWidth]
  repeat' split
  all_goals decide

/-- The fields of a byte. -/
def ofByte (b : UInt8) : Descriptor where
  contentFlag := ⟨b.toNat / 64, Nat.div_lt_of_lt_mul b.toNat_lt⟩
  singleSegment := b.toNat / 32 % 2 = 1
  unused := b.toNat / 16 % 2 = 1
  checksum := b.toNat / 4 % 2 = 1
  dictionaryFlag := ⟨b.toNat % 4, Nat.mod_lt _ (by decide)⟩

theorem toNat_byte (d : Descriptor) :
    d.byte.toNat = 64 * d.contentFlag.val + 32 * d.singleSegment.toNat + 16 * d.unused.toNat +
      4 * d.checksum.toNat + d.dictionaryFlag.val := by
  have hcontent := d.contentFlag.isLt
  have hdictionary := d.dictionaryFlag.isLt
  have hsingle := d.singleSegment.toNat_le
  have hunused := d.unused.toNat_le
  have hchecksum := d.checksum.toNat_le
  rw [byte, UInt8.toNat_ofNat']
  omega

theorem ofByte_byte (d : Descriptor) : ofByte d.byte = d := by
  have hbyte := d.toNat_byte
  obtain ⟨content, single, unused, checksum, dictionary⟩ := d
  have hcontent := content.isLt
  have hdictionary := dictionary.isLt
  simp only [ofByte, mk.injEq, Fin.ext_iff]
  cases single <;> cases unused <;> cases checksum <;>
    simp only [Bool.toNat_true, Bool.toNat_false, decide_eq_true_eq, decide_eq_false_iff_not]
      at hbyte ⊢ <;> omega

theorem byte_inj {d d' : Descriptor} (h : d.byte = d'.byte) : d = d' := by
  rw [← ofByte_byte d, h, ofByte_byte]

theorem reserved (d : Descriptor) : d.byte.toNat / 8 % 2 = 0 := by
  have hdictionary := d.dictionaryFlag.isLt
  have hchecksum := d.checksum.toNat_le
  rw [toNat_byte]
  omega

theorem toNat_odd (n : Nat) : (decide (n % 2 = 1)).toNat = n % 2 := by
  obtain h | h := Nat.mod_two_eq_zero_or_one n <;> rw [h] <;> rfl

/-- A byte without the reserved bit is a descriptor. -/
theorem byte_ofByte {b : UInt8} (h : b.toNat / 8 % 2 = 0) : (ofByte b).byte = b := by
  rw [← UInt8.toNat_inj, toNat_byte]
  simp only [ofByte, toNat_odd]
  omega

end Descriptor

/-- A frame header. -/
structure Header where
  descriptor : Descriptor
  window : List UInt8
  dictionary : List UInt8
  content : List UInt8
  length_window : window.length = descriptor.windowWidth
  length_dictionary : dictionary.length = descriptor.dictionaryWidth
  length_content : content.length = descriptor.contentWidth

namespace Header

def bytes (h : Header) : List UInt8 :=
  h.descriptor.byte :: (h.window ++ h.dictionary ++ h.content)

/-- The content size that is stated; a field of two bytes counts from 256. -/
def contentSize (h : Header) : Option Nat :=
  match h.content.length with
  | 0 => none
  | 2 => some (ofLe h.content + 256)
  | _ => some (ofLe h.content)

theorem contentSize_eq (h : Header) : h.contentSize =
    if h.descriptor.contentWidth = 0 then none
    else some (ofLe h.content + if h.descriptor.contentWidth = 2 then 256 else 0) := by
  rw [contentSize, h.length_content]
  split
  · next hwidth => rw [if_pos hwidth]
  · next hwidth => rw [hwidth, if_neg (by decide), if_pos rfl]
  · next hnone htwo => rw [if_neg hnone, if_neg htwo, Nat.add_zero]

/-- The header of a descriptor whose fields stand in front. -/
def ofFields (d : Descriptor) (fields : List UInt8)
    (h : d.windowWidth + d.dictionaryWidth + d.contentWidth ≤ fields.length) : Header where
  descriptor := d
  window := fields.take d.windowWidth
  dictionary := (fields.drop d.windowWidth).take d.dictionaryWidth
  content := (fields.drop (d.windowWidth + d.dictionaryWidth)).take d.contentWidth
  length_window := by
    rw [List.length_take]
    omega
  length_dictionary := by
    rw [List.length_take, List.length_drop]
    omega
  length_content := by
    rw [List.length_take, List.length_drop]
    omega

@[simp] theorem descriptor_ofFields {d : Descriptor} {fields : List UInt8}
    (h : d.windowWidth + d.dictionaryWidth + d.contentWidth ≤ fields.length) :
    (ofFields d fields h).descriptor = d := rfl

theorem bytes_ofFields {d : Descriptor} {fields : List UInt8}
    (h : d.windowWidth + d.dictionaryWidth + d.contentWidth ≤ fields.length) :
    (ofFields d fields h).bytes =
      d.byte :: fields.take (d.windowWidth + d.dictionaryWidth + d.contentWidth) := by
  rw [List.take_add, List.take_add]
  rfl

theorem length_bytes (h : Header) : h.bytes.length =
    1 + h.descriptor.windowWidth + h.descriptor.dictionaryWidth + h.descriptor.contentWidth := by
  rw [bytes, List.length_cons, List.length_append, List.length_append, h.length_window,
    h.length_dictionary, h.length_content]
  omega

theorem bytes_inj {h h' : Header} {xs ys : List UInt8} (heq : h.bytes ++ xs = h'.bytes ++ ys) :
    h = h' ∧ xs = ys := by
  obtain ⟨d, window, dictionary, content, hwindow, hdictionary, hcontent⟩ := h
  obtain ⟨d', window', dictionary', content', hwindow', hdictionary', hcontent'⟩ := h'
  simp only [bytes, List.cons_append, List.append_assoc, List.cons.injEq] at heq
  obtain ⟨hd, hfields⟩ := heq
  obtain rfl := Descriptor.byte_inj hd
  obtain ⟨rfl, hmore⟩ := List.append_inj hfields (hwindow.trans hwindow'.symm)
  obtain ⟨rfl, hlast⟩ := List.append_inj hmore (hdictionary.trans hdictionary'.symm)
  obtain ⟨rfl, hrest⟩ := List.append_inj hlast (hcontent.trans hcontent'.symm)
  exact ⟨rfl, hrest⟩

/-- A header is the one of its fields. -/
theorem eq_ofFields {h : Header} {b : UInt8} {rest : List UInt8} (hpre : h.bytes <+: b :: rest) :
    h.descriptor.byte = b ∧ ∃ hlen, h = ofFields h.descriptor rest hlen := by
  obtain ⟨more, heq⟩ := hpre
  have hlen := congrArg List.length heq
  rw [List.length_append, length_bytes, List.length_cons] at hlen
  have hfits : h.descriptor.windowWidth + h.descriptor.dictionaryWidth +
      h.descriptor.contentWidth ≤ rest.length := by omega
  have hd : h.descriptor.byte = b := (List.cons.inj heq).1
  have hsame : h.bytes ++ more = (ofFields h.descriptor rest hfits).bytes ++ rest.drop
      (h.descriptor.windowWidth + h.descriptor.dictionaryWidth + h.descriptor.contentWidth) := by
    rw [heq, bytes_ofFields, hd, List.cons_append, List.take_append_drop]
  exact ⟨hd, hfits, (bytes_inj hsame).1⟩

theorem prefix_iff_ofFields {h : Header} {d : Descriptor} {rest : List UInt8} :
    h.bytes <+: d.byte :: rest ↔ ∃ hlen, h = ofFields d rest hlen := by
  constructor
  · intro hpre
    obtain ⟨hd, hfields⟩ := eq_ofFields hpre
    obtain rfl := Descriptor.byte_inj hd
    exact hfields
  · rintro ⟨hlen, rfl⟩
    rw [bytes_ofFields, List.cons_prefix_cons]
    exact ⟨rfl, List.take_prefix _ _⟩

end Header

/-! ## blocks -/

inductive BlockKind
  | raw
  | rle
  | compressed
  deriving DecidableEq, Repr

namespace BlockKind

def code : BlockKind → Nat
  | raw => 0
  | rle => 1
  | compressed => 2

/-- How long a body is, from the size in the block's header: that of a run is its byte. -/
def bodyLength (k : BlockKind) (size : Nat) : Nat :=
  match k with
  | raw | compressed => size
  | rle => 1

theorem code_lt (k : BlockKind) : k.code < 3 := by
  cases k <;> decide

theorem code_inj {k k' : BlockKind} (h : k.code = k'.code) : k = k' := by
  cases k <;> cases k' <;> first | rfl | cases h

end BlockKind

/-- A block of a frame. -/
structure Block where
  kind : BlockKind
  size : Nat
  body : List UInt8
  size_lt : size < 2 ^ 21
  length_body : body.length = kind.bodyLength size

namespace Block

/-- The three bytes before a body, as a number. -/
def header (b : Block) (last : Bool) : Nat := last.toNat + 2 * b.kind.code + 8 * b.size

def bytes (b : Block) (last : Bool) : List UInt8 := le 3 (b.header last) ++ b.body

theorem header_lt (b : Block) (last : Bool) : b.header last < 256 ^ 3 := by
  have hsize := b.size_lt
  have hcode := b.kind.code_lt
  have hlast := last.toNat_le
  rw [header]
  omega

theorem length_bytes (b : Block) (last : Bool) :
    (b.bytes last).length = 3 + b.kind.bodyLength b.size := by
  rw [bytes, List.length_append, length_le, b.length_body]

theorem bytes_inj {b b' : Block} {last last' : Bool} {xs ys : List UInt8}
    (heq : b.bytes last ++ xs = b'.bytes last' ++ ys) : b = b' ∧ last = last' ∧ xs = ys := by
  simp only [bytes, List.append_assoc] at heq
  obtain ⟨hnumber, hbodies⟩ := List.append_inj heq (by rw [length_le, length_le])
  have hheader : b.header last = b'.header last' := by
    rw [← ofLe_le (b.header_lt last), hnumber, ofLe_le (b'.header_lt last')]
  have hcode := b.kind.code_lt
  have hcode' := b'.kind.code_lt
  have hfields : last = last' ∧ b.kind.code = b'.kind.code ∧ b.size = b'.size := by
    simp only [header] at hheader
    cases last <;> cases last' <;>
      simp only [Bool.toNat_true, Bool.toNat_false, true_and, reduceCtorEq, false_and] at hheader ⊢
        <;> omega
  obtain ⟨hlast, hkind, hsize⟩ := hfields
  obtain ⟨kind, size, body, hlt, hbody⟩ := b
  obtain ⟨kind', size', body', hlt', hbody'⟩ := b'
  obtain rfl := BlockKind.code_inj hkind
  obtain rfl : size = size' := hsize
  obtain ⟨rfl, hrest⟩ := List.append_inj hbodies (hbody.trans hbody'.symm)
  exact ⟨rfl, hlast, hrest⟩

end Block

/-- The blocks of a frame: those before the last one, and the last one. -/
structure Blocks where
  init : List Block
  last : Block

namespace Blocks

def bytes (bs : Blocks) : List UInt8 := bs.init.flatMap (·.bytes false) ++ bs.last.bytes true

/-- A block in front. -/
def cons (b : Block) (bs : Blocks) : Blocks := { bs with init := b :: bs.init }

theorem bytes_single (b : Block) : bytes ⟨[], b⟩ = b.bytes true := rfl

theorem bytes_cons (b : Block) (bs : Blocks) : (bs.cons b).bytes = b.bytes false ++ bs.bytes := by
  rw [bytes, cons, List.flatMap_cons, List.append_assoc]
  rfl

/-- There is a first block, which is the last one or has others behind it. -/
theorem single_or_cons (bs : Blocks) : (∃ b, bs = ⟨[], b⟩) ∨ ∃ b rest, bs = cons b rest := by
  obtain ⟨init, last⟩ := bs
  cases init with
  | nil => exact .inl ⟨last, rfl⟩
  | cons b init => exact .inr ⟨b, ⟨init, last⟩, rfl⟩

theorem bytes_inj {bs bs' : Blocks} {xs ys : List UInt8}
    (heq : bs.bytes ++ xs = bs'.bytes ++ ys) : bs = bs' ∧ xs = ys := by
  obtain ⟨init, last⟩ := bs
  obtain ⟨init', last'⟩ := bs'
  simp only [bytes, List.append_assoc] at heq
  induction init generalizing init' with
  | nil =>
    cases init' with
    | nil =>
      obtain ⟨rfl, -, rfl⟩ := Block.bytes_inj heq
      exact ⟨rfl, rfl⟩
    | cons b' init' =>
      rw [List.flatMap_cons, List.append_assoc] at heq
      obtain ⟨-, hlast, -⟩ := Block.bytes_inj heq
      cases hlast
  | cons b init ih =>
    rw [List.flatMap_cons, List.append_assoc] at heq
    cases init' with
    | nil =>
      obtain ⟨-, hlast, -⟩ := Block.bytes_inj heq
      cases hlast
    | cons b' init' =>
      rw [List.flatMap_cons, List.append_assoc] at heq
      obtain ⟨rfl, -, heq⟩ := Block.bytes_inj heq
      obtain ⟨hrest, rfl⟩ := ih init' heq
      grind

end Blocks

/-! ## frames -/

/-- `0xFD2FB528`. -/
def magic : List UInt8 := [0x28, 0xB5, 0x2F, 0xFD]

/-- A frame of the format. -/
structure Frame where
  header : Header
  blocks : Blocks
  checksum : List UInt8
  length_checksum : checksum.length = if header.descriptor.checksum then 4 else 0

namespace Frame

def bytes (f : Frame) : List UInt8 := magic ++ f.header.bytes ++ f.blocks.bytes ++ f.checksum

/-- The content size that its header states. -/
def contentSize (f : Frame) : Option Nat := f.header.contentSize

/-- **Frames are read in one way**, and end where they end. -/
theorem bytes_inj {f f' : Frame} {xs ys : List UInt8} (heq : f.bytes ++ xs = f'.bytes ++ ys) :
    f = f' ∧ xs = ys := by
  obtain ⟨header, blocks, checksum, hchecksum⟩ := f
  obtain ⟨header', blocks', checksum', hchecksum'⟩ := f'
  simp only [bytes, List.append_assoc, List.append_cancel_left_eq] at heq
  obtain ⟨rfl, hblocks⟩ := Header.bytes_inj heq
  obtain ⟨rfl, hend⟩ := Blocks.bytes_inj hblocks
  obtain ⟨rfl, rfl⟩ := List.append_inj hend (hchecksum.trans hchecksum'.symm)
  exact ⟨rfl, rfl⟩

/-- Behind a header there is a frame where blocks stand, with as much behind them as the checksum
takes. -/
theorem exists_iff {h : Header} {xs : List UInt8} :
    (∃ f : Frame, f.header = h ∧ f.bytes = magic ++ h.bytes ++ xs) ↔
      ∃ bs : Blocks, bs.bytes <+: xs ∧
        xs.length = bs.bytes.length + if h.descriptor.checksum then 4 else 0 := by
  constructor
  · rintro ⟨⟨header, blocks, checksum, hchecksum⟩, rfl, heq⟩
    rw [bytes, List.append_assoc (magic ++ header.bytes), List.append_cancel_left_eq] at heq
    refine ⟨blocks, ⟨checksum, heq⟩, ?_⟩
    rw [← heq, List.length_append, hchecksum]
  · rintro ⟨bs, ⟨checksum, rfl⟩, hlen⟩
    rw [List.length_append, Nat.add_left_cancel_iff] at hlen
    exact ⟨⟨h, bs, checksum, hlen⟩, rfl, by rw [bytes, List.append_assoc (magic ++ h.bytes)]⟩

end Frame

end ClaudeReplay.Lib.Zstd
