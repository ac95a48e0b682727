import ClaudeReplay.Elide.Scan
import Std.Data.String.ToNat

/-!
# ClaudeReplay.Compressed.Record

The kept ends of a compressed transcript, and the record a process leaves of them on
disk.

A version of a compressed transcript is named by its path, length and mtime (`Key`);
its JSONL is what its bytes decode to. A `Tail` is the first and last bytes of that
JSONL (`Tail.Ends`). `writeTailRecord` writes a header line and the two ends
compressed; `readTailRecord` checks the header field by field against a key. The main
result is `read_written`: a record is read back as the ends it was written of, and only
under their own key.
-/

namespace ClaudeReplay.Compressed

/-! ## versions -/

/-- A path, by its bytes. -/
abbrev Path := List UInt8

/-- A compressed file's identity for the caches. The mtime is in nanoseconds. -/
@[ext] structure Key where
  path : Path
  len : Nat
  mtime : Option Int
  deriving DecidableEq, Repr

/-- The length of a head that is kept. -/
def headKeep : Nat := 64 * 1024

/-- The length of a tail that is kept. -/
def tailKeep : Nat := 320 * 1024

/-- The first and last bytes of one version of a compressed transcript, decoded. -/
structure Tail where
  key : Key
  len : Nat
  head : List UInt8
  start : Nat
  bytes : List UInt8
  deriving DecidableEq, Repr

/-- `held`. -/
def Tail.held (t : Tail) : Nat := t.head.length + t.bytes.length

/-- The ends of a JSONL. -/
structure Tail.Ends (t : Tail) (jsonl : List UInt8) : Prop where
  len : t.len = jsonl.length
  head : t.head = jsonl.take headKeep
  start : t.start = jsonl.length - tailKeep
  bytes : t.bytes = jsonl.drop t.start

/-! ## what is not of this repository -/

/-- What a record says it holds, on its first line. -/
structure TailHead where
  v : Nat
  path : Path
  compressedLen : Nat
  mtimeNs : String
  len : Nat
  headLen : Nat
  start : Nat
  deriving DecidableEq, Repr

/-- The zstd and JSON codecs. A transcript decodes or does not; what is compressed is
unpacked again; and a header that can be written (its path is text) is one line that
is read back. -/
structure Codec where
  /-- the JSONL of a compressed transcript -/
  decode : List UInt8 → Option (List UInt8)
  compressToVec : List UInt8 → List UInt8
  decodeAllToVec : List UInt8 → Option (List UInt8)
  /-- `serde_json::to_vec` -/
  toVec : TailHead → Option (List UInt8)
  /-- `serde_json::from_slice` -/
  fromSlice : List UInt8 → Option TailHead
  decode_compress : ∀ bytes, decodeAllToVec (compressToVec bytes) = some bytes
  fromSlice_toVec : ∀ head line, toVec head = some line → fromSlice line = some head
  toVec_line : ∀ head line, toVec head = some line → newline ∉ line

/-! ## the record -/

/-- One round of FNV-1a. -/
def fnvStep (h : UInt64) (b : UInt8) : UInt64 := (h ^^^ b.toUInt64) * 0x100000001b3

/-- `record_path`: the name of a transcript's record, a hash of its path. -/
def recordPath (transcript : Path) : UInt64 := transcript.foldl fnvStep 0xcbf29ce484222325

/-- `mtime_nanos`: the mtime in decimal, unless it lies before the epoch. -/
def mtimeNanos (mtime : Option Int) : Option String :=
  mtime.bind fun t => if 0 ≤ t then some (Nat.repr t.toNat) else none

def tailRecordV : Nat := 1

/-- `write_tail_record`: the bytes of a record. -/
def writeTailRecord (c : Codec) (t : Tail) : Option (List UInt8) := do
  let mtimeNs ← mtimeNanos t.key.mtime
  let line ← c.toVec
    { v := tailRecordV
      path := t.key.path
      compressedLen := t.key.len
      mtimeNs
      len := t.len
      headLen := t.head.length
      start := t.start }
  some (line ++ newline :: c.compressToVec (t.head ++ t.bytes))

/-- `unpack`. -/
def unpack (c : Codec) (packed : List UInt8) (rawLen : Nat) : Option (List UInt8) :=
  (c.decodeAllToVec packed).filter fun out => out.length = rawLen

/-- The header is that of this version, and its lengths fit. -/
def TailHead.fits (head : TailHead) (key : Key) : Bool :=
  head.v = tailRecordV && head.path = key.path && head.compressedLen = key.len &&
    some head.mtimeNs = mtimeNanos key.mtime && head.start ≤ head.len &&
    head.len - head.start ≤ tailKeep && head.headLen = min head.len headKeep

/-- `read_tail_record`, of a record's bytes. -/
def readTailRecord (c : Codec) (raw : List UInt8) (key : Key) : Option Tail := do
  let line ← raw.idxOf? newline
  let head ← c.fromSlice (raw.take line)
  if !head.fits key then none
  else
    let both ← unpack c (raw.drop (line + 1)) (head.headLen + (head.len - head.start))
    some
      { key
        len := head.len
        head := both.take head.headLen
        start := head.start
        bytes := both.drop head.headLen }

/-! ## records read back -/

theorem mtimeNanos_inj {t t' : Option Int} {s : String} (h : mtimeNanos t = some s)
    (h' : mtimeNanos t' = some s) : t = t' := by
  obtain ⟨n, rfl, hn⟩ := Option.bind_eq_some_iff.mp h
  obtain ⟨n', rfl, hn'⟩ := Option.bind_eq_some_iff.mp h'
  split at hn
  · split at hn'
    · have hrepr : Nat.repr n.toNat = Nat.repr n'.toNat := by
        rw [Option.some.inj hn, Option.some.inj hn']
      have := Nat.repr_injective hrepr
      congr 1
      omega
    · cases hn'
  · cases hn

/-- The first newline of a line and more is where the line ends. -/
theorem idxOf_line {line : List UInt8} (h : newline ∉ line) (rest : List UInt8) :
    (line ++ newline :: rest).idxOf? newline = some line.length := by
  induction line with
  | nil => simp [List.idxOf?_cons]
  | cons b line ih =>
    rw [List.mem_cons, not_or] at h
    have hne : (b == newline) = false := by simpa using fun heq => h.1 (Eq.symm heq)
    rw [List.cons_append, List.idxOf?_cons, hne, ih h.2]
    rfl

/-- **A record is read back** as the ends it was written of, and only under their key. -/
theorem read_written (c : Codec) {t : Tail} {raw : List UInt8}
    (hwrite : writeTailRecord c t = some raw) {key : Key} {t' : Tail}
    (hread : readTailRecord c raw key = some t') : t.key = key ∧ t' = t := by
  obtain ⟨mtimeNs, hmtime, hwrite⟩ := Option.bind_eq_some_iff.mp hwrite
  obtain ⟨line, hline, ⟨⟩⟩ := Option.bind_eq_some_iff.mp hwrite
  simp only [readTailRecord, idxOf_line (c.toVec_line _ _ hline), Option.bind_eq_bind,
    Option.bind_some, List.take_left, c.fromSlice_toVec _ _ hline] at hread
  split at hread
  · cases hread
  · next hfits =>
    obtain ⟨both, hboth, hread⟩ := Option.bind_eq_some_iff.mp hread
    have hdrop : (line ++ newline :: c.compressToVec (t.head ++ t.bytes)).drop (line.length + 1) =
        c.compressToVec (t.head ++ t.bytes) := by
      rw [List.append_cons, show line.length + 1 = (line ++ [newline]).length by simp,
        List.drop_left]
    rw [hdrop, unpack, c.decode_compress] at hboth
    obtain ⟨hsome, -⟩ := Option.filter_eq_some_iff.mp hboth
    obtain rfl := Option.some.inj hsome
    simp only [TailHead.fits, Bool.not_eq_true', Bool.not_eq_false, Bool.and_eq_true,
      decide_eq_true_eq] at hfits
    obtain ⟨⟨⟨⟨⟨⟨-, hpath⟩, hlen⟩, hsame⟩, -⟩, -⟩, -⟩ := hfits
    have hkey : t.key = key := Key.ext hpath hlen (mtimeNanos_inj hmtime hsame.symm)
    refine ⟨hkey, ?_⟩
    rw [← Option.some.inj hread, ← hkey, List.take_left, List.drop_left]

end ClaudeReplay.Compressed
