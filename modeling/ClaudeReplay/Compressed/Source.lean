import ClaudeReplay.Lib.Run
import ClaudeReplay.Compressed.Record
import Mathlib.Algebra.Group.Nat.Defs
import Mathlib.Algebra.Group.Int.Defs
import Mathlib.Algebra.GroupWithZero.Nat

/-!
# ClaudeReplay.Compressed.Source

A compressed transcript read as its JSONL, from whatever is kept of it: the snapshot of
a decode, or the two ends that a decode leaves in memory and on disk.

A `Source` opened on kept ends is served from them, and turns into a decoded snapshot at
the first read between them. The caches come and go under it. What is kept is true of
the version it is kept for (`Caches.Sound`), and every step keeps it so; a source then
reads as its version's JSONL, which is the main result (`Reading.reads_as`): its length
and its positions are the JSONL's, and what it has read since it last moved is the
JSONL from there.
-/

namespace ClaudeReplay.Compressed

open Lib

/-! ## the caches -/

/-- A compressed transcript's decoded bytes, and the version they came from. -/
structure Snapshot where
  file : List UInt8
  len : Nat
  key : Key
  deriving DecidableEq, Repr

/-- What is kept: decoded snapshots and ends in memory, the least recently used first,
and the records in the directories that processes name. -/
structure Caches where
  snapshots : List (Key × Snapshot)
  tails : List Tail
  dir : Option Path
  records : Path → UInt64 → Option (List UInt8)

/-- Nothing is kept. -/
def Caches.empty : Caches := ⟨[], [], none, fun _ _ => none⟩

/-- What the system answers a decode: a temporary file can be written, and the record
can. -/
structure Env where
  temp : Bool
  written : Bool
  deriving DecidableEq, Repr

/-- `KEEP_DECODED`. -/
def keepDecoded : Nat := 4

/-- `KEEP_BYTES`. -/
def keepBytes : Nat := 512 * 1024 * 1024

/-- `TAILS_IN_MEMORY`. -/
def tailsInMemory : Nat := 32 * 1024 * 1024

/-- Take the entry that is asked for, and put it last. -/
def touch {α : Type} (p : α → Bool) (l : List α) : Option (α × List α) :=
  (l.find? p).map fun x => (x, l.eraseP p ++ [x])

/-- Drop the first entries while there are too many, the last one never. -/
def evict {α : Type} (full : List α → Bool) : List α → List α
  | [] => []
  | x :: xs => if full (x :: xs) then evict full xs else x :: xs

/-- Too many snapshots, or too many bytes of them. -/
def tooMany (kept : List (Key × Snapshot)) : Bool :=
  keepDecoded < kept.length ||
    1 < kept.length && keepBytes < (kept.map fun s => s.2.len).sum

/-- Too many bytes of ends. -/
def tooLarge (kept : List Tail) : Bool :=
  1 < kept.length && tailsInMemory < (kept.map Tail.held).sum

namespace Caches

/-- `kept`. -/
def kept (g : Caches) (key : Key) : Option Snapshot × Caches :=
  match touch (fun k => k.1 = key) g.snapshots with
  | some ((_, snap), snapshots) => (some snap, { g with snapshots })
  | none => (none, g)

/-- `remember_tail`. -/
def rememberTail (g : Caches) (t : Tail) : Caches :=
  { g with tails := evict tooLarge (g.tails.filter (fun k => k.key.path ≠ t.key.path) ++ [t]) }

/-- The record of a version in the named directory, if it is that version's. -/
def recorded (c : Codec) (g : Caches) (key : Key) : Option Tail := do
  let dir ← g.dir
  let raw ← g.records dir (recordPath key.path)
  readTailRecord c raw key

/-- `kept_tail`: in memory, else in the named directory. -/
def keptTail (c : Codec) (g : Caches) (key : Key) : Option Tail × Caches :=
  match touch (fun t => t.key = key) g.tails with
  | some (t, tails) => (some t, { g with tails })
  | none =>
    match g.recorded c key with
    | some t => (some t, g.rememberTail t)
    | none => (none, g)

/-- Put a record in a directory. -/
def writeRecord (c : Codec) (g : Caches) (dir : Path) (t : Tail) : Caches :=
  match writeTailRecord c t with
  | some raw =>
    { g with
      records := fun d h => if d = dir ∧ h = recordPath t.key.path then some raw else g.records d h }
  | none => g

end Caches

/-- Read a range of a snapshot, all of it or nothing. -/
def readRange (file : List UInt8) (at_ upto : Nat) : Option (List UInt8) :=
  some ((file.drop at_).take (upto - at_)) |>.filter fun bytes => bytes.length = upto - at_

/-- The ends of a snapshot. -/
def endsOf (snap : Snapshot) : Option Tail := do
  let start := snap.len - tailKeep
  let head ← readRange snap.file 0 (min snap.len headKeep)
  let bytes ← readRange snap.file start snap.len
  some { key := snap.key, len := snap.len, head, start, bytes }

namespace Caches

/-- `keep_tail`. -/
def keepTail (c : Codec) (g : Caches) (snap : Snapshot) (written : Bool) : Caches :=
  match endsOf snap with
  | none => g
  | some t =>
    match g.dir with
    | some dir => (if written then g.writeRecord c dir t else g).rememberTail t
    | none => g.rememberTail t

/-- `snapshot_of`: the snapshot of a version, decoded from a handle on it. -/
def snapshotOf (c : Codec) (g : Caches) (source : List UInt8) (key : Key) (env : Env) :
    Option Snapshot × Caches :=
  match g.kept key with
  | (some snap, g) => (some snap, g)
  | (none, g) =>
    match (c.decode source).filter fun _ => env.temp with
    | none => (none, g)
    | some jsonl =>
      let snap : Snapshot := ⟨jsonl, jsonl.length, key⟩
      let g := g.keepTail c snap env.written
      (some snap, { g with
        snapshots := evict tooMany (g.snapshots.filter (fun k => k.1.path ≠ key.path) ++
          [(key, snap)]) })

end Caches

/-! ## a source -/

/-- A compressed transcript opened for reading, in the offsets of its JSONL. -/
inductive Source
  | decoded (snap : Snapshot) (pos : Nat)
  /-- known by its kept ends, over a handle on the file it was opened on -/
  | tail (tail : Tail) (file : Option (List UInt8)) (pos : Nat)
  deriving DecidableEq, Repr

inductive SeekFrom
  | start (n : Nat)
  | fromEnd (d : Int)
  | current (d : Int)
  deriving DecidableEq, Repr

/-- `checked_add_signed`, over `u64`. -/
def checkedAddSigned (n : Nat) (d : Int) : Option Nat :=
  if 0 ≤ n + d ∧ n + d < 2 ^ 64 then some (n + d).toNat else none

/-- `read_at`: a position is an `i64` to the system. -/
def readAt (file : List UInt8) (n pos : Nat) : Option (List UInt8) :=
  if pos < 2 ^ 63 then some ((file.drop pos).take n) else none

namespace Source

def pos : Source → Nat
  | .decoded _ pos => pos
  | .tail _ _ pos => pos

/-- `len`. -/
def len : Source → Nat
  | .decoded snap _ => snap.len
  | .tail t _ _ => t.len

def withPos : Source → Nat → Source
  | .decoded snap _, pos => .decoded snap pos
  | .tail t file _, pos => .tail t file pos

/-- Where a seek goes, from the length and the position. -/
def next (len pos : Nat) : SeekFrom → Option Nat
  | .start n => some n
  | .fromEnd d => checkedAddSigned len d
  | .current d => checkedAddSigned pos d

/-- `seek`. -/
def seek (s : Source) (target : SeekFrom) : Option Source :=
  (next s.len s.pos target).map s.withPos

/-- A read of a snapshot. -/
def readDecoded (snap : Snapshot) (pos n : Nat) : Option (List UInt8) × Source :=
  match readAt snap.file n pos with
  | some out => (some out, .decoded snap (pos + out.length))
  | none => (none, .decoded snap pos)

/-- A read of the kept ends, where they hold the position. -/
def readEnds (t : Tail) (file : Option (List UInt8)) (pos n : Nat) :
    Option (List UInt8) × Source :=
  let have_ := if pos < t.head.length then t.head.drop pos else t.bytes.drop (pos - t.start)
  (some (have_.take n), .tail t file (pos + (have_.take n).length))

/-- `read`: the bytes, or an error. Between the kept ends the source turns into a
snapshot first; a handle that was taken for that is gone. -/
def read (c : Codec) (g : Caches) (s : Source) (n : Nat) (env : Env) :
    (Option (List UInt8) × Source) × Caches :=
  if n = 0 then ((some [], s), g)
  else
    match s with
    | .decoded snap pos => (readDecoded snap pos n, g)
    | .tail t file pos =>
      if pos < t.start && t.head.length ≤ pos then
        match g.kept t.key with
        | (some snap, g) => (readDecoded snap pos n, g)
        | (none, g) =>
          match file with
          | none => ((none, s), g)
          | some source =>
            match g.snapshotOf c source t.key env with
            | (some snap, g) => (readDecoded snap pos n, g)
            | (none, g) => ((none, .tail t none pos), g)
      else (readEnds t file pos n, g)

end Source

/-- Open a version decoded. -/
def Caches.openDecoded (c : Codec) (g : Caches) (source : List UInt8) (key : Key) (env : Env) :
    Option Source × Caches :=
  match g.snapshotOf c source key env with
  | (some snap, g) => (some (.decoded snap 0), g)
  | (none, g) => (none, g)

/-- `open`: a version that is on disk. Its ends are used only while no snapshot is kept. -/
def Caches.openAt (c : Codec) (g : Caches) (source : List UInt8) (key : Key) (env : Env) :
    Option Source × Caches :=
  match g.kept key with
  | (some _, g) => g.openDecoded c source key env
  | (none, g) =>
    match g.keptTail c key with
    | (some t, g) => (some (.tail t (some source) 0), g)
    | (none, g) => g.openDecoded c source key env

/-! ## what happens around it -/

/-- What happens to the caches. -/
inductive Event
  /-- a reader opens a version -/
  | opens (key : Key) (env : Env)
  /-- a version is decoded -/
  | decodes (key : Key) (env : Env)
  /-- `keep_tails_in`, which sweeps some of the records -/
  | keepTailsIn (dir : Option Path) (gone : Path → UInt64 → Bool)
  /-- another process that names the directory decodes a version -/
  | recordedBy (dir : Path) (key : Key)
  | restart

variable (c : Codec) (content : Key → List UInt8)

/-- One event; `content` is the compressed bytes of each version. -/
def Caches.step (g : Caches) : Event → Caches
  | .opens key env => (g.openAt c (content key) key env).2
  | .decodes key env => (g.snapshotOf c (content key) key env).2
  | .keepTailsIn dir gone =>
    { g with dir, records := fun d h => if gone d h then none else g.records d h }
  | .recordedBy dir key =>
    match (c.decode (content key)).bind fun jsonl => endsOf ⟨jsonl, jsonl.length, key⟩ with
    | some t => g.writeRecord c dir t
    | none => g
  | .restart => { g with snapshots := [], tails := [], dir := none }

/-- A source in use: the caches under it, where it was last put, and what it has read
since. -/
structure Reading where
  caches : Caches
  source : Source
  from_ : Nat
  got : List UInt8

/-- What is done with it, and around it. -/
inductive Op
  | event (e : Event)
  | seek (target : SeekFrom)
  | read (n : Nat) (env : Env)

/-- One operation; a failed one leaves the source where it is. -/
def Reading.step (r : Reading) : Op → Reading
  | .event e => { r with caches := r.caches.step c content e }
  | .seek target =>
    match r.source.seek target with
    | some source => { r with source, from_ := source.pos, got := [] }
    | none => r
  | .read n env =>
    match r.source.read c r.caches n env with
    | ((some out, source), caches) => { r with caches, source, got := r.got ++ out }
    | ((none, source), caches) => { r with caches, source }

/-! ## what is kept is true -/

theorem touch_some {α : Type} {p : α → Bool} {l l' : List α} {x : α}
    (h : touch p l = some (x, l')) : x ∈ l ∧ p x = true ∧ ∀ y ∈ l', y ∈ l := by
  obtain ⟨y, hy, heq⟩ := Option.map_eq_some_iff.mp h
  obtain ⟨rfl, rfl⟩ := Prod.mk.inj heq
  have hmem := List.mem_of_find?_eq_some hy
  refine ⟨hmem, List.find?_some hy, fun z hz => ?_⟩
  rcases List.mem_append.mp hz with hz | hz
  · exact List.mem_of_mem_eraseP hz
  · rwa [List.mem_singleton.mp hz]

theorem mem_of_evict {α : Type} {full : List α → Bool} {l : List α} {x : α}
    (h : x ∈ evict full l) : x ∈ l := by
  induction l with
  | nil => exact h
  | cons y l ih =>
    rw [evict] at h
    split at h
    · exact List.mem_cons_of_mem _ (ih h)
    · exact h

variable {c content}

/-- A snapshot of its version. -/
structure Snapshot.Of (c : Codec) (content : Key → List UInt8) (snap : Snapshot) : Prop where
  file : c.decode (content snap.key) = some snap.file
  len : snap.len = snap.file.length

/-- Ends of their version. -/
def Tail.Of (c : Codec) (content : Key → List UInt8) (t : Tail) : Prop :=
  ∃ jsonl, c.decode (content t.key) = some jsonl ∧ t.Ends jsonl

/-- Everything that is kept is true of the version it is kept for. -/
structure Caches.Sound (c : Codec) (content : Key → List UInt8) (g : Caches) : Prop where
  snapshots : ∀ s ∈ g.snapshots, s.2.key = s.1 ∧ s.2.Of c content
  tails : ∀ t ∈ g.tails, t.Of c content
  records : ∀ dir h raw, g.records dir h = some raw →
    ∃ t : Tail, t.Of c content ∧ writeTailRecord c t = some raw

theorem readRange_some {file bytes : List UInt8} {at_ upto : Nat}
    (h : readRange file at_ upto = some bytes) : bytes = (file.drop at_).take (upto - at_) :=
  (Option.some.inj (Option.filter_eq_some_iff.mp h).1).symm

/-- The ends of a snapshot are those of its JSONL. -/
theorem Snapshot.Of.ends {snap : Snapshot} (h : snap.Of c content) {t : Tail}
    (ht : endsOf snap = some t) : t.key = snap.key ∧ t.Ends snap.file := by
  obtain ⟨head, hhead, ht⟩ := Option.bind_eq_some_iff.mp ht
  obtain ⟨bytes, hbytes, ⟨⟩⟩ := Option.bind_eq_some_iff.mp ht
  refine ⟨rfl, ?_⟩
  constructor
  · exact h.len
  · show head = _
    rw [readRange_some hhead, h.len, List.drop_zero, Nat.sub_zero, Nat.min_comm,
      ← List.take_eq_take_min]
  · show snap.len - tailKeep = _
    rw [h.len]
  · show bytes = _
    rw [readRange_some hbytes, h.len]
    exact List.take_of_length_le (Nat.le_of_eq (List.length_drop ..))

namespace Caches

theorem Sound.kept {g : Caches} (h : g.Sound c content) (key : Key) :
    (g.kept key).2.Sound c content ∧
      ∀ snap ∈ (g.kept key).1, snap.key = key ∧ snap.Of c content := by
  unfold Caches.kept
  split
  · next k snap snapshots htouch =>
    obtain ⟨hmem, hkey, hsub⟩ := touch_some htouch
    refine ⟨⟨fun s hs => h.snapshots s (hsub s hs), h.tails, h.records⟩, fun snap' hsnap => ?_⟩
    obtain rfl := Option.some.inj hsnap
    obtain ⟨hsame, hof⟩ := h.snapshots _ hmem
    exact ⟨hsame.trans (of_decide_eq_true hkey), hof⟩
  · exact ⟨h, nofun⟩

theorem Sound.rememberTail {g : Caches} (h : g.Sound c content) {t : Tail}
    (ht : t.Of c content) : (g.rememberTail t).Sound c content := by
  refine ⟨h.snapshots, fun t' ht' => ?_, h.records⟩
  rcases List.mem_append.mp (mem_of_evict ht') with hmem | hmem
  · exact h.tails t' (List.mem_of_mem_filter hmem)
  · rwa [List.mem_singleton.mp hmem]

theorem Sound.writeRecord {g : Caches} (h : g.Sound c content) (dir : Path) {t : Tail}
    (ht : t.Of c content) : (g.writeRecord c dir t).Sound c content := by
  unfold Caches.writeRecord
  split
  · next raw hraw =>
    refine ⟨h.snapshots, h.tails, fun d k raw' hrecord => ?_⟩
    simp only at hrecord
    split at hrecord
    · obtain rfl := Option.some.inj hrecord
      exact ⟨t, ht, hraw⟩
    · exact h.records d k raw' hrecord
  · exact h

/-- **A record is served** only for the version it was written of. -/
theorem Sound.recorded {g : Caches} (h : g.Sound c content) {key : Key} {t : Tail}
    (ht : g.recorded c key = some t) : t.key = key ∧ t.Of c content := by
  obtain ⟨dir, -, ht⟩ := Option.bind_eq_some_iff.mp ht
  obtain ⟨raw, hraw, hread⟩ := Option.bind_eq_some_iff.mp ht
  obtain ⟨t', hof, hwritten⟩ := h.records _ _ _ hraw
  obtain ⟨hkey, rfl⟩ := read_written c hwritten hread
  exact ⟨hkey, hof⟩

/-- **Kept ends are served** only for their version. -/
theorem Sound.keptTail {g : Caches} (h : g.Sound c content) (key : Key) :
    (g.keptTail c key).2.Sound c content ∧
      ∀ t ∈ (g.keptTail c key).1, t.key = key ∧ t.Of c content := by
  unfold Caches.keptTail
  split
  · next t tails htouch =>
    obtain ⟨hmem, hkey, hsub⟩ := touch_some htouch
    refine ⟨⟨h.snapshots, fun t' ht' => h.tails t' (hsub t' ht'), h.records⟩, fun t' ht' => ?_⟩
    obtain rfl := Option.some.inj ht'
    exact ⟨of_decide_eq_true hkey, h.tails _ hmem⟩
  · split
    · next t hrecorded =>
      obtain ⟨hkey, hof⟩ := h.recorded hrecorded
      refine ⟨h.rememberTail hof, fun t' ht' => ?_⟩
      obtain rfl := Option.some.inj ht'
      exact ⟨hkey, hof⟩
    · exact ⟨h, nofun⟩

theorem Sound.keepTail {g : Caches} (h : g.Sound c content) {snap : Snapshot}
    (hsnap : snap.Of c content) (written : Bool) :
    (g.keepTail c snap written).Sound c content := by
  unfold Caches.keepTail
  split
  · exact h
  · next t ht =>
    obtain ⟨hkey, hends⟩ := hsnap.ends ht
    have hof : t.Of c content := ⟨snap.file, hkey ▸ hsnap.file, hends⟩
    split
    · next dir hdir =>
      cases written with
      | false => exact h.rememberTail hof
      | true => exact (h.writeRecord dir hof).rememberTail hof
    · exact h.rememberTail hof

/-- **A snapshot is that of the version asked for**, and comes whenever the version
decodes and a temporary file can be written. -/
theorem Sound.snapshotOf {g : Caches} (h : g.Sound c content) (key : Key) (env : Env) :
    (g.snapshotOf c (content key) key env).2.Sound c content ∧
      (∀ snap ∈ (g.snapshotOf c (content key) key env).1, snap.key = key ∧ snap.Of c content) ∧
      ((c.decode (content key)).isSome = true → env.temp = true →
        (g.snapshotOf c (content key) key env).1 ≠ none) := by
  obtain ⟨hkept, hsnap⟩ := h.kept key
  unfold Caches.snapshotOf
  split
  · next snap g' heq =>
    rw [heq] at hkept hsnap
    exact ⟨hkept, hsnap, fun _ _ => nofun⟩
  · next g' heq =>
    rw [heq] at hkept
    split
    · next hnone =>
      refine ⟨hkept, nofun, fun hsome htemp => ?_⟩
      obtain ⟨jsonl, hjsonl⟩ := Option.isSome_iff_exists.mp hsome
      simp [hjsonl, htemp] at hnone
    · next jsonl hjsonl =>
      have hdecode := (Option.filter_eq_some_iff.mp hjsonl).1
      have hof : Snapshot.Of c content ⟨jsonl, jsonl.length, key⟩ := ⟨hdecode, rfl⟩
      have hkeep := hkept.keepTail hof env.written
      refine ⟨⟨fun s hs => ?_, hkeep.tails, hkeep.records⟩, fun snap hsnap => ?_, fun _ _ => nofun⟩
      · rcases List.mem_append.mp (mem_of_evict hs) with hmem | hmem
        · exact hkeep.snapshots s (List.mem_of_mem_filter hmem)
        · rw [List.mem_singleton.mp hmem]
          exact ⟨rfl, hof⟩
      · obtain rfl := Option.some.inj hsnap
        exact ⟨rfl, hof⟩

end Caches

/-! ## a source of a version -/

/-- A source reads a version, whose JSONL this is. -/
def Source.Of (c : Codec) (content : Key → List UInt8) (key : Key) (jsonl : List UInt8) :
    Source → Prop
  | .decoded snap _ => snap.file = jsonl ∧ snap.len = jsonl.length
  | .tail t file _ => t.key = key ∧ c.decode (content key) = some jsonl ∧ t.Ends jsonl ∧
      ∀ b ∈ file, b = content key

/-- The source still holds what it may have to decode. -/
def Source.Held : Source → Prop
  | .decoded .. => True
  | .tail _ file _ => file ≠ none

/-- What a read of `n` bytes at a position may do: give some of the bytes from there and
step past them, none of them only at the end, or fail and stay. -/
structure ReadOf (jsonl : List UInt8) (pos n : Nat) (r : Option (List UInt8) × Source) :
    Prop where
  some : ∀ out ∈ r.1, out = (jsonl.drop pos).take out.length ∧ out.length ≤ n ∧
    r.2.pos = pos + out.length
  eof : r.1 = Option.some [] → n = 0 ∨ jsonl.length ≤ pos
  none : r.1 = Option.none → r.2.pos = pos

theorem take_take_length {α : Type} (l : List α) (n : Nat) :
    l.take n = l.take (l.take n).length := by
  rw [List.length_take, ← List.take_eq_take_min]

/-- Some of the bytes from the position on, if there are any. -/
theorem readOf_take {jsonl : List UInt8} {pos n m : Nat} {s : Source} (hm : m ≤ n)
    (hsome : 0 < n → pos < jsonl.length → 0 < m)
    (hpos : s.pos = pos + ((jsonl.drop pos).take m).length) :
    ReadOf jsonl pos n (some ((jsonl.drop pos).take m), s) := by
  constructor
  · intro out hmem
    obtain rfl := Option.some.inj hmem
    exact ⟨take_take_length _ _, Nat.le_trans (List.length_take_le _ _) hm, hpos⟩
  · intro hempty
    have hlen := congrArg List.length (Option.some.inj hempty)
    simp only [List.length_take, List.length_drop, List.length_nil] at hlen
    by_contra hmore
    have := hsome (by omega) (by omega)
    omega
  · exact nofun

theorem readDecoded_of (snap : Snapshot) (pos n : Nat) :
    ReadOf snap.file pos n (Source.readDecoded snap pos n) := by
  unfold Source.readDecoded readAt
  split
  · next out hout =>
    split at hout
    · obtain rfl := Option.some.inj hout
      exact readOf_take (Nat.le_refl n) (fun hn _ => hn) rfl
    · cases hout
  · exact ⟨nofun, nofun, fun _ => rfl⟩

/-- **The kept ends answer** a read that starts in them. -/
theorem readEnds_of {t : Tail} {jsonl : List UInt8} (h : t.Ends jsonl)
    (file : Option (List UInt8)) {pos : Nat} (hpos : pos < t.head.length ∨ t.start ≤ pos)
    (n : Nat) : ReadOf jsonl pos n (Source.readEnds t file pos n) := by
  unfold Source.readEnds
  by_cases hhead : pos < t.head.length
  · -- in the head, up to where it ends
    have hlen : t.head.length = min headKeep jsonl.length := by
      rw [h.head, List.length_take]
    have hbytes : (t.head.drop pos).take n =
        (jsonl.drop pos).take (min n (headKeep - pos)) := by
      rw [h.head, List.drop_take, List.take_take]
    simp only [hhead, if_true, hbytes]
    exact readOf_take (Nat.min_le_left _ _) (fun hn _ => by omega) rfl
  · -- in the tail
    have hstart : t.start ≤ pos := hpos.resolve_left hhead
    have hbytes : t.bytes.drop (pos - t.start) = jsonl.drop pos := by
      rw [h.bytes, List.drop_drop, Nat.add_sub_cancel' hstart]
    simp only [hhead, if_false, hbytes]
    exact readOf_take (Nat.le_refl n) (fun hn _ => hn) rfl

/-- What a read leaves: true caches, a source of the version, and a read of its JSONL,
which goes through if the source was held and a temporary file could be written. -/
structure Answers (c : Codec) (content : Key → List UInt8) (key : Key) (jsonl : List UInt8)
    (pos n : Nat) (held : Prop) (r : (Option (List UInt8) × Source) × Caches) : Prop where
  sound : r.2.Sound c content
  version : r.1.2.Of c content key jsonl
  read : ReadOf jsonl pos n r.1
  stays : held → r.1.2.Held
  through : held → pos < 2 ^ 63 → r.1.1 ≠ none

/-- A snapshot of the version answers. -/
theorem answers_decoded {g : Caches} (hg : g.Sound c content) {key : Key} {jsonl : List UInt8}
    {snap : Snapshot} (hfile : snap.file = jsonl) (hlen : snap.len = jsonl.length) (pos n : Nat)
    (held : Prop) :
    Answers c content key jsonl pos n held (Source.readDecoded snap pos n, g) := by
  constructor
  · exact hg
  · unfold Source.readDecoded
    split <;> exact ⟨hfile, hlen⟩
  · exact hfile ▸ readDecoded_of snap pos n
  · intro _
    unfold Source.readDecoded
    split <;> trivial
  · intro _ hpos
    unfold Source.readDecoded readAt
    rw [if_pos hpos]
    simp

/-- **One read** of a source is a read of its JSONL. -/
theorem Source.Of.read {g : Caches} (hg : g.Sound c content) {key : Key} {jsonl : List UInt8}
    {s : Source} (h : s.Of c content key jsonl) (n : Nat) (env : Env) :
    Answers c content key jsonl s.pos n (s.Held ∧ env.temp = true) (s.read c g n env) := by
  by_cases hn : n = 0
  · simp only [Source.read, hn, if_true]
    refine ⟨hg, h, ⟨?_, fun _ => Or.inl rfl, nofun⟩, And.left, fun _ _ => nofun⟩
    intro out hout
    obtain rfl := Option.some.inj hout
    exact ⟨rfl, Nat.le_refl 0, rfl⟩
  · cases s with
    | decoded snap pos =>
      simp only [Source.read, hn, if_false]
      exact answers_decoded hg h.1 h.2 pos n _
    | tail t file pos =>
      obtain ⟨hkey, hdecode, hends, hfile⟩ := h
      simp only [Source.read, hn, if_false]
      split
      · -- between the ends: a snapshot, kept or decoded now
        have hversion : ∀ snap : Snapshot, snap.key = t.key → snap.Of c content →
            snap.file = jsonl ∧ snap.len = jsonl.length := by
          intro snap hsame hof
          have hjsonl : snap.file = jsonl := by
            have := hof.file
            rw [hsame, hkey, hdecode] at this
            exact (Option.some.inj this).symm
          exact ⟨hjsonl, hjsonl ▸ hof.len⟩
        obtain ⟨hg', hsnap⟩ := hg.kept t.key
        split
        · next snap g' hkept =>
          rw [hkept] at hg' hsnap
          obtain ⟨hsame, hof⟩ := hsnap snap rfl
          exact answers_decoded hg' (hversion snap hsame hof).1 (hversion snap hsame hof).2 pos n _
        · next g' hkept =>
          rw [hkept] at hg'
          split
          · exact ⟨hg', ⟨hkey, hdecode, hends, nofun⟩, ⟨nofun, nofun, fun _ => rfl⟩, And.left,
              fun hheld => absurd rfl hheld.1⟩
          · next source =>
            obtain rfl := hfile source rfl
            obtain ⟨hg'', hsnap', hsome⟩ := hg'.snapshotOf key env
            rw [hkey]
            split
            · next snap g'' hdecoded =>
              rw [hdecoded] at hg'' hsnap'
              obtain ⟨hsame, hof⟩ := hsnap' snap rfl
              have hv := hversion snap (hsame.trans hkey.symm) hof
              exact answers_decoded hg'' hv.1 hv.2 pos n _
            · next g'' hdecoded =>
              rw [hdecoded] at hg'' hsome
              have hfailed : env.temp ≠ true := fun htemp => hsome (by rw [hdecode]; rfl) htemp rfl
              exact ⟨hg'', ⟨hkey, hdecode, hends, nofun⟩, ⟨nofun, nofun, fun _ => rfl⟩,
                fun hheld => absurd hheld.2 hfailed, fun hheld => absurd hheld.2 hfailed⟩
      · next hgap =>
        have hpos : pos < t.head.length ∨ t.start ≤ pos := by
          simp only [Bool.and_eq_true, decide_eq_true_eq] at hgap
          omega
        exact ⟨hg, ⟨hkey, hdecode, hends, hfile⟩, readEnds_of hends file hpos n, And.left,
          fun _ _ => nofun⟩

/-- A source as it is opened: held, at the start of its version. -/
def Source.Opened (c : Codec) (content : Key → List UInt8) (key : Key) (s : Source) : Prop :=
  s.pos = 0 ∧ s.Held ∧ ∃ jsonl, c.decode (content key) = some jsonl ∧ s.Of c content key jsonl

theorem Caches.Sound.openDecoded {g : Caches} (h : g.Sound c content) (key : Key) (env : Env) :
    (g.openDecoded c (content key) key env).2.Sound c content ∧
      ∀ s ∈ (g.openDecoded c (content key) key env).1, s.Opened c content key := by
  obtain ⟨hsound, hsnap, -⟩ := h.snapshotOf key env
  unfold Caches.openDecoded
  split
  · next snap g' heq =>
    rw [heq] at hsound hsnap
    obtain ⟨hsame, hof⟩ := hsnap snap rfl
    refine ⟨hsound, fun s hs => ?_⟩
    obtain rfl := Option.some.inj hs
    exact ⟨rfl, trivial, snap.file, hsame ▸ hof.file, rfl, hof.len⟩
  · next g' heq =>
    rw [heq] at hsound
    exact ⟨hsound, nofun⟩

/-- **A source that is opened** reads the version from its start. -/
theorem Caches.Sound.openAt {g : Caches} (h : g.Sound c content) (key : Key) (env : Env) :
    (g.openAt c (content key) key env).2.Sound c content ∧
      ∀ s ∈ (g.openAt c (content key) key env).1, s.Opened c content key := by
  obtain ⟨hkept, -⟩ := h.kept key
  unfold Caches.openAt
  split
  · next snap g' heq =>
    rw [heq] at hkept
    exact hkept.openDecoded key env
  · next g' heq =>
    rw [heq] at hkept
    obtain ⟨htail, hof⟩ := hkept.keptTail key
    split
    · next t g'' heq' =>
      rw [heq'] at htail hof
      obtain ⟨hkey, jsonl, hjsonl, hends⟩ := hof t rfl
      refine ⟨htail, fun s hs => ?_⟩
      obtain rfl := Option.some.inj hs
      rw [hkey] at hjsonl
      exact ⟨rfl, nofun, jsonl, hjsonl, hkey, hjsonl, hends, fun b hb => (Option.some.inj hb).symm⟩
    · next g'' heq' =>
      rw [heq'] at htail
      exact htail.openDecoded key env

theorem Caches.Sound.step {g : Caches} (h : g.Sound c content) (e : Event) :
    (g.step c content e).Sound c content := by
  cases e with
  | opens key env => exact (h.openAt key env).1
  | decodes key env => exact (h.snapshotOf key env).1
  | keepTailsIn dir gone =>
    refine ⟨h.snapshots, h.tails, fun d k raw hraw => ?_⟩
    simp only [Caches.step] at hraw
    split at hraw
    · cases hraw
    · exact h.records d k raw hraw
  | recordedBy dir key =>
    rw [Caches.step]
    split
    · next t ht =>
      obtain ⟨jsonl, hjsonl, hends⟩ := Option.bind_eq_some_iff.mp ht
      have hof : Snapshot.Of c content ⟨jsonl, jsonl.length, key⟩ := ⟨hjsonl, rfl⟩
      obtain ⟨hkey, hends⟩ := hof.ends hends
      exact h.writeRecord dir ⟨jsonl, hkey ▸ hjsonl, hends⟩
    · exact h
  | restart => exact ⟨nofun, nofun, h.records⟩

/-! ## a transcript reads as its JSONL -/

/-- A source over the decoded bytes. -/
def Source.over (key : Key) (jsonl : List UInt8) (pos : Nat) : Source :=
  .decoded ⟨jsonl, jsonl.length, key⟩ pos

theorem Source.Of.len {key : Key} {jsonl : List UInt8} {s : Source}
    (h : s.Of c content key jsonl) : s.len = jsonl.length := by
  cases s with
  | decoded snap pos => exact h.2
  | tail t file pos => exact h.2.2.1.len

theorem Source.seek_pos (s : Source) (target : SeekFrom) :
    (s.seek target).map Source.pos = next s.len s.pos target := by
  have hpos : Source.pos ∘ s.withPos = id := by
    funext pos
    cases s <;> rfl
  rw [Source.seek, Option.map_map, hpos, Option.map_id_fun, id]

/-- A seek moves nothing but the position. -/
theorem Source.Of.seek {key : Key} {jsonl : List UInt8} {s s' : Source}
    (h : s.Of c content key jsonl) {target : SeekFrom} (hs : s.seek target = some s') :
    s'.Of c content key jsonl ∧ (s.Held → s'.Held) := by
  obtain ⟨n, -, rfl⟩ := Option.map_eq_some_iff.mp hs
  cases s <;> exact ⟨h, id⟩

/-- What a source in use is known to be. -/
structure Reading.Sound (c : Codec) (content : Key → List UInt8) (key : Key)
    (jsonl : List UInt8) (r : Reading) : Prop where
  caches : r.caches.Sound c content
  version : r.source.Of c content key jsonl
  pos : r.source.pos = r.from_ + r.got.length
  got : r.got = (jsonl.drop r.from_).take r.got.length

/-- **One operation** on a source, or around it. -/
theorem Reading.Sound.step {key : Key} {jsonl : List UInt8} {r : Reading}
    (h : r.Sound c content key jsonl) (op : Op) :
    (r.step c content op).Sound c content key jsonl := by
  cases op with
  | event e => exact ⟨h.caches.step e, h.version, h.pos, h.got⟩
  | seek target =>
    simp only [Reading.step]
    split
    · next source hseek => exact ⟨h.caches, (h.version.seek hseek).1, rfl, rfl⟩
    · exact h
  | read n env =>
    have hread := h.version.read h.caches n env
    simp only [Reading.step]
    split
    · next out source caches heq =>
      rw [heq] at hread
      obtain ⟨hout, -, hpos⟩ := hread.read.some out rfl
      refine ⟨hread.sound, hread.version, ?_, ?_⟩
      · show source.pos = r.from_ + (r.got ++ out).length
        rw [show source.pos = _ from hpos, h.pos, List.length_append, Nat.add_assoc]
      · show r.got ++ out = _
        rw [List.length_append, List.take_add, ← h.got, List.drop_drop, ← h.pos, ← hout]
    · next source caches heq =>
      rw [heq] at hread
      exact ⟨hread.sound, hread.version, (hread.read.none rfl).trans h.pos, h.got⟩

/-- A source that reads as a JSONL: it has its length, what it has read since it was
last put somewhere is the JSONL from there, and it stands behind that; it seeks where a
source over the decoded bytes seeks; a read that finds the end has read all there is
from where it began; a failed read leaves the position. -/
structure Reading.ReadsAs (c : Codec) (key : Key) (jsonl : List UInt8) (r : Reading) : Prop where
  len : r.source.len = jsonl.length
  got : r.got = (jsonl.drop r.from_).take r.got.length
  pos : r.source.pos = r.from_ + r.got.length
  seek : ∀ target, (r.source.seek target).map Source.pos =
    ((Source.over key jsonl r.source.pos).seek target).map Source.pos
  eof : ∀ n env, 0 < n → (r.source.read c r.caches n env).1.1 = some [] →
    r.got = jsonl.drop r.from_
  fails : ∀ n env, (r.source.read c r.caches n env).1.1 = none →
    (r.source.read c r.caches n env).1.2.pos = r.source.pos

theorem Reading.Sound.readsAs {key : Key} {jsonl : List UInt8} {r : Reading}
    (h : r.Sound c content key jsonl) : r.ReadsAs c key jsonl := by
  constructor
  · exact h.version.len
  · exact h.got
  · exact h.pos
  · intro target
    rw [Source.seek_pos, Source.seek_pos, h.version.len]
    rfl
  · intro n env hn heof
    rcases (h.version.read h.caches n env).read.eof heof with hzero | hend
    · exact absurd hzero (Nat.ne_of_gt hn)
    · rw [h.got]
      apply List.take_of_length_le
      have := h.pos
      rw [List.length_drop]
      omega
  · exact fun n env => (h.version.read h.caches n env).read.none

/-- The operation finds room for a temporary file. -/
def Op.Temp : Op → Prop
  | .read _ env => env.temp = true
  | _ => True

theorem Reading.Sound.held {key : Key} {jsonl : List UInt8} {r : Reading}
    (h : r.Sound c content key jsonl) {op : Op} (htemp : op.Temp) (hheld : r.source.Held) :
    (r.step c content op).source.Held := by
  cases op with
  | event e => exact hheld
  | seek target =>
    simp only [Reading.step]
    split
    · next source hseek => exact (h.version.seek hseek).2 hheld
    · exact hheld
  | read n env =>
    have hstays := (h.version.read h.caches n env).stays ⟨hheld, htemp⟩
    simp only [Reading.step]
    split <;> next heq =>
      rw [heq] at hstays
      exact hstays

/-- **Every form of a transcript reads as the same JSONL.** After any history of the
caches and the records, a source that is opened on a version, and then moved and read
while more happens around it, reads as the bytes the version decodes to; no kept ends of
one version are served for another; and while there is room for temporary files no read
fails. -/
theorem Reading.reads_as {es : List Event} {g g' : Caches}
    (hrun : Run (fun g e g' => g.step c content e = g') .empty es g) {key : Key} {env : Env}
    {s : Source} (hopen : g.openAt c (content key) key env = (some s, g')) {ops : List Op}
    {r : Reading} (hops : Run (fun r op r' => r.step c content op = r') ⟨g', s, 0, []⟩ ops r) :
    ∃ jsonl, c.decode (content key) = some jsonl ∧ r.ReadsAs c key jsonl ∧
      (∀ key' t, (r.caches.keptTail c key').1 = some t → t.key = key' ∧ t.Of c content) ∧
      ((∀ op ∈ ops, op.Temp) → ∀ n env, env.temp = true → r.source.pos < 2 ^ 63 →
        (r.source.read c r.caches n env).1.1 ≠ none) := by
  have hg : g.Sound c content := by
    refine hrun.kept (P := fun g => g.Sound c content) (Q := fun _ => True) ?_
      (fun _ _ => trivial) ⟨nofun, nofun, nofun⟩
    rintro g e g' - rfl h
    exact h.step e
  obtain ⟨hg', hopened⟩ := hg.openAt key env
  rw [hopen] at hg' hopened
  obtain ⟨hpos, hheld, jsonl, hjsonl, hversion⟩ := hopened s rfl
  have hstart : Reading.Sound c content key jsonl ⟨g', s, 0, []⟩ := ⟨hg', hversion, hpos, rfl⟩
  have hr : r.Sound c content key jsonl := by
    refine hops.kept (P := fun r => r.Sound c content key jsonl) (Q := fun _ => True) ?_
      (fun _ _ => trivial) hstart
    rintro r op r' - rfl h
    exact h.step op
  refine ⟨jsonl, hjsonl, hr.readsAs, fun key' => (hr.caches.keptTail key').2, ?_⟩
  intro htemp n env henv hbelow
  have hstill : r.Sound c content key jsonl ∧ r.source.Held := by
    refine hops.kept (P := fun r => r.Sound c content key jsonl ∧ r.source.Held) (Q := Op.Temp) ?_
      htemp ⟨hstart, hheld⟩
    rintro r op r' htemp rfl ⟨h, hheld⟩
    exact ⟨h.step op, h.held htemp hheld⟩
  exact (hr.version.read hr.caches n env).through ⟨hstill.2, henv⟩ hbelow

/-- One frame, a raw block of two bytes. -/
def oneFrame : List UInt8 :=
  [0x28, 0xB5, 0x2F, 0xFD, 0x20, 0x02, 0x11, 0x00, 0x00, 0x7D, 0x0A]

/-- The codec of that frame, whose records cannot be written. -/
def Codec.frame : Codec where
  decode bytes := if bytes = oneFrame then some [0x7D, 0x0A] else none
  compressToVec bytes := bytes
  decodeAllToVec := some
  toVec _ := none
  fromSlice _ := none
  decode_compress _ := rfl
  fromSlice_toVec := nofun
  toVec_line := nofun

/-- Five rollouts of that frame are decoded, so that only the ends of the first are
kept; a source of it is opened and read from its second byte, moved back when another
rollout is decoded, and read again in two pieces. -/
theorem Reading.reads_as_kept_ends :
    ∃ r : Reading,
      r.source = .tail ⟨⟨[0], 11, some 0⟩, 2, [0x7D, 0x0A], 0, [0x7D, 0x0A]⟩ (some oneFrame) 2 ∧
      r.got = [0x7D, 0x0A] ∧ r.ReadsAs .frame ⟨[0], 11, some 0⟩ [0x7D, 0x0A] := by
  obtain ⟨jsonl, hjsonl, hreads, -⟩ :=
    @Reading.reads_as .frame (fun _ => oneFrame) _ _ _
      (.cons (e := .decodes ⟨[0], 11, some 0⟩ ⟨true, true⟩) rfl
        (.cons (e := .decodes ⟨[1], 11, some 0⟩ ⟨true, true⟩) rfl
          (.cons (e := .decodes ⟨[2], 11, some 0⟩ ⟨true, true⟩) rfl
            (.cons (e := .decodes ⟨[3], 11, some 0⟩ ⟨true, true⟩) rfl
              (.cons (e := .decodes ⟨[4], 11, some 0⟩ ⟨true, true⟩) rfl (.nil _))))))
      ⟨[0], 11, some 0⟩ ⟨true, true⟩ _ rfl _ _
      (.cons (e := .seek (.start 1)) rfl (.cons (e := .read 5 ⟨true, true⟩) rfl
        (.cons (e := .event (.decodes ⟨[5], 11, some 0⟩ ⟨true, true⟩)) rfl
          (.cons (e := .seek (.current (-2))) rfl (.cons (e := .read 1 ⟨true, true⟩) rfl
            (.cons (e := .read 1 ⟨true, true⟩) rfl (.nil _)))))))
  obtain rfl : [0x7D, 0x0A] = jsonl := by simpa [Codec.frame] using hjsonl
  exact ⟨_, rfl, rfl, hreads⟩

end ClaudeReplay.Compressed
