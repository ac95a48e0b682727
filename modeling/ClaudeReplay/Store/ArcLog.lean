import ClaudeReplay.Index.Store
import ClaudeReplay.Lib.LineLog

/-!
# ClaudeReplay.Store.ArcLog

The durable block store of the terminal: blocks that stay resident, and a log behind them that
holds one block a line, so that a later process can load what was committed.

A log can be found with a torn tail, a line the writer died in. `TornLog` is a log that is made
of whole records and such a tail. Loading it from a record's start gives the records from there
on and leaves the file as long as its records (`ArcLog.loadFrom_start`); from any other position
it is refused and the file stays (`ArcLog.loadFrom_refused`).
-/

namespace ClaudeReplay.Store

open Index (setLen)
open Lib (unlines leading lineStart StartsLine)

/-! ## a file open for writing -/

/-- What became of a `write_all`: it wrote everything, or failed after some of the bytes. -/
inductive Written
  | whole
  | stopped (n : Nat)
  deriving DecidableEq, Repr

/-- A file and the handle that writes it. What is written lands at the end of the file: the
handle appends, or it stands there. -/
structure File where
  bytes : List UInt8
  append : Bool
  pos : Nat
  placed : append = true ∨ pos = bytes.length

namespace File

/-- Where the next byte is written. -/
def at_ (f : File) : Nat := if f.append then f.bytes.length else f.pos

theorem at_eq (f : File) : f.at_ = f.bytes.length := by
  obtain ⟨bytes, append, pos, placed⟩ := f
  rw [at_]
  split
  · rfl
  · next h =>
    obtain rfl | rfl := placed
    · contradiction
    · rfl

/-- The file after some bytes. -/
def overwrite (f : File) (out : List UInt8) : List UInt8 :=
  f.bytes.take f.at_ ++ out ++ f.bytes.drop (f.at_ + out.length)

theorem overwrite_eq (f : File) (out : List UInt8) : f.overwrite out = f.bytes ++ out := by
  rw [overwrite, at_eq, List.take_length, List.drop_of_length_le (by omega), List.append_nil]

/-- The bytes of a `write_all` that reach the file. -/
def landed (out : List UInt8) : Written → List UInt8
  | .whole => out
  | .stopped n => out.take (min n (out.length - 1))

/-- `write_all` -/
def writeAll (f : File) (out : List UInt8) (w : Written) : File where
  bytes := f.overwrite (landed out w)
  append := f.append
  pos := f.at_ + (landed out w).length
  placed := .inr (by rw [overwrite_eq, at_eq, List.length_append])

@[simp] theorem writeAll_bytes (f : File) (out : List UInt8) (w : Written) :
    (f.writeAll out w).bytes = f.bytes ++ landed out w := f.overwrite_eq _

/-- `set_len`, and the handle moved to the end. -/
def cut (f : File) (len : Nat) : File where
  bytes := setLen f.bytes len
  append := f.append
  pos := (setLen f.bytes len).length
  placed := .inr rfl

@[simp] theorem cut_bytes (f : File) (len : Nat) : (f.cut len).bytes = setLen f.bytes len := rfl

end File

/-! ## the store -/

/-- Blocks to bytes and back, as `serde_json` does it. -/
structure Codec (Block : Type) where
  toVec : Block → List UInt8
  fromSlice : List UInt8 → Option Block

/-- An I/O error, by its kind and text. -/
inductive IoError
  | invalidInput (message : String)
  deriving DecidableEq, Repr

/-- What a load says of a position inside a record. -/
def notABoundary : IoError := .invalidInput "load_from: offset is not a record boundary"

/-- `ends_a_record` -/
def endsARecord (bytes : List UInt8) (at_ : Nat) : Except IoError Unit :=
  if StartsLine Index.newline bytes at_ then .ok () else .error notABoundary

/-- The block store and the log behind it; without a file it keeps blocks in memory only. `len`
is what it has written. -/
structure ArcLog where
  file : Option File := none
  len : Nat := 0

namespace ArcLog

variable {Block : Type} (codec : Codec Block)

/-- `memory` -/
def memory : ArcLog := {}

/-- `create`: a file that is emptied. -/
def create : ArcLog := { file := some { bytes := [], append := false, pos := 0, placed := .inr rfl } }

/-- `open_append`: the file as it is found. -/
def openAppend (found : List UInt8) : ArcLog where
  file := some { bytes := found, append := true, pos := 0, placed := .inl rfl }
  len := found.length

/-- `cut_to` -/
def cutTo (s : ArcLog) (len : Nat) : ArcLog := { file := s.file.map (·.cut len), len }

/-- The records a load walks over: whole lines that parse. -/
def usable (bytes : List UInt8) : List (List UInt8) :=
  leading Index.newline (fun line => (codec.fromSlice line).isSome) bytes

/-- `load_from`: the blocks from a byte on. What the walk did not come over is cut. -/
def loadFrom (s : ArcLog) (at_ : Nat) : ArcLog × Except IoError (List Block) :=
  match s.file with
  | none => (s, .ok [])
  | some f =>
    let at_ := min at_ f.bytes.length
    match endsARecord f.bytes at_ with
    | .error e => (s, .error e)
    | .ok () =>
      let buf := f.bytes.drop at_
      let lines := usable codec buf
      let good := at_ + (unlines Index.newline lines).length
      (if good ≠ s.len ∨ good ≠ at_ + buf.length then s.cutTo good else s,
        .ok (lines.filterMap codec.fromSlice))

/-- `load` -/
def load (s : ArcLog) : ArcLog × Except IoError (List Block) := s.loadFrom codec 0

/-- The lines of a file, the torn tail among them, each with what ends it. -/
def slices (bytes : List UInt8) : List (List UInt8) :=
  let parts := Lib.splitLines Index.newline bytes
  parts.1.map (· ++ [Index.newline]) ++ if parts.2 = [] then [] else [parts.2]

/-- `truncate_to`: cut to `n` records. -/
def truncateTo (s : ArcLog) (n : Nat) : ArcLog :=
  match s.file with
  | none => s
  | some f => s.cutTo ((slices f.bytes).take n).flatten.length

/-- `put`: append the block's record. A write that fails is let go. -/
def put (s : ArcLog) (b : Block) (w : Written) : ArcLog :=
  match s.file with
  | none => s
  | some f =>
    let rec_ := codec.toVec b ++ [Index.newline]
    { file := some (f.writeAll rec_ w)
      len := if w = .whole then s.len + rec_.length else s.len }

/-- `reset` -/
def reset (s : ArcLog) : ArcLog := s.cutTo 0

/-- `adopt`: a restored prefix of `n` blocks. -/
def adopt (s : ArcLog) (n : Nat) : ArcLog := s.truncateTo n

end ArcLog

/-! ## a log with a torn tail -/

/-- A log of whole records, each on its line, and a line that was not ended. -/
structure TornLog (ok : List UInt8 → Bool) where
  recs : List (List UInt8)
  tail : List UInt8
  oneLine : ∀ r ∈ recs, Index.newline ∉ r
  whole : ∀ r ∈ recs, ok r = true
  torn : Index.newline ∉ tail

namespace TornLog

variable {ok : List UInt8 → Bool} (t : TornLog ok)

/-- The file. -/
def bytes : List UInt8 := unlines Index.newline t.recs ++ t.tail

/-- Where the `n`-th record starts. -/
def start (n : Nat) : Nat := lineStart Index.newline t.recs n

theorem start_le (n : Nat) : t.start n ≤ t.bytes.length := Lib.lineStart_le n t.tail

/-- A position is let through exactly when a record starts there, or the last one ends. -/
theorem endsARecord_iff (at_ : Nat) :
    endsARecord t.bytes at_ = .ok () ↔ ∃ n ≤ t.recs.length, at_ = t.start n := by
  rw [← show _ ↔ ∃ n ≤ t.recs.length, at_ = t.start n from
    Lib.startsLine_iff t.oneLine t.torn at_, endsARecord, bytes]
  split
  · next hstarts => exact iff_of_true rfl hstarts
  · next hstarts => exact iff_of_false (by simp) hstarts

theorem endsARecord_refused {at_ : Nat} (h : ∀ n ≤ t.recs.length, at_ ≠ t.start n) :
    endsARecord t.bytes at_ = .error notABoundary := by
  rw [endsARecord, if_neg]
  intro hstarts
  obtain ⟨n, hn, heq⟩ := (Lib.startsLine_iff t.oneLine t.torn at_).mp hstarts
  exact h n hn heq

/-- What is walked over from the `n`-th record on. -/
theorem leading_start (n : Nat) : leading Index.newline ok (t.bytes.drop (t.start n)) = t.recs.drop n :=
  Lib.leading_drop t.oneLine t.whole t.torn n

/-- The walk from the `n`-th record ends where the records do. -/
theorem start_add (n : Nat) :
    t.start n + (unlines Index.newline (t.recs.drop n)).length = (unlines Index.newline t.recs).length := by
  rw [start, lineStart, ← List.length_append, ← Lib.unlines_append, List.take_append_drop]

/-- The file cut to its records. -/
theorem setLen_bytes : setLen t.bytes (unlines Index.newline t.recs).length = unlines Index.newline t.recs := by
  rw [setLen, bytes, List.take_left, List.length_append, Nat.sub_eq_zero_of_le (by omega)]
  exact List.append_nil _

/-- A file as long as its records has no tail. -/
theorem bytes_of_length (h : (unlines Index.newline t.recs).length = t.bytes.length) :
    t.bytes = unlines Index.newline t.recs := by
  have htail : t.tail = [] := by
    rw [bytes, List.length_append] at h
    exact List.eq_nil_of_length_eq_zero (by omega)
  rw [bytes, htail, List.append_nil]

end TornLog

/-! ## loading -/

namespace ArcLog

variable {Block : Type} {codec : Codec Block}

/-- A log whose lines are blocks. -/
abbrev Torn (codec : Codec Block) : Type :=
  TornLog fun line => (codec.fromSlice line).isSome

/-- The blocks of some records. -/
def blocks (codec : Codec Block) (recs : List (List UInt8)) : List Block :=
  recs.filterMap codec.fromSlice

/-- The file holds these records and no more, and the store knows how long it is. -/
def Holds (s : ArcLog) (recs : List (List UInt8)) : Prop :=
  ∃ f, s.file = some f ∧ f.bytes = unlines Index.newline recs ∧ s.len = f.bytes.length

/-- Appending keeps to the records. -/
theorem Holds.put {s : ArcLog} {recs : List (List UInt8)} (h : s.Holds recs) (b : Block) :
    (s.put codec b .whole).Holds (recs ++ [codec.toVec b]) := by
  obtain ⟨f, hfile, hbytes, hlen⟩ := h
  simp only [ArcLog.put, hfile]
  refine ⟨_, rfl, ?_, ?_⟩
  · rw [File.writeAll_bytes, hbytes, Lib.unlines_append]
    simp [File.landed]
  · simp [File.landed, hlen]

variable {t : Torn codec} {s : ArcLog} {f : File}

/-- **Loading from a record's start** gives the records from there on, and leaves the file at
the end of its last record. -/
theorem loadFrom_start (hfile : s.file = some f) (hbytes : f.bytes = t.bytes) {n : Nat}
    (hn : n ≤ t.recs.length) :
    (s.loadFrom codec (t.start n)).2 = .ok (blocks codec (t.recs.drop n)) ∧
      (s.loadFrom codec (t.start n)).1.Holds t.recs := by
  have hmin : min (t.start n) f.bytes.length = t.start n := by
    rw [hbytes, Nat.min_eq_left (t.start_le n)]
  have hstarts : endsARecord f.bytes (t.start n) = .ok () := by
    rw [hbytes]
    exact (t.endsARecord_iff _).mpr ⟨n, hn, rfl⟩
  have hlines : usable codec (f.bytes.drop (t.start n)) = t.recs.drop n := by
    rw [hbytes]
    exact t.leading_start n
  have hgood := t.start_add n
  have hbuf : t.start n + (f.bytes.drop (t.start n)).length = f.bytes.length := by
    have hle := t.start_le n
    rw [List.length_drop, hbytes]
    omega
  simp only [loadFrom, hfile, hmin, hstarts, hlines, hgood, hbuf]
  refine ⟨rfl, ?_⟩
  split
  · have hcut : (f.cut (unlines Index.newline t.recs).length).bytes = unlines Index.newline t.recs := by
      rw [File.cut_bytes, hbytes, t.setLen_bytes]
    exact ⟨f.cut _, by rw [cutTo, hfile]; rfl, hcut, (congrArg List.length hcut).symm⟩
  · next hsame =>
    rw [not_or, not_not, not_not] at hsame
    refine ⟨f, hfile, ?_, hsame.1.symm.trans hsame.2⟩
    rw [hbytes, t.bytes_of_length (by rw [← hbytes, hsame.2])]

/-- **Any other position is refused**, and everything stays. -/
theorem loadFrom_refused (hfile : s.file = some f) (hbytes : f.bytes = t.bytes) {at_ : Nat}
    (hle : at_ ≤ t.bytes.length) (hstart : ∀ n ≤ t.recs.length, at_ ≠ t.start n) :
    s.loadFrom codec at_ = (s, .error notABoundary) := by
  have hmin : min at_ f.bytes.length = at_ := by rw [hbytes, Nat.min_eq_left hle]
  have hrefused : endsARecord f.bytes at_ = .error notABoundary := by
    rw [hbytes, t.endsARecord_refused hstart]
  simp only [loadFrom, hfile, hmin, hrefused]

/-- A position behind the end is the end. -/
theorem loadFrom_behind (hfile : s.file = some f) {at_ : Nat} (hle : f.bytes.length ≤ at_) :
    s.loadFrom codec at_ = s.loadFrom codec f.bytes.length := by
  simp only [loadFrom, hfile, Nat.min_eq_right hle, Nat.min_self]

end ArcLog

end ClaudeReplay.Store
