import ClaudeReplay.Index.Entry
import ClaudeReplay.Lib.Lines
import Mathlib.Algebra.GroupWithZero.Nat

/-!
# ClaudeReplay.Index.Store

The store of rendered records, and the index beside it. The log holds one record a line;
the index file one entry a line, for as many records as it has caught up with. Both files
can be found cut anywhere when the store is opened again. The JSON of a line is written
and read by functions that are parameters (`Serde`).
-/

namespace ClaudeReplay.Index

open Lib (Value splitLines unlines)

/-- The newline that ends a record. -/
def newline : UInt8 := 0x0A

/-- The bytes of JSON. -/
structure Serde where
  /-- a record, read -/
  value : List UInt8 → Option Value
  /-- an entry, written -/
  line : Entry → List UInt8
  /-- an entry, read -/
  entry : List UInt8 → Option Entry
  /-- what an entry reads back as: its numbers may lose a last digit -/
  seen : Entry → Entry

/-- What is relied on: an entry is written on one line and reads back, its place is exact, and
it opens a turn if it did. -/
structure Serde.Lawful (serde : Serde) : Prop where
  oneLine : ∀ e, newline ∉ serde.line e
  reads : ∀ e, serde.entry (serde.line e) = some (serde.seen e)
  place : ∀ e, (serde.seen e).o = e.o ∧ (serde.seen e).n = e.n
  turn : ∀ e, (serde.seen e).turn.isSome = e.turn.isSome

/-- The log, and the index file if there is one. -/
structure Disk where
  log : List UInt8 := []
  side : Option (List UInt8) := none

/-- `set_len` -/
def setLen (bs : List UInt8) (len : Nat) : List UInt8 :=
  bs.take len ++ List.replicate (len - bs.length) 0

/-- `n` bytes at `o`, if they can be read. -/
def readAt (bs : List UInt8) (o n : Nat) : Option (List UInt8) :=
  if n = 0 ∨ o + n ≤ bs.length then some ((bs.drop o).take n) else none

/-! ## the index file -/

/-- How far the index file reaches: its lines, the log byte they cover through, its length. -/
structure IndexFile where
  lines : Nat := 0
  mark : Nat := 0
  bytes : Nat := 0
  deriving DecidableEq, Repr

namespace IndexFile

variable (serde : Serde)

def truncate (d : Disk) (ix : IndexFile) (len : Nat) : Disk × IndexFile :=
  ({ d with side := d.side.map (setLen · len) },
    if len = 0 then {} else { ix with bytes := len })

/-- `open`: keep what still describes the log; cut a torn line; start over if the last line
reaches past the log or its record is another now. -/
def «open» (d : Disk) (logLen : Nat) : Disk × IndexFile :=
  match d.side with
  | none => (d, {})
  | some bytes =>
    let parts := splitLines newline bytes
    let tail := (parts.1.getLast?.bind serde.entry).filter fun e =>
      decide (e.stop ≤ logLen) && (readAt d.log e.o e.n).any fun r => fingerprint r == e.h
    match tail with
    | some e =>
      let complete := (unlines newline parts.1).length
      let ix : IndexFile := { lines := parts.1.length, mark := e.stop, bytes := complete }
      if complete < bytes.length then ix.truncate d complete else (d, ix)
    | none => if bytes ≠ [] then truncate d {} 0 else (d, {})

/-- Append entries as lines; if the file is not as this store left it, start over. -/
def write (d : Disk) (ix : IndexFile) (entries : List Entry) : (Disk × IndexFile) × Bool :=
  if entries = [] then ((d, ix), true)
  else
    let out := unlines newline (entries.map serde.line)
    let side := d.side.getD []
    if side.length = ix.bytes then
      (({ d with side := some (side ++ out) },
        { lines := ix.lines + entries.length
          mark := (entries.getLast?.map Entry.stop).getD ix.mark
          bytes := ix.bytes + out.length }), true)
    else (truncate { d with side := some side } ix 0, false)

/-- The record just appended at `o`, if its entry is the next line. -/
def push (d : Disk) (ix : IndexFile) (record : Value) (o : Nat) (bytes : List UInt8) :
    Disk × IndexFile :=
  if o = ix.mark then (write serde d ix [Entry.of record o bytes]).1 else (d, ix)

/-- The lines of a file, each without its last byte. -/
def pieces (bytes : List UInt8) : List (List UInt8) :=
  let parts := splitLines newline bytes
  if parts.2 = [] then parts.1 else parts.1 ++ [parts.2.dropLast]

/-- The log was cut: drop the lines of the records at or past the cut. -/
def cutTo (d : Disk) (ix : IndexFile) (logLen : Nat) : Disk × IndexFile :=
  if ix.mark ≤ logLen then (d, ix)
  else if logLen = 0 then truncate d ix 0
  else
    match d.side with
    | none => truncate d ix 0
    | some bytes =>
      let kept := ((pieces bytes).map serde.entry).takeWhile fun e => e.any (·.stop ≤ logLen)
      let len := (((pieces bytes).take kept.length).map fun l => l.length + 1).sum
      let cut := truncate d ix len
      (cut.1, { cut.2 with
        lines := kept.length
        mark := ((kept.getLast?.bind id).map Entry.stop).getD 0 })

/-- The records from `o` on: what is indexed of them, in batches. -/
def catchLines (d : Disk) (ix : IndexFile) (o : Nat) (batch : List Entry) :
    List (List UInt8) → Disk × IndexFile
  | [] => (write serde d ix batch).1
  | l :: ls =>
    match serde.value l with
    | none => (write serde d ix batch).1
    | some record =>
      let batch := batch ++ [Entry.of record o l]
      if 512 ≤ batch.length then
        match write serde d ix batch with
        | ((d, ix), true) => catchLines d ix (o + l.length + 1) [] ls
        | (r, false) => r
      else catchLines d ix (o + l.length + 1) batch ls

/-- Index the records the file does not hold yet. -/
def catchUp (d : Disk) (ix : IndexFile) (logLen : Nat) : Disk × IndexFile :=
  if logLen ≤ ix.mark then (d, ix)
  else catchLines serde d ix ix.mark []
    (splitLines newline ((d.log.drop ix.mark).take (logLen - ix.mark))).1

/-- The lines of the file, if they are as many as it claims, each an entry, each from where the
one before ends, from the log's start to its end. -/
def checked (d : Disk) (ix : IndexFile) (logLen : Nat) : Option (List Entry) :=
  let parts := splitLines newline (d.side.getD [])
  match d.side.bind fun _ => ((parts.1 ++ [parts.2]).take ix.lines).mapM serde.entry with
  | none => none
  | some entries =>
    if entries.length = ix.lines ∧
        entries.foldlM (fun o e => if e.o = o then some e.stop else none) 0 = some logLen then
      some entries
    else none

/-- Every entry; a file that fails the check is built anew, once. -/
def entries (d : Disk) (ix : IndexFile) (logLen : Nat) : (Disk × IndexFile) × List Entry :=
  let first := catchUp serde d ix logLen
  match checked serde first.1 first.2 logLen with
  | some es => (first, es)
  | none =>
    let fresh := truncate first.1 first.2 0
    let second := catchUp serde fresh.1 fresh.2 logLen
    (second, (checked serde second.1 second.2 logLen).getD [])

end IndexFile

/-! ## the store of records -/

/-- The log of rendered records, with the index beside it. -/
structure RecordStore where
  disk : Disk := {}
  len : Nat := 0
  index : IndexFile := {}

/-- Whether a line holds exactly one complete JSON value: what the scan has come to. -/
structure Braces where
  depth : Int := 0
  inStr : Bool := false
  escaped : Bool := false
  closed : Bool := false
  merged : Bool := false

def Braces.step (s : Braces) (b : UInt8) : Braces :=
  if s.merged then s
  else if s.escaped then { s with escaped := false }
  else if s.inStr then
    if b = 0x5C then { s with escaped := true }
    else if b = 0x22 then { s with inStr := false }
    else s
  else if b = 0x22 then { s with inStr := true }
  else if b = 0x7B ∨ b = 0x5B then
    if s.closed then { s with merged := true } else { s with depth := s.depth + 1 }
  else if b = 0x7D ∨ b = 0x5D then
    { s with depth := s.depth - 1, closed := s.closed || s.depth - 1 ≤ 0 }
  else s

/-- `one_record` -/
def oneRecord (line : List UInt8) : Bool :=
  let s := line.foldl Braces.step {}
  !s.merged && s.closed && s.depth == 0 && !s.inStr && !s.escaped

/-- A record as the renderer writes it: one JSON value on one line. -/
structure Rendered (serde : Serde) where
  text : List UInt8
  value : Value
  reads : serde.value text = some value
  oneLine : newline ∉ text
  single : oneRecord text = true

namespace RecordStore

variable (serde : Serde)

/-- `open_append` -/
def openAppend (d : Disk) : RecordStore :=
  let r := IndexFile.open serde d d.log.length
  { disk := r.1, len := d.log.length, index := r.2 }

/-- Cut the log, and the index with it. -/
def cutTo (s : RecordStore) (len : Nat) : RecordStore :=
  let d := { s.disk with log := setLen s.disk.log len }
  let r := s.index.cutTo serde d len
  { disk := r.1, len, index := r.2 }

/-- `put`: append a record, and its entry if the index is level with the log. -/
def put (s : RecordStore) (rec : List UInt8) : RecordStore :=
  let d := { s.disk with log := s.disk.log ++ (rec ++ [newline]) }
  let r :=
    if s.len = s.index.mark then
      match serde.value rec with
      | some record => s.index.push serde d record s.len rec
      | none => (d, s.index)
    else (d, s.index)
  { disk := r.1, len := s.len + rec.length + 1, index := r.2 }

/-- `reset` -/
def reset (s : RecordStore) : RecordStore := s.cutTo serde 0

/-- The whole lines at the start that hold one record each. -/
def goodLines (log : List UInt8) : List (List UInt8) :=
  (splitLines newline log).1.takeWhile oneRecord

/-- `load`: walk the log; what is torn is cut. -/
def load (s : RecordStore) : RecordStore :=
  let stop := (unlines newline (goodLines s.disk.log)).length
  if stop ≠ s.len ∨ stop ≠ s.disk.log.length then s.cutTo serde stop else s

/-- `adopt`: cut the log to `n` records. -/
def adopt (s : RecordStore) (n : Nat) : RecordStore :=
  let s := s.load serde
  let ls := goodLines s.disk.log
  if n < ls.length then s.cutTo serde (unlines newline (ls.take n)).length else s

/-- `turn_index`: the reply for a boundary, after indexing what the file lacks. -/
def turnIndex (s : RecordStore) (epoch upto : Nat) : RecordStore × Value :=
  let r := s.index.entries serde s.disk s.len
  ({ s with disk := r.1.1, index := r.1.2 }, replyOf r.2 s.len epoch upto)

end RecordStore

/-! ## runs -/

/-- What happens to a store. -/
inductive Event (serde : Serde)
  | put (rec : Rendered serde)
  | adopt (n : Nat)
  | reset
  | turnIndex (epoch upto : Nat)
  /-- the process ends; what is found of the files, and then opened -/
  | restart (log side : Nat) (lost : Bool)

namespace RecordStore

variable (serde : Serde)

def step (s : RecordStore) : Event serde → RecordStore
  | .put rec => s.put serde rec.text
  | .adopt n => s.adopt serde n
  | .reset => s.reset serde
  | .turnIndex epoch upto => (s.turnIndex serde epoch upto).1
  | .restart log side lost =>
    (openAppend serde
      { log := s.disk.log.take log
        side := if lost then none else s.disk.side.map (·.take side) }).load serde

/-- The store after a run, from nothing. -/
def run (es : List (Event serde)) : RecordStore := es.foldl (step serde) {}

end RecordStore

end ClaudeReplay.Index
