import ClaudeReplay.Store.ArcLog

/-!
# ClaudeReplay.Store.RecordLog

The store of rendered records, loaded from the middle.

Where the block store hands back blocks, this one hands back locators, the ones `put` gave when
it wrote the records. Both walk a log's lines from a record's start and cut what they do not
come over; the walk here asks of a line that it holds one JSON value.
-/

namespace ClaudeReplay.Store

open Index (setLen Serde RecordStore oneRecord)
open Lib (unlines leading)

/-- Where a record stands in the log: `log[offset .. offset + len]`. -/
structure RecordLocator where
  offset : Nat
  len : UInt32
  deriving DecidableEq, Repr

namespace RecordLog

variable (serde : Serde)

/-- The locator `put` hands back for a record. -/
def locator (s : RecordStore) (rec_ : List UInt8) : RecordLocator :=
  { offset := s.len, len := .ofNat rec_.length }

/-- The locators of the lines of a walk that is at `at_`: `line.len() as u32 - 1`. -/
def locators (at_ : Nat) : List (List UInt8) → List RecordLocator
  | [] => []
  | l :: ls =>
    { offset := at_, len := .ofNat (l.length + 1) - 1 } :: locators (at_ + (l.length + 1)) ls

/-- `load_from`: the locators from a byte on. What the walk did not come over is cut. -/
def loadFrom (s : RecordStore) (from_ : Nat) :
    RecordStore × Except IoError (List RecordLocator) :=
  let from_ := min from_ s.disk.log.length
  match endsARecord s.disk.log from_ with
  | .error e => (s, .error e)
  | .ok () =>
    let buf := s.disk.log.drop from_
    let lines := leading Index.newline oneRecord buf
    let at_ := from_ + (unlines Index.newline lines).length
    (if at_ ≠ s.len ∨ at_ ≠ from_ + buf.length then s.cutTo serde at_ else s,
      .ok (locators from_ lines))

theorem locators_append (at_ : Nat) (ls ms : List (List UInt8)) :
    locators at_ (ls ++ ms) =
      locators at_ ls ++ locators (at_ + (unlines Index.newline ls).length) ms := by
  induction ls generalizing at_ with
  | nil => rfl
  | cons l ls ih =>
    have hlen : at_ + (l.length + 1) + (unlines Index.newline ls).length =
        at_ + (unlines Index.newline (l :: ls)).length := by
      rw [Lib.unlines_cons, List.length_append, List.length_cons]
      omega
    rw [List.cons_append, locators, ih, hlen]
    rfl

/-- A walk that comes to a record at the end of the log gives the locator `put` gave. -/
theorem locators_put (s : RecordStore) (rec_ : List UInt8) :
    locators s.len [rec_] = [locator s rec_] := by
  have hlen : UInt32.ofNat (rec_.length + 1) - 1 = UInt32.ofNat rec_.length := by
    rw [UInt32.ofNat_add]
    exact UInt32.add_sub_cancel _ _
  rw [locators, locators, hlen]
  rfl

/-! ## the index leaves the log alone -/

theorem write_log (d : Index.Disk) (ix : Index.IndexFile) (entries : List Index.Entry) :
    (ix.write serde d entries).1.1.log = d.log := by
  unfold Index.IndexFile.write
  split
  · rfl
  · dsimp only
    split <;> rfl

theorem push_log (d : Index.Disk) (ix : Index.IndexFile) (record : Lib.Value) (o : Nat)
    (bytes : List UInt8) : (ix.push serde d record o bytes).1.log = d.log := by
  unfold Index.IndexFile.push
  split
  · exact write_log serde d ix _
  · rfl

theorem index_cutTo_log (d : Index.Disk) (ix : Index.IndexFile) (len : Nat) :
    (ix.cutTo serde d len).1.log = d.log := by
  unfold Index.IndexFile.cutTo
  split
  · rfl
  · split
    · rfl
    · split <;> rfl

@[simp] theorem put_log (s : RecordStore) (rec_ : List UInt8) :
    (s.put serde rec_).disk.log = s.disk.log ++ (rec_ ++ [Index.newline]) := by
  unfold RecordStore.put
  dsimp only
  split
  · split
    · exact push_log serde _ _ _ _ _
    · rfl
  · rfl

@[simp] theorem put_len (s : RecordStore) (rec_ : List UInt8) :
    (s.put serde rec_).len = s.len + rec_.length + 1 := rfl

@[simp] theorem cutTo_log (s : RecordStore) (len : Nat) :
    (s.cutTo serde len).disk.log = setLen s.disk.log len := index_cutTo_log serde _ _ _

@[simp] theorem cutTo_len (s : RecordStore) (len : Nat) : (s.cutTo serde len).len = len := rfl

/-! ## loading -/

/-- The log holds these records and no more, and the store knows how long it is. -/
structure Holds (s : RecordStore) (recs : List (List UInt8)) : Prop where
  log : s.disk.log = unlines Index.newline recs
  len : s.len = s.disk.log.length

variable {serde}

/-- Appending keeps to the records, and hands back the record's locator. -/
theorem Holds.put {s : RecordStore} {recs : List (List UInt8)} (h : Holds s recs)
    (rec_ : List UInt8) : Holds (s.put serde rec_) (recs ++ [rec_]) ∧
      locators 0 (recs ++ [rec_]) = locators 0 recs ++ [locator s rec_] := by
  have hend : 0 + (unlines Index.newline recs).length = s.len := by rw [h.len, h.log, Nat.zero_add]
  refine ⟨⟨?_, ?_⟩, ?_⟩
  · rw [put_log, h.log, Lib.unlines_append]
    simp
  · rw [put_len, put_log, h.len]
    simp
    omega
  · rw [locators_append, hend, locators_put]

variable {t : TornLog oneRecord} {s : RecordStore}

/-- **Loading from a record's start** gives the locators from there on, and leaves the file at
the end of its last record. -/
theorem loadFrom_start (hlog : s.disk.log = t.bytes) {n : Nat} (hn : n ≤ t.recs.length) :
    (loadFrom serde s (t.start n)).2 = .ok (locators (t.start n) (t.recs.drop n)) ∧
      Holds (loadFrom serde s (t.start n)).1 t.recs := by
  have hmin : min (t.start n) s.disk.log.length = t.start n := by
    rw [hlog, Nat.min_eq_left (t.start_le n)]
  have hstarts : endsARecord s.disk.log (t.start n) = .ok () := by
    rw [hlog]
    exact (t.endsARecord_iff _).mpr ⟨n, hn, rfl⟩
  have hlines : leading Index.newline oneRecord (s.disk.log.drop (t.start n)) = t.recs.drop n := by
    rw [hlog, t.leading_start]
  have hgood := t.start_add n
  have hbuf : t.start n + (s.disk.log.drop (t.start n)).length = s.disk.log.length := by
    have hle := t.start_le n
    rw [List.length_drop, hlog]
    omega
  simp only [loadFrom, hmin, hstarts, hlines, hgood, hbuf]
  refine ⟨trivial, ?_⟩
  split
  · have hcut : setLen s.disk.log (unlines Index.newline t.recs).length = unlines Index.newline t.recs := by
      rw [hlog, t.setLen_bytes]
    exact ⟨by rw [cutTo_log, hcut], by rw [cutTo_log, hcut, cutTo_len]⟩
  · next hsame =>
    rw [not_or, not_not, not_not] at hsame
    exact ⟨by rw [hlog, t.bytes_of_length (by rw [← hlog, hsame.2])],
      hsame.1.symm.trans hsame.2⟩

/-- **Any other position is refused**, and everything stays. -/
theorem loadFrom_refused (hlog : s.disk.log = t.bytes) {at_ : Nat} (hle : at_ ≤ t.bytes.length)
    (hstart : ∀ n ≤ t.recs.length, at_ ≠ t.start n) :
    loadFrom serde s at_ = (s, .error notABoundary) := by
  simp only [loadFrom, hlog, Nat.min_eq_left hle, t.endsARecord_refused hstart]

/-- A position behind the end is the end. -/
theorem loadFrom_behind {at_ : Nat} (hle : s.disk.log.length ≤ at_) :
    loadFrom serde s at_ = loadFrom serde s s.disk.log.length := by
  simp only [loadFrom, Nat.min_eq_right hle, Nat.min_self]

end RecordLog

/-! ## both stores -/

section

open ArcLog (blocks Torn)
open RecordLog (locators locator)

/-- **A reload splits cleanly.** A log of whole records with a torn tail, loaded from where a
record starts or the last one ends, gives the records from there on, so that what is above and
what is below make the whole load; the file is left at the end of its last record, as long as
the store takes it to be, and what is put next is the next record. Any other position in the
file is refused and everything stays; one behind the end is the end. -/
theorem loadFrom_splits :
    (∀ {Block : Type} (codec : Codec Block) (t : Torn codec) (s : ArcLog) (f : File),
      s.file = some f → f.bytes = t.bytes →
        (∀ n ≤ t.recs.length,
          (s.loadFrom codec (t.start n)).2 = .ok (blocks codec (t.recs.drop n)) ∧
          (s.load codec).2 =
            .ok (blocks codec (t.recs.take n) ++ blocks codec (t.recs.drop n)) ∧
          (s.loadFrom codec (t.start n)).1.Holds t.recs ∧
          ∀ b, ((s.loadFrom codec (t.start n)).1.put codec b .whole).Holds
            (t.recs ++ [codec.toVec b])) ∧
        (∀ at_ ≤ t.bytes.length, (∀ n ≤ t.recs.length, at_ ≠ t.start n) →
          s.loadFrom codec at_ = (s, .error notABoundary)) ∧
        (∀ at_ ≥ t.bytes.length, s.loadFrom codec at_ = s.loadFrom codec t.bytes.length)) ∧
    (∀ (serde : Serde) (t : TornLog oneRecord) (s : RecordStore), s.disk.log = t.bytes →
        (∀ n ≤ t.recs.length,
          (RecordLog.loadFrom serde s (t.start n)).2 =
            .ok (locators (t.start n) (t.recs.drop n)) ∧
          (RecordLog.loadFrom serde s 0).2 =
            .ok (locators 0 (t.recs.take n) ++ locators (t.start n) (t.recs.drop n)) ∧
          RecordLog.Holds (RecordLog.loadFrom serde s (t.start n)).1 t.recs ∧
          ∀ rec_, RecordLog.Holds ((RecordLog.loadFrom serde s (t.start n)).1.put serde rec_)
            (t.recs ++ [rec_]) ∧
            locators 0 (t.recs ++ [rec_]) = locators 0 t.recs ++
              [locator (RecordLog.loadFrom serde s (t.start n)).1 rec_]) ∧
        (∀ at_ ≤ t.bytes.length, (∀ n ≤ t.recs.length, at_ ≠ t.start n) →
          RecordLog.loadFrom serde s at_ = (s, .error notABoundary)) ∧
        (∀ at_ ≥ t.bytes.length,
          RecordLog.loadFrom serde s at_ = RecordLog.loadFrom serde s t.bytes.length)) := by
  constructor
  · intro Block codec t s f hfile hbytes
    refine ⟨fun n hn => ?_, fun at_ => ArcLog.loadFrom_refused hfile hbytes, fun at_ hat => ?_⟩
    · obtain ⟨hblocks, hholds⟩ := ArcLog.loadFrom_start hfile hbytes hn
      refine ⟨hblocks, ?_, hholds, fun b => hholds.put b⟩
      rw [blocks, blocks, ← List.filterMap_append, List.take_append_drop]
      exact (ArcLog.loadFrom_start hfile hbytes (Nat.zero_le _)).1
    · rw [← hbytes] at hat ⊢
      exact ArcLog.loadFrom_behind hfile hat
  · intro serde t s hlog
    refine ⟨fun n hn => ?_, fun at_ => RecordLog.loadFrom_refused hlog, fun at_ hat => ?_⟩
    · obtain ⟨hlocators, hholds⟩ := @RecordLog.loadFrom_start serde _ _ hlog _ hn
      refine ⟨hlocators, ?_, hholds, fun rec_ => hholds.put rec_⟩
      have hstart : 0 + (unlines Index.newline (t.recs.take n)).length = t.start n := Nat.zero_add _
      rw [← hstart, ← RecordLog.locators_append, List.take_append_drop]
      exact (@RecordLog.loadFrom_start serde _ _ hlog _ (Nat.zero_le _)).1
    · rw [← hlog] at hat ⊢
      exact RecordLog.loadFrom_behind hat

/-- Two lines of one record each and the start of a third, loaded from the second. -/
theorem loadFrom_splits_second :
    let text : List UInt8 := "\x7b\"UserText\":\"a\"\x7d".toUTF8.data.toList
    let codec : Codec String :=
      { toVec := fun b => ("\x7b\"UserText\":\"" ++ b ++ "\"\x7d").toUTF8.data.toList
        fromSlice := fun line => if line = text then some "a" else none }
    (∃ t : Torn codec, t.recs = [text, text] ∧ t.tail = [0x7B] ∧
      ((ArcLog.openAppend t.bytes).loadFrom codec (t.start 1)).2 =
        .ok (blocks codec (t.recs.drop 1))) ∧
    ∃ t : TornLog oneRecord, t.recs = [text, text] ∧ t.tail = [0x7B] ∧
      ∀ serde : Serde, (RecordLog.loadFrom serde { disk := { log := t.bytes } } (t.start 1)).2 =
        .ok (locators (t.start 1) (t.recs.drop 1)) := by
  intro text codec
  have hline : ∀ r ∈ [text, text], Index.newline ∉ r := by decide +kernel
  have htorn : Index.newline ∉ ([0x7B] : List UInt8) := by decide
  constructor
  · let t : Torn codec := ⟨[text, text], [0x7B], hline, by decide +kernel, htorn⟩
    exact ⟨t, rfl, rfl, ((loadFrom_splits.1 codec t _ _ rfl rfl).1 1 (show 1 ≤ 2 by decide)).1⟩
  · let t : TornLog oneRecord := ⟨[text, text], [0x7B], hline, by decide +kernel, htorn⟩
    exact ⟨t, rfl, rfl, fun serde =>
      ((loadFrom_splits.2 serde t _ rfl).1 1 (show 1 ≤ 2 by decide)).1⟩

end

end ClaudeReplay.Store
