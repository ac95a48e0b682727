import ClaudeReplay.Elide.Read
import ClaudeReplay.Lib.Lines
import ClaudeReplay.Lib.Utf8

/-!
# ClaudeReplay.Reader

`LineSource`, the one driver over the eliding primitive: the lines of a reader with
their offsets, blank lines and lines over the ceiling passed over, and a torn tail
left unread or yielded.

The reader is the list of buffers it will hand out. `drain_lines` says what a source
makes of a file: `handed`, which only looks at the file's lines.
-/

namespace ClaudeReplay

open Lib
open Lib.Utf8 (lossy valid)

/-! ## the source -/

/-- What to do with a last line that has no newline yet. -/
inductive TornTail
  /-- stop before it -/
  | stop
  /-- it is all there is -/
  | yield
  deriving DecidableEq, Repr

/-- The elision gauges. -/
structure ElisionCounts where
  elidedLines : Nat := 0
  elidedBytes : Nat := 0
  skippedLines : Nat := 0
  deriving DecidableEq, Repr

/-- The line source. -/
structure LineSource where
  reader : List (List UInt8)
  offset : Nat
  tail : TornTail
  policy : Elision
  lastTorn : Bool := false
  elided : ElisionCounts := {}
  deriving DecidableEq, Repr

/-- `u8::is_ascii_whitespace`. -/
def isAsciiWhitespace (b : UInt8) : Bool :=
  b == 0x20 || b == 0x09 || b == 0x0A || b == 0x0C || b == 0x0D

/-- A line without its newline, and without a carriage return before it. -/
def stripNewline (out : List UInt8) : List UInt8 :=
  let out := if out.getLast? = some newline then out.dropLast else out
  if out.getLast? = some 0x0D then out.dropLast else out

/-- `trimmed_len`. -/
def trimmedLen (out : List UInt8) : Nat :=
  (stripNewline out).countP fun c => !isAsciiWhitespace c

/-- `body`: the line without its newline, as text. -/
def LineSource.body (out : List UInt8) : List UInt8 :=
  if valid (stripNewline out) then stripNewline out else lossy (stripNewline out)

/-- The gauges of one line that is not skipped. -/
def ElisionCounts.note (c : ElisionCounts) (elided : Nat) : ElisionCounts :=
  if 0 < elided then
    { c with elidedLines := c.elidedLines + 1, elidedBytes := c.elidedBytes + elided }
  else c

/-- A line that is complete is taken from the buffers. -/
theorem readLineElided_shorter {lineStart : Nat} {policy : Elision} {r : LineRead}
    {bufs bufs' : List (List UInt8)} {rawLen elided : Nat} {skipped : Bool} {out : List UInt8}
    (h : readLineElided lineStart policy r bufs = (.complete rawLen elided skipped, out, bufs')) :
    bufs'.flatten.length < bufs.flatten.length := by
  induction bufs generalizing r with
  | nil =>
    rw [readLineElided] at h
    split at h <;> cases h
  | cons buf bufs ih =>
    rw [readLineElided] at h
    split at h
    · next i hi =>
      have hlt : i < buf.length := (List.idxOf?_eq_some_iff.mp hi).1
      simp only [Prod.mk.injEq] at h
      rw [← h.2.2]
      split
      · simp only [List.flatten_cons, List.length_append]
        omega
      · simp only [List.flatten_cons, List.length_append, List.length_drop]
        omega
    · have hrest := ih h
      simp only [List.flatten_cons, List.length_append]
      omega

theorem chunk_rawLen (r : LineRead) (lineStart : Nat) (policy : Elision) (c : List UInt8) :
    (r.chunk lineStart policy c).rawLen = r.rawLen + c.length := by
  have hscan : (r.scanChunk lineStart policy c).rawLen = r.rawLen := by
    unfold LineRead.scanChunk
    split
    · rfl
    · split
      · rfl
      · split <;> rfl
  simp only [LineRead.chunk]
  split <;> simp [hscan]

/-- A torn line is all there is, and is not empty. -/
theorem readLineElided_torn {lineStart : Nat} {policy : Elision} {r : LineRead}
    {bufs bufs' : List (List UInt8)} {rawLen : Nat} {out : List UInt8}
    (h : readLineElided lineStart policy r bufs = (.torn rawLen, out, bufs')) :
    bufs' = [] ∧ 0 < r.rawLen + bufs.flatten.length := by
  induction bufs generalizing r with
  | nil =>
    rw [readLineElided] at h
    split at h
    · simp at h
    · next hraw =>
      simp only [Prod.mk.injEq] at h
      exact ⟨h.2.2.symm, Nat.pos_of_ne_zero hraw⟩
  | cons buf bufs ih =>
    rw [readLineElided] at h
    split at h
    · simp at h
    · obtain ⟨hempty, hlen⟩ := ih h
      rw [chunk_rawLen] at hlen
      refine ⟨hempty, ?_⟩
      rw [List.flatten_cons, List.length_append]
      omega

namespace LineSource

/-- `new`. -/
def new (reader : List (List UInt8)) (at_ : Nat) (tail : TornTail) (policy : Elision) :
    LineSource := { reader, offset := at_, tail, policy }

/-- `next`: the next line that is not blank, with the offset it starts at. -/
def next (s : LineSource) : Option (Nat × List UInt8) × LineSource :=
  match _h : readLineElided s.offset s.policy .init s.reader with
  | (.eof, _, reader) => (none, { s with reader, lastTorn := false })
  | (.torn rawLen, out, reader) =>
    match s.tail with
    | .stop => (none, { s with reader, lastTorn := false })
    | .yield =>
      (some (s.offset, body out),
        { s with reader, lastTorn := true, offset := s.offset + rawLen })
  | (.complete rawLen elided skipped, out, reader) =>
    let s' := { s with reader, lastTorn := false, offset := s.offset + rawLen }
    if skipped then
      next { s' with elided := { s.elided with skippedLines := s.elided.skippedLines + 1 } }
    else
      let s' := { s' with elided := s.elided.note elided }
      if trimmedLen out = 0 then next s' else (some (s.offset, body out), s')
termination_by s.reader.flatten.length
decreasing_by
  all_goals exact readLineElided_shorter _h

/-- `rewind_to_cursor`: the reader hands out the file from the offset on. -/
def rewindToCursor (s : LineSource) (reader : List (List UInt8)) : LineSource :=
  { s with reader }

/-- A line that is yielded is taken from the buffers. -/
theorem next_shorter {s s' : LineSource} {l : Nat × List UInt8} (h : s.next = (some l, s')) :
    s'.reader.flatten.length < s.reader.flatten.length := by
  fun_induction next s with
  | case1 => simp at h
  | case2 => simp at h
  | case3 s rawLen out reader hread htail =>
    obtain ⟨hempty, hlen⟩ := readLineElided_torn hread
    rw [← (Prod.mk.inj h).2]
    simp only [hempty, List.flatten_nil, List.length_nil]
    exact Nat.lt_of_lt_of_eq hlen (Nat.zero_add _)
  | case4 s rawLen elided out reader s₁ hread ih =>
    exact Nat.lt_trans (ih h) (readLineElided_shorter hread)
  | case5 s rawLen elided skipped out reader hread s₁ hskip s₂ hblank ih =>
    exact Nat.lt_trans (ih h) (readLineElided_shorter hread)
  | case6 s rawLen elided skipped out reader hread s₁ hskip s₂ hblank =>
    rw [← (Prod.mk.inj h).2]
    exact readLineElided_shorter hread

/-- The loop of every consumer: the lines up to the end, or to a tail that stops it. -/
def drain (s : LineSource) : List (Nat × List UInt8) × LineSource :=
  match _h : s.next with
  | (none, s') => ([], s')
  | (some l, s') =>
    let (lines, s'') := drain s'
    (l :: lines, s'')
termination_by s.reader.flatten.length
decreasing_by exact next_shorter _h

end LineSource

/-! ## a file, line by line -/

section File

variable (policy : Elision)

/-- A line of the file is handed out: it is not over the ceiling once it is read, and
not blank. -/
def handedOut (off : Nat) (l : List UInt8) : Bool :=
  decide ((lineOut off policy (l ++ [newline])).length ≤ elideCeiling) &&
    trimmedLen (lineOut off policy (l ++ [newline])) != 0

/-- The lines of a file that are handed out, each as it is read, with its offset. -/
def handed (off : Nat) : List (List UInt8) → List (Nat × List UInt8)
  | [] => []
  | l :: ls =>
    (if handedOut policy off l then
      [(off, LineSource.body (lineOut off policy (l ++ [newline])))] else []) ++
      handed (off + l.length + 1) ls

/-- The gauges after one line. -/
def gauge (off : Nat) (c : ElisionCounts) (l : List UInt8) : ElisionCounts :=
  if (lineOut off policy (l ++ [newline])).length ≤ elideCeiling then
    c.note (lineElided off policy (l ++ [newline]))
  else { c with skippedLines := c.skippedLines + 1 }

/-- The gauges after the lines of a file. -/
def gauges (off : Nat) (c : ElisionCounts) : List (List UInt8) → ElisionCounts
  | [] => c
  | l :: ls => gauges (off + l.length + 1) (gauge policy off c l) ls

theorem handed_append (off : Nat) (ls ms : List (List UInt8)) :
    handed policy off (ls ++ ms) =
      handed policy off ls ++ handed policy (off + (unlines newline ls).length) ms := by
  induction ls generalizing off with
  | nil => rfl
  | cons l ls ih =>
    simp only [List.cons_append, handed, ih, unlines_cons, List.length_append, List.length_cons,
      List.append_assoc]
    have hoff : off + l.length + 1 + (unlines newline ls).length =
        off + (l.length + ((unlines newline ls).length + 1)) := by omega
    rw [hoff]

theorem gauges_append (off : Nat) (c : ElisionCounts) (ls ms : List (List UInt8)) :
    gauges policy off c (ls ++ ms) =
      gauges policy (off + (unlines newline ls).length) (gauges policy off c ls) ms := by
  induction ls generalizing off c with
  | nil => rfl
  | cons l ls ih =>
    simp only [List.cons_append, gauges, ih, unlines_cons, List.length_append, List.length_cons]
    have hoff : off + l.length + 1 + (unlines newline ls).length =
        off + (l.length + ((unlines newline ls).length + 1)) := by omega
    rw [hoff]

end File

namespace LineSource

theorem drain_of_next {s s' : LineSource} (h : s.next = s'.next) : s.drain = s'.drain := by
  rw [drain, drain.eq_def s', h]

theorem drain_some {s s' : LineSource} {l : Nat × List UInt8} (h : s.next = (some l, s')) :
    s.drain = (l :: s'.drain.1, s'.drain.2) := by
  rw [drain]
  split
  · next h' =>
    rw [h] at h'
    simp at h'
  · next h' =>
    rw [h] at h'
    simp only [Prod.mk.injEq, Option.some.injEq] at h'
    rw [h'.1, h'.2]

theorem drain_none {s s' : LineSource} (h : s.next = (none, s')) : s.drain = ([], s') := by
  rw [drain]
  split
  · next h' =>
    rw [h] at h'
    simp only [Prod.mk.injEq, true_and] at h'
    rw [h']
  · next h' =>
    rw [h] at h'
    simp at h'

/-- The source behind one line of the file. -/
def pastLine (s : LineSource) (reader : List (List UInt8)) (l : List UInt8) : LineSource :=
  { s with
    reader
    lastTorn := false
    offset := s.offset + (l.length + 1)
    elided := gauge s.policy s.offset s.elided l }

/-- A complete line is skipped, passed over or yielded. -/
theorem next_complete {s : LineSource} {rawLen elided : Nat} {skipped : Bool} {out : List UInt8}
    {reader : List (List UInt8)}
    (h : readLineElided s.offset s.policy .init s.reader =
      (.complete rawLen elided skipped, out, reader)) :
    s.next =
      if skipped then
        next { s with
          reader
          lastTorn := false
          offset := s.offset + rawLen
          elided := { s.elided with skippedLines := s.elided.skippedLines + 1 } }
      else if trimmedLen out = 0 then
        next { s with
          reader
          lastTorn := false
          offset := s.offset + rawLen
          elided := s.elided.note elided }
      else
        (some (s.offset, body out), { s with
          reader
          lastTorn := false
          offset := s.offset + rawLen
          elided := s.elided.note elided }) := by
  rw [next]
  split
  · next h' =>
    rw [h] at h'
    simp at h'
  · next h' =>
    rw [h] at h'
    simp at h'
  · next h' =>
    rw [h] at h'
    simp only [Prod.mk.injEq, LineOutcome.complete.injEq] at h'
    obtain ⟨⟨rfl, rfl, rfl⟩, rfl, rfl⟩ := h'
    rfl

/-- A line that is not skipped and not blank is yielded. -/
theorem next_line {s : LineSource} {l rest : List UInt8} (hl : newline ∉ l)
    (hread : s.reader.flatten = l ++ newline :: rest)
    (hfits : (lineOut s.offset s.policy (l ++ [newline])).length ≤ elideCeiling)
    (hblank : trimmedLen (lineOut s.offset s.policy (l ++ [newline])) ≠ 0) :
    ∃ s', s.next = (some (s.offset, body (lineOut s.offset s.policy (l ++ [newline]))), s') := by
  obtain ⟨reader, -, ⟨-, hline⟩ | ⟨hover, -⟩⟩ := readLine_eq s.offset s.policy hl hread
  · have hnext := next_complete hline
    rw [if_neg Bool.false_ne_true, if_neg hblank] at hnext
    exact ⟨_, hnext⟩
  · omega

/-- A last line without a newline is yielded, if the source is to and no string is
left open. -/
theorem next_torn {s : LineSource} {l : List UInt8} (hl : newline ∉ l) (hne : l ≠ [])
    (hread : s.reader.flatten = l) (htail : s.tail = .yield)
    (hfits : (lineOut s.offset s.policy l).length ≤ elideCeiling)
    (hclosed : (scanned s.offset s.policy l).1.inString = false) :
    ∃ s', s.next = (some (s.offset, body (lineOut s.offset s.policy l)), s') := by
  obtain ⟨r, hr, hline⟩ := readLine_torn (read_init s.offset s.policy) (hread ▸ hl)
  rw [hread, List.nil_append] at hr
  have hraw : r.rawLen ≠ 0 := by
    rw [hr.rawLen]
    exact fun h => hne (List.length_eq_zero_iff.mp h)
  have hkept : r.skipped = false := by
    cases hs : r.skipped with
    | false => rfl
    | true =>
      have := (hr.skips hs).2
      omega
  -- nothing is flushed of a line without an open string
  have hfinish : (r.elider.map Elider.finish).getD [] = [] := by
    by_cases hshort : l.length ≤ scanThreshold
    · rw [(hr.short hkept hshort).1]
      rfl
    · rw [(hr.long hkept (Nat.lt_of_not_le hshort)).1]
      simp [Elider.finish, hclosed]
  rw [if_neg hraw, hfinish, List.append_nil, (hr.kept hkept).1] at hline
  rw [next]
  split
  · next h' =>
    rw [hline] at h'
    simp at h'
  · next h' =>
    rw [hline] at h'
    simp only [Prod.mk.injEq] at h'
    rw [htail, ← h'.2.1]
    exact ⟨_, rfl⟩
  · next h' =>
    rw [hline] at h'
    simp at h'

/-- One line of a file under `next`: it is handed out, or the source goes on behind it. -/
theorem next_of_line {s : LineSource} {l rest : List UInt8} (hl : newline ∉ l)
    (hread : s.reader.flatten = l ++ newline :: rest) :
    ∃ reader, reader.flatten = rest ∧ s.next =
      if handedOut s.policy s.offset l then
        (some (s.offset, body (lineOut s.offset s.policy (l ++ [newline]))), s.pastLine reader l)
      else (s.pastLine reader l).next := by
  obtain ⟨reader, hrest, ⟨hfits, hline⟩ | ⟨hover, n, hline⟩⟩ :=
    readLine_eq s.offset s.policy hl hread
  · have hnext := next_complete hline
    rw [if_neg Bool.false_ne_true] at hnext
    refine ⟨reader, hrest, ?_⟩
    by_cases hblank : trimmedLen (lineOut s.offset s.policy (l ++ [newline])) = 0
    · rw [if_pos hblank] at hnext
      simp [hnext, handedOut, hblank, pastLine, gauge, hfits]
    · rw [if_neg hblank] at hnext
      simp [hnext, handedOut, hblank, pastLine, gauge, hfits]
  · have hnext := next_complete hline
    rw [if_pos rfl] at hnext
    refine ⟨reader, hrest, ?_⟩
    simp [hnext, handedOut, pastLine, gauge, Nat.not_le_of_lt hover]

/-- **One line of a file.** -/
theorem drain_line {s : LineSource} {l rest : List UInt8} (hl : newline ∉ l)
    (hread : s.reader.flatten = l ++ newline :: rest) :
    ∃ reader, reader.flatten = rest ∧ s.drain =
      ((if handedOut s.policy s.offset l then
          [(s.offset, body (lineOut s.offset s.policy (l ++ [newline])))] else []) ++
        (s.pastLine reader l).drain.1, (s.pastLine reader l).drain.2) := by
  obtain ⟨reader, hrest, hnext⟩ := next_of_line hl hread
  refine ⟨reader, hrest, ?_⟩
  by_cases hout : handedOut s.policy s.offset l
  · rw [if_pos hout] at hnext
    simp [drain_some hnext, hout]
  · rw [if_neg hout] at hnext
    simp [drain_of_next hnext, hout]

/-- The end of a file: nothing, or a torn line that stops the source. -/
theorem next_end {s : LineSource} (ht : newline ∉ s.reader.flatten)
    (hstop : s.tail = .stop ∨ s.reader.flatten = []) :
    ∃ reader, s.next = (none, { s with reader, lastTorn := false }) := by
  obtain ⟨r, hr, hline⟩ := readLine_torn (read_init s.offset s.policy) ht
  refine ⟨[], ?_⟩
  by_cases hraw : r.rawLen = 0
  · rw [if_pos hraw] at hline
    rw [next]
    split
    · next h' =>
      rw [hline] at h'
      simp only [Prod.mk.injEq] at h'
      rw [← h'.2.2]
    · next h' =>
      rw [hline] at h'
      simp at h'
    · next h' =>
      rw [hline] at h'
      simp at h'
  · have hstop' : s.tail = .stop := by
      refine hstop.resolve_right fun hempty => hraw ?_
      rw [hr.rawLen, hempty]
      rfl
    rw [if_neg hraw] at hline
    rw [next]
    split
    · next h' =>
      rw [hline] at h'
      simp at h'
    · next h' =>
      rw [hline] at h'
      simp only [Prod.mk.injEq] at h'
      rw [hstop', ← h'.2.2]
    · next h' =>
      rw [hline] at h'
      simp at h'

theorem drain_end {s : LineSource} (ht : newline ∉ s.reader.flatten)
    (hstop : s.tail = .stop ∨ s.reader.flatten = []) :
    ∃ reader, s.drain = ([], { s with reader, lastTorn := false }) := by
  obtain ⟨reader, hnext⟩ := next_end ht hstop
  exact ⟨reader, drain_none hnext⟩

/-- **What a source makes of a file**, whatever chunks it is read in. -/
theorem drain_lines {s : LineSource} {ls : List (List UInt8)} {t : List UInt8}
    (hls : ∀ l ∈ ls, newline ∉ l) (ht : newline ∉ t) (hstop : s.tail = .stop ∨ t = [])
    (hread : s.reader.flatten = unlines newline ls ++ t) :
    s.drain.1 = handed s.policy s.offset ls ∧
      s.drain.2.offset = s.offset + (unlines newline ls).length ∧
      s.drain.2.elided = gauges s.policy s.offset s.elided ls ∧
      s.drain.2.policy = s.policy ∧ s.drain.2.tail = s.tail := by
  induction ls generalizing s with
  | nil =>
    rw [unlines_nil, List.nil_append] at hread
    obtain ⟨reader, hdrain⟩ := drain_end (hread ▸ ht) (hread ▸ hstop)
    rw [hdrain]
    exact ⟨rfl, rfl, rfl, rfl, rfl⟩
  | cons l ls ih =>
    rw [unlines_cons, List.append_assoc, List.cons_append] at hread
    obtain ⟨reader, hrest, hdrain⟩ := drain_line (hls l List.mem_cons_self) hread
    obtain ⟨hlines, hoff, hel, hpolicy, htail⟩ := ih (s := s.pastLine reader l)
      (fun m hm => hls m (List.mem_cons_of_mem _ hm)) hstop hrest
    rw [hdrain]
    refine ⟨?_, ?_, hel, hpolicy, htail⟩
    · rw [hlines]
      rfl
    · rw [hoff, unlines_cons, List.length_append, List.length_cons, pastLine]
      dsimp only
      omega

end LineSource

end ClaudeReplay
