import ClaudeReplay.Elide.Scan
import ClaudeReplay.Lib.Cut

/-!
# ClaudeReplay.Elide.Read

One line through `read_line_elided`, whatever chunks the reader hands it out in. The
verbatim bytes are fed to the filter again once the line turns out long, so what is
read does not depend on where the chunks end: `Read` says what the loop holds after
some bytes of a line, `Read.chunk` that a chunk keeps it, and `readLine_complete` what
a whole line comes to.
-/

namespace ClaudeReplay

open Lib (quote)

/-- The filter over some bytes of a line, from its start. -/
def scanned (lineStart : Nat) (policy : Elision) (bs : List UInt8) : Elider × List UInt8 :=
  (Elider.new lineStart policy).feed bs

theorem scanned_append (lineStart : Nat) (policy : Elision) (xs ys : List UInt8) :
    scanned lineStart policy (xs ++ ys) =
      (((scanned lineStart policy xs).1.feed ys).1,
        (scanned lineStart policy xs).2 ++ ((scanned lineStart policy xs).1.feed ys).2) :=
  feed_append _ xs ys

/-- What the loop of a read holds after some bytes of the line. -/
structure Read (lineStart : Nat) (policy : Elision) (bs : List UInt8) (r : LineRead) : Prop where
  rawLen : r.rawLen = bs.length
  short : r.skipped = false → bs.length ≤ scanThreshold → r.elider = none ∧ r.out = bs
  long : r.skipped = false → scanThreshold < bs.length →
    r.elider = some (scanned lineStart policy bs).1 ∧ r.out = (scanned lineStart policy bs).2
  bounded : r.skipped = false → r.out.length ≤ elideCeiling
  lost : r.skipped = true → r.out = [] ∧ scanThreshold < bs.length ∧
    elideCeiling < (scanned lineStart policy bs).2.length

theorem read_init (lineStart : Nat) (policy : Elision) : Read lineStart policy [] .init where
  rawLen := rfl
  short _ _ := ⟨rfl, rfl⟩
  long _ h := absurd h (by decide)
  bounded _ := Nat.zero_le _
  lost h := absurd h (by decide)

/-- The filter, or the copy, over one chunk more. -/
theorem Read.scanChunk {lineStart : Nat} {policy : Elision} {bs c : List UInt8} {r : LineRead}
    (h : Read lineStart policy bs r) (hs : r.skipped = false) :
    (r.scanChunk lineStart policy c).skipped = false ∧
      (r.scanChunk lineStart policy c).rawLen = bs.length ∧
      ((bs ++ c).length ≤ scanThreshold → (r.scanChunk lineStart policy c).elider = none ∧
        (r.scanChunk lineStart policy c).out = bs ++ c) ∧
      (scanThreshold < (bs ++ c).length →
        (r.scanChunk lineStart policy c).elider = some (scanned lineStart policy (bs ++ c)).1 ∧
        (r.scanChunk lineStart policy c).out = (scanned lineStart policy (bs ++ c)).2) := by
  rw [scanned_append]
  have hlen : (bs ++ c).length = bs.length + c.length := List.length_append
  unfold LineRead.scanChunk
  rw [if_neg (by simp [hs])]
  by_cases hbs : bs.length ≤ scanThreshold
  · obtain ⟨he, ho⟩ := h.short hs hbs
    rw [he]
    dsimp only
    by_cases hc : scanThreshold < r.rawLen + c.length
    · rw [if_pos hc]
      rw [h.rawLen] at hc
      refine ⟨hs, h.rawLen, fun hle => ?_, fun _ => ?_⟩
      · omega
      · rw [ho]
        exact ⟨rfl, rfl⟩
    · rw [if_neg hc]
      rw [h.rawLen] at hc
      refine ⟨hs, h.rawLen, fun _ => ⟨rfl, by rw [ho]⟩, fun hlt => ?_⟩
      omega
  · obtain ⟨he, ho⟩ := h.long hs (Nat.lt_of_not_le hbs)
    rw [he]
    refine ⟨hs, h.rawLen, fun hle => ?_, fun _ => ⟨rfl, by rw [ho]⟩⟩
    omega

/-- **A chunk of the line.** -/
theorem Read.chunk {lineStart : Nat} {policy : Elision} {bs : List UInt8} {r : LineRead}
    (h : Read lineStart policy bs r) (c : List UInt8) :
    Read lineStart policy (bs ++ c) (r.chunk lineStart policy c) := by
  have hlen : (bs ++ c).length = bs.length + c.length := List.length_append
  cases hs : r.skipped with
  | true =>
    obtain ⟨hout, hlong, hmany⟩ := h.lost hs
    have hchunk : r.chunk lineStart policy c = { r with rawLen := r.rawLen + c.length } := by
      simp [LineRead.chunk, LineRead.scanChunk, hs]
    rw [hchunk]
    refine ⟨by rw [hlen, ← h.rawLen], fun h' => ?_, fun h' => ?_, fun h' => ?_, fun _ => ?_⟩
    · simp [hs] at h'
    · simp [hs] at h'
    · simp [hs] at h'
    · refine ⟨hout, by omega, ?_⟩
      rw [scanned_append, List.length_append]
      omega
  | false =>
    obtain ⟨hskip, hraw, hshort, hlong⟩ := h.scanChunk (c := c) hs
    by_cases hbig : elideCeiling < (r.scanChunk lineStart policy c).out.length
    · have hchunk : r.chunk lineStart policy c = { r.scanChunk lineStart policy c with
          rawLen := bs.length + c.length, out := [], skipped := true } := by
        simp [LineRead.chunk, hskip, hbig, hraw]
      have hover : scanThreshold < (bs ++ c).length := by
        by_contra hle
        have hbounds : scanThreshold < elideCeiling := by decide
        rw [(hshort (Nat.le_of_not_lt hle)).2] at hbig
        omega
      rw [hchunk]
      refine ⟨hlen.symm, fun h' => ?_, fun h' => ?_, fun h' => ?_, fun _ => ?_⟩
      · simp at h'
      · simp at h'
      · simp at h'
      · rw [(hlong hover).2] at hbig
        exact ⟨rfl, hover, hbig⟩
    · have hchunk : r.chunk lineStart policy c = { r.scanChunk lineStart policy c with
          rawLen := bs.length + c.length } := by
        simp [LineRead.chunk, hskip, hbig, hraw]
      rw [hchunk]
      refine ⟨hlen.symm, fun _ => hshort, fun _ => hlong, fun _ => Nat.le_of_not_lt hbig,
        fun h' => ?_⟩
      simp [hskip] at h'

/-- A list with a newline has a first one. -/
theorem idxOf?_newline {buf : List UInt8} {i : Nat} (h : buf.idxOf? newline = some i) :
    ∃ pre post, buf = pre ++ newline :: post ∧ pre.length = i ∧ newline ∉ pre := by
  obtain ⟨hi, heq, hbefore⟩ := List.idxOf?_eq_some_iff.mp h
  refine ⟨buf.take i, buf.drop (i + 1), ?_, ?_, fun hmem => ?_⟩
  · rw [← heq, List.getElem_cons_drop, List.take_append_drop]
  · rw [List.length_take]
    omega
  · obtain ⟨j, hj, hget⟩ := List.mem_iff_getElem.mp hmem
    rw [List.length_take] at hj
    rw [List.getElem_take] at hget
    exact hbefore j (by omega) hget

/-- **A whole line**, in whatever chunks. -/
theorem readLine_complete {lineStart : Nat} {policy : Elision} {xs line rest : List UInt8}
    {bufs : List (List UInt8)} {r : LineRead} (h : Read lineStart policy xs r)
    (hline : newline ∉ line) (hbufs : bufs.flatten = line ++ newline :: rest) :
    ∃ r' bufs', Read lineStart policy (xs ++ line ++ [newline]) r' ∧ bufs'.flatten = rest ∧
      readLineElided lineStart policy r bufs =
        (.complete r'.rawLen r'.elided r'.skipped, r'.out, bufs') := by
  induction bufs generalizing xs line r with
  | nil => simp at hbufs
  | cons buf bufs ih =>
    rw [List.flatten_cons] at hbufs
    cases hidx : buf.idxOf? newline with
    | none =>
      have hbuf : newline ∉ buf := List.idxOf?_eq_none_iff.mp hidx
      -- the line goes on in the next buffer
      obtain ⟨line', rfl, htail⟩ : ∃ line', line = buf ++ line' ∧
          bufs.flatten = line' ++ newline :: rest := by
        obtain ⟨as, hl, ht⟩ | ⟨cs, hb, hc⟩ := List.append_eq_append_iff.mp hbufs
        · exact ⟨as, hl, ht⟩
        · cases cs with
          | nil => exact ⟨[], by rw [hb]; simp, by simpa using hc.symm⟩
          | cons c cs =>
            obtain ⟨rfl, -⟩ := List.cons.inj hc
            exact absurd (hb ▸ by simp) hbuf
      obtain ⟨r', bufs', hread, hrest, heq⟩ := ih (h.chunk buf)
        (fun hmem => hline (List.mem_append_right _ hmem)) htail
      refine ⟨r', bufs', by rw [← List.append_assoc]; exact hread, hrest, ?_⟩
      rw [readLineElided, hidx]
      exact heq
    | some i =>
      obtain ⟨pre, post, rfl, rfl, hpre⟩ := idxOf?_newline hidx
      -- the first newline of the buffer is the line's
      have hcut : some (pre, post ++ bufs.flatten) = some (line, rest) := by
        rw [← Lib.splitOnce_append hpre (post ++ bufs.flatten), ← Lib.splitOnce_append hline rest,
          ← hbufs]
        simp
      obtain ⟨rfl, rfl⟩ := Prod.mk.inj (Option.some.inj hcut)
      have htake : (pre ++ newline :: post).take (pre.length + 1) = pre ++ [newline] := by
        simp [List.take_append]
      have hdrop : (pre ++ newline :: post).drop (pre.length + 1) = post := by
        simp [List.drop_append]
      refine ⟨r.chunk lineStart policy (pre ++ [newline]),
        if (pre ++ newline :: post).length = pre.length + 1 then bufs else post :: bufs,
        by rw [List.append_assoc]; exact h.chunk (pre ++ [newline]), ?_, ?_⟩
      · split
        · next hlen =>
          obtain rfl : post = [] := by simpa using hlen
          rfl
        · rfl
      · rw [readLineElided, hidx]
        simp only [htake, hdrop]

/-- The end of the file, with no newline before it. -/
theorem readLine_torn {lineStart : Nat} {policy : Elision} {xs : List UInt8}
    {bufs : List (List UInt8)} {r : LineRead} (h : Read lineStart policy xs r)
    (hbufs : newline ∉ bufs.flatten) :
    ∃ r', Read lineStart policy (xs ++ bufs.flatten) r' ∧
      readLineElided lineStart policy r bufs =
        if r'.rawLen = 0 then (.eof, r'.out, [])
        else (.torn r'.rawLen, r'.out ++ (r'.elider.map Elider.finish).getD [], []) := by
  induction bufs generalizing xs r with
  | nil => exact ⟨r, by simpa using h, rfl⟩
  | cons buf bufs ih =>
    rw [List.flatten_cons, List.mem_append, not_or] at hbufs
    obtain ⟨r', hread, heq⟩ := ih (h.chunk buf) hbufs.2
    refine ⟨r', by rw [List.flatten_cons, ← List.append_assoc]; exact hread, ?_⟩
    rw [readLineElided, List.idxOf?_eq_none_iff.mpr hbufs.1]
    exact heq

/-! ## a line as a whole -/

/-- The line handed on, if it is not skipped. -/
def lineOut (lineStart : Nat) (policy : Elision) (bs : List UInt8) : List UInt8 :=
  if bs.length ≤ scanThreshold then bs else (scanned lineStart policy bs).2

/-- The bytes it is said to have lost to elision. -/
def lineElided (lineStart : Nat) (policy : Elision) (bs : List UInt8) : Nat :=
  if bs.length ≤ scanThreshold then 0 else (scanned lineStart policy bs).1.removed

theorem Read.kept {lineStart : Nat} {policy : Elision} {bs : List UInt8} {r : LineRead}
    (h : Read lineStart policy bs r) (hs : r.skipped = false) :
    r.out = lineOut lineStart policy bs ∧ r.elided = lineElided lineStart policy bs ∧
      (lineOut lineStart policy bs).length ≤ elideCeiling := by
  have hbounded := h.bounded hs
  unfold lineOut lineElided LineRead.elided
  by_cases hlen : bs.length ≤ scanThreshold
  · obtain ⟨he, ho⟩ := h.short hs hlen
    rw [ho] at hbounded
    simp only [if_pos hlen, he, ho]
    exact ⟨trivial, rfl, hbounded⟩
  · obtain ⟨he, ho⟩ := h.long hs (Nat.lt_of_not_le hlen)
    rw [ho] at hbounded
    simp only [if_neg hlen, he, ho]
    exact ⟨trivial, rfl, hbounded⟩

theorem Read.skips {lineStart : Nat} {policy : Elision} {bs : List UInt8} {r : LineRead}
    (h : Read lineStart policy bs r) (hs : r.skipped = true) :
    r.out = [] ∧ elideCeiling < (lineOut lineStart policy bs).length := by
  obtain ⟨hout, hlong, hmany⟩ := h.lost hs
  rw [lineOut, if_neg (Nat.not_le_of_lt hlong)]
  exact ⟨hout, hmany⟩

/-- **What a read comes to** does not depend on the chunks: a line whose output stays
under the ceiling is handed on with its true length and the bytes dropped from it, and
any other is skipped. -/
theorem readLine_eq (lineStart : Nat) (policy : Elision) {line rest : List UInt8}
    {bufs : List (List UInt8)} (hline : newline ∉ line)
    (hbufs : bufs.flatten = line ++ newline :: rest) :
    ∃ bufs', bufs'.flatten = rest ∧
      (((lineOut lineStart policy (line ++ [newline])).length ≤ elideCeiling ∧
        readLineElided lineStart policy .init bufs =
          (.complete (line.length + 1) (lineElided lineStart policy (line ++ [newline])) false,
            lineOut lineStart policy (line ++ [newline]), bufs')) ∨
      (elideCeiling < (lineOut lineStart policy (line ++ [newline])).length ∧
        ∃ n, readLineElided lineStart policy .init bufs =
          (.complete (line.length + 1) n true, [], bufs'))) := by
  obtain ⟨r, bufs', hread, hrest, heq⟩ :=
    readLine_complete (read_init lineStart policy) hline hbufs
  rw [List.nil_append] at hread
  have hraw : r.rawLen = line.length + 1 := by
    rw [hread.rawLen, List.length_append, List.length_singleton]
  refine ⟨bufs', hrest, ?_⟩
  cases hs : r.skipped with
  | false =>
    obtain ⟨hout, hel, hbound⟩ := hread.kept hs
    exact .inl ⟨hbound, by rw [heq, hraw, hel, hs, hout]⟩
  | true =>
    obtain ⟨hout, hbound⟩ := hread.skips hs
    exact .inr ⟨hbound, r.elided, by rw [heq, hraw, hs, hout]⟩

end ClaudeReplay
