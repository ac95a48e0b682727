import ClaudeReplay.Elide.Marker

/-!
# ClaudeReplay.Elide.Lossless

What elision keeps of a line. The filter's output is a sequence of pieces, bytes that
are copied and markers (`Elider.pushPieces` splits a push so, and `render` joins it
again); putting the file's bytes back for every marker gives the line the filter was
fed, as far as its strings are closed (`restored_tokens`).

A line that ends inside a string is another matter: the reader returns a complete line
without `finish`, so what the filter holds back of the string is lost.
-/

namespace ClaudeReplay

open Lib (quote backslash Esc Whole)

/-! ## pieces -/

/-- A piece of the filter's output. -/
inductive Piece
  | copied (bs : List UInt8)
  | marker (off len : Nat)
  deriving DecidableEq, Repr

namespace Piece

/-- The piece as it is written. -/
def render : Piece → List UInt8
  | copied bs => bs
  | marker off len => ClaudeReplay.marker off len

/-- The bytes of the line it stands for: a marker names them in the file. -/
def restore (file : List UInt8) : Piece → List UInt8
  | copied bs => bs
  | marker off len => (file.drop off).take len

/-- The bytes of the line that it copies. -/
def kept : Piece → Nat
  | copied bs => bs.length
  | marker _ _ => 0

/-- The length a marker names. -/
def named : Piece → Nat
  | copied _ => 0
  | marker _ len => len

end Piece

/-- The output. -/
def renderPieces (ps : List Piece) : List UInt8 := ps.flatMap Piece.render

/-- The output with every marker replaced by the bytes of the file it names. -/
def restored (file : List UInt8) (ps : List Piece) : List UInt8 := ps.flatMap (Piece.restore file)

/-- The bytes that are copied. -/
def keptBytes (ps : List Piece) : Nat := (ps.map Piece.kept).sum

/-- The lengths the markers name. -/
def namedBytes (ps : List Piece) : Nat := (ps.map Piece.named).sum

@[simp] theorem renderPieces_append (ps qs : List Piece) :
    renderPieces (ps ++ qs) = renderPieces ps ++ renderPieces qs := List.flatMap_append

@[simp] theorem restored_append (file : List UInt8) (ps qs : List Piece) :
    restored file (ps ++ qs) = restored file ps ++ restored file qs := List.flatMap_append

@[simp] theorem keptBytes_append (ps qs : List Piece) :
    keptBytes (ps ++ qs) = keptBytes ps + keptBytes qs := by
  simp [keptBytes]

@[simp] theorem namedBytes_append (ps qs : List Piece) :
    namedBytes (ps ++ qs) = namedBytes ps + namedBytes qs := by
  simp [namedBytes]

@[simp] theorem restored_copied (file bs : List UInt8) : restored file [.copied bs] = bs :=
  List.append_nil _

@[simp] theorem keptBytes_copied (bs : List UInt8) : keptBytes [.copied bs] = bs.length :=
  Nat.add_zero _

@[simp] theorem namedBytes_copied (bs : List UInt8) : namedBytes [.copied bs] = 0 := rfl

namespace Elider

/-- What a push writes, the marker apart from what is copied. -/
def pushPieces (s : Elider) (b : UInt8) : List Piece :=
  if s.emits && b == quote then
    let ring := s.ring.dropWhile fun x => !x.2
    [.copied (quote :: s.keptPrefix),
      .marker s.dropOff (s.contentLen - s.keptPrefix.length - ring.length),
      .copied (ring.map Prod.fst ++ [quote])]
  else [.copied (s.push b).2]

/-- What is written for the bytes of a chunk. -/
def feedPieces (s : Elider) : List UInt8 → List Piece
  | [] => []
  | b :: bs => s.pushPieces b ++ (s.push b).1.feedPieces bs

/-- **The pieces are the output.** -/
theorem render_pushPieces (s : Elider) (b : UInt8) :
    renderPieces (s.pushPieces b) = (s.push b).2 := by
  unfold pushPieces
  split
  · next h =>
    simp only [emits, Bool.and_eq_true, Bool.not_eq_true', beq_iff_eq] at h
    obtain ⟨⟨⟨⟨hin, hel⟩, hesc⟩, hunit⟩, rfl⟩ := h
    have hq : quote ≠ backslash := by decide
    simp [push, inStringByte, hin, hesc, hunit, hq, closeString, emitElided, hel, renderPieces,
      Piece.render]
  · simp [renderPieces, Piece.render]

theorem render_feedPieces (s : Elider) (bs : List UInt8) :
    renderPieces (s.feedPieces bs) = (s.feed bs).2 := by
  induction bs generalizing s with
  | nil => rfl
  | cons b bs ih =>
    rw [feedPieces, renderPieces_append, render_pushPieces, ih, feed_cons]

theorem feedPieces_append (s : Elider) (xs ys : List UInt8) :
    s.feedPieces (xs ++ ys) = s.feedPieces xs ++ (s.feed xs).1.feedPieces ys := by
  induction xs generalizing s with
  | nil => rfl
  | cons x xs ih =>
    rw [List.cons_append, feedPieces, feedPieces, ih, feed_cons, List.append_assoc]

/-- Where no marker is written, the push is copied. -/
theorem pushPieces_copied {s : Elider} {b : UInt8} (h : (s.emits && b == quote) = false) :
    s.pushPieces b = [.copied (s.push b).2] := by
  simp [pushPieces, h]

end Elider

/-! ## what the pieces are worth -/

/-- Some output that stands for these bytes of the file, and the bytes its markers give
up. -/
structure Worth (file : List UInt8) (ps : List Piece) (bs : List UInt8) (lost : Nat) : Prop where
  restored : restored file ps = bs
  named : namedBytes ps = lost
  kept : keptBytes ps + lost = bs.length

theorem Worth.append {file : List UInt8} {ps qs : List Piece} {xs ys : List UInt8} {m n : Nat}
    (hp : Worth file ps xs m) (hq : Worth file qs ys n) :
    Worth file (ps ++ qs) (xs ++ ys) (m + n) where
  restored := by rw [restored_append, hp.restored, hq.restored]
  named := by rw [namedBytes_append, hp.named, hq.named]
  kept := by
    have hkp := hp.kept
    have hkq := hq.kept
    rw [keptBytes_append, List.length_append]
    omega

theorem worth_copied (file bs : List UInt8) : Worth file [.copied bs] bs 0 where
  restored := restored_copied file bs
  named := rfl
  kept := by simp

/-! ## inside a string -/

/-- A marker is written at the quote that closes an elided value, and nowhere else. -/
theorem Holding.emits {c : Scope} {xs out : List UInt8} {s : Elider} (h : Holding c xs s out)
    (b : UInt8) : (s.emits && b == quote) = ((Esc.plain.run xs).closes b && s.eliding) := by
  unfold Elider.emits
  rw [h.inString, h.escaped, h.escUnit]
  cases Esc.plain.run xs <;> simp [escapedOf, unitOf, Esc.closes, Bool.and_comm]

/-- Content is copied, or held back. -/
theorem Holding.feed_worth {c : Scope} {xs out : List UInt8} {s : Elider} (h : Holding c xs s out)
    {ys : List UInt8} (hys : (Esc.plain.run xs).inside ys = true) (file : List UInt8) :
    Worth file (s.feedPieces ys) (s.feed ys).2 0 := by
  induction ys generalizing xs out s with
  | nil => exact ⟨rfl, rfl, rfl⟩
  | cons b ys ih =>
    simp only [Esc.inside, Bool.and_eq_true, Bool.not_eq_true'] at hys
    have hemits : (s.emits && b == quote) = false := by rw [h.emits, hys.1, Bool.false_and]
    have hrest := ih (h.step hys.1) (by rw [Esc.run_snoc]; exact hys.2)
    rw [Elider.feedPieces, Elider.pushPieces_copied hemits, feed_cons]
    exact (worth_copied file _).append hrest

/-- **The closing quote.** With what was written before it, it is worth the string. -/
theorem Holding.close_worth {c : Scope} {xs out : List UInt8} {s : Elider} (h : Holding c xs s out)
    (hxs : Esc.plain.run xs = .plain) {file : List UInt8}
    (hfile : xs <+: file.drop (c.lineStart + c.pos + 1)) :
    Worth file (.copied out :: s.pushPieces quote) (quote :: xs ++ [quote])
      (if c.elides xs then dropped xs else 0) := by
  have hcloses : (Esc.plain.run xs).closes quote = true := by rw [hxs]; rfl
  have hemits := h.emits quote
  rw [hcloses, Bool.true_and] at hemits
  have hout := (h.close hxs).2.2
  cases h.phase with
  | buffering hlen hp he =>
    have helides : c.elides xs = false := by
      simp [Scope.elides, Nat.not_lt_of_le hlen]
    rw [Elider.pushPieces_copied (hemits.trans he), helides]
    have hworth := (worth_copied file []).append (worth_copied file (s.push quote).2)
    rw [hout, Scope.str, helides] at hworth
    exact hworth
  | passing hlen hv hp he =>
    have helides : c.elides xs = false := by simp [Scope.elides, hv]
    rw [Elider.pushPieces_copied (hemits.trans he), helides]
    have hworth := (worth_copied file (quote :: xs)).append (worth_copied file (s.push quote).2)
    rw [hout, Scope.str, helides] at hworth
    exact hworth
  | eliding hlen hv hp he hkept hoff hl hring =>
    have helides : c.elides xs = true := by simp [Scope.elides, hv, hlen]
    obtain ⟨hpost, hdropped⟩ := ring_dropped hlen hkept hl hring
    obtain ⟨hcuts, htail⟩ := cut_le hlen
    rw [Elider.pushPieces, if_pos (hemits.trans he), helides, if_pos rfl]
    dsimp only
    rw [hpost, hdropped, hkept, hoff]
    obtain ⟨rest, hrest⟩ := hfile
    -- the marker names the bytes between the cuts
    have hspan : (file.drop (c.lineStart + c.pos + 1 + headCut xs)).take (dropped xs) =
        (xs.drop (headCut xs)).take (dropped xs) := by
      rw [← List.drop_drop, ← hrest, List.drop_append_of_le_length (by omega),
        List.take_append_of_le_length]
      rw [List.length_drop, dropped]
      omega
    have hjoin : xs.take (headCut xs) ++ (xs.drop (headCut xs)).take (dropped xs) ++
        xs.drop (tailCut xs) = xs := by
      have htake : xs.take (tailCut xs) =
          xs.take (headCut xs) ++ (xs.drop (headCut xs)).take (dropped xs) := by
        rw [← List.take_add, dropped, Nat.add_sub_cancel' hcuts]
      rw [← htake, List.take_append_drop]
    constructor
    · rw [restored]
      simp only [List.flatMap_cons, List.flatMap_nil, Piece.restore, hspan]
      conv => rhs; rw [← hjoin]
      simp
    · simp [namedBytes, Piece.named]
    · simp only [keptBytes, Piece.kept, List.map_cons, List.map_nil, List.sum_cons, List.sum_nil,
        List.length_cons, List.length_append, List.length_take, List.length_drop, List.length_nil,
        dropped]
      omega

/-! ## a line -/

/-- Output that is copied may be cut into pieces in another way. -/
theorem Worth.of_copied {file out bs : List UInt8} {ps qs : List Piece} {n : Nat}
    (hq : Worth file (.copied out :: qs) bs n) (hp : Worth file ps out 0) :
    Worth file (ps ++ qs) bs n where
  restored := by
    rw [restored_append, hp.restored]
    exact hq.restored
  named := by
    have hnamed := hq.named
    rw [namedBytes_append, hp.named, Nat.zero_add]
    simpa [namedBytes, Piece.named] using hnamed
  kept := by
    have hkp := hp.kept
    have hkq := hq.kept
    simp only [keptBytes, List.map_cons, List.sum_cons, Piece.kept] at hkp hkq ⊢
    rw [List.map_append, List.sum_append]
    omega

/-- A string that is not closed. -/
theorem worth_open {s : Elider} (h : s.inString = false) {xs : List UInt8}
    (hxs : Esc.plain.inside xs = true) (file : List UInt8) :
    Worth file (s.feedPieces (quote :: xs)) (s.feed (quote :: xs)).2 0 := by
  have hemits : (s.emits && quote == quote) = false := by simp [Elider.emits, h]
  rw [Elider.feedPieces, Elider.pushPieces_copied hemits, feed_cons]
  exact (worth_copied file _).append ((holding_open h).feed_worth hxs file)

/-- A whole string. -/
theorem worth_string {s : Elider} (h : s.inString = false) {xs : List UInt8} (hxs : Whole xs)
    {file : List UInt8} (hfile : quote :: xs ++ [quote] <+: file.drop (s.lineStart + s.pos)) :
    Worth file (s.feedPieces (quote :: xs ++ [quote])) (quote :: xs ++ [quote])
      (if s.elides xs then dropped xs else 0) := by
  have hcontent : xs <+: file.drop (s.lineStart + s.pos + 1) := by
    obtain ⟨rest, hrest⟩ := hfile
    refine ⟨quote :: rest, ?_⟩
    rw [← List.drop_drop, ← hrest]
    simp
  rw [Elider.feedPieces_append]
  refine Worth.of_copied ?_ (worth_open h hxs.inside file)
  simpa only [Elider.feedPieces, List.append_nil] using
    (feed_open h hxs.inside).close_worth hxs.ends hcontent

/-- **Strings that are closed** are restored, and what their markers give up is counted. -/
theorem worth_tokens {s : Elider} (h : s.inString = false) {ts : List Token}
    (hts : ∀ t ∈ ts, t.Valid) {file : List UInt8}
    (hfile : renderTokens ts <+: file.drop (s.lineStart + s.pos)) :
    ∃ lost, Worth file (s.feedPieces (renderTokens ts)) (renderTokens ts) lost ∧
      (s.feed (renderTokens ts)).1.removed = s.removed + lost := by
  induction ts generalizing s with
  | nil => exact ⟨0, ⟨rfl, rfl, rfl⟩, rfl⟩
  | cons t ts ih =>
    rw [renderTokens_cons] at hfile
    have htoken : ∃ lost, Worth file (s.feedPieces t.render) t.render lost ∧
        (s.feed t.render).1.inString = false ∧ (s.feed t.render).1.toScope = (s.toScope.token t).1 ∧
        (s.toScope.token t).1.removed = s.removed + lost := by
      have ht := hts t List.mem_cons_self
      cases t with
      | str xs =>
        obtain ⟨hin, hscope, -⟩ := feed_string h ht
        refine ⟨_, worth_string h ht ((List.prefix_append _ _).trans hfile), hin, hscope, ?_⟩
        rw [Scope.token, Scope.str]
        dsimp only
        split <;> rfl
      | byte b =>
        have hb : b ≠ quote := ht
        have hemits : (s.emits && b == quote) = false := by simp [Elider.emits, h]
        have hpush : s.push b = ({ s with
            toScope := { s.toScope with pos := s.pos + 1 }.punct b }, [b]) := by
          simp [Elider.push, h, hb]
        refine ⟨0, ?_, ?_, ?_, (Scope.punct_frame { s.toScope with pos := s.pos + 1 } b).2.2.2⟩
        · rw [Token.render, Elider.feedPieces, Elider.feedPieces, Elider.pushPieces_copied hemits,
            hpush]
          exact worth_copied file [b]
        · rw [Token.render, feed_cons, hpush]
          exact h
        · rw [Token.render, feed_cons, hpush]
          rfl
    obtain ⟨lost, hworth, hin, hscope, hremoved⟩ := htoken
    obtain ⟨hpos, hline, -⟩ := Scope.token_frame s.toScope t
    rw [← hscope] at hpos hline hremoved
    obtain ⟨rest, hrest⟩ := hfile
    have htail : renderTokens ts <+: file.drop
        ((s.feed t.render).1.lineStart + (s.feed t.render).1.pos) := by
      refine ⟨rest, ?_⟩
      rw [hpos, hline, ← Nat.add_assoc, ← List.drop_drop, ← hrest, List.append_assoc,
        List.drop_left]
    obtain ⟨lost', hworth', hremoved'⟩ :=
      ih hin (fun u hu => hts u (List.mem_cons_of_mem _ hu)) htail
    refine ⟨lost + lost', ?_, ?_⟩
    · rw [renderTokens_cons, Elider.feedPieces_append]
      exact hworth.append hworth'
    · rw [renderTokens_cons, feed_append, ← Nat.add_assoc, ← hremoved]
      exact hremoved'

/-! ## a complete line -/

/-- The pieces of a line: one, unless it is scanned. -/
def linePieces (lineStart : Nat) (policy : Elision) (bs : List UInt8) : List Piece :=
  if bs.length ≤ scanThreshold then [.copied bs] else (Elider.new lineStart policy).feedPieces bs

theorem render_linePieces (lineStart : Nat) (policy : Elision) (bs : List UInt8) :
    renderPieces (linePieces lineStart policy bs) = lineOut lineStart policy bs := by
  unfold linePieces lineOut
  split
  · simp [renderPieces, Piece.render]
  · exact Elider.render_feedPieces _ bs

/-- Nothing of the line is held back at its end: it is not scanned, or its strings are
all closed, or the one that is not is oversized and is not to be elided. -/
def Flushed (lineStart : Nat) (policy : Elision) (bs : List UInt8) : Prop :=
  bs.length ≤ scanThreshold ∨
    ∃ ts : List Token, (∀ t ∈ ts, t.Valid) ∧
      (bs = renderTokens ts ∨
        ∃ xs, Esc.plain.inside xs = true ∧ bs = renderTokens ts ++ quote :: xs ∧
          elideStringBytes < xs.length ∧
          (((Scope.new lineStart policy).tokens ts).1.expectingValue &&
            ((Scope.new lineStart policy).tokens ts).1.policyAllows) = false)

/-- What the filter has written for a string that is not closed. -/
def openOut (c : Scope) (xs : List UInt8) : List UInt8 :=
  if elideStringBytes < xs.length ∧ (c.expectingValue && c.policyAllows) = false then quote :: xs
  else []

theorem Phase.out_eq {c : Scope} {xs out : List UInt8} {s : Elider} (h : Phase c xs s out) :
    out = openOut c xs := by
  unfold openOut
  cases h with
  | buffering hlen => rw [if_neg fun hbig => Nat.not_lt_of_le hlen hbig.1]
  | eliding hlen hv => rw [if_neg fun hbig => by simp [hv] at hbig]
  | passing hlen hv => rw [if_pos ⟨hlen, hv⟩]

/-- What the filter makes of a line that ends inside a string. -/
theorem scanned_open (lineStart : Nat) (policy : Elision) {ts : List Token}
    (hts : ∀ t ∈ ts, t.Valid) {xs : List UInt8} (hxs : Esc.plain.inside xs = true) :
    (scanned lineStart policy (renderTokens ts ++ quote :: xs)).2 =
        ((Scope.new lineStart policy).tokens ts).2 ++
          openOut ((Scope.new lineStart policy).tokens ts).1 xs ∧
      (scanned lineStart policy (renderTokens ts ++ quote :: xs)).1.removed =
        ((Scope.new lineStart policy).tokens ts).1.removed := by
  obtain ⟨hin, hscope, hout⟩ := feed_tokens (s := Elider.new lineStart policy) rfl hts
  have hholding := feed_open hin hxs
  have hopen := hholding.phase.out_eq
  rw [hscope] at hopen
  rw [scanned, feed_append, hout]
  dsimp only
  refine ⟨congrArg _ hopen, ?_⟩
  have hremoved := congrArg Scope.removed hscope
  rw [hholding.scope]
  exact hremoved

/-- **A line that ends inside a string** is worth its closed strings and what was
written for the open one. -/
theorem worth_tokens_open (lineStart : Nat) (policy : Elision) {ts : List Token}
    (hts : ∀ t ∈ ts, t.Valid) {xs : List UInt8} (hxs : Esc.plain.inside xs = true)
    {file : List UInt8} (hfile : renderTokens ts <+: file.drop lineStart) :
    Worth file ((Elider.new lineStart policy).feedPieces (renderTokens ts ++ quote :: xs))
      (renderTokens ts ++ openOut ((Scope.new lineStart policy).tokens ts).1 xs)
      (scanned lineStart policy (renderTokens ts ++ quote :: xs)).1.removed := by
  obtain ⟨hin, hscope, -⟩ := feed_tokens (s := Elider.new lineStart policy) rfl hts
  obtain ⟨lost, hworth, hremoved⟩ := worth_tokens (s := Elider.new lineStart policy) rfl hts hfile
  have hopen := worth_open hin hxs file
  rw [(feed_open hin hxs).phase.out_eq, hscope] at hopen
  have hlost :
      (scanned lineStart policy (renderTokens ts ++ quote :: xs)).1.removed = lost + 0 := by
    rw [(scanned_open lineStart policy hts hxs).2]
    exact ((congrArg Scope.removed hscope).symm.trans hremoved).trans (Nat.zero_add _)
  rw [hlost, Elider.feedPieces_append]
  exact hworth.append hopen

/-- **A line that is flushed** is restored, and what was dropped from it is counted. -/
theorem worth_flushed {lineStart : Nat} {policy : Elision} {bs file : List UInt8}
    (hfile : bs <+: file.drop lineStart) (h : Flushed lineStart policy bs) :
    Worth file (linePieces lineStart policy bs) bs (lineElided lineStart policy bs) := by
  unfold linePieces lineElided
  by_cases hshort : bs.length ≤ scanThreshold
  · rw [if_pos hshort, if_pos hshort]
    exact worth_copied file bs
  · rw [if_neg hshort, if_neg hshort]
    obtain ⟨ts, hts, rfl | ⟨xs, hxs, rfl, hlen, hv⟩⟩ := h.resolve_left hshort
    · obtain ⟨lost, hworth, hremoved⟩ :=
        worth_tokens (s := Elider.new lineStart policy) rfl hts hfile
      have hsame : (scanned lineStart policy (renderTokens ts)).1.removed = lost :=
        hremoved.trans (Nat.zero_add _)
      rw [hsame]
      exact hworth
    · have hworth := worth_tokens_open lineStart policy hts hxs
        ((List.prefix_append _ _).trans hfile)
      rwa [openOut, if_pos ⟨hlen, hv⟩] at hworth

/-- **A line that is not** is not restored. -/
theorem restored_held {lineStart : Nat} {policy : Elision} {bs file : List UInt8}
    (hfile : bs <+: file.drop lineStart) (h : ¬Flushed lineStart policy bs) :
    restored file (linePieces lineStart policy bs) ≠ bs := by
  obtain ⟨hshort, htokens⟩ := not_or.mp h
  obtain ⟨ts, hts, rfl | ⟨xs, hxs, rfl⟩⟩ := exists_tokens bs
  · exact absurd ⟨ts, hts, .inl rfl⟩ htokens
  · have hworth := worth_tokens_open lineStart policy hts hxs
      ((List.prefix_append _ _).trans hfile)
    have hheld : openOut ((Scope.new lineStart policy).tokens ts).1 xs = [] := by
      rw [openOut, if_neg]
      exact fun hpass => htokens ⟨ts, hts, .inr ⟨xs, hxs, rfl, hpass.1, hpass.2⟩⟩
    rw [hheld, List.append_nil] at hworth
    rw [linePieces, if_neg hshort, hworth.restored]
    intro heq
    have hlen := congrArg List.length heq
    simp only [List.length_append, List.length_cons] at hlen
    omega

/-! ## lossless -/

/-- What a complete line should be: its length and the bytes dropped from it are true,
its output is that of its own bytes, and the markers lead back to them. -/
structure Lossless (file : List UInt8) (lineStart : Nat) (policy : Elision) (line : List UInt8)
    (rawLen elided : Nat) (out : List UInt8) : Prop where
  rawLen : rawLen = line.length
  chunks : out = renderPieces (linePieces lineStart policy line)
  dropped : keptBytes (linePieces lineStart policy line) + elided = line.length
  restored : ClaudeReplay.restored file (linePieces lineStart policy line) = line

/-- **Elision is lossless**, whatever chunks the line is read in, exactly if nothing of
the line is held back at its end. -/
theorem lossless_iff {file before line rest : List UInt8} {policy : Elision}
    {bufs bufs' : List (List UInt8)} {rawLen elided : Nat} {out : List UInt8}
    (hfile : file = before ++ line ++ newline :: rest) (hline : newline ∉ line)
    (hbufs : bufs.flatten = line ++ newline :: rest)
    (hread : readLineElided before.length policy .init bufs =
      (.complete rawLen elided false, out, bufs')) :
    Lossless file before.length policy (line ++ [newline]) rawLen elided out ↔
      Flushed before.length policy (line ++ [newline]) := by
  have hprefix : line ++ [newline] <+: file.drop before.length := by
    refine ⟨rest, ?_⟩
    rw [hfile, List.append_assoc, List.append_assoc, List.drop_left]
    rfl
  constructor
  · intro h
    by_contra hheld
    exact restored_held hprefix hheld h.restored
  · intro hflushed
    have hworth := worth_flushed hprefix hflushed
    obtain ⟨bufs', -, ⟨-, heq⟩ | ⟨-, n, heq⟩⟩ := readLine_eq before.length policy hline hbufs
    · rw [heq] at hread
      simp only [Prod.mk.injEq, LineOutcome.complete.injEq] at hread
      obtain ⟨⟨hraw, hel, -⟩, hout, -⟩ := hread
      constructor
      · rw [← hraw, List.length_append]
        rfl
      · rw [← hout, render_linePieces]
      · rw [← hel]
        exact hworth.kept
      · exact hworth.restored
    · rw [heq] at hread
      simp at hread

/-- Blanks. -/
def spaces (n : Nat) : List UInt8 := List.replicate n 0x20

theorem mem_spaces {n : Nat} {b : UInt8} (h : b ∈ spaces n) : b = 0x20 :=
  List.eq_of_mem_replicate h

/-- A line of a value of 70000 letters, which is elided, and of blanks. -/
def valueLine : List UInt8 := quote :: letters 70000 ++ quote :: spaces scanThreshold

theorem lossless_iff_value : ∃ out bufs,
    readLineElided 0 .aggressive .init [valueLine ++ [newline]] =
        (.complete 332147 69866 false, out, bufs) ∧
      Lossless (valueLine ++ [newline]) 0 .aggressive (valueLine ++ [newline]) 332147 69866 out := by
  have hlen : (spaces scanThreshold).length = scanThreshold := List.length_replicate
  obtain ⟨bufs, hread⟩ := letters_line (n := 70000) (by decide) (fun b => mem_spaces) hlen.ge
    (by rw [hlen]; decide)
  rw [hlen] at hread
  obtain ⟨hrest, hline⟩ := @value_line 70000 (spaces scanThreshold)
    fun b => mem_spaces
  obtain ⟨htokens, hvalid⟩ := value_tokens (plain_letters 70000).whole hrest
  have hflushed : Flushed 0 .aggressive (valueLine ++ [newline]) := by
    refine .inr ⟨_, hvalid, .inl ?_⟩
    rw [← htokens]
    simp [valueLine]
  exact ⟨_, bufs, hread, (@lossless_iff _ [] valueLine [] .aggressive _ bufs 332147 69866 _ rfl hline
    List.flatten_singleton hread).mpr hflushed⟩

/-! ## a line that is not flushed -/

/-- The quote behind a long run of blanks opens a string that the newline is a part of. -/
theorem readLine_spaces {n : Nat} (hlong : scanThreshold ≤ n) (hfits : n ≤ elideCeiling) :
    (∃ bufs, readLineElided 0 .none .init [spaces n ++ [quote, newline]] =
      (.complete (n + 2) 0 false, spaces n, bufs)) ∧
    restored (spaces n ++ [quote, newline])
      (linePieces 0 .none (spaces n ++ [quote, newline])) = spaces n := by
  have hlen : (spaces n).length = n := List.length_replicate
  have hts : ∀ t ∈ (spaces n).map Token.byte, t.Valid := by
    intro t ht
    obtain ⟨b, hb, rfl⟩ := List.mem_map.mp ht
    rw [mem_spaces hb]
    exact (by decide : (0x20 : UInt8) ≠ quote)
  have hrender := renderTokens_bytes (spaces n)
  have hopen : openOut ((Scope.new 0 .none).tokens ((spaces n).map .byte)).1 [newline] = [] := by
    rw [openOut, if_neg fun hbig => absurd hbig.1 (by decide)]
  have hinside : Esc.plain.inside [newline] = true := by decide
  have hworth := worth_tokens_open 0 .none hts hinside
    (hrender.symm ▸ List.prefix_append (spaces n) [quote, newline])
  rw [hrender, hopen, List.append_nil] at hworth
  have hover : ¬(spaces n ++ [quote, newline]).length ≤ scanThreshold := by
    rw [List.length_append, hlen, List.length_cons, List.length_singleton]
    omega
  -- nothing of the open string is written, and nothing is counted
  obtain ⟨hwritten, hremoved⟩ := scanned_open 0 .none hts hinside
  obtain ⟨hbytes, hzero⟩ := Scope.tokens_bytes (Scope.new 0 .none) (spaces n)
  rw [hrender, hbytes, hopen, List.append_nil] at hwritten
  rw [hrender, hzero] at hremoved
  have hline : newline ∉ spaces n ++ [quote] := by
    rw [List.mem_append, not_or]
    exact ⟨fun hmem => absurd (mem_spaces hmem) (by decide), by decide⟩
  have hjoin : spaces n ++ [quote, newline] = spaces n ++ [quote] ++ [newline] := by simp
  refine ⟨?_, ?_⟩
  · obtain ⟨bufs, -, ⟨-, hread⟩ | ⟨hskip, -⟩⟩ :=
      readLine_eq 0 .none hline (List.flatten_singleton (l := spaces n ++ [quote] ++ [newline]))
    · rw [← hjoin, lineOut, lineElided, if_neg hover, if_neg hover, hwritten, hremoved,
        List.length_append, hlen] at hread
      exact ⟨bufs, hread⟩
    · rw [← hjoin, lineOut, if_neg hover, hwritten, hlen] at hskip
      omega
  · rw [linePieces, if_neg hover]
    exact hworth.restored

/-- **A complete line that loses two bytes**, none of which is counted. -/
theorem open_string_lost :
    (∃ bufs, readLineElided 0 .none .init [spaces scanThreshold ++ [quote, newline]] =
      (.complete (scanThreshold + 2) 0 false, spaces scanThreshold, bufs)) ∧
    restored (spaces scanThreshold ++ [quote, newline])
      (linePieces 0 .none (spaces scanThreshold ++ [quote, newline])) = spaces scanThreshold ∧
    spaces scanThreshold ≠ spaces scanThreshold ++ [quote, newline] := by
  obtain ⟨hread, hrestored⟩ := readLine_spaces (n := scanThreshold) (Nat.le_refl _) (by decide)
  exact ⟨hread, hrestored, fun h => by simpa using List.append_right_eq_self.mp h.symm⟩

end ClaudeReplay
