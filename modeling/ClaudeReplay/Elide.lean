import ClaudeReplay.Lib.Escapes
import Mathlib.Data.Nat.Notation

/-!
# ClaudeReplay.Elide

The bounded eliding line reader: `Elider`, the streaming filter that replaces the
middle of an oversized string value with a marker naming its file span, and
`readLineElided`, which feeds it one line in whatever chunks the reader hands out.

The filter is fed one byte at a time and says what it appends to the output. Its
state is in two parts: the `Scope`, which is all it knows between strings (where it
stands in the document, and the keys around it), and what it holds of the string it
is in. A `Vec` used as a stack is a list whose head is its top; file offsets and
counts are natural numbers.
-/

namespace ClaudeReplay

open Lib (quote backslash letterU)

/-! ## the bounds -/

/-- A string value longer than this is elided, policy permitting. -/
def elideStringBytes : Nat := 64 * 1024

/-- Lines up to this size are copied with no scanning. -/
def scanThreshold : Nat := 256 * 1024

/-- A line whose output exceeds this is skipped. -/
def elideCeiling : Nat := 64 * 1024 * 1024

/-- The kept head of an elided value. -/
def prefixKeep : Nat := 64

/-- The kept tail of an elided value. -/
def postfixKeep : Nat := 64

/-- The longest tracked key. -/
def keyCap : Nat := 48

/-- The deepest tracked nesting. -/
def depthCap : Nat := 8

/-- The tail ring: `postfixKeep` and the longest escape unit. -/
def ringCap : Nat := postfixKeep + 6

/-- The line feed that ends a line. -/
def newline : UInt8 := 0x0A

/-! ## the scope -/

/-- Which values may be elided. -/
inductive Elision
  | none
  | aggressive
  /-- those whose enclosing keys end in one of these suffixes -/
  | keys (pats : List (List (List UInt8)))
  deriving DecidableEq, Repr

/-- A container the scanner is in. -/
inductive Ctx
  | object
  | array
  deriving DecidableEq, Repr

/-- An enclosing key: its raw bytes, or the sentinel that matches nothing. -/
inductive TrackedKey
  | bytes (k : List UInt8)
  | unmatchable
  deriving DecidableEq, Repr

/-- What the scanner knows between strings. -/
structure Scope where
  policy : Elision
  lineStart : Nat
  pos : Nat
  ctx : List Ctx
  expectingValue : Bool
  keyStack : List TrackedKey
  depthOverflow : Nat
  lastKey : Option TrackedKey
  removed : Nat
  deriving DecidableEq, Repr

namespace Scope

/-- The start of a line. -/
def new (lineStart : Nat) (policy : Elision) : Scope :=
  ⟨policy, lineStart, 0, [], true, [], 0, none, 0⟩

/-- The tracked keys up to the first sentinel. -/
def usable : List TrackedKey → List (List UInt8)
  | .bytes k :: ks => k :: usable ks
  | _ => []

/-- The keys of the value at hand, innermost first, as far as they are known;
`none` if its own key matches nothing. -/
def chain (s : Scope) : Option (List (List UInt8)) :=
  match s.lastKey with
  | some (.bytes k) => some (k :: usable s.keyStack)
  | some .unmatchable => none
  | none => some (usable s.keyStack)

/-- A chain, innermost first, ends in the suffix. -/
def matchesPat (chain : List (List UInt8)) (pat : List (List UInt8)) : Bool :=
  decide (pat.length ≤ chain.length) && (pat.reverse.zip chain).all fun x => x.2 == x.1

/-- `policy_allows`. -/
def policyAllows (s : Scope) : Bool :=
  match s.policy with
  | .none => false
  | .aggressive => true
  | .keys pats =>
    if 0 < s.depthOverflow then false
    else
      match s.chain with
      | some chain => pats.any (matchesPat chain)
      | none => false

/-- An opening bracket. -/
def openContainer (s : Scope) (isArray : Bool) : Scope :=
  let opener := s.lastKey.getD .unmatchable
  { s with
    ctx := (if isArray then .array else .object) :: s.ctx
    expectingValue := isArray
    lastKey := none
    keyStack := if s.keyStack.length < depthCap then opener :: s.keyStack else s.keyStack
    depthOverflow :=
      if s.keyStack.length < depthCap then s.depthOverflow else s.depthOverflow + 1 }

/-- A closing bracket. -/
def closeContainer (s : Scope) : Scope :=
  { s with
    ctx := s.ctx.tail
    keyStack := if 0 < s.depthOverflow then s.keyStack else s.keyStack.tail
    depthOverflow := s.depthOverflow - 1
    expectingValue := false
    lastKey := none }

/-- A byte outside every string that is not a quote. -/
def punct (s : Scope) (b : UInt8) : Scope :=
  if b = 0x7B then s.openContainer false
  else if b = 0x5B then s.openContainer true
  else if b = 0x7D ∨ b = 0x5D then s.closeContainer
  else if b = 0x3A then { s with expectingValue := true }
  else if b = 0x2C then { s with expectingValue := s.ctx.head? != some .object }
  else s

end Scope

/-! ## the filter -/

/-- The streaming filter. -/
structure Elider extends Scope where
  inString : Bool
  /-- the byte before was a backslash -/
  escaped : Bool
  /-- bytes remaining in the current escape unit -/
  escUnit : Nat
  stringIsValue : Bool
  contentStart : Nat
  /-- bytes of the string held back until its size is decided -/
  pending : List UInt8
  passthrough : Bool
  eliding : Bool
  keptPrefix : List UInt8
  dropOff : Nat
  /-- the string's last bytes, each with whether a unit starts there -/
  ring : List (UInt8 × Bool)
  contentLen : Nat
  keyCapture : List UInt8
  keyOversized : Bool
  deriving DecidableEq, Repr

/-- The decimal digits of a number. -/
def decimal (n : Nat) : List UInt8 := (Nat.toDigits 10 n).map fun c => UInt8.ofNat c.toNat

/-- `<elided:`, which opens every marker. -/
def markerOpener : List UInt8 := [0x3C, 0x65, 0x6C, 0x69, 0x64, 0x65, 0x64, 0x3A]

/-- `<elided:{off},{len}>`. -/
def marker (off len : Nat) : List UInt8 :=
  markerOpener ++ decimal off ++ [0x2C] ++ decimal len ++ [0x3E]

namespace Elider

/-- The filter at the start of a line. -/
def new (lineStart : Nat) (policy : Elision) : Elider :=
  { Scope.new lineStart policy with
    inString := false
    escaped := false
    escUnit := 0
    stringIsValue := false
    contentStart := 0
    pending := []
    passthrough := false
    eliding := false
    keptPrefix := []
    dropOff := 0
    ring := []
    contentLen := 0
    keyCapture := []
    keyOversized := false }

/-- The unit state of `begin_eliding`'s own walk. -/
def walkStep (esc : Nat) (b : UInt8) : Nat :=
  if esc = 0 then (if b = backslash then 1 else 0)
  else if esc = 1 then (if b = letterU then 4 else 0)
  else esc - 1

/-- The walk of `begin_eliding` over the buffered content, from index `i` on: where
the prefix is cut, and for each byte from `tailFrom` on whether a unit starts there. -/
def boundaryWalk (tailFrom : Nat) : Nat → Nat → Nat → List UInt8 → Nat × List Bool
  | _, _, prefixLen, [] => (prefixLen, [])
  | i, esc, prefixLen, b :: bs =>
    let startsUnit := esc == 0
    let (cut, flags) := boundaryWalk tailFrom (i + 1) (walkStep esc b)
      (if startsUnit && decide (i ≤ prefixKeep) then i else prefixLen) bs
    (cut, if tailFrom ≤ i then startsUnit :: flags else flags)

/-- `begin_eliding`. -/
def beginEliding (s : Elider) : Elider :=
  let content := s.pending.tail
  let tailFrom := content.length - ringCap
  let (prefixLen, tailFlags) := boundaryWalk tailFrom 0 0 0 content
  { s with
    keptPrefix := content.take prefixLen
    dropOff := s.lineStart + s.contentStart + prefixLen
    ring := (content.drop tailFrom).zip tailFlags
    contentLen := content.length
    eliding := true
    pending := [] }

/-- `take_string_byte`: one content byte of the current string. -/
def takeStringByte (s : Elider) (b : UInt8) (startsUnit : Bool) : Elider × List UInt8 :=
  if s.passthrough then (s, [b])
  else if s.eliding then
    ({ s with
       contentLen := s.contentLen + 1
       ring := (if s.ring.length = ringCap then s.ring.tail else s.ring) ++ [(b, startsUnit)] },
      [])
  else
    let s := { s with
      pending := s.pending ++ [b]
      keyCapture :=
        if s.stringIsValue || decide (keyCap ≤ s.keyCapture.length) then s.keyCapture
        else s.keyCapture ++ [b]
      keyOversized :=
        s.keyOversized || (!s.stringIsValue && decide (keyCap ≤ s.keyCapture.length)) }
    if elideStringBytes < s.pending.length - 1 then
      if s.stringIsValue && s.policyAllows then (s.beginEliding, [])
      else ({ s with pending := [], passthrough := true }, s.pending)
    else (s, [])

/-- `emit_elided`: close an elided value. -/
def emitElided (s : Elider) : Elider × List UInt8 :=
  let ring := s.ring.dropWhile fun x => !x.2
  let dropped := s.contentLen - s.keptPrefix.length - ring.length
  ({ s with
     removed := s.removed + dropped
     eliding := false
     ring := []
     keptPrefix := [] },
    [quote] ++ s.keptPrefix ++ marker s.dropOff dropped ++ ring.map Prod.fst ++ [quote])

/-- The quote that closes the current string. -/
def closeString (s : Elider) : Elider × List UInt8 :=
  let s := { s with inString := false }
  let (s, out) :=
    if s.eliding then s.emitElided
    else if s.passthrough then (s, [quote])
    else
      ({ s with
         lastKey :=
           if s.stringIsValue then s.lastKey
           else some (if s.keyOversized then .unmatchable else .bytes s.keyCapture)
         keyCapture := if s.stringIsValue || s.keyOversized then s.keyCapture else [] },
        s.pending ++ [quote])
  ({ s with pending := [], expectingValue := false }, out)

/-- `in_string_byte`. -/
def inStringByte (s : Elider) (b : UInt8) : Elider × List UInt8 :=
  let startsUnit := s.escUnit == 0
  if s.escaped then
    { s with escaped := false, escUnit := if b = letterU then 4 else 0 }.takeStringByte b startsUnit
  else if 0 < s.escUnit then
    { s with escUnit := s.escUnit - 1 }.takeStringByte b startsUnit
  else if b = backslash then
    { s with escaped := true, escUnit := 1 }.takeStringByte b startsUnit
  else if b = quote then s.closeString
  else s.takeStringByte b startsUnit

/-- The quote that opens a string, at position `p`. -/
def openString (s : Elider) (p : Nat) : Elider :=
  { s with
    inString := true
    escaped := false
    escUnit := 0
    stringIsValue := s.expectingValue
    eliding := false
    passthrough := false
    contentStart := p + 1
    contentLen := 0
    pending := [quote]
    keyCapture := []
    keyOversized := false }

/-- `push`: one byte, and what is appended to the output. -/
def push (s : Elider) (b : UInt8) : Elider × List UInt8 :=
  let p := s.pos
  let s := { s with pos := s.pos + 1 }
  if s.inString then s.inStringByte b
  else if b = quote then (s.openString p, [])
  else ({ s with toScope := s.toScope.punct b }, [b])

/-- The bytes of a chunk, in order. -/
def feed (s : Elider) : List UInt8 → Elider × List UInt8
  | [] => (s, [])
  | b :: bs =>
    let (s, out) := s.push b
    let (s, rest) := s.feed bs
    (s, out ++ rest)

/-- `finish`: what is flushed of a string still open at the end of the input. -/
def finish (s : Elider) : List UInt8 :=
  if s.inString then
    if s.eliding then [quote] ++ s.keptPrefix
    else if s.passthrough then []
    else s.pending
  else []

end Elider

/-! ## one line -/

/-- What one read consumed. -/
inductive LineOutcome
  | eof
  /-- a last line with no newline -/
  | torn (rawLen : Nat)
  | complete (rawLen elided : Nat) (skipped : Bool)
  deriving DecidableEq, Repr

/-- The locals of the reader's loop. -/
structure LineRead where
  out : List UInt8
  rawLen : Nat
  elider : Option Elider
  skipped : Bool
  deriving DecidableEq, Repr

namespace LineRead

/-- The start of a read. -/
def init : LineRead := ⟨[], 0, none, false⟩

/-- One chunk goes through the filter, or is copied. -/
def scanChunk (lineStart : Nat) (policy : Elision) (r : LineRead) (chunk : List UInt8) :
    LineRead :=
  if r.skipped then r
  else
    match r.elider with
    | some e =>
      let (e, out) := e.feed chunk
      { r with out := r.out ++ out, elider := some e }
    | none =>
      if scanThreshold < r.rawLen + chunk.length then
        -- the verbatim bytes are fed again, so that the state is right
        let (e, out) := (Elider.new lineStart policy).feed r.out
        let (e, out') := e.feed chunk
        { r with out := out ++ out', elider := some e }
      else { r with out := r.out ++ chunk }

/-- One chunk of the loop: consumed, counted, and held against the ceiling. -/
def chunk (lineStart : Nat) (policy : Elision) (r : LineRead) (chunk : List UInt8) : LineRead :=
  let r := r.scanChunk lineStart policy chunk
  let r := { r with rawLen := r.rawLen + chunk.length }
  if !r.skipped && decide (elideCeiling < r.out.length) then { r with out := [], skipped := true }
  else r

/-- The gauge at the end of the line. -/
def elided (r : LineRead) : Nat := (r.elider.map fun e => e.removed).getD 0

end LineRead

/-- `read_line_elided` over the buffers the reader hands out up to its end: the
outcome, the line, and the buffers left, the one with the newline cut after it. -/
def readLineElided (lineStart : Nat) (policy : Elision) :
    LineRead → List (List UInt8) → LineOutcome × List UInt8 × List (List UInt8)
  | r, [] =>
    if r.rawLen = 0 then (.eof, r.out, [])
    else (.torn r.rawLen, r.out ++ (r.elider.map Elider.finish).getD [], [])
  | r, buf :: bufs =>
    match buf.idxOf? newline with
    | some i =>
      let r := r.chunk lineStart policy (buf.take (i + 1))
      (.complete r.rawLen r.elided r.skipped, r.out,
        if buf.length = i + 1 then bufs else buf.drop (i + 1) :: bufs)
    | none => readLineElided lineStart policy (r.chunk lineStart policy buf) bufs

end ClaudeReplay
