import ClaudeReplay.Claude.Usage

/-!
# ClaudeReplay.Codex.Clock

The response clock of the Codex adapter: it times each answer of the model from the
rollout around the counter reading that counts it.

Codex writes each item the model sends as a line when the item ends, and each line sent
with the next request as it records it; `token_usage_record` marks when a response ended;
the reading comes after. So an answer is the items read since the reading before, its
request went out with the latest line sent before its first item, and it ends where its
end is recorded, or else at its last item. Where the session leaves the transport's lines
out of the fold the items read may not be all there were.

A time is only ever copied, so the type of times is a parameter.
-/

namespace ClaudeReplay.Codex

open Lib Claude

/-! ## what a line is -/

/-- What one rollout line is to the clock. -/
inductive RolloutLine
  /-- An item the model sent. -/
  | item
  /-- A message sent to the model that opens a request. -/
  | prompt
  /-- Anything else the next request carries. -/
  | sent
  /-- A compaction's summary. -/
  | compaction
  /-- The response ended. -/
  | ended
  | other
  deriving DecidableEq, Repr

/-- The items of the model beside its messages. -/
def itemKinds : List String :=
  ["reasoning", "function_call", "custom_tool_call", "local_shell_call", "web_search_call",
    "tool_search_call", "image_generation_call"]

/-- `RolloutLine::of`. -/
def RolloutLine.of (value : Lib.Value) : RolloutLine :=
  let payload := fun key => (pointer value ["payload", key]).bind Lib.Value.asStr
  let type := strField value "type"
  if type = some "response_item" then
    match payload "type" with
    | none => .other
    | some kind =>
      if kind = "message" then
        match payload "role" with
        | some role => if role = "assistant" then .item else .prompt
        | none => .other
      else if kind ∈ itemKinds then .item
      else if kind = "compaction" then .compaction
      else if kind = "agent_message" then .sent
      else if "_output".toList.isSuffixOf kind.toList then .sent
      else .other
  else if type = some "compacted" then .compaction
  else if type = some "token_usage_record" then .ended
  else .other

/-! ## which sessions hide items -/

/-- A number between the dots of a version: up to a dash, and zero when it is none. -/
def versionPart (part : List Char) : Nat :=
  let digits := part.takeWhile (· ≠ '-')
  let digits := if digits.head? = some '+' then digits.tail else digits
  if digits.isEmpty || !digits.all Char.isDigit then 0
  else
    let n := digits.foldl (fun n c => 10 * n + (c.toNat - '0'.toNat)) 0
    if n < 2 ^ 64 then n else 0

/-- `codex_version_at_least`, the first three numbers compared from the left. -/
def codexVersionAtLeast (version : String) (minimum : Nat × Nat × Nat) : Bool :=
  let parts := (version.toList.splitOn '.').map versionPart
  let found := (parts.getD 0 0, parts.getD 1 0, parts.getD 2 0)
  minimum.1 < found.1 || (minimum.1 = found.1 &&
    (minimum.2.1 < found.2.1 || (minimum.2.1 = found.2.1 && minimum.2.2 ≤ found.2.2)))

/-- Whether a session of this version leaves the transport's lines out of the fold. -/
def transportIgnored (version : String) : Bool := codexVersionAtLeast version (0, 147, 0)

/-! ## the clock -/

/-- The answer whose items were read, and its reading not yet. -/
structure OpenAnswer (τ : Type) where
  sent : Option τ
  first : Option τ
  /-- The time of its last item read. -/
  last : Option τ
  lines : Nat
  /-- A record said its response ended. -/
  ended : Bool
  /-- When, where that record carried a time. -/
  end_ : Option τ
  /-- No prompt or compaction has intervened after the response ended. -/
  uninterrupted : Bool
  deriving DecidableEq

structure ResponseClock (τ : Type) where
  /-- The time of the latest line sent to the model: the next answer's `sent`. -/
  prev : Option τ := none
  open_ : Option (OpenAnswer τ) := none
  /-- The answer whose item comes next may have begun before what was read. -/
  blind : Bool := false
  /-- Further readings cannot establish the beginning of an interrupted answer. -/
  continuationUnknown : Bool := false
  /-- The session leaves the transport's lines out of the fold. -/
  itemsUnseen : Bool := false
  /-- A response ended since the last counted reading. -/
  awaitingReading : Bool := false
  deriving DecidableEq

namespace ResponseClock

variable {τ : Type}

/-- A clock for a fold resumed from a state written before it existed. -/
def resumedBlind : ResponseClock τ := { blind := true, itemsUnseen := true }

/-- The answer that an item opens. -/
def opening (c : ResponseClock τ) (ts : Option τ) : OpenAnswer τ where
  sent := if c.blind || (c.awaitingReading && c.itemsUnseen) then none else c.prev
  first := if c.blind then none else ts
  last := ts
  lines := 1
  ended := false
  end_ := none
  uninterrupted := true

/-- Fold one line: its time, and what it is to the answers. -/
def line (c : ResponseClock τ) (ts : Option τ) : RolloutLine → ResponseClock τ
  | .item =>
    match c.open_ with
    | some o =>
      if o.ended then { c with open_ := some (c.opening ts), blind := false }
      else { c with open_ := some { o with last := ts.or o.last, lines := o.lines + 1 } }
    | none => { c with open_ := some (c.opening ts), blind := false }
  | .prompt =>
    { c with
      open_ :=
        match c.open_ with
        | some o => if o.ended then some { o with uninterrupted := false } else none
        | none => none
      prev := ts
      blind := false
      continuationUnknown := false }
  | .sent => { c with prev := ts }
  | .compaction =>
    { c with
      open_ := c.open_.map fun o => if o.ended then { o with uninterrupted := false } else o
      prev := ts }
  | .ended =>
    { c with
      awaitingReading := true
      prev := none
      continuationUnknown := false
      open_ :=
        match c.open_ with
        | some o => if o.ended then none else some { o with ended := true, end_ := ts }
        | none => none }
  | .other => c

/-- A line that could not be read. -/
def unread (c : ResponseClock τ) : ResponseClock τ :=
  { c with prev := none, open_ := none, blind := true }

/-- What a reading says of the answer it counts: when it was sent, its first and last times, and
its lines. -/
abbrev Timing (τ : Type) : Type := Option τ × Option τ × Option τ × Nat

/-- A reading that moved the counter. -/
def counted (c : ResponseClock τ) (ts : Option τ) : ResponseClock τ × Timing τ :=
  let c' := { c with
    prev := ts, blind := c.continuationUnknown, awaitingReading := false, open_ := none }
  match c.open_ with
  | some o =>
    if c.itemsUnseen && !o.ended then
      ({ c' with blind := true, continuationUnknown := true }, (none, none, ts, 1))
    else if o.uninterrupted then
      (c', (o.sent, o.first, o.end_.or (if c.itemsUnseen then none else o.last), o.lines))
    else (c', (none, none, ts, 1))
  | none => (c', (none, none, ts, 1))

end ResponseClock

end ClaudeReplay.Codex
