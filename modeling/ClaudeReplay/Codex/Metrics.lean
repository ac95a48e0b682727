import ClaudeReplay.Codex.Clock
import ClaudeReplay.Lib.Tally

/-!
# ClaudeReplay.Codex.Metrics

The token fold of the Codex adapter: `CodexMetricsAcc::push`, one rollout line at a time.

Codex reports running totals, so a reading contributes its difference from the reading
before, credited to the model in force. The first reading of a forked thread inherits the
counter of its parent; what its own last request used is its share, and the rest is a
baseline. What was read before the session named a model is credited under the empty
name, and `finish` gives it to the model that was named first.

The counts are 64-bit, and adding them up wraps. Reading a timestamp is a parameter.
-/

namespace ClaudeReplay.Codex

open Lib Claude

/-! ## readings -/

/-- A counter as a rollout states it. -/
structure Usage where
  input : Nat
  cached : Nat
  cacheWrite : Nat
  output : Nat
  deriving DecidableEq, Repr

namespace Usage

/-- The fields of a usage object, zero where one is missing or no counter. -/
def read (usage : Lib.Value) : Usage where
  input := field usage "input_tokens"
  cached := field usage "cached_input_tokens"
  cacheWrite := field usage "cache_write_input_tokens"
  output := field usage "output_tokens"

/-- The classes of a usage: both cache classes are parts of the input. -/
def counts (u : Usage) : TokenCounts where
  input := u.input - u.cached - u.cacheWrite
  cacheCreation := u.cacheWrite
  cacheRead := u.cached
  output := u.output

end Usage

/-- A `token_count` line's running total, and what it says of the last request. -/
structure Reading where
  total : Usage
  last : Option Usage
  deriving DecidableEq, Repr

/-- What the first reading of a thread inherits: its total less its own last request. -/
def Reading.inherited (r : Reading) : TokenCounts :=
  match r.last with
  | some last => r.total.counts - last.counts
  | none => {}

/-- Whether a line is a `token_count` event. -/
def isTokenCount (value : Lib.Value) : Bool :=
  strField value "type" = some "event_msg" &&
    (pointer value ["payload", "type"]).bind Lib.Value.asStr = some "token_count"

/-- The running total of a line, if it has one. -/
def readingOf (value : Lib.Value) : Option Reading :=
  if isTokenCount value then
    (pointer value ["payload", "info", "total_token_usage"]).map fun total =>
      ⟨.read total, (pointer value ["payload", "info", "last_token_usage"]).map .read⟩
  else none

/-- The model a line puts in force. -/
def modelOf (value : Lib.Value) : Option String :=
  if strField value "type" = some "turn_context" then
    (pointer value ["payload", "model"]).bind Lib.Value.asStr
  else none

/-! ## the accumulator -/

/-- `AnswerTiming`. -/
structure AnswerTiming (τ : Type) where
  id : String
  model : String
  provider : Option String
  sent : Option τ
  first : Option τ
  last : Option τ
  lines : Nat
  outputTokens : Option Nat
  deriving DecidableEq

/-- `CodexMetricsAcc`. -/
structure CodexMetricsAcc (τ : Type) where
  /-- Tokens by the model in force when they were reported. -/
  perModel : Table String TokenCounts := .empty
  /-- The last cumulative reading. -/
  lastTotal : TokenCounts := {}
  requestPricing : Option RequestPricing := none
  /-- The reading the last line credited. -/
  usageId : Option String := none
  /-- The answer the last line credited. -/
  answer : Option (AnswerTiming τ) := none
  provider : Option String := none
  clock : ResponseClock τ := {}
  /-- Whether any reading was folded yet. -/
  seenUsage : Bool := false
  lastContextTokens : Option Nat := none
  pendingCompactionPreTokens : Option Nat := none
  model : String := ""
  /-- The first model the session named. -/
  firstModel : String := ""
  extra : StrMap Nat := ∅
  serviceTier : Option String := none

namespace CodexMetricsAcc

variable {τ : Type}

/-- `u64` addition: what does not fit 64 bits wraps. Codex leaves the other classes empty. -/
def wrap (t : TokenCounts) : TokenCounts :=
  { t with
    input := t.input % 2 ^ 64
    cacheCreation := t.cacheCreation % 2 ^ 64
    cacheRead := t.cacheRead % 2 ^ 64
    output := t.output % 2 ^ 64 }

/-- `*per_model.entry(model) += tokens`. -/
def bank (perModel : Table String TokenCounts) (model : String) (tokens : TokenCounts) :
    Table String TokenCounts :=
  perModel.put model (wrap (perModel.amount model + tokens))

/-- `malformed_line`. -/
def malformedLine (acc : CodexMetricsAcc τ) : CodexMetricsAcc τ :=
  { acc with extra := bump acc.extra "malformed_lines" 1, clock := acc.clock.unread }

/-- The items of a rollout that the fold knows. -/
def supportedItems : List String :=
  ["message", "reasoning", "function_call", "custom_tool_call", "function_call_output",
    "custom_tool_call_output", "tool_search_call", "tool_search_output", "web_search_call",
    "image_generation_call", "agent_message"]

/-- A tier that is written replaces the one before, an empty one too. -/
def noteTier (serviceTier : Option String) (value : Option Lib.Value) : Option String :=
  match value with
  | some tier => tier.asStr.filter (· ≠ "")
  | none => serviceTier

/-- The first name that is not empty stays. -/
def nameFirst (firstModel : String) (named : Option String) : String :=
  match named with
  | some next => if firstModel = "" ∧ next ≠ "" then next else firstModel
  | none => firstModel

/-- What a line changes beside the counters: the clock, the session's facts, the model in force
and the bag of agent-specific counters. -/
def noteLine (epochSecs : String → Option τ) (acc : CodexMetricsAcc τ) (value : Lib.Value) :
    CodexMetricsAcc τ :=
  let type := strField value "type"
  let isMeta := type = some "session_meta"
  let clock := acc.clock.line ((strField value "timestamp").bind epochSecs) (.of value)
  let kind := (pointer value ["payload", "type"]).bind Lib.Value.asStr
  let settings := type = some "event_msg" ∧ kind = some "thread_settings_applied"
  let extra := if type = some "compacted" then bump acc.extra "compactions" 1 else acc.extra
  { acc with
    requestPricing := none
    usageId := none
    answer := none
    clock :=
      match (pointer value ["payload", "cli_version"]).bind Lib.Value.asStr with
      | some version =>
        if isMeta then { clock with itemsUnseen := transportIgnored version } else clock
      | none => clock
    provider :=
      match (pointer value ["payload", "model_provider"]).bind Lib.Value.asStr with
      | some p => if isMeta then some p |>.filter (· ≠ "") else acc.provider
      | none => acc.provider
    pendingCompactionPreTokens :=
      if type = some "compacted" then acc.lastContextTokens else acc.pendingCompactionPreTokens
    firstModel := nameFirst acc.firstModel (modelOf value)
    model := (modelOf value).getD acc.model
    serviceTier :=
      if type = some "turn_context" then
        noteTier acc.serviceTier (pointer value ["payload", "service_tier"])
      else if settings then
        noteTier acc.serviceTier (pointer value ["payload", "thread_settings", "service_tier"])
      else acc.serviceTier
    extra :=
      if type = some "response_item" ∧ ¬kind.any (· ∈ supportedItems) then
        bump extra "unsupported_items" 1
      else extra }

/-- A counter at a path, if there is one. -/
def counterAt (value : Lib.Value) (path : List String) : Option Nat :=
  ((pointer value path).bind Lib.Value.asU64).map UInt64.toNat

/-- The context occupancy a `token_count` line reports, its drop after a compaction counted. -/
def noteContext (acc : CodexMetricsAcc τ) (value : Lib.Value) : CodexMetricsAcc τ :=
  let last := ["payload", "info", "last_token_usage"]
  match (counterAt value (last ++ ["total_tokens"])).or
      (counterAt value (last ++ ["input_tokens"])) with
  | some tokens =>
    { acc with
      extra :=
        match acc.pendingCompactionPreTokens with
        | some pre => bump acc.extra "compact_dropped" (pre - tokens)
        | none => acc.extra
      pendingCompactionPreTokens := none
      lastContextTokens := some tokens }
  | none => acc

/-- What a reading is measured from: the reading before, or what the first one inherits. -/
def baseline (acc : CodexMetricsAcc τ) (r : Reading) : TokenCounts :=
  if acc.seenUsage then acc.lastTotal
  else match r.last with
    | some _ => r.inherited
    | none => acc.lastTotal

/-- What a reading adds: a counter that goes backwards adds nothing. -/
def increment (acc : CodexMetricsAcc τ) (r : Reading) : TokenCounts :=
  r.total.counts - acc.baseline r

/-- Whether the increment is one request's: the last one's own usage is all of it. -/
def oneRequest (acc : CodexMetricsAcc τ) (r : Reading) : Bool :=
  r.last.any fun last => last.counts = acc.increment r && acc.increment r ≠ {}

/-- Whether this is the first reading and stands above what its own request used. -/
def inheritedHistory (acc : CodexMetricsAcc τ) (r : Reading) : Bool :=
  !acc.seenUsage && acc.baseline r ≠ {}

/-- The name of a reading: its time and its raw totals. -/
def readingId (value : Lib.Value) (r : Reading) : String :=
  (strField value "timestamp").getD "" ++ "/" ++ toString r.total.input ++ "/" ++
    toString r.total.output

/-- Bank a reading. -/
def count (epochSecs : String → Option τ) (acc : CodexMetricsAcc τ) (value : Lib.Value)
    (r : Reading) : CodexMetricsAcc τ :=
  let delta := acc.increment r
  let oneRequest := acc.oneRequest r
  let inherited := acc.inheritedHistory r
  let acc' :=
    if delta ≠ {} then
      let counted := acc.clock.counted ((strField value "timestamp").bind epochSecs)
      { acc with
        clock := counted.1
        usageId := some (readingId value r)
        answer := some {
          id := readingId value r
          model := acc.model
          provider := acc.provider
          sent := counted.2.1.filter fun _ => oneRequest && !inherited
          first := counted.2.2.1.filter fun _ => oneRequest && !inherited
          last := counted.2.2.2.1
          lines := counted.2.2.2.2
          outputTokens := counterAt value ["payload", "info", "last_token_usage", "output_tokens"] } }
    else acc
  { acc' with
    seenUsage := true
    requestPricing :=
      if oneRequest then
        some {
          tier := (acc.serviceTier.map .fromRecorded).getD .unknown
          longContext :=
            (counterAt value ["payload", "info", "last_token_usage", "input_tokens"]).map
              fun n => decide (272000 < n)
          tierConfirmed := false }
      else acc.requestPricing
    perModel := bank acc.perModel acc.model delta
    lastTotal := r.total.counts }

/-- `CodexMetricsAcc::push`. -/
def push (epochSecs : String → Option τ) (acc : CodexMetricsAcc τ) (value : Lib.Value) :
    CodexMetricsAcc τ :=
  let acc := acc.noteLine epochSecs value
  let acc := if isTokenCount value then acc.noteContext value else acc
  match readingOf value with
  | some r => acc.count epochSecs value r
  | none => acc

/-! ## the cursor -/

/-- The clock of a cursor. What later versions added may be missing. -/
structure ClockState (τ : Type) where
  prev : Option τ
  open_ : Option (OpenAnswer τ)
  blind : Bool
  continuationUnknown : Option Bool
  itemsUnseen : Option Bool
  awaitingReading : Option Bool

/-- A cursor: what `state` writes, each field missing from a cursor that is older. -/
structure Cursor (τ : Type) where
  totals : Option (Table String TokenCounts × StrMap Nat)
  lastTotal : Option TokenCounts
  seenUsage : Option Bool
  lastContextTokens : Option Nat
  pendingCompactionPreTokens : Option Nat
  model : Option String
  firstModel : Option String
  serviceTier : Option (Option String)
  provider : Option String
  clock : Option (ClockState τ)

/-- `CodexMetricsAcc::state`. -/
def state (acc : CodexMetricsAcc τ) : Cursor τ where
  totals := some (acc.perModel, acc.extra)
  lastTotal := some acc.lastTotal
  seenUsage := some acc.seenUsage
  lastContextTokens := acc.lastContextTokens
  pendingCompactionPreTokens := acc.pendingCompactionPreTokens
  model := some acc.model
  firstModel := some acc.firstModel
  serviceTier := some acc.serviceTier
  provider := acc.provider
  clock := some {
    prev := acc.clock.prev
    open_ := acc.clock.open_
    blind := acc.clock.blind
    continuationUnknown := some acc.clock.continuationUnknown
    itemsUnseen := some acc.clock.itemsUnseen
    awaitingReading := some acc.clock.awaitingReading }

/-- The clock of a cursor, what an older one cannot say taken to be unknown. -/
def ClockState.restore (s : ClockState τ) : ResponseClock τ :=
  let c : ResponseClock τ := {
    prev := s.prev
    open_ := s.open_
    blind := s.blind
    continuationUnknown := s.continuationUnknown.getD false
    itemsUnseen := s.itemsUnseen.getD false
    awaitingReading := s.awaitingReading.getD false }
  let c :=
    if s.awaitingReading.isNone then
      { c with
        awaitingReading := true
        prev := none
        open_ := c.open_.map fun o => { o with sent := none } }
    else c
  let c := if s.itemsUnseen.isNone then { c with itemsUnseen := true } else c
  if c.itemsUnseen && s.continuationUnknown.isNone then
    { c.unread with continuationUnknown := true }
  else c

/-- `CodexMetricsAcc::restore`. -/
def restore (acc : CodexMetricsAcc τ) (cursor : Cursor τ) : CodexMetricsAcc τ :=
  match cursor.totals with
  | none => acc
  | some (tokens, extra) =>
    let lastTotal := cursor.lastTotal.getD acc.lastTotal
    { acc with
      perModel := tokens
      extra := extra
      lastTotal := lastTotal
      seenUsage := cursor.seenUsage.getD (decide (lastTotal ≠ {}))
      lastContextTokens := cursor.lastContextTokens
      pendingCompactionPreTokens := cursor.pendingCompactionPreTokens
      model := cursor.model.getD acc.model
      firstModel := cursor.firstModel.getD acc.firstModel
      provider := cursor.provider.or acc.provider
      clock := (cursor.clock.map ClockState.restore).getD .resumedBlind
      serviceTier := cursor.serviceTier.getD acc.serviceTier }

/-! ## the end -/

/-- The flat totals and the buckets of the metrics. -/
structure Metrics where
  perModel : Table String TokenCounts
  inputTokens : Nat
  cacheCreationTokens : Nat
  cacheReadTokens : Nat
  outputTokens : Nat
  model : String

/-- The model that claims what was read before one was named. -/
def claimant (acc : CodexMetricsAcc τ) : String :=
  if acc.firstModel = "" then acc.model else acc.firstModel

/-- The buckets, those without a name given to the claimant. -/
def finishedModels (acc : CodexMetricsAcc τ) : Table String TokenCounts :=
  if acc.claimant ≠ "" then
    match acc.perModel.find? "" with
    | some inherited => bank (acc.perModel.erase "") acc.claimant inherited
    | none => acc.perModel
  else acc.perModel

/-- `CodexMetricsAcc::finish`. -/
def finish (acc : CodexMetricsAcc τ) : Metrics :=
  let perModel := acc.finishedModels
  let tot := perModel.rows.foldl (fun tot row => wrap (tot + row.2)) {}
  { perModel := perModel
    inputTokens := tot.input
    cacheCreationTokens := tot.cacheCreation
    cacheReadTokens := tot.cacheRead
    outputTokens := tot.output
    model := acc.model }

end CodexMetricsAcc

end ClaudeReplay.Codex
