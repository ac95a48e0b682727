import ClaudeReplay.Lib.Value
import ClaudeReplay.Metrics

/-!
# ClaudeReplay.Claude.Usage

The token fold of the Claude adapter: `MetricsAcc::push`, one transcript line at a time.

Claude Code writes one assistant message as several lines, one for each content item,
and every one of them carries the usage of the whole call. The fold keeps the key of the
call it credited last and what it credited for it, so a line that repeats the call adds
only what grew. A model priced by prompt length takes the tokens of a call whose prompt
is over the line into the long subset as well, and a call whose prompt grows across the
line moves what it was credited before.

Beside a call's own usage a line lists the inferences inside it; an `advisor_message`
entry is another model's, billed under that model, once for the call.
-/

namespace ClaudeReplay.Claude

open Lib

/-- What the price catalog says of a model: `long_prompt_over` and `prices_fast`. -/
structure Catalog where
  longPromptOver : String → Option Nat
  pricesFast : String → Bool

/-- `ServiceTier`. -/
inductive ServiceTier
  | unknown
  | standard
  | fast
  | ultrafast
  | flex
  | batch
  deriving DecidableEq, Repr

/-- `ServiceTier::from_recorded`: a closed vocabulary. -/
def ServiceTier.fromRecorded (value : String) : ServiceTier :=
  if value = "default" ∨ value = "standard" then .standard
  else if value = "priority" ∨ value = "fast" then .fast
  else if value = "ultrafast" then .ultrafast
  else if value = "flex" then .flex
  else if value = "batch" then .batch
  else .unknown

/-- `RequestPricing`: the billing class of one request. -/
structure RequestPricing where
  tier : ServiceTier
  longContext : Option Bool
  tierConfirmed : Bool
  deriving DecidableEq, Repr

/-- The runtime facts a Claude line can carry, of `RuntimeInfo`. -/
structure RuntimeInfo where
  contextWindowTokens : Option Nat := none
  reasoningEffort : Option String := none
  permissionProfile : Option String := none
  clientVersion : Option String := none
  deriving DecidableEq, Repr

/-- `MetricsAcc`. -/
structure MetricsAcc where
  perModel : StrMap TokenCounts := ∅
  model : String := ""
  /-- The observed span: its two endpoints. -/
  span : Option (Int × Int) := none
  extra : StrMap Nat := ∅
  /-- The call the last usage belonged to. -/
  lastUsageKey : Option String := none
  /-- The model that call was credited under. -/
  lastUsageModel : Option String := none
  /-- What has been credited for that call. -/
  credited : TokenCounts := {}
  /-- How many of that call's advisor entries are credited. -/
  creditedAdvisors : Nat := 0
  usageId : Option String := none
  requestPricing : Option RequestPricing := none
  runtime : RuntimeInfo := {}

/-! ## reading a line -/

/-- `Value::pointer`, for a path of field names. -/
def pointer (v : Lib.Value) (path : List String) : Option Lib.Value :=
  path.foldlM (fun v k => v.get? k) v

/-- A text field, `none` unless it is one. -/
def strField (v : Lib.Value) (k : String) : Option String := (v.get? k).bind Lib.Value.asStr

/-- A counter field, zero unless it is one. -/
def field (v : Lib.Value) (k : String) : Nat :=
  (((v.get? k).bind Lib.Value.asU64).map UInt64.toNat).getD 0

/-- `usage_tokens`: a split larger than its aggregate is held to it. -/
def usageTokens (usage : Lib.Value) : TokenCounts :=
  let cacheCreation := field usage "cache_creation_input_tokens"
  { input := field usage "input_tokens"
    cacheCreation := cacheCreation
    cacheRead := field usage "cache_read_input_tokens"
    output := field usage "output_tokens"
    cacheCreation1h :=
      min ((((pointer usage ["cache_creation", "ephemeral_1h_input_tokens"]).bind
        Lib.Value.asU64).map UInt64.toNat).getD 0) cacheCreation }

/-- The model the message of a line names. -/
def messageModel (v : Lib.Value) : Option String :=
  (pointer v ["message", "model"]).bind Lib.Value.asStr

/-- The API call a line names, its message and request ids joined by `sep`. -/
def callId (v : Lib.Value) (sep : String) : Option String :=
  ((pointer v ["message", "id"]).bind Lib.Value.asStr).map fun id =>
    match strField v "requestId" with
    | some r => id ++ sep ++ r
    | none => id

/-- The key of the call a line names: its ids joined by a zero byte. -/
def usageKey (v : Lib.Value) : Option String := callId v "\x00"

/-- The advisor entries among the inferences a usage lists. -/
def advisors (usage : Lib.Value) : List Lib.Value :=
  (((usage.get? "iterations").bind Lib.Value.asArray).getD []).filter fun e =>
    strField e "type" = some "advisor_message"

/-! ## token counts -/

/-- The classes as 64-bit words, as which a sum wraps. -/
def words (t : TokenCounts) : TokenCounts :=
  { input := t.input % 2 ^ 64
    cacheCreation := t.cacheCreation % 2 ^ 64
    cacheRead := t.cacheRead % 2 ^ 64
    output := t.output % 2 ^ 64
    cacheCreation1h := t.cacheCreation1h % 2 ^ 64
    longPrompt :=
      { input := t.longPrompt.input % 2 ^ 64
        cacheCreation := t.longPrompt.cacheCreation % 2 ^ 64
        cacheRead := t.longPrompt.cacheRead % 2 ^ 64
        output := t.longPrompt.output % 2 ^ 64
        cacheCreation1h := t.longPrompt.cacheCreation1h % 2 ^ 64 } }

/-- The size of a request's prompt. -/
def sent (t : TokenCounts) : Nat := t.input + t.cacheCreation + t.cacheRead

/-- `TokenCounts::prompt`: everything a request sent. -/
def prompt (t : TokenCounts) : Nat := sent t % 2 ^ 64

/-- `LongPrompt::from`: a request's classes, all of them over the threshold. -/
def longOf (t : TokenCounts) : LongPrompt :=
  ⟨t.input, t.cacheCreation, t.cacheRead, t.output, t.cacheCreation1h⟩

/-- What a repeat reports beyond what its call was credited, field by field. -/
def growth (seen credited : TokenCounts) : TokenCounts :=
  { input := seen.input - credited.input
    cacheCreation := seen.cacheCreation - credited.cacheCreation
    cacheRead := seen.cacheRead - credited.cacheRead
    output := seen.output - credited.output
    cacheCreation1h := seen.cacheCreation1h - credited.cacheCreation1h }

/-- The larger of two reports, field by field. -/
def larger (credited seen : TokenCounts) : TokenCounts :=
  { input := max credited.input seen.input
    cacheCreation := max credited.cacheCreation seen.cacheCreation
    cacheRead := max credited.cacheRead seen.cacheRead
    output := max credited.output seen.output
    cacheCreation1h := max credited.cacheCreation1h seen.cacheCreation1h }

/-! ## the fold -/

/-- Last value wins; an empty or missing text changes nothing. -/
def rememberString (slot : Option String) (value : Option Lib.Value) : Option String :=
  match value.bind Lib.Value.asStr with
  | some s => if s = "" then slot else some s
  | none => slot

/-- The runtime snapshot of a line. -/
def noteRuntime (r : RuntimeInfo) (v : Lib.Value) : RuntimeInfo :=
  let r :=
    if strField v "type" = some "permission-mode" then
      { r with permissionProfile := rememberString r.permissionProfile (v.get? "permissionMode") }
    else r
  let r :=
    { r with
      reasoningEffort := rememberString r.reasoningEffort (v.get? "effort")
      clientVersion := rememberString r.clientVersion (v.get? "version") }
  if strField v "type" = some "runtime-config" then
    { r with
      reasoningEffort := rememberString r.reasoningEffort (v.get? "reasoningEffort")
      contextWindowTokens :=
        match (v.get? "contextWindow").bind Lib.Value.asU64 with
        | some w => some w.toNat
        | none => r.contextWindowTokens }
  else r

/-- `MetricsAcc::bump`. -/
def bump (extra : StrMap Nat) (key : String) (n : Nat) : StrMap Nat :=
  extra.insert key ((extra.count key + n) % 2 ^ 64)

/-- The compactions a line reports. -/
def countCompactions (extra : StrMap Nat) (v : Lib.Value) : StrMap Nat :=
  if strField v "subtype" = some "compact_boundary" then
    match v.get? "compactMetadata" with
    | some m =>
      bump (bump extra "compactions" 1) "compact_dropped"
        (field m "preTokens" - field m "postTokens")
    | none => extra
  else extra

/-- `*bucket += tokens`, and the long subset with it where `long` is one. -/
def creditTo (perModel : StrMap TokenCounts) (model : String) (tokens : TokenCounts)
    (long : Option TokenCounts) : StrMap TokenCounts :=
  let bucket := words (perModel.count model + tokens)
  perModel.insert model <|
    match long with
    | some long => words { bucket with longPrompt := bucket.longPrompt + longOf long }
    | none => bucket

/-- One advisor entry: another model's tokens. One that names no model is passed over. -/
def creditAdvisor (catalog : Catalog) (perModel : StrMap TokenCounts) (entry : Lib.Value) :
    StrMap TokenCounts :=
  match strField entry "model" with
  | none => perModel
  | some model =>
    let tokens := usageTokens entry
    creditTo perModel model tokens
      (if (catalog.longPromptOver model).any (· < prompt tokens) then some tokens else none)

/-- `credit_advisors`: the entries past the count credited so far. -/
def creditAdvisors (catalog : Catalog) (acc : MetricsAcc) (usage : Lib.Value) : MetricsAcc :=
  let entries := advisors usage
  { acc with
    perModel := (entries.drop acc.creditedAdvisors).foldl (creditAdvisor catalog) acc.perModel
    creditedAdvisors := max acc.creditedAdvisors entries.length }

/-- The billing class of a request whose prompt is long or not, if its model asks. -/
def classOf (catalog : Catalog) (model : String) (usage : Lib.Value) (longContext : Option Bool) :
    RequestPricing :=
  let tier := strField usage "service_tier"
  let speed := strField usage "speed"
  if catalog.pricesFast model ∧ speed = some "fast" then
    ⟨.fast, longContext, true⟩
  else
    { tier :=
        match tier with
        | none => .unknown
        | some t => if t = "priority" then .unknown else .fromRecorded t
      longContext := longContext
      tierConfirmed := tier.isSome && speed.all (· = "standard") }

/-- Whether a line repeats the call credited last. -/
def isRepeat (acc : MetricsAcc) (key : Option String) (model : String) : Bool :=
  key.isSome && acc.lastUsageKey = key && acc.lastUsageModel = some model

/-- What goes to the long subset, `overLine` telling whether the call is over the line now and
was before: the credit, or all the call was credited when it has just crossed. -/
def longCredit (overLine : Option (Bool × Bool)) (credit credited : TokenCounts) :
    Option TokenCounts :=
  match overLine with
  | some (true, true) => some credit
  | some (true, false) => some credited
  | _ => none

/-- Credit the usage of a line that ran on `model` and names the call `key`. -/
def creditUsage (catalog : Catalog) (acc : MetricsAcc) (key usageId : Option String)
    (model : String) (u : Lib.Value) : MetricsAcc :=
  let seen := usageTokens u
  let again := isRepeat acc key model
  let credit := if again then growth seen acc.credited else seen
  let prior := acc.credited
  let credited := if again then larger acc.credited seen else seen
  -- a repeat is judged by what its call has credited in all
  let overLine := (catalog.longPromptOver model).map fun line =>
    (decide (line < prompt credited), again && decide (line < prompt prior))
  let pricing :=
    match overLine with
    | some (now, before) =>
      if credit ≠ {} ∧ ¬(now && again && !before) then
        some (classOf catalog model u (some now))
      else none
    | none =>
      if catalog.pricesFast model ∧ credit ≠ {} then some (classOf catalog model u none) else none
  let acc :=
    { acc with
      usageId := usageId
      credited := credited
      lastUsageKey := if again then acc.lastUsageKey else key
      lastUsageModel := if again then acc.lastUsageModel else some model
      creditedAdvisors := if again then acc.creditedAdvisors else 0
      requestPricing := pricing
      perModel := creditTo acc.perModel model credit (longCredit overLine credit credited) }
  creditAdvisors catalog acc u

/-- `TimeSpan::observe`. -/
def observe (span : Option (Int × Int)) (secs : Int) : Option (Int × Int) :=
  match span with
  | some (a, b) => some (min a secs, max b secs)
  | none => some (secs, secs)

/-- `MetricsAcc::push`; `parseTs` reads a timestamp. -/
def push (catalog : Catalog) (parseTs : String → Option Int) (acc : MetricsAcc) (v : Lib.Value) :
    MetricsAcc :=
  let acc :=
    { acc with
      usageId := none
      requestPricing := none
      runtime := noteRuntime acc.runtime v
      extra := countCompactions acc.extra v }
  -- the model this message ran on, not the last one seen
  let m := (messageModel v).getD acc.model
  let acc :=
    match pointer v ["message", "usage"] with
    | some u => creditUsage catalog acc (usageKey v) (callId v "/") m u
    | none => acc
  { acc with
    model := (messageModel v).getD acc.model
    span :=
      match (strField v "timestamp").bind parseTs with
      | some secs => observe acc.span secs
      | none => acc.span }

/-- A whole transcript. -/
def pushAll (catalog : Catalog) (parseTs : String → Option Int) (lines : List Lib.Value) :
    MetricsAcc :=
  lines.foldl (push catalog parseTs) {}

end ClaudeReplay.Claude
