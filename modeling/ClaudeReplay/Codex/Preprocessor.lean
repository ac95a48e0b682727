import ClaudeReplay.Codex.Clock
import ClaudeReplay.Codex.PatchLiterals
import ClaudeReplay.Codex.ToolObject
import ClaudeReplay.Lib.Table
import ClaudeReplay.Message

/-!
# ClaudeReplay.Codex.Preprocessor

The line preprocessor of the Codex adapter.

It decides of each rollout line whether the decoder reads it, whether it is left out, or which
messages stand for it. A session whose version hides the transport draws a command or an edit
from the event Codex records for it, its mirror, and leaves out the `exec` call around it and
the call's output. A patch that Codex rejected has no mirror, so the patches of each call are
kept until a mirror or the call's own output comes.

The state is a record that a resume writes as JSON and reads back (`restore_state`). What the
preprocessor only passes on is a parameter, a `Reader`.
-/

namespace ClaudeReplay.Codex.Preprocessor

open Lib Claude

abbrev Text := List Char

/-! ## the messages -/

/-- The messages the preprocessor builds; `decoded` is one that a decoder built. -/
inductive Message (τ : Type)
  | lineStart (ts : Option τ)
  | toolUse (id name : String) (input : Lib.Value) (cwd : String)
  | toolResult (toolUseId text : String) (tur : Lib.Value) (isError : Option Bool)
  | taskOp (op : TaskOp)
  | compactBoundary (trigger : CompactTrigger) (preTokens postTokens : UInt64)
  | compactUsage (preTokens postTokens : UInt64)
  | compactSummary (text : String)
  | userText (text : String)
  | decoded (m : ClaudeReplay.Message)

/-- What becomes of a line. -/
inductive PreprocessedLine (τ : Type)
  | include
  | ignore
  | messages (ms : List (Message τ))

/-- What the preprocessor calls: the JSON library, and the decoders of the lines it only
passes on. `τ` is the finite `f64`. -/
structure Reader (τ : Type) where
  /-- `serde_json::from_str` -/
  parseJson : Text → Option Lib.Value
  /-- `Value::to_string` -/
  jsonText : Lib.Value → String
  /-- `epoch_secs` -/
  epochSecs : String → Option τ
  /-- `Value::as_f64` -/
  asF64 : Lib.Value → Option τ
  /-- a number as a JSON value -/
  f64Value : τ → Lib.Value
  /-- `f64::default` -/
  zero : τ
  /-- at most five seconds apart -/
  near : τ → τ → Bool
  /-- `decode_value` of a user's message: the working directory after it, and its messages -/
  decodeUser : Lib.Value → String → String × List ClaudeReplay.Message
  /-- `semantic_exec_messages` of an item that is no file change -/
  otherItem : Lib.Value → Option τ → String → Option (List ClaudeReplay.Message)
  /-- `relativize` -/
  relativize : String → String → String
  /-- A number is read back from its JSON value. -/
  asF64_f64Value : ∀ t, asF64 (f64Value t) = some t

/-! ## the state -/

/-- Where a child's rollout stands. -/
structure ChildRollout (τ : Type) where
  sessionStartedAt : τ
  agentPath : String
  skippingParentSnapshot : Bool

structure CodexLinePreprocessor (τ : Type) where
  child : Option (ChildRollout τ) := none
  sourceVersion : Option String := none
  sourceSession : Option String := none
  /-- The session's version hides the transport. -/
  semanticExec : Bool := false
  /-- The calls whose output is left out. -/
  transportCalls : List String := []
  /-- The patches a call carried, by its id, until a mirror or its output comes. -/
  unmirroredPatches : Table String (List Text) := Table.empty
  cwd : String := ""
  lastContextTokens : Option UInt64 := none
  pendingCompactionPreTokens : Option UInt64 := none

variable {τ : Type} (R : Reader τ)

/-! ## what a line holds -/

/-- A text field of the payload. -/
def payloadStr (v : Lib.Value) (k : String) : Option String := strField (v.get "payload") k

def isType (v : Lib.Value) (k : String) : Bool := strField v "type" = some k

def timestamp (v : Lib.Value) : Option τ := (strField v "timestamp").bind R.epochSecs

/-- The id a call and its output share, empty when there is none. -/
def callId (v : Lib.Value) : String := (strField (v.get "payload") "call_id").getD ""

/-- `update_preprocessor_session` and `remember_session`. -/
def rememberSession (s : CodexLinePreprocessor τ) (v : Lib.Value) : CodexLinePreprocessor τ :=
  { s with
    cwd := ((payloadStr v "cwd").filter (· ≠ "")).getD s.cwd
    semanticExec := ((payloadStr v "cli_version").map transportIgnored).getD s.semanticExec
    sourceVersion := payloadStr v "cli_version"
    sourceSession := payloadStr v "id" }

/-- `codex_context_tokens`. -/
def contextTokens (v : Lib.Value) : Option UInt64 :=
  let usage := fun k =>
    (pointer v ["payload", "info", "last_token_usage", k]).bind Lib.Value.asU64
  (usage "total_tokens").or (usage "input_tokens")

/-- `call_input`. -/
def callInput (payload : Lib.Value) : Lib.Value :=
  if isType payload "function_call" then
    ((strField payload "arguments").bind fun arguments => R.parseJson arguments.toList).getD
      (payload.get "arguments")
  else
    payload.get "input"

/-- `is_wait_transport`. -/
def isWaitTransport (payload : Lib.Value) : Bool :=
  isType payload "function_call" && strField payload "name" = some "wait" &&
    ((callInput R payload).get? "cell_id").isSome

/-- An `exec` call of the orchestration. -/
def isExec (payload : Lib.Value) : Bool :=
  isType payload "custom_tool_call" && strField payload "name" = some "exec"

/-- Its code. -/
def execCode (payload : Lib.Value) : Text := ((strField payload "input").getD "").toList

def applyPatchCall : Text := "tools.apply_patch(".toList

def transportCallTexts : List Text :=
  ["tools.exec_command(".toList, "tools.write_stdin(".toList, applyPatchCall,
    "tools.web__run(".toList]

/-- `is_semantic_exec_transport`. -/
def isSemanticExecTransport (payload : Lib.Value) : Bool :=
  isExec payload && transportCallTexts.any fun needle => occurs needle (execCode payload)

/-- `orchestrated_task_call`: the task call in an orchestration's code, and its argument. -/
def orchestratedTaskCall (payload : Lib.Value) : Option (String × Lib.Value) :=
  if isExec payload then
    ["update_plan", "create_goal", "update_goal"].findSome? fun name =>
      (ToolObject.jsToolObject R.parseJson (execCode payload) name.toList).map fun input =>
        (name, input)
  else
    none

/-- The patches of a call that applies some. -/
def carriedPatches (payload : Lib.Value) : List Text :=
  if occurs applyPatchCall (execCode payload) then Patches.patchLiterals (execCode payload)
  else []

/-- `/content/0/text` reads the first element of an array, or the field `0`. -/
def first? : Lib.Value → Option Lib.Value
  | .arr items => items.head?
  | v => v.get? "0"

/-- `output_text`. -/
def outputText : Lib.Value → String
  | .str text =>
    ((R.parseJson text.toList).bind fun nested =>
      ((strField nested "output").or (strField nested "text")).or
        (((nested.get? "content").bind first?).bind fun item => strField item "text")).getD text
  | .arr items => "\n".intercalate (items.filterMap fun item => strField item "text")
  | .null => ""
  | other => R.jsonText other

def scriptError : Text := "Script error:".toList

/-- `rejected_patch_reason`. -/
def rejectedPatchReason (payload : Lib.Value) : Option String :=
  let text := (outputText R (payload.get "output")).toList
  if "Script failed".toList.isPrefixOf text || occurs scriptError text then
    some (String.ofList (trimChars (((splitAt? scriptError text).map Prod.snd).getD text)))
  else
    none

/-! ## the messages of a line -/

/-- Marks a result that the adapter wrote about an edit. -/
def editNote : Lib.Value := .obj [("__codex_edit_note", .bool true)]

/-- A `ToolExecution` that failed. -/
def failedExecution : Lib.Value :=
  .obj [("status", .str "Failed"), ("exit_code", .null), ("duration", .null)]

/-- The failed edit of one file. -/
def rejectedEdit (callId reason cwd : String) (index : Nat) (file : Text) : List (Message τ) :=
  let id := callId ++ ":" ++ toString index
  [.toolUse id "apply_patch"
      (.obj [("patch", .str (String.ofList file)), ("__execution", failedExecution)]) cwd,
    .toolResult id reason editNote (some true)]

/-- `rejected_patch_messages`. -/
def rejectedPatchMessages (callId : String) (ts : Option τ) (patches : List Text)
    (reason cwd : String) : List (Message τ) :=
  .lineStart ts ::
    ((patches.flatMap Patches.patchFiles).mapIdx (rejectedEdit callId reason cwd)).flatten

/-- `prefixed_lines`. -/
def prefixedLines (text : String) (mark : Char) : String :=
  String.ofList ((strLines text.toList).flatMap fun line => mark :: line ++ ['\n'])

/-- The edit of one path of a `FileChange`, as a patch. -/
def changePatch (path : String) (change : Lib.Value) : String :=
  let kind := (strField change "type").getD "update"
  let header := if kind = "add" then "*** Add File: "
    else if kind = "delete" then "*** Delete File: " else "*** Update File: "
  let diff := (strField change "unified_diff").getD ""
  let body := match strField change "content" with
    | some text =>
      if kind = "add" ∧ diff = "" then prefixedLines text '+'
      else if kind = "delete" ∧ diff = "" then prefixedLines text '-'
      else diff
    | none => diff
  let moveLine := (((strField change "move_path").filter (· ≠ "")).map fun to_ =>
    "*** Move to: " ++ to_ ++ "\n").getD ""
  header ++ path ++ "\n" ++ moveLine ++ body

/-- The messages of one path of a `FileChange`. -/
def changeMessages (eventId cwd : String) (index : Nat) (entry : String × Lib.Value) :
    List (Message τ) :=
  let id := eventId ++ ":" ++ toString index
  .toolUse id "apply_patch" (.str (changePatch entry.1 entry.2)) cwd ::
    (((strField entry.2 "move_path").filter (· ≠ "")).map fun to_ =>
      Message.toolResult id ("Moved to " ++ R.relativize to_ cwd) editNote none).toList

/-- The messages of a `FileChange` with these changes. -/
def fileChangeMessages (item : Lib.Value) (changes : List (String × Lib.Value)) (ts : Option τ)
    (cwd : String) : List (Message τ) :=
  .lineStart ts ::
    (changes.mapIdx (changeMessages R ((strField item "id").getD "edit") cwd)).flatten

/-- `semantic_exec_messages`. -/
def semanticExecMessages (v : Lib.Value) (cwd : String) : Option (List (Message τ)) :=
  if isType v "event_msg" ∧ payloadStr v "type" = some "item_completed" then
    (pointer v ["payload", "item"]).bind fun item =>
      if isType item "FileChange" then
        ((item.get? "changes").bind Lib.Value.asObject).bind fun changes =>
          if changes = [] then none
          else some (fileChangeMessages R item changes (timestamp R v) cwd)
      else
        (R.otherItem item (timestamp R v) cwd).map (List.map Message.decoded)
  else
    none

/-- `codex_task_op`. -/
def codexTaskOp (rawName : String) (input : Lib.Value) : Option TaskOp :=
  let objects := fun k => ((input.get? k).bind Lib.Value.asArray).getD []
  if rawName = "update_plan" then
    some (.snapshot ((objects "plan").filterMap fun item =>
      ((strField item "step").map trim).bind fun text =>
        if text = "" then none
        else some ⟨text, (strField item "status").getD "pending", ""⟩) none)
  else if rawName = "create_goal" then
    ((strField input "objective").filter (!isBlank ·)).map fun objective =>
      .snapshot [⟨trim objective, "in_progress", ""⟩] none
  else if rawName = "update_goal" then
    let status := strField input "status"
    some (.update "0"
      (status.map fun status =>
        if status = "complete" ∨ status = "blocked" then "completed" else "pending")
      none (status.filter (· = "blocked")) none [] [])
  else
    none

/-- `codex_plan_update_text`. -/
def codexPlanUpdateText (input : Lib.Value) : String :=
  let explanation := ((strField input "explanation").filter (!isBlank ·)).map trim
  let steps := (((input.get? "plan").bind Lib.Value.asArray).getD []).filterMap fun item =>
    (((strField item "step").map trim).filter (· ≠ "")).map fun step =>
      let status := match strField item "status" with
        | some "completed" => "Completed"
        | some "in_progress" => "InProgress"
        | some "pending" | none => "Pending"
        | some other => other
      status ++ ": " ++ step
  "\n".intercalate ("Updated Plan" :: explanation.toList ++ steps)

/-- The messages of an orchestrated task call. -/
def taskCallMessages (id name : String) (input : Lib.Value) (ts : Option τ) (cwd : String) :
    List (Message τ) :=
  [.lineStart ts, .toolUse id name input cwd] ++ ((codexTaskOp name input).map .taskOp).toList ++
    if name = "update_plan" then [.toolResult id (codexPlanUpdateText input) .null none] else []

/-! ## the stages of `process` -/

/-- The state after a stage, and the line's fate if the stage settled it. -/
abbrev Answer (τ : Type) := CodexLinePreprocessor τ × Option (PreprocessedLine τ)

/-- Go on to the next stage, unless the line is settled. -/
def Answer.andThen (a : Answer τ) (next : CodexLinePreprocessor τ → Answer τ) : Answer τ :=
  match a.2 with
  | some _ => a
  | none => next a.1

/-- The header of a session, or of the copy of its parent's transcript. -/
def sessionMeta (s : CodexLinePreprocessor τ) (v : Lib.Value) : Answer τ :=
  if isType v "session_meta" then
    match pointer v ["payload", "source", "subagent", "thread_spawn"] with
    | some spawn =>
      let child := s.child.getD
        { sessionStartedAt := (timestamp R v).getD R.zero
          agentPath := (strField spawn "agent_path").getD ""
          skippingParentSnapshot := false }
      (rememberSession { s with child := some child } v, some .include)
    | none =>
      match s.child with
      | some child =>
        ({ s with child := some { child with skippingParentSnapshot := true } }, some .ignore)
      | none => (rememberSession s v, none)
  else
    (s, none)

/-- The line with which a child's own transcript begins behind the copy. -/
def startsChild (child : ChildRollout τ) (v : Lib.Value) : Bool :=
  isType v "event_msg" && payloadStr v "type" = some "task_started" &&
    (((pointer v ["payload", "started_at"]).bind R.asF64).map
      (R.near · child.sessionStartedAt)).getD false

/-- Leave the copy out. -/
def parentSnapshot (s : CodexLinePreprocessor τ) (v : Lib.Value) : Answer τ :=
  match s.child with
  | some child =>
    if child.skippingParentSnapshot then
      if startsChild R child v then
        ({ s with child := some { child with skippingParentSnapshot := false } }, some .include)
      else
        (s, some .ignore)
    else
      (s, none)
  | none => (s, none)

def userMessage (s : CodexLinePreprocessor τ) (v : Lib.Value) : Answer τ :=
  if isType v "response_item" ∧ payloadStr v "type" = some "message" ∧
      payloadStr v "role" = some "user" then
    let decoded := R.decodeUser v s.cwd
    ({ s with cwd := decoded.1 }, some (.messages (decoded.2.map Message.decoded)))
  else
    (s, none)

def tokenCount (s : CodexLinePreprocessor τ) (v : Lib.Value) : Answer τ :=
  if isType v "event_msg" ∧ payloadStr v "type" = some "token_count" then
    match contextTokens v with
    | some post =>
      let s := { s with lastContextTokens := some post }
      match s.pendingCompactionPreTokens with
      | some pre =>
        ({ s with pendingCompactionPreTokens := none }, some (.messages [.compactUsage pre post]))
      | none => (s, none)
    | none => (s, none)
  else
    (s, none)

def compacted (s : CodexLinePreprocessor τ) (v : Lib.Value) : Answer τ :=
  if isType v "compacted" then
    ({ s with pendingCompactionPreTokens := s.lastContextTokens },
      some (.messages ([.lineStart (timestamp R v),
          .compactBoundary .auto (s.lastContextTokens.getD 0) 0] ++
        (((payloadStr v "message").filter (!isBlank ·)).map .compactSummary).toList)))
  else
    (s, none)

namespace CodexLinePreprocessor

/-- Leave out the output of a call; one without an id cannot be told. -/
def hide (s : CodexLinePreprocessor τ) (id : String) : CodexLinePreprocessor τ :=
  if id = "" then s else { s with transportCalls := s.transportCalls.insert id }

/-- Keep the patches a hidden call carries. -/
def wrap (s : CodexLinePreprocessor τ) (id : String) (patches : List Text) :
    CodexLinePreprocessor τ :=
  if id = "" ∨ patches = [] then s.hide id
  else { s.hide id with unmirroredPatches := s.unmirroredPatches.put id patches }

/-- Forget a hidden call whose output came. -/
def unwrap (s : CodexLinePreprocessor τ) (id : String) : CodexLinePreprocessor τ :=
  { s with
    transportCalls := s.transportCalls.filter (· ≠ id)
    unmirroredPatches := s.unmirroredPatches.erase id }

end CodexLinePreprocessor

/-- The kinds of the payload of an output. -/
def isOutputKind (payload : Lib.Value) : Bool :=
  isType payload "function_call_output" || isType payload "custom_tool_call_output"

/-- The output of a hidden call: the rejected patches that are still kept, or nothing. -/
def transportOutput (s : CodexLinePreprocessor τ) (v : Lib.Value) : Answer τ :=
  let id := callId v
  let rejected := (s.unmirroredPatches.find? id).bind fun patches =>
    (rejectedPatchReason R (v.get "payload")).map fun reason => (patches, reason)
  match rejected with
  | some (patches, reason) =>
    (s.unwrap id, some (.messages (rejectedPatchMessages id (timestamp R v) patches reason s.cwd)))
  | none => (s.unwrap id, some .ignore)

/-- The calls of the transport, and their outputs. -/
def transport (s : CodexLinePreprocessor τ) (v : Lib.Value) : Answer τ :=
  let payload := v.get "payload"
  let id := callId v
  if isType v "response_item" then
    if isOutputKind payload ∧ id ∈ s.transportCalls then
      transportOutput R s v
    else if s.semanticExec ∧ isWaitTransport R payload then
      (s.hide id, some .ignore)
    else
      match orchestratedTaskCall R payload with
      | some (name, input) =>
        (s.hide id, some (.messages (taskCallMessages id name input (timestamp R v) s.cwd)))
      | none =>
        if s.semanticExec ∧ isSemanticExecTransport payload then
          (s.wrap id (carriedPatches payload), some .ignore)
        else
          (s, none)
  else
    (s, none)

/-- The line is about a `FileChange`. -/
def isFileChange (v : Lib.Value) : Bool :=
  (pointer v ["payload", "item", "type"]).bind Lib.Value.asStr = some "FileChange"

/-- A `FileChange` mirrors whichever patch is in flight. -/
def fileChange (s : CodexLinePreprocessor τ) (v : Lib.Value) : Answer τ :=
  if isFileChange v then ({ s with unmirroredPatches := Table.empty }, none) else (s, none)

def semanticExec (s : CodexLinePreprocessor τ) (v : Lib.Value) : Answer τ :=
  if s.semanticExec then (s, (semanticExecMessages R v s.cwd).map .messages) else (s, none)

/-- The message is for this child, or comes from its parent. -/
def isIncoming (s : CodexLinePreprocessor τ) (v : Lib.Value) : Bool :=
  let recipient := (payloadStr v "recipient").getD ""
  let author := (payloadStr v "author").getD ""
  let addressed := (s.child.map fun child =>
    child.agentPath ≠ "" && recipient = child.agentPath).getD false
  addressed || (author ≠ "" && ((stripFront? author.toList recipient.toList).map
    ("/".toList.isPrefixOf ·)).getD false)

/-- The text of a message between agents. -/
def agentText (v : Lib.Value) : String :=
  let content := (((v.get "payload").get? "content").bind Lib.Value.asArray).getD []
  "\n".intercalate (content.filterMap fun item =>
    if isType item "input_text" then (strField item "text").filter (!isBlank ·) else none)

/-- A message from a parent to this child. -/
def agentMessage (s : CodexLinePreprocessor τ) (v : Lib.Value) : Answer τ :=
  if isType v "response_item" ∧ payloadStr v "type" = some "agent_message" ∧ isIncoming s v ∧
      agentText v ≠ "" then
    (s, some (.messages [.lineStart (timestamp R v), .userText (agentText v)]))
  else
    (s, none)

/-- The stages for a line of the session's own. -/
def ownLine (s : CodexLinePreprocessor τ) (v : Lib.Value) : Answer τ :=
  (userMessage R s v).andThen fun s =>
  (tokenCount s v).andThen fun s =>
  (compacted R s v).andThen fun s =>
  (transport R s v).andThen fun s =>
  (fileChange s v).andThen fun s =>
  (semanticExec R s v).andThen fun s =>
  agentMessage R s v

/-- `CodexLinePreprocessor::process`, on a line as the JSON library reads it. -/
def process (s : CodexLinePreprocessor τ) (line : Option Lib.Value) :
    CodexLinePreprocessor τ × PreprocessedLine τ :=
  match line with
  | none => (s, .include)
  | some v =>
    let a := (sessionMeta R s v).andThen fun s =>
      (parentSnapshot R s v).andThen fun s =>
      ownLine R s v
    (a.1, a.2.getD .include)

/-! ## a resume -/

/-- A text, or `null`. -/
def strValue (s : Option String) : Lib.Value := (s.map Lib.Value.str).getD .null

/-- A counter, or `null`. -/
def u64Value (n : Option UInt64) : Lib.Value := (n.map fun n => .num n.toNat).getD .null

def ChildRollout.value (c : ChildRollout τ) : Lib.Value :=
  .obj [("session_started_at", R.f64Value c.sessionStartedAt), ("agent_path", .str c.agentPath),
    ("skipping_parent_snapshot", .bool c.skippingParentSnapshot)]

/-- `state`. -/
def state (s : CodexLinePreprocessor τ) : Lib.Value :=
  .obj [("child", (s.child.map (ChildRollout.value R)).getD .null),
    ("source_version", strValue s.sourceVersion),
    ("source_session", strValue s.sourceSession),
    ("semantic_exec", .bool s.semanticExec),
    ("transport_calls", .arr (s.transportCalls.map .str)),
    ("unmirrored_patches", .obj (s.unmirroredPatches.rows.map fun row =>
      (row.1, .arr (row.2.map fun patch => .str (String.ofList patch))))),
    ("cwd", .str s.cwd),
    ("last_context_tokens", u64Value s.lastContextTokens),
    ("pending_compaction_pre_tokens", u64Value s.pendingCompactionPreTokens)]

/-- An optional field: `null` and a missing field are `none`. -/
def readOption {α : Type} (read : Lib.Value → Option α) : Option Lib.Value → Option (Option α)
  | none | some .null => some none
  | some v => (read v).map some

/-- A field with a default. -/
def readDefault {α : Type} (read : Lib.Value → Option α) (d : α) : Option Lib.Value → Option α
  | none => some d
  | some v => read v

def readArray {α : Type} (read : Lib.Value → Option α) (v : Lib.Value) : Option (List α) :=
  v.asArray.bind (List.mapM read)

def readChild (v : Lib.Value) : Option (ChildRollout τ) := do
  let startedAt ← (v.get? "session_started_at").bind R.asF64
  let agentPath ← strField v "agent_path"
  let skipping ← (v.get? "skipping_parent_snapshot").bind Lib.Value.asBool
  some ⟨startedAt, agentPath, skipping⟩

def readPatches (v : Lib.Value) : Option (Table String (List Text)) := do
  let fields ← v.asObject
  let rows ← fields.mapM fun field =>
    (readArray (fun patch => patch.asStr.map String.toList) field.2).map fun patches =>
      (field.1, patches)
  some (rows.foldr (fun row t => t.put row.1 row.2) Table.empty)

/-- The preprocessor that a JSON value describes. -/
def readState (v : Lib.Value) : Option (CodexLinePreprocessor τ) := do
  let _ ← v.asObject
  let child ← readOption (readChild R) (v.get? "child")
  let sourceVersion ← readOption Lib.Value.asStr (v.get? "source_version")
  let sourceSession ← readOption Lib.Value.asStr (v.get? "source_session")
  let semanticExec ← readDefault Lib.Value.asBool false (v.get? "semantic_exec")
  let transportCalls ← readDefault (readArray Lib.Value.asStr) [] (v.get? "transport_calls")
  let unmirrored ← readDefault readPatches Table.empty (v.get? "unmirrored_patches")
  let cwd ← readDefault Lib.Value.asStr "" (v.get? "cwd")
  let last ← readOption Lib.Value.asU64 (v.get? "last_context_tokens")
  let pending ← readOption Lib.Value.asU64 (v.get? "pending_compaction_pre_tokens")
  some ⟨child, sourceVersion, sourceSession, semanticExec, transportCalls, unmirrored, cwd, last,
    pending⟩

/-- `restore`. -/
def restore (s : CodexLinePreprocessor τ) (v : Lib.Value) : CodexLinePreprocessor τ :=
  (readState R v).getD s

theorem foldr_put_rows (t : Table String (List Text)) :
    t.rows.foldr (fun row t => t.put row.1 row.2) Table.empty = t := by
  obtain ⟨rows, unique⟩ := t
  induction rows with
  | nil => rfl
  | cons row rows ih =>
    rw [List.map_cons, List.nodup_cons] at unique
    have hkeep : rows.filter (fun other => other.1 ≠ row.1) = rows := by
      rw [List.filter_eq_self]
      intro other hother
      have hne : other.1 ≠ row.1 := fun heq => unique.1 (heq ▸ List.mem_map_of_mem hother)
      simpa using hne
    rw [List.foldr_cons, ih unique.2]
    simp only [Table.put, hkeep]

theorem readOption_strValue (s : Option String) :
    readOption Lib.Value.asStr (some (strValue s)) = some s := by
  cases s <;> rfl

theorem readOption_u64Value (n : Option UInt64) :
    readOption Lib.Value.asU64 (some (u64Value n)) = some n := by
  cases n with
  | none => rfl
  | some n =>
    show (Lib.Value.asU64 (.num n.toNat)).map some = _
    rw [Lib.Value.asU64_num]
    rfl

theorem readArray_map {α : Type} {read : Lib.Value → Option α} {write : α → Lib.Value}
    (h : ∀ a, read (write a) = some a) (xs : List α) :
    readArray read (.arr (xs.map write)) = some xs := by
  show (xs.map write).mapM read = some xs
  induction xs with
  | nil => rfl
  | cons x xs ih => simp [List.mapM_cons, h, ih]

theorem readChild_value (c : ChildRollout τ) : readChild R (c.value R) = some c := by
  simp [readChild, ChildRollout.value, Lib.Value.get?, strField, R.asF64_f64Value,
    Lib.Value.asStr, Lib.Value.asBool, List.lookup_cons]

theorem readPatches_rows (t : Table String (List Text)) :
    readPatches (.obj (t.rows.map fun row =>
      (row.1, .arr (row.2.map fun patch => .str (String.ofList patch))))) = some t := by
  have hrows : ∀ rows : List (String × List Text),
      (rows.map fun row => (row.1, Lib.Value.arr (row.2.map fun patch =>
        Lib.Value.str (String.ofList patch)))).mapM (fun field =>
          (readArray (fun patch => patch.asStr.map String.toList) field.2).map fun patches =>
            (field.1, patches)) = some rows := by
    intro rows
    induction rows with
    | nil => rfl
    | cons row rows ih =>
      rw [List.map_cons, List.mapM_cons, ih,
        readArray_map (fun patch => by simp [Lib.Value.asStr]) row.2]
      rfl
  simp only [readPatches, Lib.Value.asObject, Option.bind_eq_bind, Option.bind_some, hrows,
    foldr_put_rows]

/-- A resume goes on from the state that was saved. -/
theorem restore_state (s fresh : CodexLinePreprocessor τ) :
    restore R fresh (state R s) = s := by
  have hchild : readOption (readChild R)
      (some ((s.child.map (ChildRollout.value R)).getD .null)) = some s.child := by
    cases s.child with
    | none => rfl
    | some c =>
      show (readChild R (c.value R)).map some = _
      rw [readChild_value]
      rfl
  have hcalls := @readArray_map _ Lib.Value.asStr Lib.Value.str (fun _ => rfl) s.transportCalls
  simp only [restore, readState, state, Lib.Value.asObject, Lib.Value.get?, List.lookup_cons]
  simp [hchild, hcalls, readOption_strValue, readOption_u64Value, readPatches_rows, readDefault,
    Lib.Value.asBool, Lib.Value.asStr]

end ClaudeReplay.Codex.Preprocessor
