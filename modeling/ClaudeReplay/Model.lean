import ClaudeReplay.Text
import Mathlib.Data.Rat.Floor

/-!
# ClaudeReplay.Model

The agent-neutral render-block vocabulary: `Block` and the values it is made of,
with the classification every later layer reads (`opensTurn`, `isActivityTool`,
`isEditTool`) and the in-place edit `attachSkillBody`.

A record's fields that no modelled function reads or writes are kept together in
one opaque `detail : Value` — what a presenter draws of a tool call (its diffs,
its patch, the questions it asked …) is written by the adapter's hooks and read
by nobody in between, so the fold carries it without looking.

* `Value` — a `serde_json::Value`, by its text: the fold only hands it on.
* `EpochSeconds` — the source's `f64` seconds, as exact rationals.
-/

namespace ClaudeReplay

/-- A JSON value, by its text. The machinery stores and returns one without
interpreting it; only an adapter's own hooks look inside. -/
structure Value where
  text : String
  deriving DecidableEq, Repr

/-- `Value::Null`. -/
def Value.null : Value := ⟨"null"⟩

abbrev EpochSeconds := Rat
abbrev AgentId := String

/-- A tool call's persisted terminal state. -/
inductive ToolStatus
  | completed | failed | declined | cancelled | unknown
  deriving DecidableEq, Repr

/-- Exact elapsed time recorded for a tool call. -/
structure ToolDuration where
  secs : Nat
  nanos : Nat
  deriving DecidableEq, Repr

/-- Structural execution facts associated with a tool block. -/
structure ToolExecution where
  status : Option ToolStatus
  exitCode : Option Int
  duration : Option ToolDuration
  outsideSandbox : Bool
  deriving DecidableEq, Repr

/-- What `get_or_insert` puts in an absent `execution`. -/
def ToolExecution.blank : ToolExecution := ⟨none, none, none, false⟩

inductive AssistantPhase
  | commentary | final
  deriving DecidableEq, Repr

inductive CompactTrigger
  | auto | manual
  deriving DecidableEq, Repr

inductive AttachmentKind
  | file | plan | edited | ref | image
  deriving DecidableEq, Repr

/-- Where an attachment's bytes are: nowhere, or at a locator the accumulator
stamps with the line's start offset and the attachment's ordinal in the line. -/
inductive AttachmentContent
  | none
  | deferred (at_ : Nat) (index : Nat) (span : Option Value)
  deriving DecidableEq, Repr

structure Attachment where
  kind : AttachmentKind
  name : String
  path : Option String
  content : AttachmentContent
  lines : Option Nat
  deriving DecidableEq, Repr

/-- A relayed message's envelope; `id` is what tells a copy from the original. -/
structure Inbox where
  id : String
  detail : Value
  deriving DecidableEq, Repr

inductive AgentStatus
  | running | asyncLaunched | completed | failed | killed | stopped | unknown
  deriving DecidableEq, Repr

/-- `AgentStatus::is_terminal`. -/
def AgentStatus.isTerminal : AgentStatus → Bool
  | .completed | .failed | .killed | .stopped | .unknown => true
  | .running | .asyncLaunched => false

/-- A sub-agent spawn. -/
structure SubAgent where
  agentId : AgentId
  toolUseId : String
  agentType : String
  phase : Option String
  description : String
  status : AgentStatus
  detail : Value
  deriving DecidableEq, Repr

/-- A tool call and what came back for it. -/
structure ToolUse where
  name : String
  target : String
  output : Option String
  execution : Option ToolExecution
  sentTo : Option String
  detail : Value
  deriving DecidableEq, Repr

/-- One render block. A coalesced `thinking` run nests the tool calls it folded,
and only tool calls are ever folded into one. -/
inductive Block
  | userText (text : String)
  | userReply (text : String) (context : Value)
  | userInbox (text : String) (inbox : Inbox)
  | peerText (sender : String) (mode : Option String) (text : String) (addr : Option String)
  | queueEvent (text : String)
  | assistantText (text : String)
  | assistantCutOff (text : String)
  | assistantMessage (text : String) (phase : AssistantPhase) (inferred : Bool)
  | thinking (text : String) (durationSecs : Option Nat) (tools : List ToolUse)
  | toolUse (call : ToolUse)
  | toolResult (text : String)
  | safetyStop (category : Option String) (note : String)
  | attachment (a : Attachment)
  | subAgent (sa : SubAgent)
  | agentDone (agentId agentType description : String) (status : AgentStatus)
      (result : Option String)
  | command (name args : String) (output : List String)
  | compaction (trigger : CompactTrigger) (preTokens postTokens : Nat) (summary : String)
  deriving DecidableEq, Repr

/-! ## classification -/

/-- `Block::opens_turn`: a human prompt, a slash command, or another session's
message — the one definition every turn boundary reads. -/
def Block.opensTurn : Block → Bool
  | .userText _ | .userReply .. | .userInbox .. | .command .. | .peerText .. => true
  | _ => false

/-- A block a tool call is shaped into: an ordinary call or a spawn. -/
def Block.isCall : Block → Bool
  | .toolUse _ | .subAgent _ => true
  | _ => false

/-- A thinking block whose text is blank: its duration has no prose to ride on. -/
def Block.isBlankThinking : Block → Bool
  | .thinking text _ _ => isBlank text
  | _ => false

/-- The pasted or delivered image an `ImagePaths` record may put a path on. -/
def Block.isImage : Block → Bool
  | .attachment a => a.kind == .image
  | _ => false

/-- The prompt an `ImagePaths` record belongs to. -/
def Block.isPrompt : Block → Bool
  | .userText _ | .userReply .. | .userInbox .. => true
  | _ => false

/-- The id of a relayed message. -/
def Block.inboxId? : Block → Option String
  | .userInbox _ inbox => some inbox.id
  | _ => none

/-- The address and name of a peer message's sender. -/
def Block.peer? : Block → Option (String × String)
  | .peerText sender _ _ (some addr) => some (addr, sender)
  | _ => none

/-- The workflow phase a spawn block records. -/
def Block.phase : Block → Option String
  | .subAgent sa => sa.phase
  | _ => none

/-- `is_activity_tool`: the calls summarized into a `Thought for …` line. -/
def isActivityTool (name : String) : Bool :=
  ["Bash", "Read", "NotebookRead", "Grep", "Glob", "LS"].contains name ||
    "mcp__".toList.isPrefixOf name.toList

/-- `is_edit_tool`: the calls that change a file by name. -/
def isEditTool (name : String) : Bool :=
  ["Edit", "MultiEdit", "Write", "NotebookEdit"].contains name

/-! ## the skill body -/

/-- Append a loaded skill's body to its `Skill` call's output. -/
def ToolUse.attachBody (call : ToolUse) (body : String) : ToolUse :=
  match call.output with
  | some o => { call with output := some (o ++ "\n\n" ++ trim body) }
  | none => { call with output := some (trim body) }

/-- `attach_skill_body`: nest `body` into the `Skill` call at `idx`, or `none`
when there is no such call to attach to. -/
def attachSkillBody (out : List Block) (idx : Option Nat) (body : String) : Option (List Block) :=
  match idx with
  | none => none
  | some i =>
    match out[i]? with
    | some (.toolUse call) =>
      if call.name = "Skill" then some (out.set i (.toolUse (call.attachBody body))) else none
    | _ => none

/-- What a successful `attachSkillBody` did: it rewrote one `Skill` call in place. -/
theorem attachSkillBody_eq_some (h : attachSkillBody out idx body = some out') :
    ∃ i call, idx = some i ∧ out[i]? = some (.toolUse call) ∧ call.name = "Skill" ∧
      out' = out.set i (.toolUse (call.attachBody body)) := by
  cases idx with
  | none => simp [attachSkillBody] at h
  | some i =>
    simp only [attachSkillBody] at h
    split at h
    · next call hget =>
      split at h
      · next hname =>
        rw [Option.some.injEq] at h
        exact ⟨i, call, rfl, hget, hname, h.symm⟩
      · contradiction
    · contradiction

end ClaudeReplay
