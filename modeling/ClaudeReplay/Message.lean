import ClaudeReplay.Model
import ClaudeReplay.Tasks

/-!
# ClaudeReplay.Message

The canonical message log — the contract between an agent's raw decoder and the
fold. One `Message` per interesting line or content item, in transcript order.
The variants carry structured fields; the fold parses no raw agent format.
-/

namespace ClaudeReplay

/-- Which queue operation a `queue-operation` line performed. -/
inductive QueueOpKind
  | enqueue | remove | dequeue | popAll
  deriving DecidableEq, Repr

/-- What a `systemNote` is. The fold draws every kind alike. -/
inductive NoteKind
  | plain | failure
  deriving DecidableEq, Repr

/-- One entry of the canonical message log. -/
inductive Message
  | lineStart (ts : Option EpochSeconds)
  | assistantText (text : String)
  | assistantCutOff (text : String)
  | assistantMessage (text : String) (phase : AssistantPhase) (inferred : Bool)
  | thinking (text : String) (ts : Option EpochSeconds)
  | toolUse (id name : String) (input : Value) (cwd : String)
  | toolResult (toolUseId text : String) (tur : Value) (isError : Option Bool)
  | userText (text : String)
  | userReply (text : String) (context : Value)
  | userInbox (text words : String) (inbox : Inbox) (images : List Attachment)
  | peerText (sender : String) (mode : Option String) (text : String)
      (queued addr : Option String)
  | systemNote (text : String) (kind : NoteKind)
  | refused (id : String) (category : Option String)
  | refusedNote (id text : String)
  | sandboxOn
  | sandboxRun (toolUseId : String) (inside : Bool)
  | skillBody (text fallback : String)
  | command (name args : String) (output : List String)
  | commandStdout (text : String)
  | attachmentPrompt (text : String)
  | attachment (a : Attachment)
  | imagePaths (paths : List String)
  | taskOp (op : TaskOp)
  | turnDuration (secs : Nat) (at_ : Option EpochSeconds)
  | queueOp (op : QueueOpKind) (content : Option String) (prose : Bool)
  | completion (toolUseId taskId : String) (status : Option AgentStatus) (description : String)
      (result : Option String)
  | compactBoundary (trigger : CompactTrigger) (preTokens postTokens : Nat)
  | compactUsage (preTokens postTokens : Nat)
  | compactSummary (text : String)
  deriving DecidableEq, Repr

/-- `Message::can_open_turn`: the messages that may author a turn-opening block. -/
def Message.canOpenTurn : Message → Bool
  | .userText _ | .userReply .. | .userInbox .. | .peerText .. | .command .. | .commandStdout _
  | .attachmentPrompt _ => true
  | _ => false

/-- A thinking message whose text is blank. -/
def Message.isBlankThinking : Message → Bool
  | .thinking text _ => isBlank text
  | _ => false

/-- A line's head. -/
def Message.isLineStart : Message → Bool
  | .lineStart _ => true
  | _ => false

/-- A turn's measured duration. -/
def Message.isDuration : Message → Bool
  | .turnDuration .. => true
  | _ => false

/-- The messages of one line. Either the line has a head, and only one, or it
neither opens a turn nor closes one. -/
inductive LineShape : List Message → Prop
  | headed (ts : Option EpochSeconds) (rest : List Message)
      (h : ∀ m ∈ rest, m.isLineStart = false) : LineShape (.lineStart ts :: rest)
  | headless (ms : List Message)
      (h : ∀ m ∈ ms, m.isLineStart = false ∧ m.isDuration = false ∧ m.canOpenTurn = false) :
      LineShape ms

end ClaudeReplay
