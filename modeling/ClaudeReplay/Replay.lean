import ClaudeReplay.Lib.Checked
import ClaudeReplay.Shaping
import ClaudeReplay.Message
import ClaudeReplay.MetaStream

/-!
# ClaudeReplay.Replay

The shared fold: `Replayer` folds canonical messages into render blocks.

`out` is the resident window of raw blocks; its first block has the logical
index `base`. Every index the replayer stores (`toolSlot`, `suppress`,
`lastSkill`, `stamped`, the queue's `markerIdx`) is logical and outlives the
call that stored it, while each commit drops blocks from the front and moves
`base`. So each subtraction of `base` and each access to `out` by a stored index
is a checked operation of `Lib.Checked`, and every function that makes one lives
in `Except Fault`. An arm returns the replayer and the logical index it patched
in place, if any.

* `Replayer.step` — one message of `Replayer::apply`, an arm per variant;
* `Replayer.finalizeCompleted` — the commit of the turns behind the open one;
* `Replayer.apply` — a batch: its messages, then one commit;
* `Replayer.openSnapshot`, `Replayer.intoBlocks`, `replay` — the readers.
-/

namespace ClaudeReplay

open Lib

/-! ## spawn identity -/

/-- `record_agent`: upsert a spawn's identity into the running map. -/
def recordAgent (map : StrMap (AgentId × String)) (b : Block) : StrMap (AgentId × String) :=
  map.insertAll (agentPairs b)

/-- `sub_agent_label`: how a sub-agent a message went to is named. -/
def subAgentLabel (id ty : String) : String :=
  let short := String.ofList (id.toList.take 8)
  let ty := trim ty
  if ty = "" ∨ ty = "agent" then "sub-agent " ++ short
  else "sub-agent " ++ short ++ " (" ++ ty ++ ")"

/-! ## the state -/

/-- `MAX_PINNED_TURNS`: how many completed turns a pending marker may hold resident. -/
def maxPinnedTurns : Nat := 64

/-- One entry of the reconstructed prompt queue. -/
structure QueueItem where
  content : String
  markerIdx : Option Nat
  deriving DecidableEq, Repr

/-- The fold's state. -/
structure Replayer where
  out : List Block := []
  durable : List Block := []
  base : Nat := 0
  userTimes : List (Option EpochSeconds) := []
  turnDurations : List (Option Nat) := []
  pendingTs : Option EpochSeconds := none
  stamped : Nat := 0
  toolSlot : StrMap Nat := ∅
  prevTs : Option EpochSeconds := none
  queue : List QueueItem := []
  suppress : List Nat := []
  lastSkill : Option Nat := none
  agentIds : StrMap (AgentId × String) := ∅
  inboxIds : StrMap Unit := ∅
  peerNames : StrMap String := ∅
  refused : StrMap (Option String) := ∅
  sandboxOn : Bool := false
  deriving DecidableEq

/-- What an arm of the fold returns: the replayer, and the logical index of the
block it patched in place. -/
abbrev Arm := Replayer × Option Nat

namespace Replayer

/-- `Replayer::new`. -/
def new : Replayer := {}

/-- `raw_len`: the logical index one past the last block. -/
def rawLen (r : Replayer) : Nat := r.base + r.out.length

/-- Append a block to the window. -/
def push (r : Replayer) (b : Block) : Replayer := { r with out := r.out ++ [b] }

/-- An arm that only appends. -/
def append (r : Replayer) (b : Block) : Arm := (r.push b, none)

/-- The logical index of the last block of the window. -/
def lastLogical (r : Replayer) : Nat := r.rawLen - 1

/-- Rewrite the last block of the window. -/
def setLast (r : Replayer) (b : Block) : Replayer := { r with out := r.out.dropLast ++ [b] }

/-! ## stamping user turns -/

/-- `window_stamped`: `stamped` translated into the window. -/
def windowStamped (r : Replayer) : Except Fault Nat := do
  assertThat (r.base ≤ r.stamped)
  checkedSub r.stamped r.base

/-- `stamp_user_turns`: record `ts` for every turn opener of `out[stamped..]`.
Returns the new `stamped` and the times. -/
def stampUserTurns (out : List Block) (stamped : Nat) (ts : Option EpochSeconds)
    (userTimes : List (Option EpochSeconds)) :
    Except Fault (Nat × List (Option EpochSeconds)) := do
  let fresh ← sliceFrom out stamped
  return (out.length, userTimes ++ (fresh.filter Block.opensTurn).map fun _ => ts)

/-- Stamp the unstamped turns of the window with the line in force, and keep the
durations as long as the times. -/
def stampWindow (r : Replayer) : Except Fault Replayer := do
  let ws ← r.windowStamped
  let (ws, userTimes) ← stampUserTurns r.out ws r.pendingTs r.userTimes
  return { r with
    userTimes
    turnDurations := resize r.turnDurations userTimes.length none
    stamped := r.base + ws }

/-! ## the arms of `apply` -/

/-- `LineStart`: stamp the previous line's turns, then adopt this line's clock. -/
def lineStart (r : Replayer) (ts : Option EpochSeconds) : Except Fault Arm := do
  let r ← r.stampWindow
  return ({ r with
    prevTs := if r.pendingTs.isSome then r.pendingTs else r.prevTs
    pendingTs := ts }, none)

/-- A thinking's duration: its own time less the previous line's. -/
def thinkingDuration (ts prev : Option EpochSeconds) : Option Nat :=
  match ts, prev with
  | some stop, some start => if start ≤ stop then some (stop - start).floor.toNat else none
  | _, _ => none

/-- A message to another session or sub-agent names its recipient by what this
session knows it as. -/
def nameRecipient (r : Replayer) : Block → Block
  | .toolUse call =>
    match call.sentTo with
    | none => .toolUse call
    | some key =>
      match r.peerNames[key]?, r.agentIds[key]? with
      | some who, _ => .toolUse { call with sentTo := some who }
      | none, some (id, ty) => .toolUse { call with sentTo := some (subAgentLabel id ty) }
      | none, none => .toolUse call
  | b => b

/-- Is the block a `Skill` call? -/
def isSkill : Block → Bool
  | .toolUse call => call.name = "Skill"
  | _ => false

/-- `ToolUse`: shape the call's block, append it, and remember its slot. -/
def toolUse (sh : Shaping) (r : Replayer) (id name : String) (input : Value) (cwd : String) : Arm :=
  let block := r.nameRecipient (sh.buildTool id name input cwd)
  let logical := r.rawLen
  let r := r.push block
  ({ r with
    lastSkill := if isSkill block then some logical else r.lastSkill
    agentIds := recordAgent r.agentIds block
    toolSlot := if id.isEmpty then r.toolSlot else r.toolSlot.insert id logical }, none)

/-- `ToolResult`: join the result onto its call, or keep it as an orphan. -/
def toolResult (sh : Shaping) (r : Replayer) (toolUseId text : String) (tur : Value)
    (isError : Option Bool) : Except Fault Arm := do
  let text := stripAnsi text
  match r.toolSlot[toolUseId]? with
  | some i =>
    let rel ← checkedSub i r.base
    let block ← indexAt r.out rel
    let block := sh.joinResult block text tur isError
    return ({ r with
      out := r.out.set rel block
      agentIds := recordAgent r.agentIds block }, some (r.base + rel))
  | none =>
    if !isBlank text && sh.keepOrphan text then
      return r.append (.toolResult text)
    else
      return (r, none)

/-- Take the first pending item a predicate admits off the queue; its marker is
suppressed. -/
def popQueue (r : Replayer) (p : QueueItem → Bool) : Replayer :=
  match r.queue.find? p with
  | none => r
  | some item => { r with
      queue := r.queue.eraseP p
      suppress := r.suppress ++ item.markerIdx.toList }

/-- The pending item with this content is delivered. -/
def popPending (r : Replayer) (content : String) : Replayer :=
  r.popQueue fun q => q.content = content

/-- `UserText`/`UserReply`: a queued copy is popped, and the turn opens. -/
def userTurn (r : Replayer) (text : String) (block : Block) : Arm :=
  (r.popPending (trim text)).append block

/-- `UserInbox`: only the first message with an id is the person's. -/
def userInbox (r : Replayer) (text words : String) (inbox : Inbox) (images : List Attachment) :
    Arm :=
  let r := r.popPending (trim text)
  if (r.inboxIds[inbox.id]?).isSome then
    r.append (.userText text)
  else
    ({ r with
      inboxIds := r.inboxIds.insert inbox.id ()
      out := r.out ++ .userInbox words inbox :: images.map .attachment }, none)

/-- `PeerText`: learn the sender's name, pop its queued copy, and open the turn. -/
def peerText (r : Replayer) (sender : String) (mode : Option String) (text : String)
    (queued addr : Option String) : Arm :=
  let r := match addr with
    | some a => { r with peerNames := r.peerNames.insert a sender }
    | none => r
  let r := match queued with
    | some raw => r.popPending (trim raw)
    | none => r
  r.append (.peerText sender mode text addr)

/-- `RefusedNote`: the stop's own mark when the fold met the reply it names. -/
def refusedNote (r : Replayer) (id text : String) : Arm :=
  match r.refused[id]? with
  | some category =>
    ({ r with refused := r.refused.erase id } : Replayer).append (.safetyStop category text)
  | none => r.append (.toolResult text)

/-- The mark an outside run leaves on its call. -/
def markOutside (call : ToolUse) : ToolUse :=
  let execution := call.execution.getD ToolExecution.blank
  { call with execution := some { execution with outsideSandbox := true } }

/-- `SandboxRun`: an inside run says the sandbox was on; an outside run, once
that is known, marks the call it belongs to. -/
def sandboxRun (r : Replayer) (toolUseId : String) (inside : Bool) : Except Fault Arm := do
  if inside then
    return ({ r with sandboxOn := true }, none)
  else if r.sandboxOn then
    match r.toolSlot[toolUseId]? with
    | some i =>
      let rel ← checkedSub i r.base
      match ← indexAt r.out rel with
      | .toolUse call =>
        return ({ r with out := r.out.set rel (.toolUse (markOutside call)) }, some (r.base + rel))
      | _ => return (r, none)
    | none => return (r, none)
  else
    return (r, none)

/-- `CompactUsage`: the late usage pair of the divider directly before it. -/
def compactUsage (r : Replayer) (preTokens postTokens : Nat) : Arm :=
  match r.out.getLast? with
  | some (.compaction trigger _ _ summary) =>
    (r.setLast (.compaction trigger preTokens postTokens summary), some r.lastLogical)
  | _ => (r, none)

/-- `CompactSummary`: the prose of the divider directly before it, or a note. -/
def compactSummary (r : Replayer) (text : String) : Arm :=
  match r.out.getLast? with
  | some (.compaction trigger preTokens postTokens summary) =>
    if summary.isEmpty then
      (r.setLast (.compaction trigger preTokens postTokens text), some r.lastLogical)
    else r.append (.toolResult text)
  | _ => r.append (.toolResult text)

/-- The last skill, window-relative. -/
def skillTarget (r : Replayer) : Except Fault (Option Nat) :=
  match r.lastSkill with
  | some i => (checkedSub i r.base).map some
  | none => .ok none

/-- `SkillBody`: nest the body into the open turn's most recent `Skill` call. -/
def skillBody (r : Replayer) (text fallback : String) : Except Fault Arm := do
  let turnStart := (rposition Block.opensTurn r.out).getD 0
  let rel ← r.skillTarget
  match attachSkillBody r.out (rel.filter (turnStart ≤ ·)) text with
  | some out => return ({ r with out }, r.lastSkill)
  | none =>
    if fallback.isEmpty then return (r, none) else return r.append (.toolResult fallback)

/-- `CommandStdout`: the stdout of the command directly before it, or of none. -/
def commandStdout (r : Replayer) (text : String) : Arm :=
  let text := stripAnsi text
  match r.out.getLast? with
  | some (.command name args output) =>
    (r.setLast (.command name args (output ++ [text])), some r.lastLogical)
  | _ => r.append (.command "" "" [text])

/-- Put a saved original's path on an image that has none. -/
def setPath (path : String) : Block → Block
  | .attachment a => .attachment (if a.path.isNone then { a with path := some path } else a)
  | b => b

/-- The images written with the prompt at `prompt`: the runs of images directly
before and after it. -/
def promptImages (out : List Block) (prompt : Nat) : List Nat :=
  let before := ((out.take prompt).reverse.takeWhile Block.isImage).length
  let after := ((out.drop (prompt + 1)).takeWhile Block.isImage).length
  List.range' (prompt - before) before ++ List.range' (prompt + 1) after

/-- `patch_image_paths`: the saved originals of the latest prompt's images, onto
those images, when the counts agree. -/
def patchImagePaths (r : Replayer) (paths : List String) : Replayer :=
  match rposition Block.isPrompt r.out with
  | none => r
  | some prompt =>
    let images := promptImages r.out prompt
    if images.length = paths.length then
      { r with out := (images.zip paths).foldl (fun out ip => out.modify ip.1 (setPath ip.2)) r.out }
    else r

/-- `Completion`: the finish event of a spawn, resolved against the spawns known. -/
def completion (r : Replayer) (toolUseId taskId : String) (status : Option AgentStatus)
    (description : String) (result : Option String) : Arm :=
  let key := if taskId.isEmpty then toolUseId else taskId
  let (agentId, agentType) := (r.agentIds[key]?).getD (key, "")
  r.append (.agentDone agentId agentType description (status.getD .unknown) result)

/-- A duration that arrives in the burst of a turn head belongs to the turn before. -/
def isFreshHead (secs : Nat) (at_ head : Option EpochSeconds) : Bool :=
  match at_, head with
  | some a, some h => decide (a - h < 1) && decide (1 < secs)
  | _, _ => false

/-- `TurnDuration`: how long the last stamped turn took. -/
def turnDuration (r : Replayer) (secs : Nat) (at_ : Option EpochSeconds) : Arm :=
  if isFreshHead secs at_ (r.userTimes.getLast?).join then (r, none)
  else if r.turnDurations.isEmpty then (r, none)
  else ({ r with turnDurations := r.turnDurations.dropLast ++ [some secs] }, none)

/-- `QueueOp`: the prompt queue's lifecycle. -/
def queueOp (r : Replayer) (op : QueueOpKind) (content : Option String) (prose : Bool) : Arm :=
  match op with
  | .enqueue =>
    match content with
    | none => (r, none)
    | some c =>
      if prose then
        let logical := r.rawLen
        let r := r.push (.queueEvent (trim c))
        ({ r with queue := r.queue ++ [⟨trim c, some logical⟩] }, none)
      else
        ({ r with queue := r.queue ++ [⟨trim c, none⟩] }, none)
  | .remove | .dequeue =>
    match content with
    | some c => (r.popPending (trim c), none)
    | none => (r.popQueue fun _ => true, none)
  | .popAll =>
    ({ r with queue := [], suppress := r.suppress ++ r.queue.filterMap (·.markerIdx) }, none)

/-- One message of `Replayer::apply`. -/
def step (sh : Shaping) (r : Replayer) : Message → Except Fault Arm
  | .lineStart ts => r.lineStart ts
  | .taskOp _ => .ok (r, none)
  | .assistantText text => .ok (r.append (.assistantText text))
  | .assistantCutOff text => .ok (r.append (.assistantCutOff text))
  | .assistantMessage text phase inferred => .ok (r.append (.assistantMessage text phase inferred))
  | .thinking text ts => .ok (r.append (.thinking text (thinkingDuration ts r.prevTs) []))
  | .toolUse id name input cwd => .ok (r.toolUse sh id name input cwd)
  | .toolResult toolUseId text tur isError => r.toolResult sh toolUseId text tur isError
  | .userText text => .ok (r.userTurn text (.userText text))
  | .userReply text context => .ok (r.userTurn text (.userReply text context))
  | .userInbox text words inbox images => .ok (r.userInbox text words inbox images)
  | .peerText sender mode text queued addr => .ok (r.peerText sender mode text queued addr)
  | .systemNote text _ => .ok (r.append (.toolResult text))
  | .refused id category => .ok ({ r with refused := r.refused.insert id category }, none)
  | .refusedNote id text => .ok (r.refusedNote id text)
  | .sandboxOn => .ok ({ r with sandboxOn := true }, none)
  | .sandboxRun toolUseId inside => r.sandboxRun toolUseId inside
  | .skillBody text fallback => r.skillBody text fallback
  | .command name args output => .ok (r.append (.command name args (output.map stripAnsi)))
  | .commandStdout text => .ok (r.commandStdout text)
  | .attachmentPrompt text => .ok (r.userTurn text (.userText text))
  | .attachment a => .ok (r.append (.attachment a))
  | .imagePaths paths => .ok (r.patchImagePaths paths, none)
  | .completion toolUseId taskId status description result =>
    .ok (r.completion toolUseId taskId status description result)
  | .turnDuration secs at_ => .ok (r.turnDuration secs at_)
  | .queueOp op content prose => .ok (r.queueOp op content prose)
  | .compactBoundary trigger preTokens postTokens =>
    .ok (r.append (.compaction trigger preTokens postTokens ""))
  | .compactUsage preTokens postTokens => .ok (r.compactUsage preTokens postTokens)
  | .compactSummary text => .ok (r.compactSummary text)

/-! ## the commit -/

/-- `queue_pin`: the turn a pending marker keeps resident, below the cap `k`. -/
def queuePin (r : Replayer) (k : Nat) : Except Fault (Option Nat) := do
  match (r.queue.filterMap (·.markerIdx)).min? with
  | none => return none
  | some i =>
    -- a marker below `base` has already been committed
    if i < r.base then return none
    let oldest ← checkedSub i r.base
    if k ≤ oldest then return none
    let head ← slice r.out 0 (oldest + 1)
    let pinned := (rposition Block.opensTurn head).getD 0
    let between ← slice r.out pinned k
    if between.countP Block.opensTurn ≤ maxPinnedTurns then return some pinned else return none

/-- Drain the first `k` blocks of the window: suppress, finish, and retire the
indices that pointed into them. -/
def commit (sh : Shaping) (r : Replayer) (k : Nat) : Except Fault Replayer := do
  let drained ← slice r.out 0 k
  let hi := r.base + k
  return { r with
    out := r.out.drop k
    durable := r.durable ++ sh.finishTurns (dropAt r.suppress r.base drained)
    base := hi
    suppress := r.suppress.filter (hi ≤ ·)
    toolSlot := r.toolSlot.retain (hi ≤ ·)
    lastSkill := r.lastSkill.filter (hi ≤ ·) }

/-- `finalize_completed`: commit the turns behind the open one. -/
def finalizeCompleted (sh : Shaping) (r : Replayer) : Except Fault Replayer := do
  match rposition Block.opensTurn r.out with
  | none => return r
  | some k =>
    let k := (← r.queuePin k).getD k
    if k = 0 then return r
    let r ← r.stampWindow
    r.commit sh k

/-- `note_patch`: fold a patched index into the running minimum, if the block
was there before this batch. -/
def notePatch (floor : Option Nat) (logical frontier : Nat) : Option Nat :=
  if logical < frontier then some (match floor with | some p => min p logical | none => logical)
  else floor

/-- One message of a batch, with the lowest already-emitted index patched so far. -/
def batchStep (sh : Shaping) (frontier : Nat) (acc : Arm) (m : Message) : Except Fault Arm := do
  let (r, patched) ← acc.1.step sh m
  return (r, match patched with
    | some logical => notePatch acc.2 logical frontier
    | none => acc.2)

/-- `Replayer::apply`: fold a batch, then commit what it completed. -/
def apply (sh : Shaping) (r : Replayer) (messages : List Message) : Except Fault Arm := do
  let (r', floor) ← messages.foldlM (batchStep sh r.rawLen) (r, none)
  let r' ← r'.finalizeCompleted sh
  return (r', floor)

/-! ## the readers -/

/-- `finalize_open`: the open window, suppressed and finished. -/
def finalizeOpen (sh : Shaping) (r : Replayer) (open_ : List Block) :
    Except Fault (List Block) := do
  let drop ← (r.suppress.filter (r.base ≤ ·)).mapM fun i => checkedSub i r.base
  return sh.finishTurns (dropAt drop 0 open_)

/-- `open_snapshot`: the finalized open window and the whole session's times. -/
def openSnapshot (sh : Shaping) (r : Replayer) :
    Except Fault (List Block × List (Option EpochSeconds)) := do
  let ws ← r.windowStamped
  let (_, userTimes) ← stampUserTurns r.out ws r.pendingTs r.userTimes
  let blocks ← r.finalizeOpen sh r.out
  return (blocks, userTimes)

/-- `into_blocks`: the whole finalized stream and its times. -/
def intoBlocks (sh : Shaping) (r : Replayer) :
    Except Fault (List Block × List (Option EpochSeconds)) := do
  let r ← r.stampWindow
  let open_ ← r.finalizeOpen sh r.out
  return (r.durable ++ open_, r.userTimes)

/-- `reseed`: a resumed fold's state, from the restored meta and the resume
point's clocks. The indices restart from an empty window. -/
def reseed (r : Replayer) (mm : MaterializedMeta) (prevTs pendingTs : Option EpochSeconds) :
    Replayer :=
  { r with
    agentIds := mm.agentIds
    inboxIds := mm.inboxIds
    peerNames := mm.peerNames
    refused := ∅
    sandboxOn := mm.sandboxOn
    turnDurations := resize mm.turnDurations mm.userTimes.length none
    userTimes := mm.userTimes
    prevTs, pendingTs
    base := 0
    stamped := 0
    out := []
    durable := [] }

/-- `drain_committed`: take the committed blocks accumulated since the last drain. -/
def drainCommitted (r : Replayer) : List Block × Replayer := (r.durable, { r with durable := [] })

end Replayer

/-- `replay`: the one-shot fold over a whole sequence. -/
def replay (sh : Shaping) (messages : List Message) :
    Except Fault (List Block × List (Option EpochSeconds)) := do
  let (r, _) ← Replayer.new.apply sh messages
  r.intoBlocks sh

end ClaudeReplay
