import ClaudeReplay.Diff
import ClaudeReplay.Lib.Trim
import ClaudeReplay.Lib.Value
import ClaudeReplay.Model

/-!
# ClaudeReplay.Viewer.Calls

The blocks a reader can fold, with what is drawn of each, and the words that say what a call did:
its outcome, what an edit changed or why it changed nothing, who a message went to.

* `not_prefix_sendHead` — the head of a message is never how its target begins.
-/

namespace ClaudeReplay.Viewer.Draw

abbrev Text := List Char

/-! ## the blocks -/

/-- What a call published. -/
structure Published where
  url : Text
  description : Text
  /-- the files it removed from the artifact -/
  removed : List Text
  /-- how many of its edits the result says it applied -/
  editsApplied : Option Nat

/-- A tool call, as it is drawn. -/
structure Call where
  name : String
  target : Text
  diffs : List (Text × Text) := []
  output : Option Text := none
  patch : Option (List Diff.Hunk) := none
  readLines : Option Nat := none
  execution : Option ToolExecution := none
  published : Option Published := none
  sent : Option Text := none
  sentTo : Option Text := none
  savedOutput : Option Text := none

/-- A sub-agent's spawn, as it is drawn. -/
structure Spawn where
  agentId : Text
  agentType : Text
  description : Text
  prompt : Text
  status : AgentStatus
  result : Option Text
  /-- `tool_count`: the calls of the child's transcript -/
  toolCount : Nat

/-- The blocks that can be folded; `prose` is any other one. -/
inductive Block (Prose : Type)
  | prose (p : Prose)
  | thinking (text : Text) (durationSecs : Option Nat) (tools : List Call)
  | toolUse (u : Call)
  | toolResult (text : Text)
  | safetyStop (category : Option Text) (note : Text)
  | subAgent (sa : Spawn)
  | agentDone (agentId agentType description : Text) (status : AgentStatus) (result : Option Text)
  | command (name args : Text) (output : List Text)
  | compaction (trigger : CompactTrigger) (preTokens postTokens : Nat) (summary : Text)

/-- `foldable` -/
def Block.foldable {Prose : Type} : Block Prose → Bool
  | .prose _ => false
  | _ => true

/-- What the words are made with: the reading of a JSON text, the short form of a token count, and
the summaries of a run. -/
structure Words where
  parse : Text → Option Lib.Value
  humanTokens : Nat → Text
  thinkingSummary : Text → Option Nat → List Call → Text
  turnSummary : Option Nat → List Call → Text

/-! ## numbers -/

/-- `n.to_string()` -/
def num (n : Nat) : Text := Nat.toDigits 10 n

theorem num_injective : Function.Injective num := by
  intro n n' h
  calc n = Nat.ofDigitChars 10 (num n) 0 := Nat.ofDigitChars_ten_toDigits.symm
    _ = Nat.ofDigitChars 10 (num n') 0 := by rw [h]
    _ = n' := Nat.ofDigitChars_ten_toDigits

/-- `{:>width$}` -/
def padLeft (width : Nat) (text : Text) : Text :=
  List.replicate (width - text.length) ' ' ++ text

/-- `parts.join(sep)` -/
def join (sep : Text) (parts : List Text) : Text := (parts.intersperse sep).flatten

/-! ## the outcome of a call -/

def formatToolDuration (d : ToolDuration) : Text :=
  if 60 ≤ d.secs then num (d.secs / 60) ++ "m ".toList ++ num (d.secs % 60) ++ "s".toList
  else if 0 < d.secs then
    let centis := d.nanos / 10000000
    if centis = 0 then num d.secs ++ "s".toList
    else
      num d.secs ++ ".".toList ++ List.replicate (2 - (num centis).length) '0' ++ num centis ++
        "s".toList
  else
    let millis := d.nanos / 1000000
    let micros := d.nanos / 1000
    if 0 < millis then num millis ++ "ms".toList
    else if 0 < micros then num micros ++ "µs".toList
    else num d.nanos ++ "ns".toList

/-- What a status says where the call has no exit code. -/
def statusWord : ToolStatus → Text
  | .completed => []
  | .failed => "failed".toList
  | .declined => "declined".toList
  | .cancelled => "cancelled".toList
  | .unknown => "finished".toList

/-- `tool_execution_summary` -/
def toolExecutionSummary (e : ToolExecution) : Text :=
  let outcome :=
    match e.exitCode with
    | some code => ["exit ".toList ++ (toString code).toList]
    | none => (e.status.toList.map statusWord).filter (· ≠ [])
  join " · ".toList (outcome ++ e.duration.toList.map formatToolDuration)

/-- `tool_execution_failed` -/
def toolExecutionFailed (e : ToolExecution) : Bool :=
  match e.status with
  | some .failed | some .declined | some .cancelled => true
  | some .completed => false
  | some .unknown | none => e.exitCode.any (· ≠ 0)

/-! ## edits -/

/-- Why an edit changed nothing: the call failed, or the reader rejected it. -/
inductive NotApplied
  | failed (reason : Text)
  | rejected (said : Text)

def isWrite (name : String) : Bool := name == "Write" || name == "NotebookEdit"

def isEdit (name : String) : Bool := name == "Edit" || name == "MultiEdit"

/-- `not_applied` -/
def notApplied (name : String) (target : Text) (overwrite : Bool)
    (execution : Option ToolExecution) (reason : Option Text) : Option NotApplied :=
  let reason := (reason.map trimChars).filter (· ≠ [])
  match execution.bind (·.status) with
  | some .declined =>
    let verb := if isWrite name && !overwrite then "write" else "update"
    some (.rejected ("User rejected ".toList ++ verb.toList ++ " to ".toList ++ target))
  | some .failed | some .cancelled =>
    some (.failed (match reason with
      | some r => if "Error".toList.isPrefixOf r then r else "Error: ".toList ++ r
      | none => "Error: not applied".toList))
  | some .completed | some .unknown | none => none

def plural (n : Nat) : Text := if n = 1 then [] else "s".toList

/-- `edit_summary` -/
def editSummary (adds dels : Nat) : Text :=
  let a := "Added ".toList ++ num adds ++ " line".toList ++ plural adds
  if dels = 0 then a
  else a ++ ", removed ".toList ++ num dels ++ " line".toList ++ plural dels

/-- `text.rsplit(sep).next()` -/
def afterLast (sep : Char) (text : Text) : Text := text.rtakeWhile (· ≠ sep)

/-- `file_edit_summary` -/
def fileEditSummary (file : Text) (adds dels : Nat) : Text :=
  afterLast '/' file ++ " · ".toList ++
    if adds = 0 ∧ dels = 0 then "changed".toList else editSummary adds dels

def removedFilesShown : Nat := 10

/-- `removed_files_note` -/
def removedFilesNote (files : List Text) : Text :=
  let rest := files.length - removedFilesShown
  "Removed from the artifact: ".toList ++ join ", ".toList (files.take removedFilesShown) ++
    if rest = 0 then [] else " and ".toList ++ num rest ++ " more".toList

/-- `edits_applied_note` -/
def editsAppliedNote (applied : Option Nat) (sent : Nat) : Option Text :=
  (applied.filter (· < sent)).map fun n =>
    "Applied ".toList ++ num n ++ " of ".toList ++ num sent ++ " edit".toList ++ plural sent

/-- `write_content` -/
def writeContent (diffs : List (Text × Text)) : Text :=
  ((diffs.map (·.2)).find? (· ≠ [])).getD []

/-- `diff_counts` -/
def diffCounts (pair : Text × Text) : Nat × Nat :=
  let ops := Diff.lineDiff (strLines pair.1) (strLines pair.2)
  (ops.countP fun op => op matches .ins _, ops.countP fun op => op matches .del _)

/-- `patch_counts` -/
def patchCounts (hunks : List Diff.Hunk) : Nat × Nat :=
  let lines := hunks.flatMap (·.lines)
  (lines.countP (·.head? == some '+'), lines.countP (·.head? == some '-'))

/-- Counts, added up. -/
def sumCounts (counts : List (Nat × Nat)) : Nat × Nat :=
  counts.foldl (fun s c => (s.1 + c.1, s.2 + c.2)) (0, 0)

/-- `change_counts` -/
def Call.changeCounts (u : Call) : Option (Nat × Nat) :=
  match u.execution.bind (·.status) with
  | some .failed | some .declined | some .cancelled => none
  | some .completed | some .unknown | none =>
    let hunks := u.patch.filter (· ≠ [])
    if !(isEdit u.name || isWrite u.name) && hunks.isNone then none
    else if isWrite u.name && hunks.isNone then some ((strLines (writeContent u.diffs)).length, 0)
    else
      let rows := (Diff.diffRowGroups u.diffs hunks).flatMap (·.rows)
      some (rows.countP (·.kind = .add), rows.countP (·.kind = .del))

/-- `run_changes` -/
def runChanges (tools : List Call) : Option (Nat × Nat) :=
  match tools.filterMap Call.changeCounts with
  | [] => none
  | counts => some (sumCounts counts)

/-- `run_outside_sandbox` -/
def runOutsideSandbox (tools : List Call) : Bool :=
  tools.any fun u => u.execution.any (·.outsideSandbox)

/-- Hunks in runs that share a file. -/
def hunksByFile : List Diff.Hunk → List (List Diff.Hunk)
  | [] => []
  | h :: hunks =>
    match hunksByFile hunks with
    | (g :: run) :: runs =>
      if h.file = g.file then (h :: g :: run) :: runs else [h] :: (g :: run) :: runs
    | runs => [h] :: runs

theorem hunksByFile_eq_nil_iff {hunks : List Diff.Hunk} : hunksByFile hunks = [] ↔ hunks = [] := by
  cases hunks with
  | nil => simp [hunksByFile]
  | cons h hunks =>
    rw [hunksByFile]
    split
    · split <;> simp
    · simp

/-! ## messages to another agent -/

/-- `send_receipt` -/
def sendReceipt (w : Words) (out : Text) : Text :=
  let message := (w.parse (trimChars out)).bind fun v =>
    match v.get? "message" with
    | some (.str s) => some s.toList
    | _ => none
  (message.filter fun m => trimChars m ≠ []).getD (trimChars out)

/-- `recipient_label` -/
def recipientLabel (sentTo : Text) : Text :=
  let who := trimChars sentTo
  if "uds:".toList.isPrefixOf who then
    let file := afterLast '/' (who.drop 4)
    let stem := if ".sock".toList.isSuffixOf file then file.take (file.length - 5) else file
    if stem ≠ [] ∧ stem.all Char.isDigit then "local session ".toList ++ stem
    else "local session ".toList ++ file
  else if "bridge:".toList.isPrefixOf who then
    let id := who.drop 7
    let id := if "session_".toList.isPrefixOf id then id.drop 8 else id
    "remote session ".toList ++ id.take 8
  else who

/-- `send_head` -/
def sendHead (target sentTo : Text) : Text :=
  let who := recipientLabel sentTo
  let rest := trimChars target
  if rest = [] ∨ rest = trimChars sentTo then "→ ".toList ++ who
  else "→ ".toList ++ who ++ " · ".toList ++ rest

theorem isWhitespace_arrow : isWhitespace '→' = false := by decide

theorem trimChars_eq (cs : Text) : trimChars cs = Lib.trimBy isWhitespace cs := rfl

theorem trimmed_trimChars (cs : Text) : Lib.Trimmed isWhitespace (trimChars cs) :=
  Lib.trimmed_trimBy cs

/-- A name that begins with the arrow is no address. -/
theorem recipientLabel_of_arrow {sentTo name : Text} (h : trimChars sentTo = '→' :: name) :
    recipientLabel sentTo = '→' :: name := by
  simp only [recipientLabel, h]
  rfl

/-- A text does not begin with more than itself: not with an arrow, something behind it, and what
is left of the text without the blanks around it. -/
theorem not_prefix_arrow {target front : Text} (hrest : trimChars target ≠ []) :
    ¬('→' :: front ++ trimChars target) <+: target := by
  rintro ⟨back, hback⟩
  have htrimmed : Lib.Trimmed isWhitespace ('→' :: front ++ trimChars target) := by
    constructor
    · intro c hc
      cases hc
      exact isWhitespace_arrow
    · intro c hc
      rw [List.getLast?_append_of_ne_nil _ hrest] at hc
      exact (trimmed_trimChars target).stop c hc
  have hle := Lib.length_le_trimBy htrimmed back
  rw [hback, ← trimChars_eq, List.length_append, List.length_cons] at hle
  omega

/-- **The head of a message is never how its target begins.** -/
theorem not_prefix_sendHead (target sentTo : Text) : ¬sendHead target sentTo <+: target := by
  intro h
  have harrow : ∃ text, target = '→' :: text := by
    obtain ⟨back, hback⟩ := h
    rw [← hback, sendHead]
    split <;> exact ⟨_, rfl⟩
  obtain ⟨text, htext⟩ := harrow
  obtain ⟨rest, hrest⟩ : ∃ rest, trimChars target = '→' :: rest := by
    rw [htext]
    exact Lib.exists_trimBy_cons isWhitespace_arrow text
  have hne : trimChars target ≠ [] := by
    rw [hrest]
    exact List.cons_ne_nil _ _
  rw [sendHead] at h
  split at h
  next hor =>
    -- the recipient is what the target is
    have hsame := hor.resolve_left hne
    rw [recipientLabel_of_arrow (hsame.symm.trans hrest), ← hrest] at h
    exact @not_prefix_arrow target [' '] hne h
  next => exact @not_prefix_arrow target (' ' :: (recipientLabel sentTo ++ " · ".toList)) hne h

end ClaudeReplay.Viewer.Draw
