import ClaudeReplay.Viewer.Assemble
import ClaudeReplay.Viewer.Calls

/-!
# ClaudeReplay.Viewer.Render

Blocks, drawn as styled lines: in full (`renderOne`), or folded to a header and a count of what is
folded (`renderCollapsed`).

Code is highlighted. What the highlighter does is a parameter: it cuts each line into pieces, and
nothing else is known of it (`Highlighter`). Where lines are only measured, those that cannot wrap
are drawn without it (`Hl.measure`). The blocks that are never folded come with their lines
(`Look.proseLines`).
-/

namespace ClaudeReplay.Viewer.Draw

/-! ## the look -/

structure Theme (Color : Type) where
  agent : Style Color
  tool : Style Color
  result : Style Color
  dim : Style Color
  thinking : Style Color
  caution : Style Color
  diffAdd : Style Color
  diffDel : Style Color
  foldHeader : Color
  userFg : Color
  userBg : Color
  userMarker : Color
  shellFg : Color
  thinkingFg : Color
  agentExpandedBg : Color
  shellExpandedBg : Color
  diffAddBg : Color
  diffDelBg : Color

/-- What blocks are drawn with. -/
structure Look (Prose Color : Type) extends Theme Color, Words where
  widths : Widths
  /-- the lines of a block that is never folded, at a width -/
  proseLines : Prose → Nat → List (Line Color)
  /-- the lines of one that is told to be folded all the same -/
  proseFolded : Prose → List (Line Color)

variable {Prose Color : Type}

/-- `Span::raw` -/
def raw (text : Text) : Span Color := { content := text }

/-- `Line::styled` -/
def styled (text : Text) (style : Style Color) : Line Color where
  spans := [raw text]
  style := style

/-- `Line::from(Span::styled(..))` -/
def lineOf (text : Text) (style : Style Color) : Line Color where
  spans := [⟨text, style⟩]

/-- A style over a background, where there is one. -/
def onBg (bg : Option Color) (style : Style Color) : Style Color :=
  match bg with
  | some c => { style with bg := some c }
  | none => style

/-- A text's lines, the first behind one lead and the others behind another. -/
def led (draw : Text → Line Color) (first rest : Text) : List Text → List (Line Color)
  | [] => []
  | l :: ls => draw (first ++ l) :: ls.map fun l => draw (rest ++ l)

@[simp] theorem length_led (draw : Text → Line Color) (first rest : Text) (ls : List Text) :
    (led draw first rest ls).length = ls.length := by
  cases ls <;> simp [led]

/-! ## highlighting -/

/-- A piece of a line in one colour. -/
structure HlSpan (Color : Type) where
  text : Text
  fg : Option Color

/-- The lines of a code, without their newlines. -/
def codeLines (code : Text) : List Text :=
  let (ended, tail) := Lib.splitLines '\n' code
  ended ++ if tail = [] then [] else [tail]

/-- A highlighter cuts each line of a code into pieces, which may be any. -/
structure Highlighter (Color : Type) where
  spans : Text → Text → List (List (HlSpan Color))
  text_spans : ∀ code token, (spans code token).map (·.flatMap HlSpan.text) = codeLines code

/-- Is a line drawn, or only measured at a width? -/
inductive Hl
  | styled
  | measure (width : Nat)

/-- `fits_unwrapped` -/
def fitsUnwrapped (W : Widths) (text : Text) (cols : Nat) : Hl → Bool
  | .styled => false
  | .measure width => !text.contains '\t' && cols + W.textWidth text ≤ width

/-- `highlight_spans_with` -/
def highlightSpansWith (W : Widths) (H : Highlighter Color) (code token : Text) (hl : Hl) :
    List (List (HlSpan Color)) :=
  match hl with
  | .styled => H.spans code token
  | .measure width =>
    if (codeLines code).all fun l => fitsUnwrapped W l 0 (.measure width) then
      (codeLines code).map fun l => [⟨l, none⟩]
    else H.spans code token

/-- `highlight_one_with` -/
def highlightOneWith (W : Widths) (H : Highlighter Color) (line token : Text) (hl : Hl) :
    List (HlSpan Color) :=
  (highlightSpansWith W H line token hl).head?.getD []

/-- `hl_span` -/
def hlSpan (sp : HlSpan Color) (patch : Style Color → Style Color) : Span Color where
  content := sp.text
  style := patch { fg := sp.fg }

/-- `token_for_target` -/
def tokenForTarget (target : Text) : Text :=
  let name := afterLast '/' target
  if '.' ∈ name then afterLast '.' name else []

/-! ## code and diffs -/

/-- The margin before a gutter. -/
def inset : Nat := 6

/-- A code up to its n-th newline. -/
def firstLines : Nat → Text → Text
  | 0, _ => []
  | _ + 1, [] => []
  | n + 1, c :: cs => c :: firstLines (if c = '\n' then n else n + 1) cs

/-- What stands before the code of a numbered line. -/
def numberedLead (K : Look Prose Color) (gutter i : Nat) : List (Span Color) :=
  [raw (List.replicate inset ' '), ⟨padLeft gutter (num (i + 1)) ++ [' '], K.dim⟩]

/-- A numbered line, cut into pieces, if there are any. -/
def numberedRow (K : Look Prose Color) (gutter i : Nat) (l : Text)
    (pieces : Option (List (HlSpan Color))) : Line Color where
  spans := numberedLead K gutter i ++
    match pieces with
    | some (sp :: sps) => (sp :: sps).map (hlSpan · id)
    | some [] | none => [raw l]

/-- The columns of the gutter of so many lines. -/
def gutterFor (shown : Nat) : Nat := max (num shown).length 2

/-- `write_numbered` -/
def writeNumbered (K : Look Prose Color) (H : Highlighter Color) (content token : Text)
    (limit : Option Nat) (hl : Hl) : List (Line Color) :=
  let lines := strLines content
  let shown := limit.elim lines.length (min lines.length)
  let head := if lines.length ≤ shown ∨ shown = 0 then content else firstLines shown content
  let spans := highlightSpansWith K.widths H head token hl
  ((lines.take shown).mapIdx fun i l => numberedRow K (gutterFor shown) i l spans[i]?) ++
    if shown < lines.length then
      [styled ("     … +".toList ++ num (lines.length - shown) ++ " lines".toList) K.dim]
    else []

/-- The gutter and the marker of a row of a diff, behind the margin where it has no background. -/
def diffLead (K : Look Prose Color) (gw : Nat) (n : Option Nat) (marker : Char)
    (bg : Option Color) : List (Span Color) :=
  let gutter := n.elim (List.replicate gw ' ') fun n => padLeft gw (num n)
  let style := if marker = '+' then K.diffAdd else if marker = '-' then K.diffDel else K.dim
  (if bg.isNone then [raw (List.replicate inset ' ')] else []) ++
    [⟨gutter ++ [' '], onBg bg style⟩, ⟨[marker], onBg bg style⟩]

/-- The columns of spans. -/
def spansWidth (W : Widths) (spans : List (Span Color)) : Nat :=
  (spans.map fun s => W.textWidth s.content).sum

/-- `diff_row` -/
def diffRow (K : Look Prose Color) (H : Highlighter Color) (gw : Nat) (n : Option Nat)
    (marker : Char) (text token : Text) (hl : Hl) (bg : Option Color) : Line Color :=
  let lead := diffLead K gw n marker bg
  if fitsUnwrapped K.widths text (spansWidth K.widths lead) hl then { spans := lead ++ [raw text] }
  else
    { spans := lead ++ (highlightOneWith K.widths H text token .styled).map (hlSpan · (onBg bg)) }

/-- The marker and the background of a row. -/
def rowLook (K : Look Prose Color) : Diff.DiffKind → Char × Option Color
  | .ctx => (' ', none)
  | .add => ('+', some K.diffAddBg)
  | .del => ('-', some K.diffDelBg)

/-- `render_diff` -/
def renderDiff (K : Look Prose Color) (H : Highlighter Color) (diffs : List (Text × Text))
    (patch : Option (List Diff.Hunk)) (token : Text) (hl : Hl) : List (Line Color) :=
  (Diff.diffRowGroups diffs patch).flatMap fun group =>
    let gw := max (num group.maxLine).length 1
    group.rows.map fun r =>
      diffRow K H gw r.num (rowLook K r.kind).1 r.text token hl (rowLook K r.kind).2

/-! ## headers -/

/-- `Edit` and `MultiEdit` are shown as an update. -/
def displayName (name : String) : Text := if isEdit name then "Update".toList else name.toList

def outsideSandbox : Text := "outside the sandbox".toList

/-- `with_execution` -/
def withExecution (K : Look Prose Color) (line : Line Color) (execution : Option ToolExecution)
    (bg : Option Color) : Line Color :=
  match execution with
  | none => line
  | some e =>
    let summary := toolExecutionSummary e
    let said :=
      if summary ≠ [] then
        [⟨"  ".toList, onBg bg {}⟩,
          ⟨summary, onBg bg (if toolExecutionFailed e then K.diffDel else K.dim)⟩]
      else []
    let outside :=
      if e.outsideSandbox then
        [⟨"  ".toList, onBg bg {}⟩, ⟨outsideSandbox, onBg bg K.caution⟩]
      else []
    { line with spans := line.spans ++ said ++ outside }

/-- `tool_header` -/
def toolHeader (K : Look Prose Color) (name : String) (target : Text) (bg : Option Color) :
    Line Color where
  spans := [⟨"⏺".toList, onBg bg K.tool⟩, ⟨" ".toList, onBg bg {}⟩,
    ⟨displayName name, onBg bg K.tool⟩, ⟨"(".toList ++ target ++ ")".toList, onBg bg {}⟩]

/-- `tool_header_lines` -/
def toolHeaderLines (K : Look Prose Color) (name : String) (target : Text) (bg : Option Color) :
    List (Line Color) :=
  match strLines target with
  | first :: second :: more =>
    { spans := [⟨"⏺".toList, onBg bg K.tool⟩, ⟨" ".toList, onBg bg {}⟩,
        ⟨displayName name, onBg bg K.tool⟩, ⟨"(".toList ++ first, onBg bg {}⟩] } ::
      (second :: more).mapIdx fun i line =>
        lineOf ("  ".toList ++ line ++ if i = more.length then ")".toList else []) (onBg bg {})
  | _ => [toolHeader K name target bg]

/-- What the state of a spawn is called. -/
def spawnState (sa : Spawn) : Text :=
  match sa.result, sa.status with
  | some _, .completed => "done".toList
  | some _, .failed => "failed".toList
  | some _, .killed => "killed".toList
  | some _, .stopped => "stopped".toList
  | _, _ => "launched".toList

/-- `spawn_chip` -/
def spawnChip (sa : Spawn) : Text :=
  if 0 < sa.toolCount then
    num sa.toolCount ++ " tool".toList ++ plural sa.toolCount ++ " · ".toList ++ spawnState sa
  else spawnState sa

/-- `done_verb` -/
def doneVerb : AgentStatus → Text
  | .completed => "completed".toList
  | .failed => "failed".toList
  | .killed => "killed".toList
  | .stopped => "stopped".toList
  | .unknown | .running | .asyncLaunched => "finished".toList

/-- The header of an agent's event: what it is about, what became of it, and its id. -/
def agentLine (K : Look Prose Color) (arg state agentId : Text) : Line Color where
  spans := [⟨"⏺ ".toList, K.agent⟩, ⟨"Agent".toList, K.agent⟩, ⟨arg, {}⟩,
      ⟨"  ".toList ++ state, { fg := some K.foldHeader }⟩] ++
    if agentId ≠ [] then
      [⟨"  ↵ ".toList, { fg := some K.foldHeader }⟩,
        -- underlined
        ⟨agentId, { K.agent with addModifier := K.agent.addModifier ||| 8 }⟩]
    else []

/-- `agent_header` -/
def agentHeader (K : Look Prose Color) (sa : Spawn) : Line Color :=
  agentLine K ("(".toList ++ sa.agentType ++ ": ".toList ++ sa.description ++ ")".toList)
    (spawnChip sa) sa.agentId

/-- `agent_done_arg` -/
def agentDoneArg (agentType description : Text) : Text :=
  if agentType = [] then "(".toList ++ description ++ ")".toList
  else "(".toList ++ agentType ++ ": ".toList ++ description ++ ")".toList

/-- `agent_done_header` -/
def agentDoneHeader (K : Look Prose Color) (agentId agentType description : Text)
    (status : AgentStatus) : Line Color :=
  agentLine K (agentDoneArg agentType description) (doneVerb status) agentId

/-- A header over a background. -/
def headOn (bg : Color) (line : Line Color) : Line Color :=
  { line with spans := line.spans.map fun s => { s with style := onBg (some bg) s.style } }

/-- `command_header` -/
def commandHeader (K : Look Prose Color) (name args : Text) : Line Color :=
  let base : Style Color := { fg := some K.userFg, bg := some K.userBg }
  let body :=
    match args, strLines args with
    | [], _ => name
    | _, [] => name ++ [' ']
    | _, [first] => name ++ [' '] ++ first
    | _, first :: _ :: _ => name ++ [' '] ++ first ++ ['…']
  { spans := [⟨"❯ ".toList, { base with fg := some K.userMarker }⟩, ⟨body, base⟩] }

/-- `command_header_lines` -/
def commandHeaderLines (K : Look Prose Color) (name args : Text) : List (Line Color) :=
  let base : Style Color := { fg := some K.userFg, bg := some K.userBg }
  let caret : Span Color := ⟨"❯ ".toList, { base with fg := some K.userMarker }⟩
  if args = [] then [{ spans := [caret, ⟨name, base⟩] }]
  else
    match strLines args with
    | [] => []
    | first :: more =>
      { spans := [caret, ⟨name ++ [' '] ++ first, base⟩] } ::
        more.map fun line => lineOf ("  ".toList ++ line) base

/-- `command_output_lines` -/
def commandOutputLines (K : Look Prose Color) (output : List Text) : List (Line Color) :=
  output.flatMap fun chunk =>
    led (lineOf · (onBg (some K.userBg) K.result)) "  ⎿ ".toList "    ".toList (strLines chunk)

/-- `safety_stop_line` -/
def safetyStopLine (category : Option Text) : Text :=
  match (category.map trimChars).filter (· ≠ []) with
  | some c => "Stopped by the safety classifier · ".toList ++ c
  | none => "Stopped by the safety classifier".toList

/-- `safety_stop_header` -/
def safetyStopHeader (K : Look Prose Color) (category : Option Text) : Line Color :=
  lineOf ("  ⎿ \u00a0".toList ++ safetyStopLine category) K.dim

def triggerName : CompactTrigger → Text
  | .auto => "auto".toList
  | .manual => "manual".toList

/-- `compaction_summary` -/
def compactionSummary (K : Look Prose Color) (trigger : CompactTrigger)
    (preTokens postTokens : Nat) : Text :=
  let said := "context compacted · ".toList ++ triggerName trigger
  if preTokens = 0 ∧ postTokens = 0 then said
  else
    said ++ " · ".toList ++ K.humanTokens preTokens ++ " → ".toList ++ K.humanTokens postTokens

/-- `compaction_rule` -/
def compactionRule (K : Look Prose Color) (trigger : CompactTrigger) (preTokens postTokens : Nat) :
    Line Color :=
  styled ("── ".toList ++ compactionSummary K trigger preTokens postTokens ++ " ──".toList) K.dim

/-! ## a call in full -/

/-- `push_result_lines` -/
def resultLines (K : Look Prose Color) (text : Text) : List (Line Color) :=
  led (styled · K.result) "  ⎿ \u00a0".toList "     ".toList (strLines text)

def outputCap : Nat := 15

/-- `push_capped_output` -/
def cappedOutput (K : Look Prose Color) (text : Text) : List (Line Color) :=
  let base : Style Color := { fg := some K.shellFg, bg := some K.shellExpandedBg }
  let lines := strLines text
  led (lineOf · base) "  ⎿ ".toList "    ".toList (lines.take outputCap) ++
    if outputCap < lines.length then
      [lineOf ("    … ".toList ++ num (lines.length - outputCap) ++ " lines remaining".toList) base]
    else []

namespace Call

/-- A text that is there and is not blank. -/
def nonBlank (text : Option Text) : Option Text := text.filter fun o => trimChars o ≠ []

/-- The hunks of the call's patch, none where it has no patch. -/
def hunks (u : Call) : List Diff.Hunk := u.patch.getD []

/-- A write over a file that was there carries a patch. -/
def overwrite (u : Call) : Bool := isWrite u.name && !u.hunks.isEmpty

/-- Why the call changed nothing. -/
def refused (u : Call) : Option NotApplied :=
  if isWrite u.name || isEdit u.name then
    notApplied u.name u.target u.overwrite u.execution u.output
  else none

/-- What the call shows in its head: who a message went to, before its target. -/
def headTarget (u : Call) : Text := u.sentTo.elim u.target (sendHead u.target)

/-- The lines of a message sent to another agent. -/
def sentLines (K : Look Prose Color) (u : Call) (text : Text) : List (Line Color) :=
  withExecution K (toolHeader K u.name u.headTarget none) u.execution none ::
    (led (styled · K.result) "  ⎿ \u00a0".toList "     ".toList (strLines text) ++
      (nonBlank u.output).elim [] fun o =>
        (strLines (sendReceipt K.toWords o)).map fun l => styled ("     ".toList ++ l) K.dim)

/-- The lines of what a call published. -/
def publishedLines (K : Look Prose Color) (H : Highlighter Color) (hl : Hl) (u : Call)
    (p : Published) : List (Line Color) :=
  let counts := sumCounts (u.diffs.map diffCounts)
  let said := (editsAppliedNote p.editsApplied u.diffs.length).getD (editSummary counts.1 counts.2)
  withExecution K (toolHeader K u.name u.target none) u.execution none ::
    (styled ("  ⎿ \u00a0".toList ++ p.url) K.result ::
      (if p.description ≠ [] then [styled ("    ".toList ++ p.description) K.dim] else []) ++
      (if u.diffs ≠ [] then
        styled ("    ".toList ++ said) K.dim ::
          renderDiff K H u.diffs u.patch (tokenForTarget u.target) hl
      else []) ++
      (if p.removed ≠ [] then [styled ("    ".toList ++ removedFilesNote p.removed) K.dim] else []))

/-- What stands above a fresh file: the header, and how much was written or why it was not. -/
def writeHead (K : Look Prose Color) (u : Call) (said : Option Text) : List (Line Color) :=
  withExecution K (toolHeader K u.name u.target none) u.execution none ::
    match said with
    | some said => resultLines K said
    | none =>
      [styled ("  ⎿ \u00a0Wrote ".toList ++ num (strLines (writeContent u.diffs)).length ++
        " lines to ".toList ++ u.target) K.result]

/-- The lines of a write of a fresh file. -/
def writeLines (K : Look Prose Color) (H : Highlighter Color) (hl : Hl) (u : Call)
    (said : Option Text) : List (Line Color) :=
  u.writeHead K said ++
    writeNumbered K H (writeContent u.diffs) (tokenForTarget u.target) none hl

/-- Does an edit say how many lines it changed? One of no lines whose note says what happened does
not. -/
def saysCounts (u : Call) : Bool :=
  let counts :=
    if u.overwrite then patchCounts u.hunks else sumCounts (u.diffs.map diffCounts)
  0 < counts.1 + counts.2 || u.output.isNone

/-- The lines of an edit of a file that was there. -/
def editLines (K : Look Prose Color) (H : Highlighter Color) (hl : Hl) (u : Call)
    (said : Option Text) : List (Line Color) :=
  let counts :=
    if u.overwrite then patchCounts u.hunks else sumCounts (u.diffs.map diffCounts)
  let diff := renderDiff K H u.diffs u.patch (tokenForTarget u.target) hl
  withExecution K (toolHeader K u.name u.target none) u.execution none ::
    match said with
    | some said => resultLines K said ++ diff
    | none =>
      (if u.saysCounts then
        [styled ("  ⎿ \u00a0".toList ++ editSummary counts.1 counts.2) K.result]
      else []) ++ diff ++ (nonBlank u.output).elim [] (resultLines K)

/-- The lines of what a shell command changed in one file. -/
def fileLines (K : Look Prose Color) (H : Highlighter Color) (hl : Hl) (u : Call)
    (group : List Diff.Hunk) : List (Line Color) :=
  let file := (group.head?.bind (·.file)).getD u.target
  let counts := patchCounts group
  styled ("  ⎿ \u00a0".toList ++ fileEditSummary file counts.1 counts.2) K.result ::
    if group.any (·.lines ≠ []) then renderDiff K H [] (some group) (tokenForTarget file) hl else []

/-- The header of a call over the shell's background, the outcome on its first line. -/
def shellHead (K : Look Prose Color) (u : Call) : List (Line Color) :=
  let bg := some K.shellExpandedBg
  match toolHeaderLines K u.name u.target bg with
  | [] => []
  | header :: more => withExecution K header u.execution bg :: more

/-- The lines of a call of any other tool. -/
def otherLines (K : Look Prose Color) (H : Highlighter Color) (hl : Hl) (u : Call) :
    List (Line Color) :=
  u.shellHead K ++ u.output.elim [] (cappedOutput K) ++
    (hunksByFile u.hunks).flatMap (u.fileLines K H hl)

/-- A call in full. -/
def lines (K : Look Prose Color) (H : Highlighter Color) (hl : Hl) (u : Call) :
    List (Line Color) :=
  match u.sent, u.published with
  | some text, _ => u.sentLines K text
  | none, some p => u.publishedLines K H hl p
  | none, none =>
    match u.refused with
    | some (.failed reason) =>
      withExecution K (toolHeader K u.name u.target none) u.execution none :: resultLines K reason
    | some (.rejected said) =>
      if isWrite u.name && !u.overwrite then u.writeLines K H hl (some said)
      else u.editLines K H hl (some said)
    | none =>
      if isWrite u.name && !u.overwrite then u.writeLines K H hl none
      else if u.overwrite || isEdit u.name then u.editLines K H hl none
      else u.otherLines K H hl

end Call

/-! ## a block in full -/

/-- A text under an agent's header. -/
def agentText (K : Look Prose Color) (text : Text) : List (Line Color) :=
  led (lineOf · (onBg (some K.agentExpandedBg) K.result)) "  ⎿  ".toList "     ".toList
    (strLines text)

/-- The tools of a run, then what was thought. -/
def thinkingLines (K : Look Prose Color) (H : Highlighter Color) (hl : Hl) (text : Text)
    (durationSecs : Option Nat) (tools : List Call) : List (Line Color) :=
  let turnBg := some K.shellExpandedBg
  let pureActivity := trimChars text = [] ∧ durationSecs = none
  let heading := "✻ ".toList ++ K.turnSummary durationSecs tools
  (if tools ≠ [] ∧ ¬pureActivity then [lineOf heading (onBg turnBg K.thinking)] else []) ++
    tools.flatMap (Call.lines K H hl) ++
    led (lineOf · { fg := some K.thinkingFg, bg := turnBg }) "✻ ".toList "  ".toList
      (strLines text)

/-- `render_one` -/
def renderOne (K : Look Prose Color) (H : Highlighter Color) (b : Block Prose) (width : Nat)
    (hl : Hl) : List (Line Color) :=
  match b with
  | .prose p => K.proseLines p width
  | .subAgent sa =>
    headOn K.agentExpandedBg (agentHeader K sa) ::
      ((if trimChars sa.prompt ≠ [] then agentText K sa.prompt else []) ++
        sa.result.elim [] (agentText K))
  | .agentDone agentId agentType description status result =>
    headOn K.agentExpandedBg (agentDoneHeader K agentId agentType description status) ::
      result.elim [] (agentText K)
  | .thinking text durationSecs tools => thinkingLines K H hl text durationSecs tools
  | .toolUse u => u.lines K H hl
  | .toolResult text =>
    led (lineOf · (onBg (some K.shellExpandedBg) K.result)) "  ⎿ ".toList "    ".toList
      (strLines text)
  | .safetyStop category note =>
    safetyStopHeader K category :: (strLines note).map fun l =>
      lineOf ("    ".toList ++ l) (onBg (some K.shellExpandedBg) K.result)
  | .command name args output => commandHeaderLines K name args ++ commandOutputLines K output
  | .compaction trigger preTokens postTokens summary =>
    compactionRule K trigger preTokens postTokens ::
      led (styled · K.result) "  ⎿ ".toList "    ".toList (strLines summary)

/-! ## a block folded -/

def isEq {α : Type} (op : Diff.LineOp α) : Bool := op matches .eq _

def isDel {α : Type} (op : Diff.LineOp α) : Bool := op matches .del _

def isIns {α : Type} (op : Diff.LineOp α) : Bool := op matches .ins _

theorem length_dropWhile_runs {α : Type} {op : Diff.LineOp α} (h : ¬isEq op = true)
    (ops : List (Diff.LineOp α)) :
    (((op :: ops).dropWhile isDel).dropWhile isIns).length < (op :: ops).length := by
  have hle : ∀ p : Diff.LineOp α → Bool, (ops.dropWhile p).length ≤ ops.length := fun p =>
    (List.dropWhile_sublist p).length_le
  cases op with
  | eq l => exact (h rfl).elim
  | del l =>
    have hdrop := (List.dropWhile_sublist (l := ops.dropWhile isDel) isIns).length_le
    have hops := hle isDel
    rw [List.dropWhile_cons_of_pos rfl, List.length_cons]
    omega
  | ins l =>
    have hops := hle isIns
    rw [List.dropWhile_cons_of_neg (by simp [isDel]), List.dropWhile_cons_of_pos rfl,
      List.length_cons]
    omega

/-- The rows of a comparison, counted a run of deletions and insertions at a time. -/
def renderedLen {α : Type} : List (Diff.LineOp α) → Nat
  | [] => 0
  | op :: ops =>
    if h : isEq op then 1 + renderedLen ops
    else
      let rest := (op :: ops).dropWhile isDel
      let dels := ((op :: ops).takeWhile isDel).length
      let inss := (rest.takeWhile isIns).length
      let pairs := min dels inss
      pairs * 2 + (dels - pairs) + (inss - pairs) + renderedLen (rest.dropWhile isIns)
  termination_by ops => ops.length
  decreasing_by
    · exact Nat.lt_succ_self _
    · exact length_dropWhile_runs h ops

/-- `diff_rendered_len` -/
def diffRenderedLen (pair : Text × Text) : Nat :=
  renderedLen (Diff.lineDiff (strLines pair.1) (strLines pair.2))

namespace Call

/-- The lines counted of a call's diff. -/
def diffLen (u : Call) : Nat :=
  match u.patch with
  | some hunks => (hunks.map (·.lines.length)).sum
  | none =>
    ((u.diffs.filter fun pair => !(pair.1 = [] ∧ pair.2 = [])).map diffRenderedLen).sum

/-- The lines counted of a call's output. -/
def outputLen (u : Call) : Nat :=
  let n := u.output.elim 0 fun o => (strLines o).length
  min n outputCap + if outputCap < n then 1 else 0

/-- The lines counted of a call, by its tool. -/
def bodyLenByName (u : Call) : Nat :=
  if isWrite u.name && u.hunks.isEmpty then 1 + (strLines (writeContent u.diffs)).length
  else if isWrite u.name || isEdit u.name then 1 + u.diffLen
  else u.outputLen

/-- The lines counted of a message's receipt. -/
def receiptLen (w : Words) (u : Call) : Nat :=
  (nonBlank u.output).elim 0 fun o => (strLines (sendReceipt w o)).length

end Call

/-- `body_len` -/
def bodyLen (K : Look Prose Color) : Block Prose → Nat
  | .toolResult text => (strLines text).length - 1
  | .safetyStop _ note => (strLines note).length
  | .subAgent sa =>
    (if trimChars sa.prompt = [] then 0 else (strLines sa.prompt).length) + 1 +
      sa.result.elim 0 fun r => (strLines r).length
  | .agentDone _ _ _ _ result => result.elim 0 fun r => (strLines r).length
  | .thinking text _ _ => (strLines text).length - 1
  | .toolUse u =>
    match u.sent, u.savedOutput with
    | some text, none => (strLines text).length + u.receiptLen K.toWords
    | _, _ => u.bodyLenByName
  | .command _ _ output => (output.map fun chunk => (strLines chunk).length).sum
  | .compaction _ _ _ summary => if summary = [] then 0 else (strLines summary).length
  | .prose _ => 0

/-- `render_header` -/
def renderHeader (K : Look Prose Color) : Block Prose → Line Color
  | .subAgent sa => agentHeader K sa
  | .agentDone agentId agentType description status _ =>
    agentDoneHeader K agentId agentType description status
  | .thinking text _ _ => styled ("✻ ".toList ++ (strLines text).headD []) K.thinking
  | .toolUse u =>
    withExecution K
      { spans := [⟨"⏺ ".toList, K.tool⟩, ⟨displayName u.name, K.tool⟩,
          raw ("(".toList ++ u.headTarget ++ ")".toList)] }
      u.execution none
  | .toolResult text => styled ("  ⎿ ".toList ++ (strLines text).headD []) K.result
  | .safetyStop category _ => safetyStopHeader K category
  | .command name args _ => commandHeader K name args
  | .compaction trigger preTokens postTokens _ => compactionRule K trigger preTokens postTokens
  | .prose _ => { spans := [] }

/-- The line that says how many lines are folded. -/
def placeholder (K : Look Prose Color) (hidden : Nat) : Line Color :=
  styled ("  ⋯ ".toList ++ num hidden ++ " folded (space / click to expand)".toList) K.dim

/-- A header, and the count of what is folded, if anything is. -/
def headerOnly (K : Look Prose Color) (b : Block Prose) : List (Line Color) :=
  renderHeader K b :: if 0 < bodyLen K b then [placeholder K (bodyLen K b)] else []

def writePreview : Nat := 10

namespace Call

/-- Is the call one whose folded form is a line of its own? A shell command, a read, and a write of
a fresh file are. -/
def hasOwnFold (u : Call) : Bool :=
  u.name == "Bash" || (isWrite u.name && u.hunks.isEmpty) || u.name == "Read"

/-- A write of a fresh file, folded: its first lines. -/
def previewLines (K : Look Prose Color) (H : Highlighter Color) (u : Call) : List (Line Color) :=
  let content := writeContent u.diffs
  let preview := writeNumbered K H content (tokenForTarget u.target) (some writePreview) .styled
  withExecution K (toolHeader K u.name u.target none) u.execution none ::
    match notApplied u.name u.target false u.execution u.output with
    | some (.failed reason) => resultLines K reason
    | some (.rejected said) => resultLines K said ++ preview
    | none =>
      styled ("  ⎿ \u00a0Wrote ".toList ++ num (strLines content).length ++ " lines to ".toList ++
        u.target) K.result :: preview

end Call

/-- `change_spans` -/
def changeSpans (K : Look Prose Color) (tools : List Call) : List (Span Color) :=
  match runChanges tools with
  | none => []
  | some (adds, dels) =>
    [raw " ".toList, ⟨"+".toList ++ num adds, K.diffAdd⟩, raw " ".toList,
      ⟨"−".toList ++ num dels, K.diffDel⟩]

/-- `render_collapsed` -/
def renderCollapsed (K : Look Prose Color) (H : Highlighter Color) (b : Block Prose) :
    List (Line Color) :=
  let header : Style Color := { fg := some K.foldHeader }
  match b with
  | .prose p => K.proseFolded p
  | .thinking text durationSecs tools =>
    [{ spans := ⟨"  ".toList ++ K.thinkingSummary text durationSecs tools, header⟩ ::
        changeSpans K tools ++
        if runOutsideSandbox tools then [raw "  ".toList, ⟨outsideSandbox, K.caution⟩] else [] }]
  | .toolUse u =>
    if u.name = "Bash" then
      [withExecution K (lineOf "  Ran 1 shell command".toList header) u.execution none]
    else if isWrite u.name && u.hunks.isEmpty then u.previewLines K H
    else if u.name = "Read" then
      let suffix := u.readLines.elim [] fun n => " (".toList ++ num n ++ " lines)".toList
      [withExecution K (lineOf ("  Read ".toList ++ u.target ++ suffix) header) u.execution none]
    else headerOnly K (.toolUse u)
  | .command name args output =>
    let lines := commandOutputLines K output
    commandHeader K name args :: lines.take 1 ++
      if 1 < lines.length then [placeholder K (lines.length - 1)] else []
  | b => headerOnly K b

/-- `block_body` -/
def blockBody (K : Look Prose Color) (H : Highlighter Color) (b : Block Prose) (isCollapsed : Bool)
    (width : Nat) (hl : Hl) : List (Line Color) :=
  if isCollapsed then renderCollapsed K H b else renderOne K H b width hl

/-! ## a plain look -/

/-- No colours, and every line in one piece. -/
def wholeLines : Highlighter Nat where
  spans code _ := (codeLines code).map fun l => [⟨l, none⟩]
  text_spans code token := by simp [Function.comp_def]

/-- Every character one column wide, and no prose. -/
def plainLook : Look Empty Nat where
  agent := {}
  tool := {}
  result := {}
  dim := {}
  thinking := {}
  caution := {}
  diffAdd := {}
  diffDel := {}
  foldHeader := 0
  userFg := 0
  userBg := 0
  userMarker := 0
  shellFg := 0
  thinkingFg := 0
  agentExpandedBg := 0
  shellExpandedBg := 0
  diffAddBg := 0
  diffDelBg := 0
  parse _ := none
  humanTokens := num
  thinkingSummary _ _ _ := "Thought".toList
  turnSummary _ _ := "Thought".toList
  widths := { width := fun _ => 1, le_two := fun _ => by decide, space := rfl }
  proseLines p _ := p.elim
  proseFolded p := p.elim

end ClaudeReplay.Viewer.Draw
