import ClaudeReplay.Model

/-!
# ClaudeReplay.Shaping

The agent-specific seam of the fold. `Shaping` holds the four hooks an adapter
supplies: `buildTool`, `joinResult`, `keepOrphan` and `finishTurns`. Everything
else in the fold is agent-agnostic.

`Shaping.Lawful` collects what the machinery relies on of the hooks:

* a call is shaped into a call block and its result leaves it one;
* `finishTurns` only regroups thinking, tool calls and attachments, so the
  *landmarks* — every other block — come out as they went in;
* `finishTurns` distributes over a turn opener, which is what lets completed
  turns be finalized one at a time.

The last is proved here of the two finishers the repository has,
`coalesceSpans` (Claude) and `codexFinish` (Codex). For `coalesceSpans` it holds
of blocks whose thinking carries text; the decoder emits no other.
-/

namespace ClaudeReplay

/-- The four hooks an adapter supplies to the fold. -/
structure Shaping where
  /-- Build the block for a `tool_use` from its raw fields (`id`, `name`, `input`, `cwd`). -/
  buildTool : String → String → Value → String → Block
  /-- Join a tool result onto its block: text, `toolUseResult`, and the `is_error` tri-state. -/
  joinResult : Block → String → Value → Option Bool → Block
  /-- Keep a resultless orphan result? -/
  keepOrphan : String → Bool
  /-- Final turn shaping. -/
  finishTurns : List Block → List Block

/-- The blocks no finisher may touch: everything but thinking, tool calls and
attachments. -/
def Block.isLandmark : Block → Bool
  | .thinking .. | .toolUse _ | .attachment _ => false
  | _ => true

theorem Block.isLandmark_of_opensTurn {b : Block} (h : b.opensTurn = true) :
    b.isLandmark = true := by
  cases b <;> simp_all [opensTurn, isLandmark]

theorem Block.not_isBlankThinking_of_isCall {b : Block} (h : b.isCall = true) :
    b.isBlankThinking = false := by
  cases b <;> simp_all [isBlankThinking, isCall]

/-- What the fold relies on of an adapter's hooks. -/
structure Shaping.Lawful (sh : Shaping) : Prop where
  buildTool_isCall : ∀ id name input cwd, (sh.buildTool id name input cwd).isCall = true
  buildTool_phase : ∀ id name input cwd, (sh.buildTool id name input cwd).phase = none
  joinResult_isCall : ∀ b text tur e, b.isCall = true → (sh.joinResult b text tur e).isCall = true
  joinResult_phase : ∀ b text tur e, b.phase = none → (sh.joinResult b text tur e).phase = none
  finishTurns_landmarks : ∀ bs, (sh.finishTurns bs).filter Block.isLandmark =
    bs.filter Block.isLandmark
  finishTurns_append : ∀ xs b ys, (∀ x ∈ xs, x.isBlankThinking = false) → b.opensTurn = true →
    sh.finishTurns (xs ++ b :: ys) = sh.finishTurns xs ++ sh.finishTurns (b :: ys)
  finishTurns_nil : sh.finishTurns [] = []

/-! ## Claude: coalescing activity spans -/

/-- The run `coalesceSpans` is collecting: the thinking texts and durations, the
calls folded so far, and the attachments held back until the run is written. -/
structure Span where
  texts : List String
  dur : Option Nat
  tools : List ToolUse
  held : List Attachment
  deriving DecidableEq, Repr

/-- No run open. -/
def Span.empty : Span := ⟨[], none, [], []⟩

/-- Something has been collected, so an attachment waits for the run. -/
def Span.isOpen (s : Span) : Bool := !s.texts.isEmpty || !s.tools.isEmpty

/-- A run of nothing but edits, which stays as cards of its own. -/
def Span.onlyEdits (s : Span) : Bool :=
  s.texts.isEmpty && s.dur.isNone && s.tools.all fun t => isEditTool t.name

/-- `flush`: what the run turns into, and the span left behind. A span with a
duration and nothing else writes nothing, and keeps the duration. -/
def Span.flush (s : Span) : List Block × Span :=
  let held := s.held.map Block.attachment
  if s.onlyEdits then
    (s.tools.map Block.toolUse ++ held, { s with tools := [], held := [] })
  else if s.isOpen then
    (.thinking ("\n\n".intercalate s.texts) s.dur s.tools :: held, .empty)
  else
    (held, { s with held := [] })

/-- One block of the coalescing loop: what it writes, and the span after it. -/
def Span.step (s : Span) : Block → List Block × Span
  | .thinking text durationSecs inner =>
    ([], { s with
      tools := s.tools ++ inner
      texts := if isBlank text then s.texts else s.texts ++ [text]
      dur := match durationSecs with
        | some d => some ((s.dur.getD 0 + d) % 2 ^ 64)
        | none => s.dur })
  | .toolUse call =>
    if isActivityTool call.name || isEditTool call.name then
      ([], { s with tools := s.tools ++ [call] })
    else
      (s.flush.1 ++ [.toolUse call], s.flush.2)
  | .attachment a =>
    if s.isOpen then ([], { s with held := s.held ++ [a] }) else ([.attachment a], s)
  | other => (s.flush.1 ++ [other], s.flush.2)

/-- The coalescing loop from a given span on. -/
def coalesceFrom (s : Span) : List Block → List Block
  | [] => s.flush.1
  | b :: bs => (s.step b).1 ++ coalesceFrom (s.step b).2 bs

/-- `coalesce_spans`: each span of consecutive thinking and activity calls
becomes one `thinking` block. -/
def coalesceSpans (blocks : List Block) : List Block := coalesceFrom .empty blocks

/-- A span whose duration belongs to something it will write. -/
def Span.Clean (s : Span) : Prop := s.dur.isSome → s.isOpen = true

theorem Span.clean_empty : Span.empty.Clean := by simp [Clean, empty]

/-- Flushing a clean span leaves no run behind. -/
theorem Span.flush_of_clean (s : Span) (h : s.Clean) : s.flush.2 = .empty := by
  obtain ⟨texts, dur, tools, held⟩ := s
  unfold flush
  split
  · next he =>
    simp only [onlyEdits, Bool.and_eq_true, List.isEmpty_iff, Option.isNone_iff_eq_none] at he
    simp [empty, he.1.1, he.1.2]
  · split
    · rfl
    · next ho =>
      have hdur : dur = none := by
        cases dur with
        | none => rfl
        | some d => exact absurd (h rfl) ho
      simp only [isOpen, Bool.or_eq_true, not_or] at ho
      simp_all [empty]

/-- A block whose thinking has text keeps the span clean. -/
theorem Span.step_clean (s : Span) (b : Block) (h : s.Clean) (hb : b.isBlankThinking = false) :
    (s.step b).2.Clean := by
  have hflush : s.flush.2.Clean := by rw [s.flush_of_clean h]; exact clean_empty
  cases b with
  | thinking text durationSecs inner =>
    have htext : isBlank text = false := hb
    intro _
    simp [step, isOpen, htext]
  | toolUse call =>
    simp only [step]
    split
    · intro _
      simp [isOpen]
    · exact hflush
  | attachment a =>
    simp only [step]
    split
    · exact h
    · exact h
  | _ => exact hflush

/-- An opener is written after the flushed run, whatever the run was. -/
theorem Span.step_of_opensTurn (s : Span) (b : Block) (hb : b.opensTurn = true) :
    s.step b = (s.flush.1 ++ [b], s.flush.2) := by
  cases b <;> simp_all [step, Block.opensTurn]

theorem coalesceFrom_append (s : Span) (xs : List Block) (b : Block) (ys : List Block)
    (hs : s.Clean) (hxs : ∀ x ∈ xs, x.isBlankThinking = false) (hb : b.opensTurn = true) :
    coalesceFrom s (xs ++ b :: ys) = coalesceFrom s xs ++ coalesceFrom .empty (b :: ys) := by
  induction xs generalizing s with
  | nil =>
    have hempty : Span.empty.flush = ([], .empty) := rfl
    simp only [List.nil_append, coalesceFrom, Span.step_of_opensTurn _ b hb,
      s.flush_of_clean hs, hempty]
    simp
  | cons x xs ih =>
    have hx := hxs x List.mem_cons_self
    have hrest := fun y hy => hxs y (List.mem_cons_of_mem x hy)
    simp only [List.cons_append, coalesceFrom, ih (s.step x).2 (s.step_clean x hs hx) hrest,
      List.append_assoc]

/-- **`coalesceSpans` distributes over a turn opener.** -/
theorem coalesceSpans_append (xs : List Block) (b : Block) (ys : List Block)
    (hxs : ∀ x ∈ xs, x.isBlankThinking = false) (hb : b.opensTurn = true) :
    coalesceSpans (xs ++ b :: ys) = coalesceSpans xs ++ coalesceSpans (b :: ys) :=
  coalesceFrom_append .empty xs b ys Span.clean_empty hxs hb

theorem Span.flush_landmarks (s : Span) : s.flush.1.filter Block.isLandmark = [] := by
  rw [List.filter_eq_nil_iff]
  intro b hb
  simp only [flush] at hb
  split at hb
  · simp only [List.mem_append, List.mem_map] at hb
    obtain ⟨t, -, rfl⟩ | ⟨a, -, rfl⟩ := hb <;> simp [Block.isLandmark]
  · split at hb
    · simp only [List.mem_cons, List.mem_map] at hb
      obtain rfl | ⟨a, -, rfl⟩ := hb <;> simp [Block.isLandmark]
    · simp only [List.mem_map] at hb
      obtain ⟨a, -, rfl⟩ := hb
      simp [Block.isLandmark]

theorem Span.step_landmarks (s : Span) (b : Block) :
    (s.step b).1.filter Block.isLandmark = [b].filter Block.isLandmark := by
  cases b with
  | thinking text durationSecs inner => rfl
  | toolUse call =>
    simp only [step]
    split
    · rfl
    · rw [List.filter_append, s.flush_landmarks]
      rfl
  | attachment a =>
    simp only [step]
    split <;> rfl
  | _ => simp [step, List.filter_append, s.flush_landmarks]

theorem coalesceFrom_landmarks (s : Span) (bs : List Block) :
    (coalesceFrom s bs).filter Block.isLandmark = bs.filter Block.isLandmark := by
  induction bs generalizing s with
  | nil => exact s.flush_landmarks
  | cons b bs ih =>
    rw [coalesceFrom, List.filter_append, s.step_landmarks, ih, ← List.filter_append]
    rfl

/-! ## Codex: gathering exploration actions -/

/-- `canonical_activity`: the canonical tool an exploration marker stands for. -/
def canonicalActivity (name : String) : Option String :=
  if name = "__codex_explore_read" then some "Read"
  else if name = "__codex_explore_search" then some "Grep"
  else if name = "__codex_explore_list" then some "LS"
  else none

/-- `EXPLORE_DETAIL`: the call that carries the exploration's own command. -/
def exploreDetail : String := "__codex_explore_detail"

/-- Codex's `flush`: the gathered actions as one activity block. -/
def flushActions : List ToolUse → List Block
  | [] => []
  | actions => [.thinking "" none actions]

/-- The detail call's command and output, laid onto the last gathered action. -/
def detailOnto (detail : ToolUse) (action : ToolUse) : ToolUse :=
  { action with
    output := some (match detail.output with
      | some o => if o.isEmpty then "$ " ++ detail.target else "$ " ++ detail.target ++ "\n" ++ o
      | none => "$ " ++ detail.target)
    execution := detail.execution }

/-- `actions.last_mut()`. -/
def modifyLast (f : ToolUse → ToolUse) : List ToolUse → List ToolUse
  | [] => []
  | [t] => [f t]
  | t :: ts => t :: modifyLast f ts

/-- The loop of `codex_finish` over the actions gathered so far. -/
def codexFrom (actions : List ToolUse) : List Block → List Block
  | [] => flushActions actions
  | .toolUse call :: bs =>
    match canonicalActivity call.name with
    | some canonical => codexFrom (actions ++ [{ call with name := canonical }]) bs
    | none =>
      if call.name = exploreDetail then
        if actions.isEmpty then
          -- a detail with no action before it degrades to an ordinary Bash call
          .toolUse { call with name := "Bash" } :: codexFrom [] bs
        else codexFrom (modifyLast (detailOnto call) actions) bs
      else flushActions actions ++ .toolUse call :: codexFrom [] bs
  | b :: bs => flushActions actions ++ b :: codexFrom [] bs

/-- `codex_finish`: exploration markers become canonical activity spans. -/
def codexFinish (blocks : List Block) : List Block := codexFrom [] blocks

/-- One of the calls the adapter writes for an exploration. -/
def Block.explores : Block → Bool
  | .toolUse call => (canonicalActivity call.name).isSome || call.name = exploreDetail
  | _ => false

/-- A marker with the details after it. -/
structure Marked where
  call : ToolUse
  canonical : String
  named : canonicalActivity call.name = some canonical
  details : List ToolUse
  detailed : ∀ detail ∈ details, detail.name = exploreDetail

/-- The calls of a marker. -/
def Marked.calls (m : Marked) : List ToolUse := m.call :: m.details

/-- The action of a marker: of its details the last one stays. -/
def Marked.action (m : Marked) : ToolUse :=
  let action := { m.call with name := m.canonical }
  m.details.getLast?.elim action (detailOnto · action)

@[simp] theorem canonicalActivity_exploreDetail : canonicalActivity exploreDetail = none := by
  decide

/-- Any other block ends what is gathered. -/
theorem codexFrom_append (actions : List ToolUse) (xs : List Block) (b : Block) (ys : List Block)
    (hb : b.explores = false) :
    codexFrom actions (xs ++ b :: ys) = codexFrom actions xs ++ b :: codexFrom [] ys := by
  fun_induction codexFrom actions xs with
  | case1 actions =>
    cases b with
    | toolUse call =>
      obtain ⟨hname, hdetail⟩ : canonicalActivity call.name = none ∧ call.name ≠ exploreDetail := by
        simpa [Block.explores] using hb
      simp only [List.nil_append, codexFrom, hname, if_neg hdetail]
    | _ => rfl
  | case2 actions call bs canonical hc ih =>
    simp only [List.cons_append, codexFrom, hc, ih]
  | case3 actions call bs hc hd he ih =>
    simp only [List.cons_append, codexFrom, hc, if_pos hd, if_pos he, ih]
  | case4 actions call bs hc hd he ih =>
    simp only [List.cons_append, codexFrom, hc, if_pos hd, if_neg he, ih]
  | case5 actions call bs hc hd ih =>
    simp only [List.cons_append, codexFrom, hc, if_neg hd, ih, List.append_assoc]
  | case6 actions x bs hx ih =>
    simp only [List.cons_append, codexFrom, ih, List.append_assoc]

/-- **`codexFinish` distributes over a turn opener.** -/
theorem codexFinish_append (xs : List Block) (b : Block) (ys : List Block)
    (hb : b.opensTurn = true) :
    codexFinish (xs ++ b :: ys) = codexFinish xs ++ codexFinish (b :: ys) := by
  have hexplores : b.explores = false := by cases b <;> simp_all [Block.explores, Block.opensTurn]
  have hopen := codexFrom_append [] [] b ys hexplores
  rw [codexFinish, codexFrom_append [] xs b ys hexplores]
  exact congrArg _ hopen.symm

theorem modifyLast_concat (f : ToolUse → ToolUse) (actions : List ToolUse) (action : ToolUse) :
    modifyLast f (actions ++ [action]) = actions ++ [f action] := by
  induction actions with
  | nil => rfl
  | cons a actions ih => cases actions <;> simp_all [modifyLast]

/-- The details of a marker go onto its action. -/
theorem codexFrom_details (actions : List ToolUse) (action : ToolUse) {details : List ToolUse}
    (hdetails : ∀ detail ∈ details, detail.name = exploreDetail) (rest : List Block) :
    codexFrom (actions ++ [action]) (details.map .toolUse ++ rest) =
      codexFrom (actions ++ [details.getLast?.elim action (detailOnto · action)]) rest := by
  induction details generalizing action with
  | nil => rfl
  | cons detail details ih =>
    have hrest := ih (detailOnto detail action) fun d hd => hdetails d (List.mem_cons_of_mem _ hd)
    simp only [List.map_cons, List.cons_append, codexFrom, hdetails detail List.mem_cons_self,
      canonicalActivity_exploreDetail, if_true, modifyLast_concat, hrest]
    cases hlast : details.getLast? <;> simp [List.getLast?_cons, hlast, detailOnto]

theorem codexFrom_marked (actions : List ToolUse) (marks : List Marked) {after : List Block}
    (hafter : ∀ b, after.head? = some b → b.explores = false) :
    codexFrom actions ((marks.flatMap Marked.calls).map .toolUse ++ after) =
      flushActions (actions ++ marks.map Marked.action) ++ codexFinish after := by
  induction marks generalizing actions with
  | nil =>
    cases after with
    | nil => simp [codexFinish, codexFrom, flushActions]
    | cons b after =>
      have hcut (actions : List ToolUse) := codexFrom_append actions [] b after (hafter b rfl)
      simp only [List.nil_append, codexFrom] at hcut
      simp [codexFinish, hcut, flushActions]
  | cons m marks ih =>
    have hdetails := codexFrom_details actions { m.call with name := m.canonical } m.detailed
      ((marks.flatMap Marked.calls).map .toolUse ++ after)
    simp only [List.flatMap_cons, Marked.calls, List.cons_append, List.map_cons, List.map_append,
      List.append_assoc, codexFrom, m.named]
    exact (hdetails.trans (ih _)).trans (by simp [Marked.action])

/-- A detail that no marker precedes is an ordinary call. -/
def ToolUse.asBash (detail : ToolUse) : Block := .toolUse { detail with name := "Bash" }

theorem codexFinish_stray {stray : List ToolUse} (marks : List Marked) {after : List Block}
    (hstray : ∀ detail ∈ stray, detail.name = exploreDetail)
    (hafter : ∀ b, after.head? = some b → b.explores = false) :
    codexFinish ((stray ++ marks.flatMap Marked.calls).map .toolUse ++ after) =
      stray.map ToolUse.asBash ++ flushActions (marks.map Marked.action) ++ codexFinish after := by
  induction stray with
  | nil => exact codexFrom_marked [] marks hafter
  | cons detail stray ih =>
    have hrest := ih fun d hd => hstray d (List.mem_cons_of_mem _ hd)
    simp only [codexFinish] at hrest ⊢
    simp only [List.cons_append, List.map_cons, codexFrom, hstray detail List.mem_cons_self,
      canonicalActivity_exploreDetail, if_true, List.isEmpty_nil, hrest, ToolUse.asBash]

/-- **An exploration is one block**, wherever it stands, with an action for each marker. -/
theorem codexFinish_exploration (before after : List Block) (stray : List ToolUse)
    (marks : List Marked) (hstray : ∀ detail ∈ stray, detail.name = exploreDetail)
    (hbefore : ∀ b, before.getLast? = some b → b.explores = false)
    (hafter : ∀ b, after.head? = some b → b.explores = false) :
    codexFinish (before ++ ((stray ++ marks.flatMap Marked.calls).map .toolUse ++ after)) =
      codexFinish before ++
        (stray.map ToolUse.asBash ++ flushActions (marks.map Marked.action) ++
          codexFinish after) := by
  have hrun := codexFinish_stray marks hstray hafter
  obtain rfl | ⟨xs, b, rfl⟩ := List.eq_nil_or_concat' before
  · exact hrun
  · have hcut (ys : List Block) := codexFrom_append [] xs b ys (hbefore b (by simp))
    simp only [codexFinish, List.append_assoc, List.singleton_append, hcut] at hrun ⊢
    simp only [hrun, codexFrom, flushActions, List.cons_append, List.nil_append]

/-- A file is read, and its command stays with the action. -/
theorem codexFinish_exploration_read :
    let call : ToolUse := ⟨"__codex_explore_read", "a", none, none, none, .null⟩
    let detail : ToolUse := ⟨exploreDetail, "cat a", some "b", none, none, .null⟩
    codexFinish [.userText "go", .toolUse call, .toolUse detail] =
      [.userText "go", .thinking "" none
        [{ call with name := "Read", output := some "$ cat a\nb" }]] :=
  codexFinish_exploration [.userText "go"] [] [] [⟨_, "Read", rfl, [_], by simp⟩] (by simp)
    (by simp [Block.explores]) (by simp)

theorem flushActions_landmarks (actions : List ToolUse) :
    (flushActions actions).filter Block.isLandmark = [] := by
  cases actions <;> rfl

theorem codexFrom_landmarks (actions : List ToolUse) (bs : List Block) :
    (codexFrom actions bs).filter Block.isLandmark = bs.filter Block.isLandmark := by
  fun_induction codexFrom actions bs with
  | case1 actions => exact flushActions_landmarks actions
  | case2 actions call bs canonical hc ih => simpa [Block.isLandmark] using ih
  | case3 actions call bs hc hd he ih => simpa [Block.isLandmark] using ih
  | case4 actions call bs hc hd he ih => simpa [Block.isLandmark] using ih
  | case5 actions call bs hc hd ih =>
    rw [List.filter_append, flushActions_landmarks]
    simpa [Block.isLandmark] using ih
  | case6 actions b bs hb ih =>
    rw [List.filter_append, flushActions_landmarks, List.nil_append, List.filter_cons,
      List.filter_cons, ih]

/-! ## the lawful shapings -/

section

variable (buildTool : String → String → Value → String → Block)
variable (joinResult : Block → String → Value → Option Bool → Block)
variable (keepOrphan : String → Bool)
variable (hbuild : ∀ id name input cwd, (buildTool id name input cwd).isCall = true)
variable (hbuildPhase : ∀ id name input cwd, (buildTool id name input cwd).phase = none)
variable (hjoin : ∀ b text tur e, b.isCall = true → (joinResult b text tur e).isCall = true)
variable (hjoinPhase : ∀ b text tur e, b.phase = none → (joinResult b text tur e).phase = none)

include hbuild hbuildPhase hjoin hjoinPhase

/-- A shaping that finishes turns as Claude does is lawful once its call hooks are. -/
theorem Shaping.lawful_coalesceSpans :
    Shaping.Lawful ⟨buildTool, joinResult, keepOrphan, coalesceSpans⟩ where
  buildTool_isCall := hbuild
  buildTool_phase := hbuildPhase
  joinResult_isCall := hjoin
  joinResult_phase := hjoinPhase
  finishTurns_landmarks := coalesceFrom_landmarks .empty
  finishTurns_append := coalesceSpans_append
  finishTurns_nil := rfl

/-- A shaping that finishes turns as Codex does is lawful once its call hooks are. -/
theorem Shaping.lawful_codexFinish :
    Shaping.Lawful ⟨buildTool, joinResult, keepOrphan, codexFinish⟩ where
  buildTool_isCall := hbuild
  buildTool_phase := hbuildPhase
  joinResult_isCall := hjoin
  joinResult_phase := hjoinPhase
  finishTurns_landmarks := codexFrom_landmarks []
  finishTurns_append := fun xs b ys _ hb => codexFinish_append xs b ys hb
  finishTurns_nil := rfl

end

end ClaudeReplay
