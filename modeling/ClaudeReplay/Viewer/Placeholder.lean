import ClaudeReplay.Viewer.Render

/-!
# ClaudeReplay.Viewer.Placeholder

A folded block shows its header and how many lines are folded below it. Both are worked out
without the block being drawn, and are to agree with what it looks like unfolded: its first line,
and the lines behind that.

* `truthful_iff` — which blocks they agree for. A sub-agent's spawn is counted with a line for the
  agent's id, which it has no longer; what a call published, the diff of a shell command, the
  lines of a long command and the note of an edit are drawn and not counted.
-/

namespace ClaudeReplay.Viewer.Draw

variable {Prose Color : Type} (K : Look Prose Color) (H : Highlighter Color)

/-! ## what is to agree -/

/-- Is the block folded to lines of its own? -/
def Block.hasOwnFold : Block Prose → Bool
  | .thinking .. | .command .. => true
  | .toolUse u => u.hasOwnFold
  | _ => false

/-- Is the block's folded form a header and a count? -/
def Block.foldsToCount (b : Block Prose) : Bool := b.foldable && !b.hasOwnFold

/-- The header is the first line of the block unfolded, and the count that of the lines behind it;
where there are none, there is no count. -/
def Truthful (width : Nat) (hl : Hl) (b : Block Prose) : Prop :=
  ∃ first rest, renderOne K H b width hl = first :: rest ∧
    (renderCollapsed K H b).map Line.text =
      first.text :: if rest = [] then [] else [(placeholder K rest.length).text]

namespace Call

/-- The rows of a call's diff. -/
def diffRows (u : Call) : Nat :=
  ((Diff.diffRowGroups u.diffs u.patch).map (·.rows.length)).sum

/-- The lines of a call's card, where it is drawn by its tool. -/
def cardRows (u : Call) : Nat :=
  if isWrite u.name || isEdit u.name then 1 + u.diffRows else u.outputLen

/-- The lines of what a call published. -/
def publishedRows (u : Call) (p : Published) : Nat :=
  1 + (if p.description ≠ [] then 1 else 0) + (if u.diffs ≠ [] then 1 + u.diffRows else 0) +
    if p.removed ≠ [] then 1 else 0

/-- The lines of the note on an edit. -/
def noteRows (u : Call) : Nat := (nonBlank u.output).elim 0 fun o => (strLines o).length

/-- When a call's lines are counted right. -/
def Counted (w : Words) (u : Call) : Prop :=
  match u.sent, u.published with
  | some text, _ =>
    u.savedOutput = none ∨ u.cardRows = (strLines text).length + u.receiptLen w
  | none, some p => u.sentTo = none ∧ u.cardRows = u.publishedRows p
  | none, none => u.sentTo = none ∧
    if isWrite u.name || isEdit u.name then
      match u.refused with
      | some (.failed reason) => (strLines reason).length = 1 + u.diffRows
      | some (.rejected said) => (strLines said).length = 1
      | none => u.noteRows = if u.saysCounts then 0 else 1
    else (strLines u.target).length ≤ 1 ∧ u.hunks = []

end Call

/-- When a block's lines are counted right: an orphaned result is to be there at all, and a spawn
is never. -/
def Block.Counted (w : Words) : Block Prose → Prop
  | .toolResult text => text ≠ []
  | .subAgent _ => False
  | .toolUse u => u.Counted w
  | _ => True

/-! ## texts -/

theorem strLines_eq_nil_iff {text : Text} : strLines text = [] ↔ text = [] := by
  have hsplit := (Lib.unlines_splitLines '\n' text).1
  constructor
  · intro h
    simp only [strLines, List.append_eq_nil_iff, List.map_eq_nil_iff] at h
    obtain ⟨hended, htail⟩ := h
    rw [hended] at hsplit
    by_cases hnone : (Lib.splitLines '\n' text).2 = []
    · rw [hnone] at hsplit
      exact hsplit.symm
    · rw [if_neg hnone] at htail
      contradiction
  · rintro rfl
    rfl

/-- A text begins with its first line. -/
theorem prefix_of_strLines {text first : Text} {more : List Text}
    (h : strLines text = first :: more) : first <+: text := by
  have hsplit := (Lib.unlines_splitLines '\n' text).1
  simp only [strLines] at h
  cases hended : (Lib.splitLines '\n' text).1 with
  | nil =>
    rw [hended] at h hsplit
    by_cases hnone : (Lib.splitLines '\n' text).2 = []
    · rw [hnone] at h
      cases h
    · rw [if_neg hnone, List.map_nil, List.nil_append, List.cons.injEq] at h
      rw [← hsplit, ← h.1]
      exact List.prefix_rfl
  | cons l ls =>
    rw [hended, List.map_cons, List.cons_append, List.cons.injEq] at h
    rw [hended, Lib.unlines_cons, List.append_assoc] at hsplit
    have hfirst : first <+: l := by
      rw [← h.1]
      split
      · exact List.dropLast_prefix l
      · exact List.prefix_rfl
    rw [← hsplit]
    exact hfirst.trans (List.prefix_append _ _)

theorem text_placeholder_injective : Function.Injective fun n => (placeholder K n).text := by
  intro n n' h
  simp only [placeholder, styled, raw, Line.text, List.flatMap_singleton, List.append_assoc,
    List.append_cancel_left_eq, List.append_cancel_right_eq] at h
  exact num_injective h

/-- What is said of an outcome behind a header. -/
def executionText (execution : Option ToolExecution) : Text :=
  execution.elim [] fun e =>
    (if toolExecutionSummary e ≠ [] then "  ".toList ++ toolExecutionSummary e else []) ++
      if e.outsideSandbox then "  ".toList ++ outsideSandbox else []

theorem text_withExecution (line : Line Color) (execution : Option ToolExecution)
    (bg : Option Color) :
    (withExecution K line execution bg).text = line.text ++ executionText execution := by
  cases execution with
  | none => simp [withExecution, executionText]
  | some e =>
    simp only [withExecution, executionText, Line.text, List.flatMap_append, Option.elim_some,
      List.append_assoc]
    congr 1
    congr 1 <;> split <;> simp

theorem text_toolHeader (name : String) (target : Text) (bg : Option Color) :
    (toolHeader K name target bg).text =
      "⏺ ".toList ++ displayName name ++ "(".toList ++ target ++ ")".toList := by
  simp [toolHeader, Line.text]

/-- The header a call is folded to. -/
theorem text_renderHeader_toolUse (u : Call) :
    (renderHeader K (.toolUse u)).text =
      "⏺ ".toList ++ displayName u.name ++ "(".toList ++ u.headTarget ++ ")".toList ++
        executionText u.execution := by
  rw [renderHeader, text_withExecution]
  simp [Line.text, raw]

theorem text_headOn (bg : Color) (line : Line Color) : (headOn bg line).text = line.text := by
  simp [headOn, Line.text, List.flatMap_map]

/-! ## lines -/

theorem length_renderDiff (diffs : List (Text × Text)) (patch : Option (List Diff.Hunk))
    (token : Text) (hl : Hl) :
    (renderDiff K H diffs patch token hl).length =
      ((Diff.diffRowGroups diffs patch).map (·.rows.length)).sum := by
  simp [renderDiff, List.length_flatMap]

theorem length_opRows (n : Nat) (ops : List (Diff.LineOp Text)) :
    (Diff.opRows n ops).length = ops.length := by
  induction ops generalizing n with
  | nil => rfl
  | cons op ops ih => cases op <;> simp [Diff.opRows, ih]

/-- Counting a run at a time is counting. -/
theorem renderedLen_eq {α : Type} (ops : List (Diff.LineOp α)) : renderedLen ops = ops.length := by
  fun_induction renderedLen ops with
  | case1 => rfl
  | case2 op ops h ih =>
    rw [ih, List.length_cons]
    omega
  | case3 op ops h rest dels inss pairs ih =>
    have hdels : dels + rest.length = (op :: ops).length := by
      rw [← List.length_append, List.takeWhile_append_dropWhile]
    have hinss : inss + (rest.dropWhile isIns).length = rest.length := by
      rw [← List.length_append, List.takeWhile_append_dropWhile]
    have hpairs : pairs * 2 + (dels - pairs) + (inss - pairs) = dels + inss := by
      show min dels inss * 2 + (dels - min dels inss) + (inss - min dels inss) = dels + inss
      omega
    rw [ih]
    omega

theorem diffLen_eq (u : Call) : u.diffLen = u.diffRows := by
  simp only [Call.diffLen, Call.diffRows, Diff.diffRowGroups.eq_def]
  cases u.patch with
  | some hunks => simp [Diff.hunkGroup, Diff.length_hunkRows, Function.comp_def]
  | none =>
    have hpair : diffRenderedLen = fun pair : Text × Text => (Diff.pairGroup pair).rows.length := by
      funext pair
      rw [diffRenderedLen, renderedLen_eq]
      exact (length_opRows 0 _).symm
    simp only [hpair, List.map_map, Function.comp_def]

theorem bodyLenByName_eq {u : Call} (h : u.hasOwnFold = false) : u.bodyLenByName = u.cardRows := by
  have hfresh : (isWrite u.name && u.hunks.isEmpty) = false := by
    simp only [Call.hasOwnFold, Bool.or_eq_false_iff] at h
    exact h.1.2
  rw [Call.bodyLenByName, Call.cardRows, hfresh, diffLen_eq]
  rfl

@[simp] theorem length_resultLines (text : Text) :
    (resultLines K text).length = (strLines text).length :=
  length_led _ _ _ _

theorem length_cappedOutput (u : Call) :
    (u.output.elim [] (cappedOutput K)).length = u.outputLen := by
  cases h : u.output with
  | none => simp [Call.outputLen, h]
  | some o =>
    simp only [Call.outputLen, h, Option.elim_some, cappedOutput, List.length_append, length_led,
      List.length_take, Nat.min_comm outputCap]
    split <;> rfl

theorem length_note (u : Call) :
    ((Call.nonBlank u.output).elim [] (resultLines K)).length = u.noteRows := by
  rw [Call.noteRows]
  cases Call.nonBlank u.output <;> simp

/-! ## a call's lines -/

/-- A message's lines behind its header. -/
theorem length_sentLines (u : Call) (text : Text) :
    ((u.sentLines K text).tail).length = (strLines text).length + u.receiptLen K.toWords := by
  rw [Call.sentLines, List.tail_cons, List.length_append, length_led, Call.receiptLen]
  cases Call.nonBlank u.output <;> simp

theorem length_publishedLines (hl : Hl) (u : Call) (p : Published) :
    ((u.publishedLines K H hl p).tail).length = u.publishedRows p := by
  simp only [Call.publishedLines, List.tail_cons, List.length_append, List.length_cons,
    Call.publishedRows, Call.diffRows, ← length_renderDiff K H u.diffs u.patch
      (tokenForTarget u.target) hl]
  by_cases hdescription : p.description = [] <;> by_cases hdiffs : u.diffs = [] <;>
    by_cases hremoved : p.removed = [] <;> simp [hdescription, hdiffs, hremoved] <;> omega

/-! ## which blocks -/

section truthful

variable {K H} {width : Nat} {hl : Hl}

theorem truthful_iff_header {b : Block Prose} {first : Line Color} {rest : List (Line Color)}
    (hone : renderOne K H b width hl = first :: rest)
    (hfolded : renderCollapsed K H b = headerOnly K b) :
    Truthful K H width hl b ↔
      (renderHeader K b).text = first.text ∧ bodyLen K b = rest.length := by
  have hcount : (if 0 < bodyLen K b then [placeholder K (bodyLen K b)] else []).map Line.text =
      (if rest = [] then [] else [(placeholder K rest.length).text]) ↔
        bodyLen K b = rest.length := by
    cases rest with
    | nil =>
      rw [if_pos rfl, List.map_eq_nil_iff, ite_eq_right_iff]
      simp
    | cons l rest =>
      rw [if_neg (List.cons_ne_nil l rest)]
      split
      next hpos =>
        rw [List.map_singleton, List.singleton_inj]
        exact (text_placeholder_injective K).eq_iff
      next hzero =>
        simp only [List.map_nil, List.length_cons, reduceCtorEq, false_iff]
        omega
  constructor
  · rintro ⟨first', rest', hone', hcollapsed⟩
    rw [hone, List.cons.injEq] at hone'
    obtain ⟨rfl, rfl⟩ := hone'
    rw [hfolded, headerOnly, List.map_cons, List.cons.injEq] at hcollapsed
    exact ⟨hcollapsed.1, hcount.mp hcollapsed.2⟩
  · rintro ⟨hheader, hlen⟩
    refine ⟨first, rest, hone, ?_⟩
    rw [hfolded, headerOnly, List.map_cons, hheader, hcount.mpr hlen]

theorem renderCollapsed_toolUse {u : Call} (h : u.hasOwnFold = false) :
    renderCollapsed K H (.toolUse u : Block Prose) = headerOnly K (.toolUse u) := by
  simp only [Call.hasOwnFold, Bool.or_eq_false_iff, beq_eq_false_iff_ne] at h
  obtain ⟨⟨hbash, hfresh⟩, hread⟩ := h
  simp only [renderCollapsed, if_neg hbash, hfresh, if_neg hread, Bool.false_eq_true, if_false]

/-- A message that went to somebody has them in its head. -/
theorem headTarget_eq_iff {u : Call} : u.headTarget = u.target ↔ u.sentTo = none := by
  cases h : u.sentTo with
  | none => simp [Call.headTarget, h]
  | some sentTo =>
    simp only [Call.headTarget, h, Option.elim_some, reduceCtorEq, iff_false]
    intro heq
    have hno := not_prefix_sendHead u.target sentTo
    rw [heq] at hno
    exact hno List.prefix_rfl

/-- The header a call is folded to is that of its card where no recipient is named. -/
theorem header_eq_iff (u : Call) (bg : Option Color) :
    (renderHeader K (.toolUse u)).text =
        (withExecution K (toolHeader K u.name u.target bg) u.execution bg).text ↔
      u.sentTo = none := by
  rw [text_renderHeader_toolUse, text_withExecution, text_toolHeader, ← headTarget_eq_iff]
  simp only [List.append_assoc, List.append_cancel_left_eq, List.append_cancel_right_eq]

theorem bodyLen_toolUse {u : Call} (hfold : u.hasOwnFold = false) (hsent : u.sent = none) :
    bodyLen K (.toolUse u : Block Prose) = u.cardRows := by
  simp only [bodyLen, hsent]
  exact bodyLenByName_eq hfold

/-- A card whose header shows the target. -/
theorem truthful_card {u : Call} (hfold : u.hasOwnFold = false) (hsent : u.sent = none)
    {bg : Option Color} {rest : List (Line Color)}
    (hlines : u.lines K H hl =
      withExecution K (toolHeader K u.name u.target bg) u.execution bg :: rest) :
    Truthful K H width hl (.toolUse u : Block Prose) ↔
      u.sentTo = none ∧ u.cardRows = rest.length := by
  have hone : renderOne K H (.toolUse u : Block Prose) width hl = _ :: rest := hlines
  rw [truthful_iff_header hone (renderCollapsed_toolUse hfold), header_eq_iff,
    bodyLen_toolUse hfold hsent]

theorem truthful_sent {u : Call} (hfold : u.hasOwnFold = false) {text : Text}
    (hsent : u.sent = some text) :
    Truthful K H width hl (.toolUse u : Block Prose) ↔
      u.savedOutput = none ∨
        u.cardRows = (strLines text).length + u.receiptLen K.toWords := by
  have hrest := length_sentLines K u text
  obtain ⟨first, rest, hlines⟩ : ∃ first rest, u.sentLines K text = first :: rest := ⟨_, _, rfl⟩
  have hone : renderOne K H (.toolUse u : Block Prose) width hl = first :: rest := by
    simp only [renderOne, Call.lines, hsent, hlines]
  have hheader : (renderHeader K (.toolUse u)).text = first.text := by
    rw [Call.sentLines, List.cons.injEq] at hlines
    rw [← hlines.1, text_renderHeader_toolUse, text_withExecution, text_toolHeader]
  rw [hlines, List.tail_cons] at hrest
  rw [truthful_iff_header hone (renderCollapsed_toolUse hfold), hrest]
  simp only [hheader, true_and, bodyLen, hsent]
  cases hsaved : u.savedOutput with
  | none => simp
  | some path => simp [bodyLenByName_eq hfold]

theorem truthful_published {u : Call} (hfold : u.hasOwnFold = false) (hsent : u.sent = none)
    {p : Published} (hpublished : u.published = some p) :
    Truthful K H width hl (.toolUse u : Block Prose) ↔
      u.sentTo = none ∧ u.cardRows = u.publishedRows p := by
  have hlines : u.lines K H hl = u.publishedLines K H hl p := by
    simp only [Call.lines, hsent, hpublished]
  rw [← length_publishedLines K H hl u p]
  exact truthful_card hfold hsent hlines

/-- An edit, or a write over a file that was there. -/
theorem truthful_edit {u : Call} (hfold : u.hasOwnFold = false) (hsent : u.sent = none)
    (hpublished : u.published = none) (hedit : (isWrite u.name || isEdit u.name) = true) :
    Truthful K H width hl (.toolUse u : Block Prose) ↔ u.sentTo = none ∧
      match u.refused with
      | some (.failed reason) => (strLines reason).length = 1 + u.diffRows
      | some (.rejected said) => (strLines said).length = 1
      | none => u.noteRows = if u.saysCounts then 0 else 1 := by
  have hfresh : (isWrite u.name && !u.overwrite) = false := by
    simp only [Call.hasOwnFold, Bool.or_eq_false_iff] at hfold
    have hnofold := hfold.1.2
    cases hwrite : isWrite u.name <;> simp_all [Call.overwrite]
  have hcard : u.cardRows = 1 + u.diffRows := by rw [Call.cardRows, if_pos hedit]
  have hdiff : u.diffRows =
      (renderDiff K H u.diffs u.patch (tokenForTarget u.target) hl).length :=
    (length_renderDiff K H u.diffs u.patch _ hl).symm
  cases hrefused : u.refused with
  | some why =>
    cases why with
    | failed reason =>
      have hlines : u.lines K H hl =
          withExecution K (toolHeader K u.name u.target none) u.execution none ::
            resultLines K reason := by
        simp only [Call.lines, hsent, hpublished, hrefused]
      rw [truthful_card hfold hsent hlines, hcard, length_resultLines]
      exact and_congr_right fun _ => eq_comm
    | rejected said =>
      have hlines : u.lines K H hl = u.editLines K H hl (some said) := by
        simp only [Call.lines, hsent, hpublished, hrefused, hfresh, Bool.false_eq_true, if_false]
      rw [Call.editLines] at hlines
      rw [truthful_card hfold hsent hlines, hcard, List.length_append, length_resultLines, ← hdiff]
      exact and_congr_right fun _ => by constructor <;> intro h <;> omega
  | none =>
    have hover : (u.overwrite || isEdit u.name) = true := by
      cases hwrite : isWrite u.name <;> simp_all
    have hlines : u.lines K H hl = u.editLines K H hl none := by
      simp only [Call.lines, hsent, hpublished, hrefused, hfresh, hover, Bool.false_eq_true,
        if_false, if_true]
    rw [Call.editLines] at hlines
    rw [truthful_card hfold hsent hlines, hcard]
    simp only [List.length_append, length_note, ← hdiff]
    split
    · exact and_congr_right fun _ => by
        simp only [List.length_singleton]
        constructor <;> intro h <;> omega
    · exact and_congr_right fun _ => by
        simp only [List.length_nil]
        constructor <;> intro h <;> omega

/-- A command of more than one line has its first alone on the header's. -/
theorem header_ne_first {u : Call} {first : Text} {more : List Text}
    (h : strLines u.target = first :: more) :
    "⏺ ".toList ++ displayName u.name ++ "(".toList ++ u.headTarget ++ ")".toList ++
        executionText u.execution ≠
      "⏺ ".toList ++ displayName u.name ++ "(".toList ++ first ++ executionText u.execution := by
  intro heq
  simp only [List.append_assoc, List.append_cancel_left_eq] at heq
  rw [← List.append_assoc, List.append_cancel_right_eq] at heq
  have hprefix : u.headTarget ++ ")".toList <+: u.target := by
    rw [heq]
    exact prefix_of_strLines h
  cases hto : u.sentTo with
  | none =>
    have hle := hprefix.length_le
    rw [headTarget_eq_iff.mpr hto, List.length_append] at hle
    simp at hle
  | some sentTo =>
    simp only [Call.headTarget, hto, Option.elim_some] at hprefix
    exact not_prefix_sendHead _ _ ((List.prefix_append _ _).trans hprefix)

/-- Each file a command changed has a line of its own. -/
theorem fileLines_eq_nil_iff {u : Call} :
    (hunksByFile u.hunks).flatMap (u.fileLines K H hl) = [] ↔ u.hunks = [] := by
  rw [List.flatMap_eq_nil_iff, ← hunksByFile_eq_nil_iff]
  constructor
  · intro h
    cases hruns : hunksByFile u.hunks with
    | nil => rfl
    | cons run runs =>
      have hrun := h run (hruns ▸ List.mem_cons_self)
      rw [Call.fileLines] at hrun
      cases hrun
  · intro h
    rw [h]
    simp

/-- A call of a tool without a look of its own. -/
theorem truthful_other {u : Call} (hfold : u.hasOwnFold = false) (hsent : u.sent = none)
    (hpublished : u.published = none) (hedit : (isWrite u.name || isEdit u.name) = false) :
    Truthful K H width hl (.toolUse u : Block Prose) ↔
      u.sentTo = none ∧ (strLines u.target).length ≤ 1 ∧ u.hunks = [] := by
  have hnames := Bool.or_eq_false_iff.mp hedit
  have hrefused : u.refused = none := by
    rw [Call.refused, hedit]
    rfl
  have hlines : u.lines K H hl = u.otherLines K H hl := by
    simp only [Call.lines, hsent, hpublished, hrefused, hnames.1, hnames.2, Call.overwrite,
      Bool.false_and, Bool.or_false, Bool.false_eq_true, if_false]
  by_cases hone : (strLines u.target).length ≤ 1
  · have hhead : toolHeaderLines K u.name u.target (some K.shellExpandedBg) =
        [toolHeader K u.name u.target (some K.shellExpandedBg)] := by
      rw [toolHeaderLines]
      split
      next htarget =>
        rw [htarget] at hone
        simp at hone
      next => rfl
    have hcons : u.lines K H hl =
        withExecution K (toolHeader K u.name u.target (some K.shellExpandedBg)) u.execution
            (some K.shellExpandedBg) ::
          (u.output.elim [] (cappedOutput K) ++
            (hunksByFile u.hunks).flatMap (u.fileLines K H hl)) := by
      rw [hlines, Call.otherLines, Call.shellHead, hhead]
      rfl
    have hcard : u.cardRows = u.outputLen := by
      rw [Call.cardRows, hedit]
      rfl
    have hfiles := @fileLines_eq_nil_iff Prose Color K H hl u
    rw [← List.length_eq_zero_iff] at hfiles
    rw [truthful_card hfold hsent hcons, hcard, List.length_append, length_cappedOutput]
    refine and_congr_right fun _ => ?_
    rw [← hfiles]
    omega
  · cases htarget : strLines u.target with
    | nil => simp [htarget] at hone
    | cons first more =>
      cases more with
      | nil => simp [htarget] at hone
      | cons second more =>
        rw [Call.otherLines, Call.shellHead, toolHeaderLines, htarget] at hlines
        have hone' : renderOne K H (.toolUse u : Block Prose) width hl = _ :: _ := hlines
        rw [truthful_iff_header hone' (renderCollapsed_toolUse hfold), text_renderHeader_toolUse,
          text_withExecution]
        have hne := header_ne_first htarget
        constructor
        · rintro ⟨heq, -⟩
          refine (hne (heq.trans ?_)).elim
          simp [Line.text]
        · rintro ⟨-, hle, -⟩
          simp at hle

theorem truthful_toolUse {u : Call} (hfold : u.hasOwnFold = false) :
    Truthful K H width hl (.toolUse u : Block Prose) ↔ u.Counted K.toWords := by
  rw [Call.Counted.eq_def]
  cases hsent : u.sent with
  | some text => exact truthful_sent hfold hsent
  | none =>
    cases hpublished : u.published with
    | some p => exact truthful_published hfold hsent hpublished
    | none =>
      cases hedit : isWrite u.name || isEdit u.name with
      | true => simpa using truthful_edit hfold hsent hpublished hedit
      | false => simpa using truthful_other hfold hsent hpublished hedit

/-- Prompt and result, and no line for the agent's id. -/
theorem not_truthful_subAgent (sa : Spawn) :
    ¬Truthful K H width hl (.subAgent sa : Block Prose) := by
  have hone : renderOne K H (.subAgent sa : Block Prose) width hl = _ :: _ := rfl
  rw [truthful_iff_header hone rfl]
  rintro ⟨-, hlen⟩
  cases hresult : sa.result <;> by_cases hprompt : trimChars sa.prompt = [] <;>
    simp [bodyLen, agentText, hresult, hprompt] at hlen

theorem truthful_toolResult (text : Text) :
    Truthful K H width hl (.toolResult text : Block Prose) ↔ text ≠ [] := by
  cases hlines : strLines text with
  | nil =>
    rw [strLines_eq_nil_iff] at hlines
    constructor
    · rintro ⟨first, rest, hone, -⟩
      rw [hlines] at hone
      cases hone
    · intro h
      exact (h hlines).elim
  | cons l ls =>
    have hne : text ≠ [] := by
      intro heq
      rw [strLines_eq_nil_iff.mpr heq] at hlines
      cases hlines
    obtain ⟨rest, hone, hrest⟩ : ∃ rest, renderOne K H (.toolResult text : Block Prose) width hl =
        lineOf ("  ⎿ ".toList ++ l) (onBg (some K.shellExpandedBg) K.result) :: rest ∧
          rest.length = ls.length := by
      rw [renderOne, hlines, led]
      exact ⟨_, rfl, List.length_map _⟩
    rw [truthful_iff_header hone rfl]
    simp [renderHeader, bodyLen, hlines, styled, lineOf, raw, Line.text, hne, hrest]

theorem truthful_compaction (trigger : CompactTrigger) (preTokens postTokens : Nat)
    (summary : Text) :
    Truthful K H width hl (.compaction trigger preTokens postTokens summary : Block Prose) := by
  have hone : renderOne K H (.compaction trigger preTokens postTokens summary : Block Prose) width
      hl = _ :: _ := rfl
  rw [truthful_iff_header hone rfl]
  constructor
  · rfl
  · rw [length_led]
    by_cases h : summary = []
    · simp [bodyLen, h, strLines_eq_nil_iff.mpr]
    · simp [bodyLen, h]

end truthful

/-- **Which folded blocks tell the truth.** Of the blocks that fold to a header and a count, the
header is the first line of the block unfolded and the count that of the lines behind it for each
safety stop, agent's completion and compaction, and each orphaned result that is not empty; for no
spawn of a sub-agent; and for the calls that are `Counted`. -/
theorem truthful_iff (width : Nat) (hl : Hl) {b : Block Prose} (h : b.foldsToCount = true) :
    Truthful K H width hl b ↔ b.Counted K.toWords := by
  cases b with
  | prose p => cases h
  | thinking text durationSecs tools => cases h
  | command name args output => cases h
  | toolUse u =>
    have hfold : u.hasOwnFold = false := by
      simpa [Block.foldsToCount, Block.foldable, Block.hasOwnFold] using h
    exact truthful_toolUse hfold
  | toolResult text => exact truthful_toolResult text
  | subAgent sa => exact iff_of_false (not_truthful_subAgent sa) not_false
  | compaction trigger preTokens postTokens summary =>
    exact iff_of_true (truthful_compaction trigger preTokens postTokens summary) trivial
  | safetyStop category note =>
    have hone : renderOne K H (.safetyStop category note : Block Prose) width hl = _ :: _ := rfl
    rw [truthful_iff_header hone rfl]
    exact iff_of_true ⟨rfl, by simp [bodyLen]⟩ trivial
  | agentDone agentId agentType description status result =>
    have hone : renderOne K H
        (.agentDone agentId agentType description status result : Block Prose) width hl = _ :: _ :=
      rfl
    rw [truthful_iff_header hone rfl]
    refine iff_of_true ⟨(text_headOn _ _).symm, ?_⟩ trivial
    cases result <;> simp [bodyLen, agentText]

/-- A message and its receipt are counted. -/
theorem truthful_message :
    Truthful plainLook wholeLines 80 .styled (.toolUse
      { name := "SendMessage", target := "status".toList, sent := some "done".toList
        sentTo := some "lead".toList, output := some "delivered".toList }) :=
  (truthful_iff plainLook wholeLines 80 .styled (by decide)).mpr (.inl rfl)

/-- A spawn with a prompt of one line, and a published page. -/
def explorer : Spawn where
  agentId := "a1".toList
  agentType := "Explore".toList
  description := "tests".toList
  prompt := "find them".toList
  status := .asyncLaunched
  result := none
  toolCount := 0

def publishedPage : Call where
  name := "Artifact"
  target := "Report".toList
  published := some ⟨"https://x/1".toList, [], [], none⟩

/-- One line is folded of the spawn, and two are said to be; one is folded of the page, and none is
said to be. -/
theorem spawn_counts_id_line :
    (renderOne plainLook wholeLines (.subAgent explorer) 80 .styled).length = 2 ∧
      (renderCollapsed plainLook wholeLines (.subAgent explorer)).map Line.text =
        ["⏺ Agent(Explore: tests)  launched  ↵ a1".toList,
          "  ⋯ 2 folded (space / click to expand)".toList] ∧
      (renderOne plainLook wholeLines (.toolUse publishedPage) 80 .styled).length = 2 ∧
      (renderCollapsed plainLook wholeLines (.toolUse publishedPage)).map Line.text =
        ["⏺ Artifact(Report)".toList] ∧
      ¬Truthful plainLook wholeLines 80 .styled (.subAgent explorer) := by
  refine ⟨by decide +kernel, by decide +kernel, by decide +kernel, by decide +kernel, ?_⟩
  exact not_truthful_subAgent explorer

end ClaudeReplay.Viewer.Draw
