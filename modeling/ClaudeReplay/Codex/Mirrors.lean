import ClaudeReplay.Codex.Preprocessor

/-!
# ClaudeReplay.Codex.Mirrors

Every patch is drawn once: from its mirror, or as failed edits when it was rejected.

A rollout is the lines of a session that hides the transport, with resumes between them. A
mirror names no call, so each carries here whose patch it mirrors, which the preprocessor does
not see. `DrawnOnce` is what the lines should draw.

The preprocessor forgets all the patches it keeps when a mirror comes. So the lines draw what
they should where each call that failed had none of its patches mirrored, and no mirror in
between, or all of them (`drawn_once`); of two calls that overlap, the rejected one vanishes
(`overlapping_vanishes`).
-/

namespace ClaudeReplay.Codex.Preprocessor

open Lib Claude

variable {τ : Type} (R : Reader τ)

/-! ## the lines of a rollout -/

/-- A patch: the id of the call that carries it, and its place there. -/
abbrev Owner := String × Nat

/-- A line, and the patch that it mirrors; or a resume. -/
inductive Event
  | line (v : Option Lib.Value) (owner : Option Owner)
  | resume

def step (s : CodexLinePreprocessor τ) : Event → CodexLinePreprocessor τ
  | .line v _ => (process R s v).1
  | .resume => restore R {} (state R s)

/-- The state after some lines. -/
def after (s : CodexLinePreprocessor τ) (events : List Event) : CodexLinePreprocessor τ :=
  events.foldl (step R) s

/-- A wrapper call of `apply_patch`. -/
def isPatchCall (v : Lib.Value) : Bool :=
  isType v "response_item" && isExec (v.get "payload") &&
    occurs applyPatchCall (execCode (v.get "payload"))

def isOutput (v : Lib.Value) : Bool := isType v "response_item" && isOutputKind (v.get "payload")

/-- The item and the changes of a `FileChange` mirror. -/
def mirrored? (v : Lib.Value) : Option (Lib.Value × List (String × Lib.Value)) :=
  if isType v "event_msg" ∧ payloadStr v "type" = some "item_completed" ∧ isFileChange v then
    (pointer v ["payload", "item"]).bind fun item =>
    ((item.get? "changes").bind Lib.Value.asObject).bind fun changes =>
      if changes = [] then none else some (item, changes)
  else
    none

/-- The line calls under this id, or is the output of such a call. -/
def names (id : String) (v : Lib.Value) : Bool :=
  isType v "response_item" && callId v = id &&
    (isType (v.get "payload") "function_call" || isType (v.get "payload") "custom_tool_call" ||
      isOutputKind (v.get "payload"))

/-- The lines that hold JSON. -/
def values (events : List Event) : List Lib.Value :=
  events.filterMap fun e => match e with
    | .line v _ => v
    | .resume => none

/-- The patches that were mirrored. -/
def owners (events : List Event) : List Owner :=
  events.filterMap fun e => match e with
    | .line _ owner => owner
    | .resume => none

/-- The header of a session whose version hides the transport. -/
def hides (v : Lib.Value) : Bool :=
  isType v "session_meta" && ((payloadStr v "cli_version").map transportIgnored).getD false

/-- The beginning of a rollout: its header; and in a child's, a copy of its parent's transcript,
up to the line with which the child's own begins. -/
inductive Opening : List Event → Prop
  | header (v : Lib.Value) (h : hides v = true) : Opening [.line (some v) none]
  | child (v first start spawn : Lib.Value) (copied : List Event) (h : hides v = true)
      (hspawn : pointer v ["payload", "source", "subagent", "thread_spawn"] = some spawn)
      (hfirst : isType first "session_meta" = true)
      (hcopy : ∀ w ∈ first :: values copied, isType w "session_meta" = true →
        pointer w ["payload", "source", "subagent", "thread_spawn"] = none)
      (hcopied : ∀ w ∈ values copied,
        startsChild R ⟨(timestamp R v).getD R.zero, "", true⟩ w = false)
      (hstarts : startsChild R ⟨(timestamp R v).getD R.zero, "", true⟩ start = true) :
      Opening (.line (some v) none :: .line (some first) none :: copied ++
        [.line (some start) none])

/-- The session's own lines. A call has an id of its own and at most one output, and a mirror
comes behind the call that carries the patch. -/
structure Rollout (events : List Event) : Prop where
  own : ∀ v ∈ values events, isType v "session_meta" = false
  call : ∀ before v owner later, events = before ++ .line (some v) owner :: later →
    isPatchCall v = true → (∀ w ∈ values before, names (callId v) w = false) ∧
      (∀ w ∈ values later, names (callId v) w = true → isOutput w = true) ∧
      ((values later).filter (names (callId v))).length ≤ 1
  owner : ∀ before v id k later, events = before ++ .line v (some (id, k)) :: later →
    (∃ w, v = some w ∧ (mirrored? w).isSome = true) ∧
      ∃ call ∈ values before, isPatchCall call = true ∧ callId call = id

/-- The patches among these that nothing mirrors. -/
def unmirrored (events : List Event) (id : String) (patches : List Text) : List Text :=
  patches.zipIdx.filterMap fun patch =>
    if (id, patch.2) ∈ owners events then none else some patch.1

/-- Some patches as failed edits, if there are any and there is a reason. -/
def rejectedLine (id : String) (ts : Option τ) (cwd : String) :
    List Text → Option String → PreprocessedLine τ
  | p :: ps, some reason => .messages (rejectedPatchMessages id ts (p :: ps) reason cwd)
  | _, _ => .ignore

/-- What the output of a wrapper call should draw: when it reports a failure, the patches that
nothing mirrors, as failed edits. -/
def drawnOutput (events : List Event) (call out : Lib.Value) (cwd : String) :
    PreprocessedLine τ :=
  rejectedLine (callId call) (timestamp R out) cwd
    (unmirrored events (callId call) (carriedPatches (call.get "payload")))
    (rejectedPatchReason R (out.get "payload"))

/-- Every patch is drawn once: a call draws nothing, a mirror its change, and an output the
rejected patches without a mirror. -/
structure DrawnOnce (s : CodexLinePreprocessor τ) (events : List Event) : Prop where
  call : ∀ before v owner later, events = before ++ .line (some v) owner :: later →
    isPatchCall v = true → (process R (after R s before) (some v)).2 = .ignore
  mirror : ∀ before v owner later item changes,
    events = before ++ .line (some v) owner :: later → mirrored? v = some (item, changes) →
    (process R (after R s before) (some v)).2 = .messages
      (fileChangeMessages R item changes (timestamp R v) (after R s before).cwd)
  output : ∀ before call owner mid out owner' later,
    events = before ++ .line (some call) owner :: mid ++ .line (some out) owner' :: later →
    isPatchCall call = true → isOutput out = true → callId out = callId call →
    (process R (after R s (before ++ .line (some call) owner :: mid)) (some out)).2 =
      drawnOutput R events call out (after R s (before ++ .line (some call) owner :: mid)).cwd

/-- The wrapper calls that the preprocessor tells: they have an id and hold no task call, and one
that failed had none of its patches mirrored, and no mirror before its output, or all of them. -/
structure Orderly (events : List Event) : Prop where
  call : ∀ v ∈ values events, isPatchCall v = true →
    callId v ≠ "" ∧ orchestratedTaskCall R (v.get "payload") = none
  output : ∀ before call owner mid out owner' later,
    events = before ++ .line (some call) owner :: mid ++ .line (some out) owner' :: later →
    isPatchCall call = true → isOutput out = true → callId out = callId call →
    (rejectedPatchReason R (out.get "payload")).isSome = true →
    (∀ v ∈ values mid, isFileChange v = false) ∧ (∀ k, (callId call, k) ∉ owners later) ∨
      ∀ k < (carriedPatches (call.get "payload")).length, (callId call, k) ∈ owners mid

/-! ## what a line does to the state -/

/-- The session's own lines are being read, and the transport is hidden. -/
structure Live (s : CodexLinePreprocessor τ) : Prop where
  exec : s.semanticExec = true
  own : ∀ child, s.child = some child → child.skippingParentSnapshot = false

/-- What some lines leave of a call, unless they name it. The patches are kept, or a `FileChange`
made the preprocessor forget them. -/
structure Keeps (changed named : Bool) (id : String) (s s' : CodexLinePreprocessor τ) : Prop where
  exec : s'.semanticExec = s.semanticExec
  child : s'.child = s.child
  calls : named = false → id ∈ s.transportCalls → id ∈ s'.transportCalls
  patches : named = false → s'.unmirroredPatches.find? id = s.unmirroredPatches.find? id ∨
    changed = true ∧ s'.unmirroredPatches.find? id = none

namespace Keeps

variable {changed changed' named named' : Bool} {id : String}
  {s s' s'' : CodexLinePreprocessor τ}

theorem refl (s : CodexLinePreprocessor τ) : Keeps changed named id s s :=
  ⟨rfl, rfl, fun _ h => h, fun _ => .inl rfl⟩

theorem trans (h : Keeps changed named id s s') (h' : Keeps changed' named' id s' s'') :
    Keeps (changed || changed') (named || named') id s s'' where
  exec := h'.exec.trans h.exec
  child := h'.child.trans h.child
  calls hnamed hid := by
    simp only [Bool.or_eq_false_iff] at hnamed
    exact h'.calls hnamed.2 (h.calls hnamed.1 hid)
  patches hnamed := by
    simp only [Bool.or_eq_false_iff] at hnamed
    have hfirst := h.patches hnamed.1
    have hsecond := h'.patches hnamed.2
    grind

theorem live (h : Keeps changed named id s s') (hs : Live s) : Live s' where
  exec := h.exec.trans hs.exec
  own child hchild := hs.own child (h.child ▸ hchild)

/-- Stage after stage. -/
theorem andThen {a : Answer τ} {next : CodexLinePreprocessor τ → Answer τ}
    (ha : Keeps changed named id s a.1) (hnext : ∀ s', Keeps changed named id s' (next s').1) :
    Keeps changed named id s (a.andThen next).1 := by
  unfold Answer.andThen
  split
  · exact ha
  · simpa using ha.trans (hnext a.1)

end Keeps

theorem hide_keeps (s : CodexLinePreprocessor τ) (changed named : Bool) (id other : String) :
    Keeps changed named id s (s.hide other) := by
  unfold CodexLinePreprocessor.hide
  split
  · exact Keeps.refl s
  · exact ⟨rfl, rfl, fun _ => List.mem_insert_of_mem, fun _ => .inl rfl⟩

theorem wrap_keeps (s : CodexLinePreprocessor τ) (changed : Bool) {named : Bool}
    {id other : String} (hne : named = false → id ≠ other) (patches : List Text) :
    Keeps changed named id s (s.wrap other patches) := by
  have hhide := hide_keeps s changed named id other
  unfold CodexLinePreprocessor.wrap
  split
  · exact hhide
  · exact ⟨hhide.exec, hhide.child, hhide.calls, fun hnamed =>
      .inl (by simp [Table.find?_put, hne hnamed])⟩

theorem unwrap_keeps (s : CodexLinePreprocessor τ) (changed : Bool) {named : Bool}
    {id other : String} (hne : named = false → id ≠ other) :
    Keeps changed named id s (s.unwrap other) where
  exec := rfl
  child := rfl
  calls hnamed hid := by simp [CodexLinePreprocessor.unwrap, hid, hne hnamed]
  patches hnamed := .inl (by simp [CodexLinePreprocessor.unwrap, Table.find?_erase, hne hnamed])

theorem transportOutput_state (s : CodexLinePreprocessor τ) (v : Lib.Value) :
    (transportOutput R s v).1 = s.unwrap (callId v) := by
  unfold transportOutput
  simp only
  split <;> rfl

theorem isType_of_ne {v : Lib.Value} {k k' : String} (h : isType v k = true) (hne : k ≠ k') :
    isType v k' = false := by
  simp only [isType, decide_eq_true_eq] at h
  simp [isType, h, hne]

theorem names_of_call {v : Lib.Value} (htype : isType v "response_item" = true)
    (hkind : isType (v.get "payload") "function_call" = true ∨
      isType (v.get "payload") "custom_tool_call" = true ∨ isOutputKind (v.get "payload") = true) :
    names (callId v) v = true := by
  simpa [names, htype, or_assoc] using hkind

theorem custom_of_isExec {payload : Lib.Value} (h : isExec payload = true) :
    isType payload "custom_tool_call" = true := by
  simp only [isExec, Bool.and_eq_true] at h
  exact h.1

/-- The transport forgets a call only at its own lines. -/
theorem transport_keeps (s : CodexLinePreprocessor τ) (changed : Bool) (id : String)
    (v : Lib.Value) : Keeps changed (names id v) id s (transport R s v).1 := by
  have hne : names (callId v) v = true → names id v = false → id ≠ callId v := by
    rintro hcall hnamed rfl
    simp [hnamed] at hcall
  unfold transport
  simp only
  split
  · next htype =>
    split
    · next hout =>
      rw [transportOutput_state]
      exact unwrap_keeps s changed (hne (names_of_call htype (.inr (.inr hout.1))))
    · split
      · exact hide_keeps s changed _ id _
      · split
        · exact hide_keeps s changed _ id _
        · split
          · next hexec =>
            have hcustom : isType (v.get "payload") "custom_tool_call" = true := by
              have hcall := hexec.2
              simp only [isSemanticExecTransport, Bool.and_eq_true] at hcall
              exact custom_of_isExec hcall.1
            exact wrap_keeps s changed (hne (names_of_call htype (.inr (.inl hcustom)))) _
          · exact Keeps.refl s
  · exact Keeps.refl s

theorem userMessage_keeps (s : CodexLinePreprocessor τ) (changed named : Bool) (id : String)
    (v : Lib.Value) : Keeps changed named id s (userMessage R s v).1 := by
  unfold userMessage
  split <;> exact ⟨rfl, rfl, fun _ h => h, fun _ => .inl rfl⟩

theorem tokenCount_keeps (s : CodexLinePreprocessor τ) (changed named : Bool) (id : String)
    (v : Lib.Value) : Keeps changed named id s (tokenCount s v).1 := by
  unfold tokenCount
  split
  · split
    · simp only
      split <;> exact ⟨rfl, rfl, fun _ h => h, fun _ => .inl rfl⟩
    · exact Keeps.refl s
  · exact Keeps.refl s

theorem compacted_keeps (s : CodexLinePreprocessor τ) (changed named : Bool) (id : String)
    (v : Lib.Value) : Keeps changed named id s (compacted R s v).1 := by
  unfold compacted
  split <;> exact ⟨rfl, rfl, fun _ h => h, fun _ => .inl rfl⟩

theorem fileChange_keeps (s : CodexLinePreprocessor τ) (named : Bool) (id : String)
    (v : Lib.Value) : Keeps (isFileChange v) named id s (fileChange s v).1 := by
  unfold fileChange
  split
  · next hchange => exact ⟨rfl, rfl, fun _ h => h, fun _ => .inr ⟨hchange, rfl⟩⟩
  · exact Keeps.refl s

theorem semanticExec_state (s : CodexLinePreprocessor τ) (v : Lib.Value) :
    (semanticExec R s v).1 = s := by
  unfold semanticExec
  split <;> rfl

theorem agentMessage_state (s : CodexLinePreprocessor τ) (v : Lib.Value) :
    (agentMessage R s v).1 = s := by
  unfold agentMessage
  split <;> rfl

/-- A line of the session's own leaves a call that it does not name as it was, unless it is a
`FileChange`. -/
theorem ownLine_keeps (s : CodexLinePreprocessor τ) (id : String) (v : Lib.Value) :
    Keeps (isFileChange v) (names id v) id s (ownLine R s v).1 := by
  apply Keeps.andThen (userMessage_keeps R s _ _ id v)
  intro s
  apply Keeps.andThen (tokenCount_keeps s _ _ id v)
  intro s
  apply Keeps.andThen (compacted_keeps R s _ _ id v)
  intro s
  apply Keeps.andThen (transport_keeps R s _ id v)
  intro s
  apply Keeps.andThen (fileChange_keeps s _ id v)
  intro s
  apply Keeps.andThen
  · rw [semanticExec_state]
    exact Keeps.refl s
  intro s
  rw [agentMessage_state]
  exact Keeps.refl s

/-- Such a line is read by the session's own stages. -/
theorem process_own {s : CodexLinePreprocessor τ} (hs : Live s) {v : Lib.Value}
    (hown : isType v "session_meta" = false) :
    process R s (some v) = ((ownLine R s v).1, (ownLine R s v).2.getD .include) := by
  have hmeta : sessionMeta R s v = (s, none) := by simp [sessionMeta, hown]
  have hcopy : parentSnapshot R s v = (s, none) := by
    unfold parentSnapshot
    cases hchild : s.child with
    | none => rfl
    | some child => simp [hs.own child hchild]
  simp only [process, hmeta, hcopy, Answer.andThen]

/-! ## whole runs -/

theorem step_keeps {s : CodexLinePreprocessor τ} (hs : Live s) (id : String) (e : Event)
    (hown : ∀ v ∈ values [e], isType v "session_meta" = false) :
    Keeps ((values [e]).any isFileChange) ((values [e]).any (names id)) id s (step R s e) := by
  cases e with
  | line v owner =>
    cases v with
    | none => exact Keeps.refl s
    | some v =>
      rw [step, process_own R hs (hown v (by simp [values]))]
      simpa [values] using ownLine_keeps R s id v
  | resume =>
    rw [step, restore_state]
    exact Keeps.refl s

theorem values_cons (e : Event) (events : List Event) :
    values (e :: events) = values [e] ++ values events := by
  rw [values, values, values, ← List.filterMap_append]
  rfl

/-- **A call waits as it is** over lines that do not name it, but for its patches, which a
`FileChange` clears. -/
theorem after_keeps {s : CodexLinePreprocessor τ} (hs : Live s) (id : String)
    (events : List Event) (hown : ∀ v ∈ values events, isType v "session_meta" = false) :
    Keeps ((values events).any isFileChange) ((values events).any (names id)) id s
      (after R s events) := by
  induction events generalizing s with
  | nil => exact Keeps.refl s
  | cons e events ih =>
    rw [values_cons] at hown
    simp only [List.mem_append] at hown
    have hstep := step_keeps R hs id e fun v hv => hown v (.inl hv)
    have hrest := ih (hstep.live hs) fun v hv => hown v (.inr hv)
    rw [values_cons, List.any_append, List.any_append]
    exact hstep.trans hrest

/-! ## what the three kinds of lines draw -/

/-- A wrapper call draws nothing, and its patches are kept. -/
theorem process_call {s : CodexLinePreprocessor τ} (hs : Live s) {v : Lib.Value}
    (hcall : isPatchCall v = true)
    (htask : orchestratedTaskCall R (v.get "payload") = none) :
    process R s (some v) = (s.wrap (callId v) (carriedPatches (v.get "payload")), .ignore) := by
  simp only [isPatchCall, Bool.and_eq_true] at hcall
  obtain ⟨⟨htype, hexec⟩, hpatch⟩ := hcall
  have hcustom := custom_of_isExec hexec
  have hkind : payloadStr v "type" = some "custom_tool_call" := by
    simpa [isType, payloadStr] using hcustom
  have hout : isOutputKind (v.get "payload") = false := by
    simp [isOutputKind, isType_of_ne hcustom]
  have hwait : isWaitTransport R (v.get "payload") = false := by
    simp [isWaitTransport, isType_of_ne hcustom]
  have hsemantic : isSemanticExecTransport (v.get "payload") = true := by
    simp [isSemanticExecTransport, hexec, transportCallTexts, hpatch]
  rw [process_own R hs (isType_of_ne htype (by decide))]
  simp [ownLine, userMessage, tokenCount, compacted, transport, Answer.andThen, htype, hkind,
    hout, hwait, htask, hsemantic, hs.exec, isType_of_ne htype]

/-- A mirror draws its changes, and no patch is kept any more. -/
theorem process_mirror {s : CodexLinePreprocessor τ} (hs : Live s) {v item : Lib.Value}
    {changes : List (String × Lib.Value)} (hmirror : mirrored? v = some (item, changes)) :
    process R s (some v) = ({ s with unmirroredPatches := Table.empty },
      .messages (fileChangeMessages R item changes (timestamp R v) s.cwd)) := by
  unfold mirrored? at hmirror
  split at hmirror
  · next hkind =>
    obtain ⟨htype, hpayload, hchange⟩ := hkind
    obtain ⟨item', hitem, hchanges⟩ := Option.bind_eq_some_iff.mp hmirror
    obtain ⟨changes', hobject, hsome⟩ := Option.bind_eq_some_iff.mp hchanges
    split at hsome
    · contradiction
    · next hne =>
      simp only [Option.some.injEq, Prod.mk.injEq] at hsome
      obtain ⟨rfl, rfl⟩ := hsome
      have hfile : isType item' "FileChange" = true := by
        have hpath : pointer v ["payload", "item", "type"] =
            (pointer v ["payload", "item"]).bind fun item => item.get? "type" := by
          simp [pointer, Option.bind_assoc]
        rw [isFileChange, hpath, hitem] at hchange
        exact decide_eq_true (by simpa [strField] using hchange)
      have hdrawn : semanticExecMessages R v s.cwd =
          some (fileChangeMessages R item' changes' (timestamp R v) s.cwd) := by
        simp [semanticExecMessages, htype, hpayload, hitem, hfile, hobject, hne]
      rw [process_own R hs (isType_of_ne htype (by decide))]
      simp [ownLine, userMessage, tokenCount, compacted, transport, fileChange, semanticExec,
        Answer.andThen, hpayload, hchange, hdrawn, hs.exec, isType_of_ne htype]
  · contradiction

/-- The output of a hidden call. -/
theorem process_output {s : CodexLinePreprocessor τ} (hs : Live s) {v : Lib.Value}
    (hout : isOutput v = true) (hid : callId v ∈ s.transportCalls) :
    (process R s (some v)).2 = ((transportOutput R s v).2).getD .include := by
  simp only [isOutput, Bool.and_eq_true] at hout
  obtain ⟨htype, hkind⟩ := hout
  have hmessage : payloadStr v "type" ≠ some "message" := by
    simp only [isOutputKind, Bool.or_eq_true, isType, decide_eq_true_eq] at hkind
    rcases hkind with hkind | hkind <;> simp [payloadStr, hkind]
  have hsettled : (transportOutput R s v).2.isSome = true := by
    unfold transportOutput
    simp only
    split <;> rfl
  obtain ⟨fate, hfate⟩ := Option.isSome_iff_exists.mp hsettled
  rw [process_own R hs (isType_of_ne htype (by decide))]
  simp [ownLine, userMessage, tokenCount, compacted, transport, Answer.andThen, htype, hmessage,
    hkind, hid, hfate, isType_of_ne htype]

theorem transportOutput_fate {s : CodexLinePreprocessor τ} {v : Lib.Value} {patches : List Text}
    (h : s.unmirroredPatches.find? (callId v) = if patches = [] then none else some patches) :
    ((transportOutput R s v).2).getD .include = rejectedLine (callId v) (timestamp R v) s.cwd
      patches (rejectedPatchReason R (v.get "payload")) := by
  unfold transportOutput
  simp only [h]
  cases patches with
  | nil => rfl
  | cons patch patches => cases rejectedPatchReason R (v.get "payload") <;> rfl

theorem rejectedLine_none (id : String) (ts : Option τ) (cwd : String) (patches : List Text) :
    rejectedLine id ts cwd patches none = .ignore := by
  cases patches <;> rfl

/-- Right behind a mirror the output of any call draws nothing. -/
theorem ignored_behind_mirror {s : CodexLinePreprocessor τ} (hs : Live s) {v w : Lib.Value}
    (hmirror : (mirrored? v).isSome = true) (hout : isOutput w = true)
    (hid : callId w ∈ s.transportCalls) :
    (process R (process R s (some v)).1 (some w)).2 = .ignore := by
  obtain ⟨⟨item, changes⟩, hitem⟩ := Option.isSome_iff_exists.mp hmirror
  rw [process_mirror R hs hitem]
  have hlive : Live { s with unmirroredPatches := Table.empty } := ⟨hs.exec, hs.own⟩
  rw [process_output R hlive hout hid]
  exact @transportOutput_fate _ R _ w [] rfl

/-! ## a call and its output -/

theorem after_append (s : CodexLinePreprocessor τ) (events more : List Event) :
    after R s (events ++ more) = after R (after R s events) more :=
  List.foldl_append

theorem values_append (events more : List Event) :
    values (events ++ more) = values events ++ values more :=
  List.filterMap_append

theorem owners_append (events more : List Event) :
    owners (events ++ more) = owners events ++ owners more :=
  List.filterMap_append

theorem owners_cons (e : Event) (events : List Event) :
    owners (e :: events) = owners [e] ++ owners events := by
  rw [owners, owners, owners, ← List.filterMap_append]
  rfl

theorem mem_owners {o : Owner} {events : List Event} (h : o ∈ owners events) :
    ∃ before v later, events = before ++ .line v (some o) :: later := by
  obtain ⟨e, he, howner⟩ := List.mem_filterMap.mp h
  obtain ⟨before, later, rfl⟩ := List.append_of_mem he
  cases e with
  | line v owner =>
    obtain rfl : owner = some o := howner
    exact ⟨before, v, later, rfl⟩
  | resume => contradiction

theorem unmirrored_eq_self {events : List Event} {id : String}
    (h : ∀ k, (id, k) ∉ owners events) (patches : List Text) :
    unmirrored events id patches = patches := by
  simp only [unmirrored, h, if_false]
  rw [List.filterMap_eq_map', List.zipIdx_map_fst]

theorem unmirrored_eq_nil {events : List Event} {id : String} {patches : List Text}
    (h : ∀ k < patches.length, (id, k) ∈ owners events) : unmirrored events id patches = [] := by
  rw [unmirrored, List.filterMap_eq_nil_iff]
  intro patch hpatch
  exact if_pos (h patch.2 (List.snd_lt_of_mem_zipIdx hpatch))

theorem wrap_calls (s : CodexLinePreprocessor τ) {id : String} (hid : id ≠ "")
    (patches : List Text) : id ∈ (s.wrap id patches).transportCalls := by
  unfold CodexLinePreprocessor.wrap
  split <;> simp [CodexLinePreprocessor.hide, hid]

theorem wrap_find? (s : CodexLinePreprocessor τ) {id : String} (hid : id ≠ "")
    (hnone : s.unmirroredPatches.find? id = none) (patches : List Text) :
    (s.wrap id patches).unmirroredPatches.find? id =
      if patches = [] then none else some patches := by
  by_cases hpatches : patches = []
  · simp [CodexLinePreprocessor.wrap, CodexLinePreprocessor.hide, hid, hpatches, hnone]
  · simp [CodexLinePreprocessor.wrap, hid, hpatches, Table.find?_put]

theorem names_of_isPatchCall {v : Lib.Value} (h : isPatchCall v = true) :
    names (callId v) v = true := by
  simp only [isPatchCall, Bool.and_eq_true] at h
  exact names_of_call h.1.1 (.inr (.inl (custom_of_isExec h.1.2)))

theorem names_of_isOutput {v : Lib.Value} (h : isOutput v = true) :
    names (callId v) v = true := by
  simp only [isOutput, Bool.and_eq_true] at h
  exact names_of_call h.1 (.inr (.inr h.2))

theorem response_of_names {id : String} {v : Lib.Value} (h : names id v = true) :
    isType v "response_item" = true := by
  simp only [names, Bool.and_eq_true] at h
  exact h.1.1

/-- A mirror is a `FileChange`, and no call or output. -/
theorem mirrored_kind {v : Lib.Value} (h : (mirrored? v).isSome = true) :
    isFileChange v = true ∧ isType v "response_item" = false := by
  unfold mirrored? at h
  split at h
  · next hkind => exact ⟨hkind.2.2, isType_of_ne hkind.1 (by decide)⟩
  · contradiction

/-- After a mirror nothing waits under the id of a call. -/
theorem after_mirror {s : CodexLinePreprocessor τ} (hs : Live s) {id : String}
    {events : List Event} (hown : ∀ v ∈ values events, isType v "session_meta" = false)
    (hnames : ∀ v ∈ values events, names id v = false) {w : Lib.Value} (hw : w ∈ values events)
    (hmirror : (mirrored? w).isSome = true) :
    (after R s events).unmirroredPatches.find? id = none := by
  obtain ⟨e, he, hvalue⟩ := List.mem_filterMap.mp hw
  obtain ⟨before, later, rfl⟩ := List.append_of_mem he
  cases e with
  | resume => contradiction
  | line v owner =>
    obtain rfl : v = some w := hvalue
    obtain ⟨⟨item, changes⟩, hitem⟩ := Option.isSome_iff_exists.mp hmirror
    rw [values_append, values_cons] at hown hnames
    simp only [List.mem_append] at hown hnames
    have hlive := (after_keeps R hs id before fun v hv => hown v (.inl hv)).live hs
    have hmid := step_keeps R hlive id (.line (some w) owner) fun v hv => hown v (.inr (.inl hv))
    have hlater := after_keeps R (hmid.live hlive) id later fun v hv => hown v (.inr (.inr hv))
    have hunnamed : (values later).any (names id) = false :=
      List.any_eq_false.mpr fun v hv => by simp [hnames v (.inr (.inr hv))]
    have hcleared : (step R (after R s before) (.line (some w) owner)).unmirroredPatches.find? id =
        none := by
      rw [step, process_mirror R hlive hitem]
      rfl
    have hpatches := hlater.patches hunnamed
    rw [after_append]
    show (after R (step R (after R s before) (.line (some w) owner)) later).unmirroredPatches.find?
      id = none
    grind

/-- The lines between a call and its output, and before the call, do not name it. -/
theorem Rollout.unnamed {events before mid later : List Event} {call out : Lib.Value}
    {owner owner' : Option Owner} (h : Rollout events)
    (hsplit : events = before ++ .line (some call) owner :: mid ++ .line (some out) owner' :: later)
    (hcall : isPatchCall call = true) (hout : isOutput out = true)
    (hid : callId out = callId call) :
    (∀ v ∈ values before, names (callId call) v = false) ∧
      ∀ v ∈ values mid, names (callId call) v = false := by
  rw [List.append_assoc, List.cons_append] at hsplit
  obtain ⟨hbefore, -, hone⟩ := h.call before call owner _ hsplit hcall
  have hnamed : names (callId call) out = true := hid ▸ names_of_isOutput hout
  rw [values_append, values_cons, List.filter_append, List.filter_append, List.length_append,
    List.length_append] at hone
  have hlater : ((values [.line (some out) owner']).filter (names (callId call))).length = 1 := by
    simp [values, hnamed]
  have hmid : ((values mid).filter (names (callId call))).length = 0 := by omega
  constructor
  · exact hbefore
  · intro v hv
    simpa using List.filter_eq_nil_iff.mp (List.length_eq_zero_iff.mp hmid) v hv

/-- Nothing mirrors a patch of a call but a mirror behind it. -/
theorem Rollout.owners_behind {events before mid later : List Event} {call out : Lib.Value}
    {owner owner' : Option Owner} (h : Rollout events)
    (hsplit : events = before ++ .line (some call) owner :: mid ++ .line (some out) owner' :: later)
    (hcall : isPatchCall call = true) (hout : isOutput out = true)
    (hid : callId out = callId call) {k : Nat} (hk : (callId call, k) ∈ owners events) :
    (∃ v ∈ values mid, (mirrored? v).isSome = true) ∨ (callId call, k) ∈ owners later := by
  rw [hsplit, owners_append, owners_append, owners_cons,
    owners_cons (.line (some out) owner')] at hk
  simp only [List.mem_append] at hk
  obtain (hk | hk | hk) | hk | hk := hk
  · obtain ⟨front, v, rest, rfl⟩ := mem_owners hk
    obtain ⟨-, other, hother, hpatch, hid'⟩ := h.owner front v (callId call) k
      (rest ++ .line (some call) owner :: mid ++ .line (some out) owner' :: later)
      (by simp [hsplit])
    have hunnamed := (h.unnamed hsplit hcall hout hid).1 other (by simp [values_append, hother])
    rw [← hid', names_of_isPatchCall hpatch] at hunnamed
    contradiction
  · obtain rfl : owner = some (callId call, k) := by simpa [owners] using hk
    rw [List.append_assoc, List.cons_append] at hsplit
    obtain ⟨⟨w, hw, hmirror⟩, -⟩ := h.owner before (some call) _ _ _ hsplit
    cases hw
    have hresponse := response_of_names (names_of_isPatchCall hcall)
    rw [(mirrored_kind hmirror).2] at hresponse
    contradiction
  · obtain ⟨front, v, rest, rfl⟩ := mem_owners hk
    obtain ⟨⟨w, rfl, hmirror⟩, -⟩ := h.owner (before ++ .line (some call) owner :: front) v
      (callId call) k (rest ++ .line (some out) owner' :: later) (by simp [hsplit])
    exact .inl ⟨w, by simp [values], hmirror⟩
  · obtain rfl : owner' = some (callId call, k) := by simpa [owners] using hk
    obtain ⟨⟨w, hw, hmirror⟩, -⟩ := h.owner _ (some out) _ _ _ hsplit
    cases hw
    have hresponse := response_of_names (names_of_isOutput hout)
    rw [(mirrored_kind hmirror).2] at hresponse
    contradiction
  · exact .inr hk

/-- What the preprocessor is like when a rollout's own lines begin. -/
structure Opened (s : CodexLinePreprocessor τ) : Prop where
  live : Live s
  cleared : ∀ id, s.unmirroredPatches.find? id = none

theorem Rollout.live_before {s : CodexLinePreprocessor τ} {events before rest : List Event}
    (h : Rollout events) (hs : Opened s) (hsplit : events = before ++ rest) :
    Live (after R s before) := by
  refine (after_keeps R hs.live "" before fun v hv => h.own v ?_).live hs.live
  simp [hsplit, values_append, hv]

/-- **An output draws the rejected patches without a mirror.** -/
theorem output_drawn {s : CodexLinePreprocessor τ} (hs : Opened s)
    {events before mid later : List Event} {call out : Lib.Value} {owner owner' : Option Owner}
    (h : Rollout events) (ho : Orderly R events)
    (hsplit : events = before ++ .line (some call) owner :: mid ++ .line (some out) owner' :: later)
    (hcall : isPatchCall call = true) (hout : isOutput out = true)
    (hid : callId out = callId call) :
    (process R (after R s (before ++ .line (some call) owner :: mid)) (some out)).2 =
      drawnOutput R events call out
        (after R s (before ++ .line (some call) owner :: mid)).cwd := by
  obtain ⟨hbefore, hmid⟩ := h.unnamed hsplit hcall hout hid
  have hvalues : values events =
      values before ++ call :: values mid ++ out :: values later := by
    simp [hsplit, values]
  have hown := h.own
  simp only [hvalues, List.mem_append, List.mem_cons] at hown
  obtain ⟨hne, htask⟩ := ho.call call (by simp [hvalues]) hcall
  -- before the call
  have hkept := after_keeps R hs.live (callId call) before fun v hv => hown v (.inl (.inl hv))
  have hlive := hkept.live hs.live
  have hunnamed : ∀ events, (∀ v ∈ values events, names (callId call) v = false) →
      (values events).any (names (callId call)) = false := by
    intro events hnames
    rw [List.any_eq_false]
    intro v hv
    simp [hnames v hv]
  have hnone : (after R s before).unmirroredPatches.find? (callId call) = none := by
    have hpatches := hkept.patches (hunnamed before hbefore)
    have hstart := hs.cleared (callId call)
    grind
  -- the call
  have hwaits := wrap_calls (after R s before) hne (carriedPatches (call.get "payload"))
  have hfind := wrap_find? (after R s before) hne hnone (carriedPatches (call.get "payload"))
  have hcalled : step R (after R s before) (.line (some call) owner) =
      (after R s before).wrap (callId call) (carriedPatches (call.get "payload")) := by
    rw [step, process_call R hlive hcall htask]
  rw [← hcalled] at hwaits hfind
  have hcalledLive := (step_keeps R hlive "" (.line (some call) owner) fun v hv =>
    hown v (by simp [values] at hv; simp [hv])).live hlive
  -- the lines up to its output
  have hmidOwn : ∀ v ∈ values mid, isType v "session_meta" = false := fun v hv =>
    hown v (.inl (.inr (.inr hv)))
  have hkeeps := after_keeps R hcalledLive (callId call) mid hmidOwn
  have hafter : after R s (before ++ .line (some call) owner :: mid) =
      after R (step R (after R s before) (.line (some call) owner)) mid := by
    rw [after_append]
    rfl
  rw [hafter]
  have houtId := hkeeps.calls (hunnamed mid hmid) hwaits
  rw [← hid] at houtId
  rw [process_output R (hkeeps.live hcalledLive) hout houtId, drawnOutput, ← hid]
  have hwaiting := hkeeps.patches (hunnamed mid hmid)
  rw [hfind] at hwaiting
  cases hreason : rejectedPatchReason R (out.get "payload") with
  | none =>
    obtain ⟨kept, hkept⟩ : ∃ kept, (after R (step R (after R s before) (.line (some call) owner))
        mid).unmirroredPatches.find? (callId out) = if kept = [] then none else some kept := by
      rw [hid]
      rcases hwaiting with hsame | hcleared
      · exact ⟨_, hsame⟩
      · exact ⟨[], hcleared.2⟩
    rw [transportOutput_fate R hkept, hreason, rejectedLine_none, rejectedLine_none]
  | some reason =>
    have hfailed := ho.output before call owner mid out owner' later hsplit hcall hout hid
      (by simp [hreason])
    rcases hfailed with ⟨hquiet, hlater⟩ | hall
    · -- no mirror came: all the patches are still kept, and none is mirrored
      have hchange : (values mid).any isFileChange = false :=
        List.any_eq_false.mpr fun v hv => by simp [hquiet v hv]
      have hkept : (after R (step R (after R s before) (.line (some call) owner))
          mid).unmirroredPatches.find? (callId out) =
          if carriedPatches (call.get "payload") = [] then none
          else some (carriedPatches (call.get "payload")) := by
        rw [hid]
        simpa [hchange] using hwaiting
      have hfree : ∀ k, (callId call, k) ∉ owners events := by
        intro k hk
        rcases h.owners_behind hsplit hcall hout hid hk with ⟨v, hv, hmirror⟩ | hbehind
        · have hfile := (mirrored_kind hmirror).1
          rw [hquiet v hv] at hfile
          contradiction
        · exact hlater k hbehind
      rw [transportOutput_fate R hkept, hreason, hid, unmirrored_eq_self hfree]
    · -- all were mirrored: none is kept, and none is left
      have hcleared : (after R (step R (after R s before) (.line (some call) owner))
          mid).unmirroredPatches.find? (callId out) = if ([] : List Text) = [] then none
            else some [] := by
        rw [hid]
        by_cases hpatches : carriedPatches (call.get "payload") = []
        · rw [if_pos hpatches] at hwaiting
          rcases hwaiting with hsame | hcleared
          · exact hsame
          · exact hcleared.2
        · obtain ⟨front, v, rest, hmidSplit⟩ :=
            mem_owners (hall 0 (List.length_pos_of_ne_nil hpatches))
          obtain ⟨⟨w, rfl, hmirror⟩, -⟩ :=
            h.owner (before ++ .line (some call) owner :: front) v (callId call) 0
              (rest ++ .line (some out) owner' :: later) (by simp [hsplit, hmidSplit])
          exact after_mirror R hcalledLive hmidOwn hmid (by simp [hmidSplit, values]) hmirror
      have hleft : unmirrored events (callId call) (carriedPatches (call.get "payload")) = [] := by
        apply unmirrored_eq_nil
        intro k hk
        have hmem := hall k hk
        rw [hsplit, owners_append, owners_append, owners_cons]
        simp [hmem]
      rw [transportOutput_fate R hcleared, hreason, hid, hleft]

/-- **Every patch is drawn once**, from any state in which a rollout's own lines begin. -/
theorem drawnOnce_of_opened {s : CodexLinePreprocessor τ} (hs : Opened s) {events : List Event}
    (h : Rollout events) (ho : Orderly R events) : DrawnOnce R s events where
  call before v owner later hsplit hcall := by
    rw [process_call R (h.live_before R hs hsplit) hcall
      (ho.call v (by simp [hsplit, values]) hcall).2]
  mirror before v owner later item changes hsplit hmirror := by
    rw [process_mirror R (h.live_before R hs hsplit) hmirror]
  output before call owner mid out owner' later hsplit hcall hout hid :=
    output_drawn R hs h ho hsplit hcall hout hid

/-! ## how a rollout begins -/

/-- Behind the header of a child's rollout. -/
theorem process_child {v spawn : Lib.Value} (hmeta : isType v "session_meta" = true)
    (hspawn : pointer v ["payload", "source", "subagent", "thread_spawn"] = some spawn) :
    (process R {} (some v)).1 = rememberSession { child := some ⟨(timestamp R v).getD R.zero,
      (strField spawn "agent_path").getD "", false⟩ } v := by
  simp only [process, sessionMeta, hmeta, if_true, hspawn, Answer.andThen]
  rfl

/-- Behind any other header. -/
theorem process_root {v : Lib.Value} (hmeta : isType v "session_meta" = true)
    (hspawn : pointer v ["payload", "source", "subagent", "thread_spawn"] = none) :
    (process R {} (some v)).1 = (ownLine R (rememberSession {} v) v).1 := by
  simp only [process, sessionMeta, hmeta, if_true, hspawn, Answer.andThen]
  rfl

/-- The header of a session that hides the transport opens the rollout. -/
theorem opened_header {v : Lib.Value} (h : hides v = true) :
    Opened (after R {} [.line (some v) none]) := by
  simp only [hides, Bool.and_eq_true] at h
  obtain ⟨hmeta, hversion⟩ := h
  show Opened (process R {} (some v)).1
  cases hspawn : pointer v ["payload", "source", "subagent", "thread_spawn"] with
  | none =>
    have hlive : Live (rememberSession ({} : CodexLinePreprocessor τ) v) := by
      constructor
      · exact hversion
      · intro child hchild
        contradiction
    rw [process_root R hmeta hspawn]
    constructor
    · exact (ownLine_keeps R _ "" v).live hlive
    · intro id
      have hunnamed : names id v = false := by simp [names, isType_of_ne hmeta]
      rcases (ownLine_keeps R (rememberSession {} v) id v).patches hunnamed with hsame | hcleared
      · exact hsame
      · exact hcleared.2
  | some spawn =>
    rw [process_child R hmeta hspawn]
    constructor
    · constructor
      · exact hversion
      · intro child hchild
        cases hchild
        rfl
    · intro id
      rfl

/-- The copy of a parent's transcript is being left out. -/
structure Copying (started : τ) (s : CodexLinePreprocessor τ) : Prop where
  exec : s.semanticExec = true
  child : ∃ path, s.child = some ⟨started, path, true⟩
  cleared : ∀ id, s.unmirroredPatches.find? id = none

/-- The copy begins with its own header, behind the child's. -/
theorem copying_header {s : CodexLinePreprocessor τ} {started : τ} {path : String} {skips : Bool}
    {v : Lib.Value} (hs : s.semanticExec = true) (hchild : s.child = some ⟨started, path, skips⟩)
    (hnone : ∀ id, s.unmirroredPatches.find? id = none) (hmeta : isType v "session_meta" = true)
    (hspawn : pointer v ["payload", "source", "subagent", "thread_spawn"] = none) :
    Copying started (process R s (some v)).1 := by
  simp only [process, sessionMeta, hmeta, if_true, hspawn, hchild, Answer.andThen]
  exact ⟨hs, ⟨path, rfl⟩, hnone⟩

/-- A copied line is left out. -/
theorem Copying.step {s : CodexLinePreprocessor τ} {started : τ} (hs : Copying started s)
    (e : Event)
    (hcopy : ∀ v ∈ values [e], isType v "session_meta" = true →
      pointer v ["payload", "source", "subagent", "thread_spawn"] = none)
    (hcopied : ∀ v ∈ values [e], startsChild R ⟨started, "", true⟩ v = false) :
    Copying started (Preprocessor.step R s e) := by
  obtain ⟨path, hchild⟩ := hs.child
  cases e with
  | resume =>
    rw [Preprocessor.step, restore_state]
    exact hs
  | line v owner =>
    cases v with
    | none => exact hs
    | some v =>
      show Copying started (process R s (some v)).1
      have hmem : v ∈ values [.line (some v) owner] := by simp [values]
      cases hmeta : isType v "session_meta" with
      | true => exact copying_header R hs.exec hchild hs.cleared hmeta (hcopy v hmem hmeta)
      | false =>
        have hstays : startsChild R ⟨started, path, true⟩ v = false := hcopied v hmem
        simp [process, sessionMeta, hmeta, parentSnapshot, hchild, hstays, Answer.andThen, hs]

theorem Copying.run {s : CodexLinePreprocessor τ} {started : τ} (hs : Copying started s)
    (events : List Event)
    (hcopy : ∀ v ∈ values events, isType v "session_meta" = true →
      pointer v ["payload", "source", "subagent", "thread_spawn"] = none)
    (hcopied : ∀ v ∈ values events, startsChild R ⟨started, "", true⟩ v = false) :
    Copying started (after R s events) := by
  induction events generalizing s with
  | nil => exact hs
  | cons e events ih =>
    rw [values_cons] at hcopy hcopied
    exact ih (hs.step R e (fun v hv => hcopy v (List.mem_append_left _ hv))
        fun v hv => hcopied v (List.mem_append_left _ hv))
      (fun v hv => hcopy v (List.mem_append_right _ hv))
      fun v hv => hcopied v (List.mem_append_right _ hv)

/-- The child's own transcript begins. -/
theorem Copying.opened {s : CodexLinePreprocessor τ} {started : τ} (hs : Copying started s)
    {v : Lib.Value} (hstarts : startsChild R ⟨started, "", true⟩ v = true) :
    Opened (process R s (some v)).1 := by
  obtain ⟨path, hchild⟩ := hs.child
  have hmeta : isType v "session_meta" = false := by
    simp only [startsChild, Bool.and_eq_true] at hstarts
    exact isType_of_ne hstarts.1.1 (by decide)
  have hbegins : startsChild R ⟨started, path, true⟩ v = true := hstarts
  have hstate : (process R s (some v)).1 = { s with child := some ⟨started, path, false⟩ } := by
    simp [process, sessionMeta, hmeta, parentSnapshot, hchild, hbegins, Answer.andThen]
  rw [hstate]
  constructor
  · constructor
    · exact hs.exec
    · intro child hother
      cases hother
      rfl
  · exact hs.cleared

theorem Opening.opened {events : List Event} (h : Opening R events) :
    Opened (after R {} events) := by
  cases h with
  | header v h => exact opened_header R h
  | child v first start spawn copied h hspawn hfirst hcopy hcopied hstarts =>
    have hhides := h
    simp only [hides, Bool.and_eq_true] at hhides
    have hbegun := opened_header R h
    have hstate : (after R {} [.line (some v) none]).child = some ⟨(timestamp R v).getD R.zero,
        (strField spawn "agent_path").getD "", false⟩ := by
      show (process R {} (some v)).1.child = _
      rw [process_child R hhides.1 hspawn]
      rfl
    have hcopying := copying_header R hbegun.live.exec hstate hbegun.cleared hfirst
      (hcopy first List.mem_cons_self hfirst)
    have hcopiedAll := hcopying.run R copied
      (fun w hw => hcopy w (List.mem_cons_of_mem first hw)) hcopied
    rw [after_append]
    exact hcopiedAll.opened R hstarts

/-! ## two calls that overlap -/

/-- A reader for lines with nothing to pass on. -/
def plainReader : Reader Unit where
  parseJson := fun _ => none
  jsonText := fun _ => ""
  epochSecs := fun _ => none
  asF64 := fun _ => some ()
  f64Value := fun _ => .null
  zero := ()
  near := fun _ _ => true
  decodeUser := fun _ cwd => (cwd, [])
  otherItem := fun _ _ _ => none
  relativize := fun path _ => path
  asF64_f64Value := fun _ => rfl

theorem newline_notMem_a : '\n' ∉ ['a'] := by decide

/-- The patch that deletes the file `a`. -/
def deletion : Patches.Patch where
  files := [.delete ⟨['a'], newline_notMem_a⟩]
  newline := false

/-- Code that applies it. -/
def deleting : Patches.Wrapper where
  pieces := [(⟨applyPatchCall, by decide⟩,
    ⟨deletion, (deletion.text.drop Patches.beginMark.length).map Patches.spell,
      by decide +kernel⟩)]
  tail := ⟨");".toList, by decide⟩

def headerLine : Lib.Value :=
  .obj [("type", .str "session_meta"), ("payload", .obj [("cli_version", .str "0.147.0")])]

/-- The call of the code under an id. -/
def callLine (id : String) : Lib.Value :=
  .obj [("type", .str "response_item"),
    ("payload", .obj [("type", .str "custom_tool_call"), ("name", .str "exec"),
      ("call_id", .str id), ("input", .str (String.ofList deleting.code))])]

/-- Its output, when the patch was rejected. -/
def failedLine (id : String) : Lib.Value :=
  .obj [("type", .str "response_item"),
    ("payload", .obj [("type", .str "custom_tool_call_output"), ("call_id", .str id),
      ("output", .str "Script failed")])]

/-- Its mirror. -/
def mirrorLine : Lib.Value :=
  .obj [("type", .str "event_msg"),
    ("payload", .obj [("type", .str "item_completed"),
      ("item", .obj [("type", .str "FileChange"),
        ("changes", .obj [("a", .obj [("type", .str "delete"), ("content", .str "")])])])])]

theorem execCode_callLine (id : String) :
    execCode ((callLine id).get "payload") = deleting.code := by
  show (String.ofList deleting.code).toList = _
  simp

theorem calls_deleting : occurs applyPatchCall deleting.code = true := by decide +kernel

theorem carried_callLine (id : String) :
    carriedPatches ((callLine id).get "payload") = [deletion.text] := by
  have hsound : Patches.patchLiterals deleting.code = [deletion.text] := by
    rw [Patches.patchLiterals_code]
    decide +kernel
  rw [carriedPatches, execCode_callLine, if_pos calls_deleting, hsound]

theorem isPatchCall_callLine (id : String) : isPatchCall (callLine id) = true := by
  have hexec : isExec ((callLine id).get "payload") = true := rfl
  have htype : isType (callLine id) "response_item" = true := rfl
  rw [isPatchCall, execCode_callLine, calls_deleting, hexec, htype]
  rfl

theorem task_callLine (id : String) :
    orchestratedTaskCall plainReader ((callLine id).get "payload") = none := by
  simp [orchestratedTaskCall, ToolObject.jsToolObject, plainReader]

/-- `p` holds wherever the list is cut. -/
def cuts {α : Type} (p : List α → α → List α → Bool) (before : List α) : List α → Bool
  | [] => true
  | x :: later => p before x later && cuts p (before ++ [x]) later

theorem of_cuts {α : Type} {p : List α → α → List α → Bool} {pre xs before later : List α} {x : α}
    (h : cuts p pre xs = true) (hxs : xs = before ++ x :: later) :
    p (pre ++ before) x later = true := by
  induction xs generalizing pre before with
  | nil => simp at hxs
  | cons y ys ih =>
    rw [cuts, Bool.and_eq_true] at h
    cases before with
    | nil =>
      obtain ⟨rfl, rfl⟩ := List.cons.inj hxs
      rw [List.append_nil]
      exact h.1
    | cons b before =>
      obtain ⟨rfl, hrest⟩ := List.cons.inj hxs
      have hcut := ih h.2 hrest
      rwa [List.append_assoc] at hcut

/-- What a rollout is, at one of its lines. -/
def rollsAt (before : List Event) : Event → List Event → Bool
  | .line (some v) owner, later =>
    !isType v "session_meta" &&
      (!isPatchCall v || (values before).all (fun w => !names (callId v) w) &&
        (values later).all (fun w => !names (callId v) w || isOutput w) &&
          decide (((values later).filter (names (callId v))).length ≤ 1)) &&
      owner.all fun o => (mirrored? v).isSome &&
        (values before).any fun call => isPatchCall call && callId call = o.1
  | .line none owner, _ => owner.isNone
  | .resume, _ => true

theorem Rollout.of_cuts {events : List Event} (h : cuts rollsAt [] events = true) :
    Rollout events where
  own v hv := by
    obtain ⟨e, he, hvalue⟩ := List.mem_filterMap.mp hv
    obtain ⟨before, later, heq⟩ := List.append_of_mem he
    have hat := Preprocessor.of_cuts h heq
    cases e with
    | resume => cases hvalue
    | line w owner =>
      obtain rfl : w = some v := hvalue
      simp only [rollsAt, Bool.and_eq_true, Bool.not_eq_true'] at hat
      exact hat.1.1
  call before v owner later heq hcall := by
    have hat := Preprocessor.of_cuts h heq
    simp only [rollsAt, hcall, List.nil_append, Bool.not_true, Bool.false_or, Bool.and_eq_true,
      Bool.or_eq_true, List.all_eq_true, Bool.not_eq_true', decide_eq_true_eq] at hat
    obtain ⟨⟨-, ⟨hbefore, hlater⟩, hone⟩, -⟩ := hat
    exact ⟨hbefore, fun w hw hnames => (hlater w hw).resolve_left (by simp [hnames]), hone⟩
  owner before v id k later heq := by
    have hat := Preprocessor.of_cuts h heq
    cases v with
    | none => simp [rollsAt] at hat
    | some v =>
      simp only [rollsAt, List.nil_append, Bool.and_eq_true, Option.all_some, List.any_eq_true,
        decide_eq_true_eq] at hat
      exact ⟨⟨v, rfl, hat.2.1⟩, hat.2.2⟩

/-- Two calls, of which the second is rejected; then the fold is resumed, and the patch of the first
is mirrored. -/
def rejectedRun : List Event :=
  [.line (some (callLine "x")) none, .line (some (callLine "y")) none,
    .line (some (failedLine "y")) none, .resume, .line (some mirrorLine) (some ("x", 0))]

/-- Two calls, the mirror of the first, and the failure of the second. -/
def overlappingRun : List Event :=
  [.line (some (callLine "x")) none, .line (some (callLine "y")) none,
    .line (some mirrorLine) (some ("x", 0)), .line (some (failedLine "y")) none]

/-- No `FileChange` stands between a call and its output, and none of its patches is mirrored
later. -/
def endsAt : Event → List Event → Event → List Event → Bool
  | .line (some call) _, mid, .line (some out) _, later =>
    !(isPatchCall call && isOutput out && callId out = callId call) ||
      (values mid).all (fun v => !isFileChange v) && (owners later).all fun o => o.1 ≠ callId call
  | _, _, _, _ => true

theorem orderly_rejected : Orderly plainReader rejectedRun where
  call v hv hcall := by
    have hv : v = callLine "x" ∨ v = callLine "y" ∨ v = failedLine "y" ∨ v = mirrorLine := by
      simpa [rejectedRun, values] using hv
    rcases hv with rfl | rfl | rfl | rfl
    · exact ⟨by decide, task_callLine "x"⟩
    · exact ⟨by decide, task_callLine "y"⟩
    · cases hcall
    · cases hcall
  output before call owner mid out owner' later h hcall hout hid hreason := by
    have hcuts : cuts (fun _ call later => cuts (endsAt call) [] later) [] rejectedRun = true := by
      simp only [rejectedRun, cuts, endsAt, isPatchCall_callLine]
      decide +kernel
    rw [List.append_assoc] at h
    have hat := of_cuts (of_cuts hcuts h) rfl
    simp only [endsAt, hcall, hout, hid, List.nil_append, decide_true, Bool.and_true, Bool.not_true,
      Bool.false_or, Bool.and_eq_true, List.all_eq_true, Bool.not_eq_true', decide_eq_true_eq] at hat
    exact .inl ⟨hat.1, fun k hk => hat.2 _ hk rfl⟩

/-- **Every patch is drawn once**, when its call is one that the preprocessor tells. -/
theorem drawn_once {opening events : List Event} (hopen : Opening R opening)
    (h : Rollout events) (ho : Orderly R events) :
    DrawnOnce R (after R {} opening) events :=
  drawnOnce_of_opened R (hopen.opened R) h ho

theorem drawn_once_rejected :
    DrawnOnce plainReader (after plainReader {} [.line (some headerLine) none]) rejectedRun := by
  have hrolls : cuts rollsAt [] rejectedRun = true := by
    simp only [rejectedRun, cuts, rollsAt, isPatchCall_callLine, values, List.filterMap, List.any,
      List.nil_append, List.cons_append]
    decide +kernel
  exact drawn_once plainReader (.header headerLine (by decide +kernel)) (.of_cuts hrolls)
    orderly_rejected

/-- The second call failed, and its patch is drawn nowhere: the mirror of the first made the
preprocessor forget it. -/
theorem overlapping_vanishes :
    Opening plainReader [.line (some headerLine) none] ∧ Rollout overlappingRun ∧
      ¬DrawnOnce plainReader (after plainReader {} [.line (some headerLine) none])
        overlappingRun := by
  have hheader : hides headerLine = true := by decide +kernel
  have hrolls : cuts rollsAt [] overlappingRun = true := by
    simp only [overlappingRun, cuts, rollsAt, isPatchCall_callLine, values, List.filterMap, List.any,
      List.nil_append, List.cons_append]
    decide +kernel
  refine ⟨.header headerLine hheader, .of_cuts hrolls, ?_⟩
  intro hdrawn
  have hopened := opened_header plainReader hheader
  have houtput := hdrawn.output [.line (some (callLine "x")) none] (callLine "y") none
    [.line (some mirrorLine) (some ("x", 0))] (failedLine "y") none [] rfl
    (isPatchCall_callLine "y") (by decide +kernel) (by decide +kernel)
  have hids : owners overlappingRun = [("x", 0)] := rfl
  have hfree : ∀ k, ((callId (callLine "y"), k) : Owner) ∉ owners overlappingRun := by
    intro k
    simp only [hids, List.mem_singleton, Prod.mk.injEq, not_and]
    intro hid
    exact absurd hid (by decide +kernel)
  obtain ⟨reason, hreason⟩ : ∃ reason,
      rejectedPatchReason plainReader ((failedLine "y").get "payload") = some reason :=
    Option.isSome_iff_exists.mp (by decide +kernel)
  rw [drawnOutput, unmirrored_eq_self hfree, carried_callLine, hreason, rejectedLine] at houtput
  -- the state behind the two calls, and behind the mirror
  have hown : ∀ id, ∀ v ∈ values [.line (some (callLine id)) none],
      isType v "session_meta" = false := by
    intro id v hv
    obtain rfl : v = callLine id := by simpa [values] using hv
    rfl
  have hx := (step_keeps plainReader hopened.live "" _ (hown "x")).live hopened.live
  have hy := (step_keeps plainReader hx "" _ (hown "y")).live hx
  have hcalled : "y" ∈ (step plainReader (step plainReader (after plainReader {}
      [.line (some headerLine) none]) (.line (some (callLine "x")) none))
      (.line (some (callLine "y")) none)).transportCalls := by
    rw [step, process_call plainReader hx (isPatchCall_callLine "y") (task_callLine "y")]
    exact wrap_calls _ (by decide +kernel) _
  have hmirror : (mirrored? mirrorLine).isSome = true := by decide +kernel
  have hout : isOutput (failedLine "y") = true := by decide +kernel
  have hvanished := ignored_behind_mirror plainReader hy hmirror hout hcalled
  have hcontra := hvanished.symm.trans houtput
  cases hcontra

end ClaudeReplay.Codex.Preprocessor
