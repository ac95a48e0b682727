import ClaudeReplay.Taskq.Records
import ClaudeReplay.Tasks.Reapply

/-!
# ClaudeReplay.Taskq.Echo

Records printed again.

The queue prints a record again whenever it is shown or listed, and its operations are applied
again with it. Then the fields it sets say once more what they said then. A task that has moved on
since is put back: the list stays as it is exactly where every field that the records set is one
that the log last set to the same value (`echo_changes_nothing_iff`).
-/

namespace ClaudeReplay

/-! ## the fields of edits, one after another -/

section field

variable {α : Type} {get : Edit → Option α}

/-- A field of an edit, as edits compose: the later one has the last word. -/
structure Edit.IsField (get : Edit → Option α) : Prop where
  none : get {} = none
  then_ : ∀ e e' : Edit, get (e.then_ e') = (get e' <|> get e)

theorem netEdit_concat (edits : List (String × Edit)) (edit : String × Edit) :
    netEdit (edits ++ [edit]) = (netEdit edits).then_ edit.2 := by
  rw [netEdit, List.foldl_append]
  rfl

/-- What edits say of a field, one of them says. -/
theorem exists_of_netEdit (hget : Edit.IsField get) {edits : List (String × Edit)} {v : α}
    (h : get (netEdit edits) = some v) : ∃ edit ∈ edits, get edit.2 = some v := by
  induction edits using List.reverseRecOn with
  | nil => simp [netEdit, hget.none] at h
  | append_singleton edits edit ih =>
    rw [netEdit_concat, hget.then_] at h
    cases hlast : get edit.2 with
    | some w =>
      rw [hlast] at h
      exact ⟨edit, by simp, hlast.trans h⟩
    | none =>
      rw [hlast] at h
      obtain ⟨edit', hmem, hget'⟩ := ih h
      exact ⟨edit', List.mem_append_left _ hmem, hget'⟩

/-- A field that one of the edits sets is set in the end. -/
theorem isSome_netEdit (hget : Edit.IsField get) {edits : List (String × Edit)}
    {edit : String × Edit} (hmem : edit ∈ edits) (h : (get edit.2).isSome = true) :
    (get (netEdit edits)).isSome = true := by
  induction edits using List.reverseRecOn with
  | nil => cases hmem
  | append_singleton edits last ih =>
    rw [netEdit_concat, hget.then_]
    cases hlast : get last.2 with
    | some w => rfl
    | none =>
      rcases List.mem_append.mp hmem with hmem | hmem
      · exact ih hmem
      · rw [List.mem_singleton.mp hmem, hlast] at h
        cases h

theorem isField_status : Edit.IsField Edit.status := ⟨rfl, fun _ _ => rfl⟩

theorem isField_subject : Edit.IsField Edit.subject := ⟨rfl, fun _ _ => rfl⟩

theorem isField_description : Edit.IsField Edit.description := ⟨rfl, fun _ _ => rfl⟩

theorem isField_activeForm : Edit.IsField Edit.activeForm := ⟨rfl, fun _ _ => rfl⟩

end field

/-- An edit that adds and drops no edge. -/
structure Edit.KeepsEdges (e : Edit) : Prop where
  blocks : e.blocks = []
  reset : e.reset = none
  blockedBy : e.blockedBy = []

theorem keepsEdges_netEdit {edits : List (String × Edit)}
    (h : ∀ edit ∈ edits, edit.2.KeepsEdges) : (netEdit edits).KeepsEdges := by
  induction edits using List.reverseRecOn with
  | nil => exact ⟨rfl, rfl, rfl⟩
  | append_singleton edits edit ih =>
    have hedits := ih fun e he => h e (List.mem_append_left _ he)
    have hedit := h edit (by simp)
    rw [netEdit_concat]
    constructor
    · rw [Edit.then_, hedits.blocks, hedit.blocks]
      rfl
    · rw [Edit.then_, hedits.reset, hedit.reset]
      rfl
    · rw [Edit.then_, hedit.reset, hedits.blockedBy, hedit.blockedBy]
      rfl

namespace Taskq

variable (parse : List Char → Option Lib.Value)

/-! ## a session -/

/-- What a session tells of a shell call: its command, and what it printed. -/
inductive Part
  | command (callId : String) (cmd : List Char)
  | output (callId : String) (text : List Char)

def Part.ops : Part → List TaskOp
  | .command callId cmd => taskqCreateOps callId cmd
  | .output callId text => taskqOps parse callId text

/-- The operations of a session. -/
def sessionOps (session : List Part) : List TaskOp := session.flatMap (Part.ops parse)

/-- A text whose records were all printed before, and that has no line for people. -/
structure Echoes (session : List Part) (text : List Char) : Prop where
  records : ∀ r ∈ recordsOf parse text,
    ∃ callId printed, .output callId printed ∈ session ∧ r ∈ recordsOf parse printed
  alone : ∀ line ∈ strLines text, createdLine line = none

/-- What the edits say last of a task stands in what the others said last of it. -/
structure SaysLast (again said : Edit) : Prop where
  status : ∀ s ∈ again.status, s ∈ said.status
  subject : ∀ s ∈ again.subject, s ∈ said.subject
  description : ∀ s ∈ again.description, s ∈ said.description
  activeForm : ∀ s ∈ again.activeForm, s ∈ said.activeForm

/-- Every field of a task that the echo sets was last set to the same value. -/
def StillSaid (ops echo : List TaskOp) : Prop :=
  ∀ id, SaysLast (netEdit (((TaskFold.replay {} ops)).editsOf echo id))
    (netEdit (TaskFold.editsOf {} ops id))

/-! ## the edits of records -/

/-- Is the record one that is read for what it says? -/
def Record.tells (r : Record) : Bool := r.isCreate || (r.isMove && r.status.isSome)

/-- What a record says of its task. -/
def Record.edit (r : Record) : Edit where
  status := r.status.map TaskStatus.parse
  subject := r.titled
  description := r.description
  activeForm := r.activeForm

theorem edit_update (f : TaskFold) (r : Record) :
    f.edit r.update = some (queueId r.task.toList, r.edit) := rfl

/-- An operation as the queue's are: it edits tasks one by one, and no edge. -/
def OfQueue : TaskOp → Prop
  | .create _ _ _ _ blockedBy => blockedBy = []
  | .resolve _ _ => True
  | .update _ _ _ _ _ addBlocks addBlockedBy => addBlocks = [] ∧ addBlockedBy = []
  | .snapshot _ _ | .retract _ => False

/-- The drafts that wait have no edge. -/
def NoEdges (f : TaskFold) : Prop := ∀ p ∈ f.pending, p.2.blockedBy = []

theorem NoEdges.applyRecorded {f : TaskFold} (hf : NoEdges f) {op : TaskOp} (hop : OfQueue op) :
    NoEdges (f.applyRecorded op) := by
  cases op with
  | create toolUseId subject description activeForm blockedBy =>
    intro p hp
    rcases List.mem_append.mp hp with hp | hp
    · exact hf p hp
    · rw [List.mem_singleton.mp hp]
      exact hop
  | resolve toolUseId id =>
    show NoEdges (f.join toolUseId id)
    unfold TaskFold.join
    split
    · exact hf
    · cases id <;> exact fun p hp => hf p (List.mem_of_mem_eraseP hp)
  | update taskId status subject description activeForm addBlocks addBlockedBy => exact hf
  | snapshot todos toolUseId => exact hop.elim
  | retract toolUseId => exact hop.elim

theorem NoEdges.replay {f : TaskFold} (hf : NoEdges f) {ops : List TaskOp}
    (hops : ∀ op ∈ ops, OfQueue op) : NoEdges (f.replay ops) := by
  induction ops generalizing f with
  | nil => exact hf
  | cons op ops ih =>
    obtain ⟨hop, hrest⟩ := List.forall_mem_cons.mp hops
    exact ih (hf.applyRecorded hop) hrest

theorem keepsEdges_edit {f : TaskFold} (hf : NoEdges f) {op : TaskOp} (hop : OfQueue op)
    {edit : String × Edit} (h : f.edit op = some edit) : edit.2.KeepsEdges := by
  cases op with
  | resolve toolUseId id =>
    cases id with
    | none => cases h
    | some id =>
      obtain ⟨p, hp, rfl⟩ := Option.map_eq_some_iff.mp h
      have hdraft := hf p (List.mem_of_find?_eq_some hp)
      constructor
      · rfl
      · show (if p.2.blockedBy.isEmpty then none else some p.2.blockedBy) = none
        rw [hdraft]
        rfl
      · rfl
  | update taskId status subject description activeForm addBlocks addBlockedBy =>
    obtain rfl := (Option.some.inj h).symm
    exact ⟨hop.1, rfl, hop.2⟩
  | _ => cases h

/-- An edit of a log is that of one of its operations. -/
theorem exists_of_mem_edits {f : TaskFold} (hf : NoEdges f) {ops : List TaskOp}
    (hops : ∀ op ∈ ops, OfQueue op) {edit : String × Edit} (h : edit ∈ f.edits ops) :
    edit.2.KeepsEdges ∧ ∃ (g : TaskFold) (op : TaskOp), op ∈ ops ∧ g.edit op = some edit := by
  induction ops generalizing f with
  | nil => cases h
  | cons op ops ih =>
    obtain ⟨hop, hrest⟩ := List.forall_mem_cons.mp hops
    rcases List.mem_append.mp h with h | h
    · have hedit : f.edit op = some edit := by simpa using h
      exact ⟨keepsEdges_edit hf hop hedit, f, op, List.mem_cons_self, hedit⟩
    · obtain ⟨hkeeps, g, op', hmem, hedit⟩ := ih (hf.applyRecorded hop) hrest h
      exact ⟨hkeeps, g, op', List.mem_cons_of_mem op hmem, hedit⟩

/-- An update is an edit of every log that has it. -/
theorem mem_edits_of_update {f : TaskFold} {r : Record} {ops : List TaskOp}
    (h : r.update ∈ ops) : (queueId r.task.toList, r.edit) ∈ f.edits ops := by
  induction ops generalizing f with
  | nil => cases h
  | cons op ops ih =>
    rcases List.mem_cons.mp h with rfl | h
    · exact List.mem_append_left _ (by simp [edit_update])
    · exact List.mem_append_right _ (ih h)

theorem keeps_of_queue {f : TaskFold} {ops : List TaskOp} (h : ∀ op ∈ ops, OfQueue op) :
    f.Keeps ops := by
  induction ops generalizing f with
  | nil => trivial
  | cons op ops ih =>
    obtain ⟨hop, hrest⟩ := List.forall_mem_cons.mp h
    refine ⟨fun items hitems => ?_, ih hrest⟩
    cases op with
    | snapshot todos toolUseId => exact hop.elim
    | retract toolUseId => exact hop.elim
    | _ => cases hitems

/-! ## the operations of records -/

theorem mem_ops {callId : String} {n : Nat} {r : Record} {op : TaskOp}
    (h : op ∈ r.ops callId n) :
    r.tells = true ∧ (op = r.update ∨ ∃ k, op = .resolve k (some (queueId r.task.toList))) := by
  unfold Record.ops at h
  unfold Record.tells
  split at h
  case isTrue hcreate =>
    rw [hcreate]
    simp only [List.mem_cons, List.not_mem_nil, or_false] at h
    exact ⟨rfl, h.imp_right fun h => ⟨_, h⟩⟩
  case isFalse =>
    split at h
    case isTrue hmove =>
      rw [hmove.1, hmove.2]
      exact ⟨by simp, .inl (List.mem_singleton.mp h)⟩
    case isFalse => cases h

theorem update_mem_ops (callId : String) (n : Nat) {r : Record} (h : r.tells = true) :
    r.update ∈ r.ops callId n := by
  unfold Record.ops
  cases hcreate : r.isCreate with
  | true => exact List.mem_cons_self
  | false =>
    rw [Record.tells, hcreate, Bool.false_or, Bool.and_eq_true] at h
    rw [if_neg Bool.false_ne_true, if_pos h]
    exact List.mem_cons_self

/-- What an output says, a line for people says or a record that tells something. -/
theorem mem_lineOps {callId : String} {n : Nat} {lines : List (List Char)} {op : TaskOp}
    (h : op ∈ lineOps parse callId n lines) :
    (∃ line ∈ lines, op ∈ createdOps line) ∨
      ∃ r ∈ lines.filterMap (recordOf parse), r.tells = true ∧
        (op = r.update ∨ ∃ k, op = .resolve k (some (queueId r.task.toList))) := by
  induction lines generalizing n with
  | nil => cases h
  | cons line lines ih =>
    have hlater {m : Nat} (h : op ∈ lineOps parse callId m lines) :
        (∃ line' ∈ line :: lines, op ∈ createdOps line') ∨
          ∃ r ∈ (line :: lines).filterMap (recordOf parse), r.tells = true ∧
            (op = r.update ∨ ∃ k, op = .resolve k (some (queueId r.task.toList))) := by
      rcases ih h with ⟨line', hmem, hop⟩ | ⟨r, hmem, hr⟩
      · exact .inl ⟨line', List.mem_cons_of_mem line hmem, hop⟩
      · refine .inr ⟨r, ?_, hr⟩
        rw [List.filterMap_cons]
        split
        · exact hmem
        · exact List.mem_cons_of_mem _ hmem
    rw [lineOps] at h
    rcases List.mem_append.mp h with h | h
    · exact .inl ⟨line, List.mem_cons_self, h⟩
    · cases hrecord : recordOf parse line with
      | none =>
        rw [hrecord] at h
        exact hlater h
      | some r =>
        rw [hrecord] at h
        rcases List.mem_append.mp h with h | h
        · refine .inr ⟨r, ?_, mem_ops h⟩
          rw [List.filterMap_cons, hrecord]
          exact List.mem_cons_self
        · exact hlater h

/-- A record that tells something is an update in the log. -/
theorem update_mem_lineOps {callId : String} {n : Nat} {lines : List (List Char)} {r : Record}
    (h : r ∈ lines.filterMap (recordOf parse)) (htells : r.tells = true) :
    r.update ∈ lineOps parse callId n lines := by
  induction lines generalizing n with
  | nil => cases h
  | cons line lines ih =>
    rw [List.filterMap_cons] at h
    rw [lineOps]
    refine List.mem_append_right _ ?_
    cases hrecord : recordOf parse line with
    | none =>
      rw [hrecord] at h
      exact ih h
    | some r' =>
      rw [hrecord] at h
      rcases List.mem_cons.mp h with rfl | h
      · exact List.mem_append_left _ (update_mem_ops callId n htells)
      · exact List.mem_append_right _ (ih h)

theorem ofQueue_createdOps {line : List Char} {op : TaskOp} (h : op ∈ createdOps line) :
    OfQueue op := by
  obtain ⟨_, -, rfl⟩ := List.mem_map.mp h
  exact ⟨rfl, rfl⟩

theorem ofQueue_taskqOps {callId : String} {text : List Char} {op : TaskOp}
    (h : op ∈ taskqOps parse callId text) : OfQueue op := by
  rcases mem_lineOps parse h with ⟨line, -, hop⟩ | ⟨r, -, -, rfl | ⟨k, rfl⟩⟩
  · exact ofQueue_createdOps hop
  · exact ⟨rfl, rfl⟩
  · trivial

theorem ofQueue_callOps {callId : String} {n : Nat} {calls : List TaskqCall} {op : TaskOp}
    (h : op ∈ callOps callId n calls) : OfQueue op := by
  induction calls generalizing n with
  | nil => cases h
  | cons call calls ih =>
    rw [callOps] at h
    split at h
    · rcases List.mem_cons.mp h with rfl | h
      · rfl
      · exact ih h
    · rcases List.mem_append.mp h with h | h
      · obtain ⟨id, status, subject, description, activeForm, rfl⟩ :=
          op_eq_update (Option.mem_toList.mp h)
        exact ⟨rfl, rfl⟩
      · exact ih h

theorem ofQueue_sessionOps {session : List Part} {op : TaskOp}
    (h : op ∈ sessionOps parse session) : OfQueue op := by
  obtain ⟨part, -, hop⟩ := List.mem_flatMap.mp h
  cases part with
  | command callId cmd => exact ofQueue_callOps hop
  | output callId text => exact ofQueue_taskqOps parse hop

/-! ## what an echo changes -/

/-- A row made by some edits says what others say exactly where the others say it last; what they
say and the first do not is not empty. -/
theorem eq_getD_iff {α : Type} {said : Option α} {v d : α} (h : said = none → v ≠ d) :
    v = said.getD d ↔ v ∈ said := by
  cases said with
  | none => simpa using h rfl
  | some w => simp [eq_comm]

variable {parse} {session : List Part} {text : List Char}

/-- An edit of an echo is what a record says of its task, or a draft that lands there; and the
record's own edit is in the log. -/
theorem echo_edit (hecho : Echoes parse session text) {callId : String} {f : TaskFold}
    (hf : NoEdges f) {edit : String × Edit} (h : edit ∈ f.edits (taskqOps parse callId text)) :
    edit.2.KeepsEdges ∧ ∃ r : Record,
      (queueId r.task.toList, r.edit) ∈ TaskFold.edits {} (sessionOps parse session) ∧
      edit.1 = queueId r.task.toList ∧ (edit.2 = r.edit ∨ ∃ draft, edit.2 = landEdit draft) := by
  obtain ⟨hkeeps, g, op, hop, hedit⟩ :=
    exists_of_mem_edits hf (fun _ => ofQueue_taskqOps parse) h
  refine ⟨hkeeps, ?_⟩
  rcases mem_lineOps parse hop with ⟨line, hline, hop⟩ | ⟨r, hr, htells, hop⟩
  · rw [createdOps, hecho.alone line hline] at hop
    cases hop
  · obtain ⟨callId', printed, hpart, hr'⟩ := hecho.records r hr
    refine ⟨r, mem_edits_of_update (List.mem_flatMap.mpr
      ⟨_, hpart, update_mem_lineOps parse hr' htells⟩), ?_⟩
    rcases hop with rfl | ⟨k, rfl⟩
    · obtain rfl := Option.some.inj ((edit_update g r).symm.trans hedit)
      exact ⟨rfl, .inl rfl⟩
    · obtain ⟨p, -, rfl⟩ := Option.map_eq_some_iff.mp hedit
      exact ⟨rfl, .inr ⟨p.2, rfl⟩⟩

theorem noEdges_start : NoEdges {} := by simp [NoEdges]

theorem mem_editsOf {f : TaskFold} {ops : List TaskOp} {id : String} {edit : String × Edit} :
    edit ∈ f.editsOf ops id ↔ edit ∈ f.edits ops ∧ edit.1 = id := by
  simp [TaskFold.editsOf]

/-- What a log of the queue leaves of a task that it says anything of. -/
theorem lookup_session {ops : List TaskOp} (hops : ∀ op ∈ ops, OfQueue op) {id : String}
    (h : TaskFold.editsOf {} ops id ≠ []) :
    lookup (TaskFold.replay {} ops).items id =
      some ((netEdit (TaskFold.editsOf {} ops id)).on { id }) := by
  rw [(keeps_of_queue hops).lookup_of TaskFold.tidy_start, editTask_eq id _ h]
  rfl

/-- A field that an echo sets stands in the task's row exactly where the log last set it so. -/
theorem field_stands_iff (hecho : Echoes parse session text) (callId id : String) {f : TaskFold}
    (hf : NoEdges f) {α : Type} {get : Edit → Option α} (hget : Edit.IsField get) (d : α)
    (hland : ∀ draft, ∀ s ∈ get (landEdit draft), s ≠ d) :
    (∀ s ∈ get (netEdit (f.editsOf (taskqOps parse callId text) id)),
        s = (get (netEdit (TaskFold.editsOf {} (sessionOps parse session) id))).getD d) ↔
      ∀ s ∈ get (netEdit (f.editsOf (taskqOps parse callId text) id)),
        s ∈ get (netEdit (TaskFold.editsOf {} (sessionOps parse session) id)) := by
  refine forall₂_congr fun s hs => eq_getD_iff fun hnone => ?_
  obtain ⟨edit, hmem, hedit⟩ := exists_of_netEdit hget hs
  obtain ⟨hmem, hid⟩ := mem_editsOf.mp hmem
  obtain ⟨-, r, hlog, htask, heq | ⟨draft, heq⟩⟩ := echo_edit hecho hf hmem
  · rw [heq] at hedit
    have hsome := isSome_netEdit hget
      (mem_editsOf.mpr ⟨hlog, htask.symm.trans hid⟩) (hedit ▸ rfl)
    rw [hnone] at hsome
    cases hsome
  · rw [heq] at hedit
    exact hland draft s hedit

theorem ne_empty_of_nonempty {text s : String} (h : s ∈ nonempty text) : s ≠ "" := by
  unfold nonempty at h
  split at h
  case isTrue => cases h
  case isFalse hne =>
    obtain rfl := Option.some.inj h
    rintro rfl
    exact hne rfl

/-- What an echo says of a task stands in the row that the log leaves exactly where the log said
it last. -/
theorem stands_iff (hecho : Echoes parse session text) {callId id : String} {f : TaskFold}
    (hf : NoEdges f) :
    (netEdit (f.editsOf (taskqOps parse callId text) id)).Stands
        ((netEdit (TaskFold.editsOf {} (sessionOps parse session) id)).on { id }) ↔
      SaysLast (netEdit (f.editsOf (taskqOps parse callId text) id))
        (netEdit (TaskFold.editsOf {} (sessionOps parse session) id)) := by
  have hedges : (netEdit (f.editsOf (taskqOps parse callId text) id)).KeepsEdges :=
    keepsEdges_netEdit fun edit hmem => (echo_edit hecho hf (mem_editsOf.mp hmem).1).1
  have hstatus := field_stands_iff hecho callId id hf isField_status .pending
    fun draft s hs => by cases hs
  have hsubject := field_stands_iff hecho callId id hf isField_subject ""
    fun draft s hs => ne_empty_of_nonempty hs
  have hdescription := field_stands_iff hecho callId id hf isField_description
    "" fun draft s hs => ne_empty_of_nonempty hs
  have hactiveForm := field_stands_iff hecho callId id hf isField_activeForm ""
    fun draft s hs => ne_empty_of_nonempty hs
  constructor
  · intro h
    exact ⟨hstatus.mp h.status, hsubject.mp h.subject, hdescription.mp h.description,
      hactiveForm.mp h.activeForm⟩
  · intro h
    refine ⟨hstatus.mpr h.status, hsubject.mpr h.subject, hdescription.mpr h.description,
      hactiveForm.mpr h.activeForm, ?_, ?_⟩
    · rw [hedges.blocks]
      exact nofun
    · rw [hedges.reset, hedges.blockedBy]
      exact nofun

/-- **When an echo changes nothing.** Records that were printed before are printed again: the list
stays as it is exactly where every field they set was last set so. -/
theorem echo_changes_nothing_iff (parse : List Char → Option Lib.Value) (session : List Part)
    (callId : String) (text : List Char) (hecho : Echoes parse session text) :
    (TaskFold.replay {} (sessionOps parse session ++ taskqOps parse callId text)).items =
        (TaskFold.replay {} (sessionOps parse session)).items ↔
      StillSaid (sessionOps parse session) (taskqOps parse callId text) := by
  have hsession : ∀ op ∈ sessionOps parse session, OfQueue op := fun _ => ofQueue_sessionOps parse
  have hnoEdges := noEdges_start.replay hsession
  rw [TaskFold.replay_append, TaskFold.again_iff (TaskFold.tidy_start.replay _)
    (keeps_of_queue fun _ => ofQueue_taskqOps parse)]
  refine forall_congr' fun id => ?_
  by_cases hnil : TaskFold.editsOf (TaskFold.replay {} (sessionOps parse session))
      (taskqOps parse callId text) id = []
  · rw [hnil]
    constructor
    · intro _
      exact ⟨nofun, nofun, nofun, nofun⟩
    · intro _ h
      exact (h rfl).elim
  · obtain ⟨edit, hmem⟩ := List.exists_mem_of_ne_nil _ hnil
    obtain ⟨hmem, hid⟩ := mem_editsOf.mp hmem
    obtain ⟨-, r, hlog, htask, -⟩ := echo_edit hecho hnoEdges hmem
    have hsaid : TaskFold.editsOf {} (sessionOps parse session) id ≠ [] :=
      List.ne_nil_of_mem (mem_editsOf.mpr ⟨hlog, htask.symm.trans hid⟩)
    rw [← stands_iff hecho hnoEdges]
    constructor
    · intro h
      obtain ⟨t, ht, hstands⟩ := h hnil
      rw [lookup_session hsession hsaid] at ht
      exact Option.some.inj ht ▸ hstands
    · intro hstands _
      exact ⟨_, lookup_session hsession hsaid, hstands⟩

/-! ### a claim, and the end of the task -/

/-- A record of task 5, as JSON, and what is read of it. -/
def moveJson (op status : String) : List Char :=
  "\x7b\"rid\":\"r\",\"op\":\"".toList ++ op.toList ++ "\",\"task\":\"5\",".toList ++
    "\"changes\":\x7b\"status\":\x7b\"to\":\"".toList ++ status.toList ++
    "\"\x7d\x7d\x7d".toList

def moveValue (op status : String) : Lib.Value :=
  .obj [("rid", .str "r"), ("op", .str op), ("task", .str "5"),
    ("changes", .obj [("status", .obj [("to", .str status)])])]

/-- A reader that knows the two records. -/
def parseMoves (json : List Char) : Option Lib.Value :=
  if json = moveJson "claim" "in_progress" then some (moveValue "claim" "in_progress")
  else if json = moveJson "done" "completed" then some (moveValue "done" "completed")
  else none

def claimed : Record := { op := "claim", task := "5", subject := "", status := some "in_progress" }

def finished : Record := { op := "done", task := "5", subject := "", status := some "completed" }

def claimLine : List Char := sentinel ++ ' ' :: moveJson "claim" "in_progress"

def doneLine : List Char := sentinel ++ ' ' :: moveJson "done" "completed"

/-- The two lines are records alone. -/
theorem moves_read :
    (strLines claimLine = [claimLine] ∧ createdLine claimLine = none ∧
        recordOf parseMoves claimLine = some claimed) ∧
      strLines doneLine = [doneLine] ∧ createdLine doneLine = none ∧
        recordOf parseMoves doneLine = some finished := by
  decide +kernel

/-- A line that is a record alone says what the record says. -/
theorem taskqOps_line {line : List Char} {r : Record} (callId : String)
    (hlines : strLines line = [line]) (hline : createdLine line = none)
    (hrecord : recordOf parseMoves line = some r) :
    taskqOps parseMoves callId line = r.ops callId 0 := by
  rw [taskqOps, hlines, lineOps, createdOps, hline, hrecord]
  simp [lineOps]

theorem taskqOps_claimLine (callId : String) :
    taskqOps parseMoves callId claimLine = [claimed.update] :=
  taskqOps_line callId moves_read.1.1 moves_read.1.2.1 moves_read.1.2.2

theorem taskqOps_doneLine (callId : String) :
    taskqOps parseMoves callId doneLine = [finished.update] :=
  taskqOps_line callId moves_read.2.1 moves_read.2.2.1 moves_read.2.2.2

/-- A record, printed again in a session that printed it. -/
theorem echoes_line {session : List Part} {callId : String} {line : List Char}
    (h : .output callId line ∈ session) (hlines : strLines line = [line])
    (hline : createdLine line = none) : Echoes parseMoves session line where
  records r hr := ⟨callId, line, h, hr⟩
  alone other hother := by
    rw [hlines, List.mem_singleton] at hother
    exact hother ▸ hline

/-- A claim of a task, and the end of it, which is printed again. -/
theorem end_echoed :
    (TaskFold.replay {} (sessionOps parseMoves [.output "c1" claimLine, .output "c2" doneLine] ++
        taskqOps parseMoves "c3" doneLine)).items =
      (TaskFold.replay {} (sessionOps parseMoves
        [.output "c1" claimLine, .output "c2" doneLine])).items := by
  refine (echo_changes_nothing_iff parseMoves _ "c3" doneLine
    (echoes_line (.tail _ (.head _)) moves_read.2.1 moves_read.2.2.1)).mpr fun id => ?_
  have hsession : sessionOps parseMoves [.output "c1" claimLine, .output "c2" doneLine] =
      [claimed.update, finished.update] := by
    simp [sessionOps, Part.ops, taskqOps_claimLine, taskqOps_doneLine]
  rw [hsession, taskqOps_doneLine]
  have hagain : TaskFold.edits (TaskFold.replay {} [claimed.update, finished.update])
      [finished.update] = [("q5", finished.edit)] := by decide +kernel
  by_cases hid : "q5" = id
  · subst hid
    constructor <;> decide +kernel
  · rw [TaskFold.editsOf, hagain, List.filter_cons_of_neg (by simpa using hid)]
    constructor <;> intro _ h <;> cases h

/-- The task is done, and the claim is printed again: it is in progress once more. -/
theorem echo_reopens :
    Echoes parseMoves [.output "c1" claimLine, .output "c2" doneLine] claimLine ∧
      (TaskFold.replay {} (sessionOps parseMoves [.output "c1" claimLine, .output "c2" doneLine] ++
          taskqOps parseMoves "c3" claimLine)).items ≠
        (TaskFold.replay {} (sessionOps parseMoves
          [.output "c1" claimLine, .output "c2" doneLine])).items := by
  refine ⟨echoes_line (.head _) moves_read.1.1 moves_read.1.2.1, ?_⟩
  have hsession : sessionOps parseMoves [.output "c1" claimLine, .output "c2" doneLine] =
      [claimed.update, finished.update] := by
    simp [sessionOps, Part.ops, taskqOps_claimLine, taskqOps_doneLine]
  rw [hsession, taskqOps_claimLine]
  decide +kernel

end Taskq

end ClaudeReplay
