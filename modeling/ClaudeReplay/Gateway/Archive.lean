import ClaudeReplay.Gateway.Session

/-!
# ClaudeReplay.Gateway.Archive

Archived means no controls. Whether a thread is archived, how many resumes of it are in
flight and which requests wait for an answer are three maps; every step keeps them in
agreement but a change of connection, which forgets the resumes and leaves the requests
(`replaced_leaves_request`). In a run without that an archived thread has no controls, and
only the reply to a resume that was issued after it was archived makes it active again
(`archived_no_controls`).
-/

namespace ClaudeReplay.Gateway

open Lib

variable {s t u : State} {id threadId : String}

/-! ## steps that leave archived threads alone -/

/-- No thread is archived or made active, no resume begins or ends, and no request or stream
of an archived thread appears unless a resume of it is in flight. -/
structure Calm (s t : State) : Prop where
  archived : t.archivedThreads = s.archivedThreads
  resumes : t.resumesInFlight = s.resumesInFlight
  access : t.accessSequences = s.accessSequences
  scope : t.scopeChangeSequences = s.scopeChangeSequences
  sequence : s.sequence ≤ t.sequence
  pending : ∀ key request, t.pending.find? key = some request →
    s.pending.find? key = some request ∨ ∀ threadId, requestOf threadId request = true →
      threadId ∈ s.archivedThreads → (s.resumesInFlight.find? threadId).isSome
  streams : ∀ key, (t.provisionalItems.find? key).isSome →
    (s.provisionalItems.find? key).isSome ∨ key.1 ∉ s.archivedThreads

namespace Calm

theorem refl (s : State) : Calm s s :=
  ⟨rfl, rfl, rfl, rfl, Nat.le_refl _, fun _ _ h => .inl h, fun _ h => .inl h⟩

theorem trans (h : Calm s t) (h' : Calm t u) : Calm s u where
  archived := h'.archived.trans h.archived
  resumes := h'.resumes.trans h.resumes
  access := h'.access.trans h.access
  scope := h'.scope.trans h.scope
  sequence := Nat.le_trans h.sequence h'.sequence
  pending key request hkey := by
    obtain hold | hnew := h'.pending key request hkey
    · exact h.pending key request hold
    · rw [h.archived, h.resumes] at hnew
      exact .inr hnew
  streams key hkey := by
    obtain hold | hnew := h'.streams key hkey
    · exact h.streams key hold
    · rw [h.archived] at hnew
      exact .inr hnew

/-- Requests and streams are only dropped. -/
theorem of_dropped (harchived : t.archivedThreads = s.archivedThreads)
    (hresumes : t.resumesInFlight = s.resumesInFlight)
    (haccess : t.accessSequences = s.accessSequences)
    (hscope : t.scopeChangeSequences = s.scopeChangeSequences)
    (hsequence : s.sequence ≤ t.sequence)
    (hpending : ∀ key request, t.pending.find? key = some request →
      s.pending.find? key = some request)
    (hstreams : ∀ key, (t.provisionalItems.find? key).isSome →
      (s.provisionalItems.find? key).isSome) : Calm s t :=
  ⟨harchived, hresumes, haccess, hscope, hsequence, fun key request h => .inl (hpending key request h),
    fun key h => .inl (hstreams key h)⟩

end Calm

/-- The maps that a step leaves as they are. -/
def State.controls (s : State) :=
  (s.archivedThreads, s.resumesInFlight, s.accessSequences, s.scopeChangeSequences, s.pending,
    s.provisionalItems)

theorem Calm.of_controls (h : t.controls = s.controls) (hsequence : s.sequence ≤ t.sequence) :
    Calm s t := by
  simp only [State.controls, Prod.mk.injEq] at h
  obtain ⟨harchived, hresumes, haccess, hscope, hpending, hstreams⟩ := h
  refine .of_dropped harchived hresumes haccess hscope hsequence ?_ ?_
  · intro key request hkey
    rwa [hpending] at hkey
  · intro key hkey
    rwa [hstreams] at hkey

namespace State

theorem find?_of_retain {κ ν : Type} [DecidableEq κ] {table : Table κ ν} {p : κ → ν → Bool}
    {key : κ} {v : ν} (h : (table.retain p).find? key = some v) : table.find? key = some v := by
  rw [Table.find?_retain] at h
  exact (Option.filter_eq_some_iff.mp h).1

theorem isSome_of_retain {κ ν : Type} [DecidableEq κ] {table : Table κ ν} {p : κ → ν → Bool}
    {key : κ} (h : ((table.retain p).find? key).isSome) : (table.find? key).isSome := by
  obtain ⟨v, hv⟩ := Option.isSome_iff_exists.mp h
  exact Option.isSome_iff_exists.mpr ⟨v, find?_of_retain hv⟩

theorem calm_emit (s : State) (method : String) (params : Value) (requestId : Option Value) :
    Calm s (s.emit method params requestId) :=
  .of_controls rfl (Nat.le_succ _)

theorem controls_retainPlansForHistory (s : State) (threadId : String) (after : Option Nat) :
    (s.retainPlansForHistory threadId after).controls = s.controls ∧
      (s.retainPlansForHistory threadId after).sequence = s.sequence := by
  unfold retainPlansForHistory
  cases s.pendingPlanUpdates.find? threadId with
  | none => exact ⟨rfl, rfl⟩
  | some update =>
    simp only
    split
    · exact ⟨rfl, rfl⟩
    · split
      · exact ⟨rfl, rfl⟩
      · exact ⟨rfl, rfl⟩

theorem calm_retainPlansForHistory (s : State) (threadId : String) (after : Option Nat) :
    Calm s (s.retainPlansForHistory threadId after) :=
  have h := controls_retainPlansForHistory s threadId after
  .of_controls h.1 (Nat.le_of_eq h.2.symm)

theorem calm_noteSettings (s : State) (method : String) (params : Value) :
    Calm s (s.noteSettings method params) := by
  unfold noteSettings
  split
  · split
    · exact .of_controls rfl (Nat.le_refl _)
    · exact .refl s
  · exact .refl s

theorem calm_noteThread (s : State) (method id : String) : Calm s (s.noteThread method id) :=
  .of_controls rfl (Nat.le_refl _)

theorem calm_resolveRequest (s : State) (method : String) (params : Value) :
    Calm s (s.resolveRequest method params) := by
  unfold resolveRequest
  split
  · exact .of_dropped rfl rfl rfl rfl (Nat.le_refl _) (fun _ _ h => find?_of_retain h)
      (fun _ h => h)
  · exact .refl s

theorem calm_settleToolCall (s : State) (method : String) (params : Value) :
    Calm s (s.settleToolCall method params) := by
  unfold settleToolCall
  split
  · exact .of_dropped rfl rfl rfl rfl (Nat.le_refl _) (fun _ _ h => find?_of_retain h)
      (fun _ h => h)
  · exact .refl s

theorem calm_startThread (s : State) (method : String) (params : Value) :
    Calm s (s.startThread method params) := by
  unfold startThread
  split
  · split
    · exact .of_controls rfl (Nat.le_refl _)
    · exact .refl s
  · exact .refl s

theorem calm_endLegacyTurn (s : State) (method : String) (params : Value)
    (threadId turnId : String) : Calm s (s.endLegacyTurn method params threadId turnId) := by
  unfold endLegacyTurn
  refine Calm.trans ?_ ((calm_retainPlansForHistory _ _ _).trans (calm_emit _ _ _ _))
  exact .of_dropped rfl rfl rfl rfl (Nat.le_refl _) (fun _ _ h => h) (fun _ h => isSome_of_retain h)

/-- A stream starts only in a thread that is not archived. -/
theorem calm_stream (s : State) (method : String) (params : Value) (key : String × String × String)
    (itemType : Option String) (h : key.1 ∉ s.archivedThreads) :
    Calm s (s.stream method params key itemType) := by
  unfold stream
  cases itemType with
  | none => exact .refl s
  | some t =>
    simp only
    split
    · refine ⟨rfl, rfl, rfl, rfl, Nat.le_refl _, fun _ _ h => .inl h, ?_⟩
      intro key' hkey'
      rw [Table.find?_put] at hkey'
      split at hkey'
      · next heq => exact .inr (heq ▸ h)
      · exact .inl hkey'
    · exact .refl s

theorem calm_noteAlias (s : State) (method : String) (params : Value)
    (threadId turnId itemId : String) :
    Calm s (s.noteAlias method params threadId turnId itemId) := by
  unfold noteAlias
  refine Calm.trans (.of_controls rfl (Nat.le_refl _) : Calm s { s with
    turnSequences := s.turnSequences.put (threadId, turnId) (s.sequence + 1) }) ?_
  simp only
  split
  · exact .of_dropped rfl rfl rfl rfl (Nat.le_refl _) (fun _ _ h => h)
      (fun _ h => isSome_of_retain h)
  · split
    · exact .refl _
    · next hnot => exact calm_stream _ _ _ _ _ hnot

theorem calm_reduceAlias (s : State) (method : String) (params : Value)
    (threadId turnId itemId : String) :
    Calm s (s.reduceAlias method params threadId turnId itemId) := by
  unfold reduceAlias
  refine (calm_noteAlias s method params threadId turnId itemId).trans ?_
  simp only
  split
  · exact calm_emit _ _ _ _
  · exact calm_emit _ _ _ _

theorem calm_reduceLegacyProjection {method : String} {params : Value}
    (h : s.reduceLegacyProjection method params id = some t) : Calm s t := by
  unfold reduceLegacyProjection at h
  simp only at h
  split at h
  · contradiction
  · obtain ⟨turnId, -, h⟩ := Option.bind_eq_some_iff.mp h
    split at h
    · cases h
      exact calm_endLegacyTurn s method params id turnId
    · split at h
      · obtain ⟨itemId, -, rfl⟩ := Option.map_eq_some_iff.mp h
        split
        · exact .refl s
        · exact calm_reduceAlias s method params id turnId itemId
      · contradiction

theorem calm_noteChange (s : State) (method : String) (params : Value) (threadId turnId : String) :
    Calm s (s.noteChange method params threadId turnId) := by
  unfold noteChange
  split
  · simp only
    split
    · exact .of_controls rfl (Nat.le_refl _)
    · exact .of_controls rfl (Nat.le_refl _)
  · exact .refl s

theorem calm_endTurn (s : State) (method threadId turnId : String) :
    Calm s (s.endTurn method threadId turnId) := by
  unfold endTurn
  split
  · exact .of_dropped rfl rfl rfl rfl (Nat.le_refl _) (fun _ _ h => h)
      (fun _ h => isSome_of_retain h)
  · exact .refl s

theorem calm_noteTurn (s : State) (method : String) (params : Value) (threadId : String) :
    Calm s (s.noteTurn method params threadId) := by
  unfold noteTurn
  split
  · exact .refl s
  · next turnId _ =>
    refine ((calm_noteChange s method params threadId turnId).trans
      (calm_endTurn _ method threadId turnId)).trans ?_
    simp only
    split
    · exact calm_retainPlansForHistory _ _ _
    · exact .refl _

theorem calm_project (s : State) (method : String) (params : Value) (id : String) :
    Calm s (s.project method params id) :=
  .of_controls rfl (Nat.le_refl _)

theorem calm_reduceKnown (s : State) (message : Value) (method : String) (params : Value)
    (id : String) : Calm s (s.reduceKnown message method params id) := by
  unfold reduceKnown
  refine ((((calm_noteSettings s method params).trans (calm_noteThread _ method id)).trans
    (calm_resolveRequest _ method params)).trans (calm_settleToolCall _ method params)).trans
    ((calm_startThread _ method params).trans ?_)
  simp only
  split
  · next hlegacy => exact calm_reduceLegacyProjection hlegacy
  · exact ((calm_project _ method params id).trans (calm_noteTurn _ method params id)).trans
      (calm_emit _ _ _ _)

/-- A request is stored for an archived thread only while a resume of it is in flight. -/
theorem calm_storeRequest {key : Value} {method : String} {params : Value}
    (hid : threadIdOf params = some id)
    (h : id ∈ s.archivedThreads → (s.resumesInFlight.find? id).isSome) :
    Calm s (s.storeRequest key method params) := by
  refine ⟨rfl, rfl, rfl, rfl, Nat.le_refl _, ?_, fun _ h => .inl h⟩
  intro key' request hkey
  unfold storeRequest at hkey
  simp only [Table.find?_put] at hkey
  split at hkey
  · cases hkey
    right
    intro threadId hof harchived
    have hthread : threadIdOf params = some threadId := by
      have htext : isText (params.get "threadId") threadId = true := hof
      rw [threadIdOf, of_decide_eq_true htext]
      rfl
    cases hid.symm.trans hthread
    exact h harchived
  · exact .inl hkey

theorem calm_storePlan (s : State) (params : Value) (threadId turnId : String) :
    Calm s (s.storePlan params threadId turnId) := by
  unfold storePlan
  simp only
  split
  · exact .of_controls rfl (Nat.le_refl _)
  · exact .of_controls rfl (Nat.le_refl _)

theorem calm_reduceAttached {message : Value} {method : String} {params : Value}
    {scope : DirectoryScope} (hid : threadIdOf params = some id) :
    Calm s (s.reduceAttached message method params id scope) ∨
      s.reduceAttached message method params id scope = s.forgetOutsideScope id scope := by
  unfold reduceAttached
  split
  · exact .inr rfl
  · left
    split
    · exact .refl s
    · split
      · exact calm_reduceKnown s message method params id
      · split
        · exact .refl s
        · next hopen =>
          refine (calm_storeRequest hid ?_).trans (calm_reduceKnown _ message method params id)
          intro harchived
          rw [Option.isSome_iff_ne_none]
          intro hnone
          exact hopen ⟨harchived, by rw [hnone]; rfl⟩

/-- The archive membership a notification changes. -/
def noteArchive (s : State) (message : Value) : State :=
  match (message.get "method").asStr, threadIdOf (message.get "params") with
  | some method, some id => s.archiveEvent method id
  | _, _ => s

/-- **A notification** changes archive membership first; then it leaves archived threads alone,
or closes a thread that left its scope. -/
theorem reduceScoped_spec (s : State) (message : Value) (scope : DirectoryScope) :
    Calm (s.noteArchive message) (s.reduceScoped message scope) ∨
      ∃ u id, Calm (s.noteArchive message) u ∧
        s.reduceScoped message scope = u.forgetOutsideScope id scope := by
  unfold reduceScoped noteArchive
  cases (message.get "method").asStr with
  | none => exact .inl (.refl s)
  | some method =>
    simp only
    cases hid : threadIdOf (message.get "params") with
    | none =>
      simp only
      split
      · exact .inl (.refl s)
      · exact .inl ((calm_resolveRequest s method _).trans (calm_emit _ _ _ _))
    | some id =>
      simp only
      split
      · split
        · exact .inl (calm_emit _ _ _ _)
        · exact .inl (.refl _)
      · split
        · split
          · exact .inl (.refl _)
          · next threadId turnId _ =>
            obtain h | h := @calm_reduceAttached
              ((s.archiveEvent method id).storePlan (message.get "params") threadId turnId)
              id message method _ scope hid
            · exact .inl ((calm_storePlan _ _ _ _).trans h)
            · exact .inr ⟨_, id, calm_storePlan _ _ _ _, h⟩
        · obtain h | h := @calm_reduceAttached (s.archiveEvent method id) id message method _
            scope hid
          · exact .inl h
          · exact .inr ⟨_, id, .refl _, h⟩

end State

/-! ## what every step keeps -/

/-- An archived thread has no stream, and no request unless a resume of it is in flight. -/
structure State.Quiet (s : State) : Prop where
  requests : ∀ threadId ∈ s.archivedThreads, s.resumesInFlight.find? threadId = none →
    ∀ key request, s.pending.find? key = some request → requestOf threadId request = false
  streams : ∀ key, (s.provisionalItems.find? key).isSome → key.1 ∉ s.archivedThreads

/-- Every read in flight whose thread was archived meanwhile will be refused. -/
def State.Refuses (s : State) (reads : List Read) : Prop :=
  ∀ r ∈ reads, r.after ≤ s.sequence ∧
    (r.stale = true → s.snapshotInvalidatedAfter r.threadId r.after = true)

theorem State.invalidated_iff (s : State) (threadId : String) (after : Nat) :
    s.snapshotInvalidatedAfter threadId after = true ↔
      (s.scopeChangeSequences.find? threadId).any (after < ·) = true ∨
        (s.accessSequences.find? threadId).any (after < ·) = true := by
  simp [snapshotInvalidatedAfter]

namespace State

/-- Refusals stand as long as their records do. -/
theorem Refuses.of_records {reads : List Read} (hs : s.Refuses reads)
    (haccess : t.accessSequences = s.accessSequences)
    (hscope : t.scopeChangeSequences = s.scopeChangeSequences)
    (hsequence : s.sequence ≤ t.sequence) : t.Refuses reads := by
  intro r hr
  obtain ⟨hafter, hstale⟩ := hs r hr
  refine ⟨Nat.le_trans hafter hsequence, fun hmark => ?_⟩
  have hrefused := hstale hmark
  rw [invalidated_iff] at hrefused ⊢
  rwa [hscope, haccess]

end State

namespace Calm

variable (h : Calm s t)
include h

theorem quiet (hs : s.Quiet) : t.Quiet where
  requests threadId harchived hnone key request hkey := by
    rw [h.archived] at harchived
    rw [h.resumes] at hnone
    obtain hold | hnew := h.pending key request hkey
    · exact hs.requests threadId harchived hnone key request hold
    · rw [← Bool.not_eq_true]
      intro hof
      have := hnew threadId hof harchived
      rw [hnone] at this
      contradiction
  streams key hkey := by
    rw [h.archived]
    obtain hold | hnew := h.streams key hkey
    · exact hs.streams key hold
    · exact hnew

theorem refuses {reads : List Read} (hs : s.Refuses reads) : t.Refuses reads :=
  hs.of_records h.access h.scope h.sequence

end Calm

namespace State

theorem find?_dropPending {key request : Value}
    (h : (s.dropPending threadId).pending.find? key = some request) :
    s.pending.find? key = some request ∧ requestOf threadId request = false := by
  have hkept := Option.filter_eq_some_iff.mp ((Table.find?_retain ..).symm.trans h)
  exact ⟨hkept.1, by simpa using hkept.2⟩

theorem find?_clearProvisionalStreams {key : String × String × String}
    (h : ((s.clearProvisionalStreams threadId).provisionalItems.find? key).isSome) :
    (s.provisionalItems.find? key).isSome ∧ key.1 ≠ threadId := by
  obtain ⟨item, hitem⟩ := Option.isSome_iff_exists.mp h
  have hkept := Option.filter_eq_some_iff.mp ((Table.find?_retain ..).symm.trans hitem)
  exact ⟨Option.isSome_iff_exists.mpr ⟨item, hkept.1⟩, by simpa using hkept.2⟩

/-- A thread joins the archived ones, its requests and streams dropped. -/
theorem Quiet.archive (hs : s.Quiet) (harchived : t.archivedThreads = insert id s.archivedThreads)
    (hresumes : t.resumesInFlight = s.resumesInFlight)
    (hpending : ∀ key request, t.pending.find? key = some request →
      s.pending.find? key = some request ∧ requestOf id request = false)
    (hstreams : ∀ key, (t.provisionalItems.find? key).isSome →
      (s.provisionalItems.find? key).isSome ∧ key.1 ≠ id) : t.Quiet where
  requests threadId hmem hnone key request hkey := by
    obtain ⟨hold, hof⟩ := hpending key request hkey
    rw [harchived, Finset.mem_insert] at hmem
    rw [hresumes] at hnone
    obtain rfl | hmem := hmem
    · exact hof
    · exact hs.requests threadId hmem hnone key request hold
  streams key hkey := by
    obtain ⟨hold, hne⟩ := hstreams key hkey
    rw [harchived, Finset.mem_insert, not_or]
    exact ⟨hne, hs.streams key hold⟩

theorem Quiet.archiveEvent (hs : s.Quiet) (method id : String) : (s.archiveEvent method id).Quiet := by
  unfold State.archiveEvent
  split
  · simp only
    split
    · split
      · refine hs.archive rfl rfl ?_ ?_
        · intro key request hkey
          exact find?_dropPending hkey
        · intro key hkey
          exact find?_clearProvisionalStreams hkey
      · exact ⟨hs.requests, hs.streams⟩
    · exact ⟨hs.requests, hs.streams⟩
  · exact hs

theorem Quiet.forget (hs : s.Quiet) (id : String) (scope : DirectoryScope) :
    (s.forgetOutsideScope id scope).Quiet where
  requests threadId hmem hnone key request hkey := by
    have hmem : threadId ∈ s.archivedThreads.erase id := hmem
    have hnone : (s.resumesInFlight.erase id).find? threadId = none := hnone
    obtain ⟨hne, hmem⟩ := Finset.mem_erase.mp hmem
    rw [Table.find?_erase, if_neg hne] at hnone
    exact hs.requests threadId hmem hnone key request (find?_of_retain hkey)
  streams key hkey := by
    show key.1 ∉ s.archivedThreads.erase id
    intro hmem
    exact hs.streams key (isSome_of_retain hkey) (Finset.mem_of_mem_erase hmem)

theorem archiveEvent_frame (s : State) (method id : String) :
    (s.archiveEvent method id).sequence = s.sequence ∧
      (s.archiveEvent method id).scopeChangeSequences = s.scopeChangeSequences := by
  unfold archiveEvent
  split
  · simp only
    split
    · split
      · exact ⟨rfl, rfl⟩
      · exact ⟨rfl, rfl⟩
    · exact ⟨rfl, rfl⟩
  · exact ⟨rfl, rfl⟩

theorem archiveEvent_access (s : State) (method id threadId : String) :
    (s.archiveEvent method id).accessSequences.find? threadId =
        s.accessSequences.find? threadId ∨
      (s.archiveEvent method id).accessSequences.find? threadId = some (s.sequence + 1) := by
  have hput : (s.accessSequences.put id (s.sequence + 1)).find? threadId =
        s.accessSequences.find? threadId ∨
      (s.accessSequences.put id (s.sequence + 1)).find? threadId = some (s.sequence + 1) := by
    rw [Table.find?_put]
    split
    · exact .inr rfl
    · exact .inl rfl
  unfold archiveEvent
  split
  · simp only
    split
    · split
      · exact hput
      · exact hput
    · exact .inl rfl
  · exact .inl rfl

/-- The archive of a known thread is on record. -/
theorem archiveEvent_known (h : (s.threads.find? id).isSome ∨ id ∈ s.subscribed) :
    (s.archiveEvent "thread/archived" id).accessSequences.find? id = some (s.sequence + 1) := by
  unfold archiveEvent
  simp only [true_or, if_true]
  rw [if_pos h]
  show (s.accessSequences.put id (s.sequence + 1)).find? id = _
  rw [Table.find?_put, if_pos rfl]

theorem Refuses.archiveEvent {reads : List Read} (hs : s.Refuses reads) (method id : String) :
    (s.archiveEvent method id).Refuses reads := by
  intro r hr
  obtain ⟨hafter, hstale⟩ := hs r hr
  obtain ⟨hsequence, hscope⟩ := archiveEvent_frame s method id
  refine ⟨by rw [hsequence]; exact hafter, fun hmark => ?_⟩
  have hrefused := hstale hmark
  rw [invalidated_iff] at hrefused ⊢
  rw [hscope]
  obtain haccess | haccess := archiveEvent_access s method id r.threadId
  · rwa [haccess]
  · right
    rw [haccess]
    simp
    omega

theorem noteArchive_cases (s : State) (message : Value) :
    s.noteArchive message = s ∧ archivedId message = none ∨
      ∃ method id, s.noteArchive message = s.archiveEvent method id ∧
        ∀ threadId, archivedId message = some threadId →
          method = "thread/archived" ∧ threadId = id := by
  unfold noteArchive archivedId isText
  cases hmethod : (message.get "method").asStr with
  | none => simp
  | some method =>
    cases hid : threadIdOf (message.get "params") with
    | none =>
      left
      simp
    | some id =>
      right
      refine ⟨method, id, rfl, fun threadId harchived => ?_⟩
      split at harchived
      · next hmethod => 
        cases harchived
        exact ⟨by simpa using hmethod, rfl⟩
      · contradiction

/-- The reads in flight when a known thread is archived are on record as too old. -/
theorem Refuses.noteArchive {reads : List Read} (hs : s.Refuses reads) {message : Value}
    (hknown : ∀ threadId, archivedId message = some threadId →
      (∃ r ∈ reads, r.threadId = threadId) →
        (s.threads.find? threadId).isSome ∨ threadId ∈ s.subscribed) :
    (s.noteArchive message).Refuses (reads.map (Read.mark (archivedId message))) := by
  obtain ⟨hsame, hnone⟩ | ⟨method, id, hevent, harchived⟩ := noteArchive_cases s message
  · have hmark : Read.mark none = id := by
      funext r
      rfl
    rw [hsame, hnone, hmark, List.map_id]
    exact hs
  · rw [hevent]
    intro r' hr'
    obtain ⟨r, hr, rfl⟩ := List.mem_map.mp hr'
    unfold Read.mark
    split
    · next hthread =>
      obtain ⟨rfl, rfl⟩ := harchived _ hthread
      refine ⟨((hs.archiveEvent _ _) r hr).1, fun _ => ?_⟩
      rw [invalidated_iff]
      right
      rw [archiveEvent_known (hknown _ hthread ⟨r, hr, rfl⟩)]
      have := (hs r hr).1
      simp
      omega
    · exact (hs.archiveEvent method id) r hr

theorem Refuses.forget {reads : List Read} (hs : s.Refuses reads) (id : String)
    (scope : DirectoryScope) : (s.forgetOutsideScope id scope).Refuses reads := by
  intro r hr
  obtain ⟨hafter, hstale⟩ := hs r hr
  refine ⟨Nat.le_succ_of_le hafter, fun hmark => ?_⟩
  have hrefused := hstale hmark
  rw [invalidated_iff] at hrefused ⊢
  show ((s.scopeChangeSequences.put id (s.sequence + 1)).find? r.threadId).any _ = true ∨
    ((s.accessSequences.erase id).find? r.threadId).any _ = true
  rw [Table.find?_put, Table.find?_erase]
  by_cases hid : r.threadId = id
  · left
    simp [hid]
    omega
  · rwa [if_neg hid, if_neg hid]

/-! ## a snapshot -/

/-- A merged snapshot makes its thread active; it drops streams and nothing else. -/
theorem merge_frame (s : State) (id : String) (result : Value) (after : Option Nat) :
    (s.merge id result after).archivedThreads = s.archivedThreads.erase id ∧
      (s.merge id result after).resumesInFlight = s.resumesInFlight ∧
      (s.merge id result after).accessSequences = s.accessSequences ∧
      (s.merge id result after).scopeChangeSequences = s.scopeChangeSequences ∧
      (s.merge id result after).sequence = s.sequence ∧
      (s.merge id result after).pending = s.pending ∧
      ∀ key, ((s.merge id result after).provisionalItems.find? key).isSome →
        (s.provisionalItems.find? key).isSome := by
  have h := controls_retainPlansForHistory (s.storeSnapshot id result after) id after
  simp only [controls, Prod.mk.injEq] at h
  obtain ⟨⟨harchived, hresumes, haccess, hscope, hpending, hstreams⟩, hsequence⟩ := h
  refine ⟨?_, hresumes, haccess, hscope, hsequence, hpending, ?_⟩
  · show (State.retainPlansForHistory _ id after).archivedThreads.erase id = _
    rw [harchived]
    rfl
  · intro key hkey
    have hkey : (((s.storeSnapshot id result after).retainPlansForHistory id
      after).provisionalItems.find? key).isSome := hkey
    rw [hstreams] at hkey
    exact isSome_of_retain hkey

theorem Quiet.merge (hs : s.Quiet) (id : String) (result : Value) (after : Option Nat) :
    (s.merge id result after).Quiet := by
  obtain ⟨harchived, hresumes, -, -, -, hpending, hstreams⟩ := merge_frame s id result after
  constructor
  · intro threadId hmem hnone key request hkey
    rw [harchived] at hmem
    rw [hresumes] at hnone
    rw [hpending] at hkey
    exact hs.requests threadId (Finset.mem_of_mem_erase hmem) hnone key request hkey
  · intro key hkey
    rw [harchived]
    intro hmem
    exact hs.streams key (hstreams key hkey) (Finset.mem_of_mem_erase hmem)

theorem Refuses.merge {reads : List Read} (hs : s.Refuses reads) (id : String) (result : Value)
    (after : Option Nat) : (s.merge id result after).Refuses reads := by
  obtain ⟨-, -, haccess, hscope, hsequence, -, -⟩ := merge_frame s id result after
  exact hs.of_records haccess hscope (Nat.le_of_eq hsequence.symm)

/-- A reply is refused, closes its thread, or makes it active. -/
theorem rememberScoped_cases {result : Value} {after : Nat} {scope : DirectoryScope}
    (hid : isText ((result.get "thread").get "id") id = true) :
    s.rememberScoped result (some after) scope = s ∨
      s.snapshotInvalidatedAfter id after = false ∧
        (s.rememberScoped result (some after) scope = s.forgetOutsideScope id scope ∨
          s.rememberScoped result (some after) scope = s.merge id result (some after)) := by
  have hid : ((result.get "thread").get "id").asStr = some id := by simpa [isText] using hid
  unfold rememberScoped
  rw [hid]
  simp only [Option.any_some]
  split
  · exact .inl rfl
  · next hvalid =>
    refine .inr ⟨by simpa using hvalid, ?_⟩
    split
    · exact .inl rfl
    · exact .inr rfl

/-- The archived thread is stored; what is left is its plans. -/
def storeArchived (s : State) (id : String) (thread : Value) : State :=
  ({ s with
    threads := s.threads.put id thread
    settings := s.settings.erase id
    archivedThreads := insert id s.archivedThreads
    liveItems := s.liveItems.retain fun k _ => k.1 ≠ id }.dropPending id).clearProvisionalStreams id

/-- Archived history is stored as a whole. -/
theorem rememberArchived_frame {thread : Value} {epoch after : Nat} {scope : DirectoryScope}
    (h : s.rememberArchivedScoped thread epoch after scope = some t) :
    ∃ id, t.archivedThreads = insert id s.archivedThreads ∧
      t.resumesInFlight = s.resumesInFlight ∧ t.accessSequences = s.accessSequences ∧
      t.scopeChangeSequences = s.scopeChangeSequences ∧ t.sequence = s.sequence ∧
      (∀ key request, t.pending.find? key = some request →
        s.pending.find? key = some request ∧ requestOf id request = false) ∧
      ∀ key, (t.provisionalItems.find? key).isSome →
        (s.provisionalItems.find? key).isSome ∧ key.1 ≠ id := by
  unfold rememberArchivedScoped at h
  obtain ⟨id, -, h⟩ := Option.bind_eq_some_iff.mp h
  split at h
  · contradiction
  · cases h
    have hkept := controls_retainPlansForHistory (s.storeArchived id thread) id (some after)
    simp only [controls, Prod.mk.injEq] at hkept
    obtain ⟨⟨harchived, hresumes, haccess, hscope, hpending, hstreams⟩, hsequence⟩ := hkept
    refine ⟨id, harchived, hresumes, haccess, hscope, hsequence, ?_, ?_⟩
    · intro key request hkey
      replace hkey := (congrArg (·.find? key) hpending).symm.trans hkey
      exact find?_dropPending hkey
    · intro key hkey
      replace hkey := (congrArg (·.find? key |>.isSome) hstreams).symm.trans hkey
      exact find?_clearProvisionalStreams hkey

/-! ## resumes and connections -/

theorem Quiet.dropPending (hs : s.Quiet) (id : String) : (s.dropPending id).Quiet where
  requests threadId hmem hnone key request hkey :=
    hs.requests threadId hmem hnone key request (find?_dropPending hkey).1
  streams := hs.streams

theorem Quiet.beginResume (hs : s.Quiet) (id : String) : (s.beginResume id).Quiet := by
  have hput (s : State) (hs : s.Quiet) : ({ s with
      resumesInFlight := s.resumesInFlight.put id
        ((s.resumesInFlight.find? id).getD 0 + 1) } : State).Quiet := by
    refine ⟨?_, hs.streams⟩
    intro threadId hmem hnone key request hkey
    simp only [Table.find?_put] at hnone
    split at hnone
    · contradiction
    · exact hs.requests threadId hmem hnone key request hkey
  unfold State.beginResume
  simp only
  split
  · exact hput _ (hs.dropPending id)
  · exact hput _ hs

/-- When the last resume of an archived thread ends without making it active, its requests
are dropped. -/
theorem Quiet.finishResume (hs : s.Quiet) (id : String) : (s.finishResume id).Quiet := by
  have hend (counts : Table String Nat)
      (hcounts : ∀ j, j ≠ id → counts.find? j = s.resumesInFlight.find? j) :
      State.Quiet (if id ∈ s.archivedThreads ∧ (counts.find? id).isNone then
        ({ s with resumesInFlight := counts }).dropPending id
      else { s with resumesInFlight := counts }) := by
    split
    · refine ⟨?_, hs.streams⟩
      intro threadId hmem hnone key request hkey
      obtain ⟨hold, hof⟩ := find?_dropPending hkey
      by_cases heq : threadId = id
      · exact heq ▸ hof
      · exact hs.requests threadId hmem (hcounts threadId heq ▸ hnone) key request hold
    · next hopen =>
      refine ⟨?_, hs.streams⟩
      intro threadId hmem hnone key request hkey
      by_cases heq : threadId = id
      · subst heq
        refine absurd ⟨hmem, ?_⟩ hopen
        have hnone : counts.find? threadId = none := hnone
        rw [hnone]
        rfl
      · exact hs.requests threadId hmem (hcounts threadId heq ▸ hnone) key request hkey
  unfold State.finishResume
  cases hcount : s.resumesInFlight.find? id with
  | none =>
    simp only
    exact hend s.resumesInFlight fun _ _ => rfl
  | some count =>
    simp only
    refine hend _ fun j hj => ?_
    split
    · rw [Table.find?_erase, if_neg hj]
    · rw [Table.find?_put, if_neg hj]

/-- No request waits for a thread that is archived while a resume of it is in flight. -/
def NoneHeld (s : State) : Prop :=
  ∀ threadId ∈ s.archivedThreads, (s.resumesInFlight.find? threadId).isSome →
    ∀ key request, s.pending.find? key = some request → requestOf threadId request = false

theorem Quiet.connect (hs : s.Quiet) {c : Connection} (h : s.replaces c = true → s.NoneHeld) :
    (s.connect c).Quiet := by
  have hbody : State.Quiet (if s.replaces c then ({ s with connection := c }).dropTransient
      else { s with connection := c }) := by
    split
    · next hreplaces =>
      refine ⟨?_, fun key hkey => ?_⟩
      · intro threadId hmem _ key request hkey
        cases hresume : s.resumesInFlight.find? threadId with
        | none => exact hs.requests threadId hmem hresume key request hkey
        | some count =>
          exact h hreplaces threadId hmem (by rw [hresume]; rfl) key request hkey
      · have hkey : ((Table.empty : Table _ ProvisionalItem).find? key).isSome := hkey
        rw [Table.find?_empty] at hkey
        contradiction
    · exact ⟨hs.requests, hs.streams⟩
  unfold State.connect
  simp only
  split
  · exact ⟨hbody.requests, hbody.streams⟩
  · exact ⟨hbody.requests, hbody.streams⟩

theorem connect_frame (s : State) (c : Connection) :
    (s.connect c).sequence = s.sequence + 1 ∧
      (s.connect c).archivedThreads = s.archivedThreads ∧
      (s.connect c).accessSequences = s.accessSequences ∧
      (s.connect c).scopeChangeSequences = s.scopeChangeSequences := by
  unfold State.connect
  cases s.replaces c <;> cases c <;> exact ⟨rfl, rfl, rfl, rfl⟩

theorem beginResume_frame (s : State) (id : String) :
    (s.beginResume id).sequence = s.sequence ∧
      (s.beginResume id).archivedThreads = s.archivedThreads ∧
      (s.beginResume id).accessSequences = s.accessSequences ∧
      (s.beginResume id).scopeChangeSequences = s.scopeChangeSequences := by
  unfold beginResume
  simp only
  split
  · exact ⟨rfl, rfl, rfl, rfl⟩
  · exact ⟨rfl, rfl, rfl, rfl⟩

theorem finishResume_frame (s : State) (id : String) :
    (s.finishResume id).sequence = s.sequence ∧
      (s.finishResume id).archivedThreads = s.archivedThreads ∧
      (s.finishResume id).accessSequences = s.accessSequences ∧
      (s.finishResume id).scopeChangeSequences = s.scopeChangeSequences := by
  unfold finishResume
  cases s.resumesInFlight.find? id with
  | none =>
    simp only
    split
    · exact ⟨rfl, rfl, rfl, rfl⟩
    · exact ⟨rfl, rfl, rfl, rfl⟩
  | some count =>
    simp only
    generalize (if count - 1 = 0 then s.resumesInFlight.erase id
      else s.resumesInFlight.put id (count - 1)) = counts
    split
    · exact ⟨rfl, rfl, rfl, rfl⟩
    · exact ⟨rfl, rfl, rfl, rfl⟩

theorem Quiet.dropped (hs : s.Quiet) (harchived : t.archivedThreads = s.archivedThreads)
    (hresumes : t.resumesInFlight = s.resumesInFlight)
    (hpending : ∀ key request, t.pending.find? key = some request →
      s.pending.find? key = some request)
    (hstreams : ∀ key, (t.provisionalItems.find? key).isSome →
      (s.provisionalItems.find? key).isSome) : t.Quiet where
  requests threadId hmem hnone key request hkey :=
    hs.requests threadId (harchived ▸ hmem) (hresumes ▸ hnone) key request (hpending key request hkey)
  streams key hkey := harchived ▸ hs.streams key (hstreams key hkey)

end State

/-! ## every run -/

namespace Session

variable {g g' : Session} {e : Event}

/-- What an event must find: a change of connection that forgets resumes finds no request held
for an archived thread, and a thread that is archived while a read of it is in flight is one
the gateway knows. -/
def Clear (g : Session) : Event → Prop
  | .connect connection => g.state.replaces connection = true → g.state.NoneHeld
  | .reconnect _ => g.state.NoneHeld
  | .notify message _ => ∀ threadId, archivedId message = some threadId →
      (∃ r ∈ g.reads, r.threadId = threadId) →
        (g.state.threads.find? threadId).isSome ∨ threadId ∈ g.state.subscribed
  | _ => True

/-- The thread has no controls: no request, no stream, and none of its settings or its queue
are shown. -/
structure NoControls (s : State) (threadId : String) : Prop where
  requests : ∀ key request, s.pending.find? key = some request → requestOf threadId request = false
  streams : ∀ key, (s.provisionalItems.find? key).isSome → key.1 ≠ threadId
  shown : ∀ queue, (s.snapshot threadId queue).get "pending" = .arr [] ∧
    (s.snapshot threadId queue).get "provisionalItems" = .arr [] ∧
    (s.snapshot threadId queue).get "settings" = .obj [] ∧
    (s.snapshot threadId queue).get "queue" = .arr []

/-- An archived thread is made active by nothing but the reply to a read that was issued after
it was archived; a thread that left its scope is forgotten. -/
def Reopens (g : Session) (e : Event) (g' : Session) (threadId : String) : Prop :=
  threadId ∈ g.state.archivedThreads → threadId ∉ g'.state.archivedThreads →
    (∃ read result scope, e = .reply read result scope ∧ read.threadId = threadId ∧
      read.stale = false) ∨
    (g'.state.threads.find? threadId = none ∧ threadId ∉ g'.state.subscribed)

/-- What a run keeps. -/
structure Sound (g : Session) : Prop where
  quiet : g.state.Quiet
  refuses : g.state.Refuses g.reads

theorem forget_forgets (s : State) (id : String) (scope : DirectoryScope) {threadId : String}
    (h : threadId ∈ s.archivedThreads)
    (h' : threadId ∉ (s.forgetOutsideScope id scope).archivedThreads) :
    (s.forgetOutsideScope id scope).threads.find? threadId = none ∧
      threadId ∉ (s.forgetOutsideScope id scope).subscribed := by
  have h' : threadId ∉ s.archivedThreads.erase id := h'
  rw [Finset.mem_erase, not_and_or, not_not] at h'
  obtain rfl | h' := h'
  · constructor
    · show (s.threads.erase threadId).find? threadId = none
      rw [Table.find?_erase, if_pos rfl]
    · show threadId ∉ s.subscribed.erase threadId
      exact Finset.notMem_erase _ _
  · exact absurd h h'

theorem step_reply (hs : g.Sound) {read : Read} {result : Value} {scope : DirectoryScope}
    (hstep : g.step (.reply read result scope) = some g') :
    g'.Sound ∧ ∀ threadId, Reopens g (.reply read result scope) g' threadId := by
  simp only [step] at hstep
  split at hstep
  · next hguard =>
    cases hstep
    obtain ⟨hread, hname⟩ := hguard
    have hless {s : State} (h : s.Refuses g.reads) : s.Refuses (g.reads.erase read) :=
      fun r hr => h r (List.mem_of_mem_erase hr)
    obtain h | ⟨hvalid, h | h⟩ := @State.rememberScoped_cases _ _ result _ scope hname
    · rw [h]
      exact ⟨⟨hs.quiet, hless hs.refuses⟩, fun _ hmem hnot => absurd hmem hnot⟩
    · rw [h]
      refine ⟨⟨hs.quiet.forget _ _, hless (hs.refuses.forget _ _)⟩, ?_⟩
      intro threadId hmem hnot
      exact .inr (forget_forgets _ _ _ hmem hnot)
    · rw [h]
      refine ⟨⟨hs.quiet.merge _ _ _, hless (hs.refuses.merge _ _ _)⟩, ?_⟩
      intro threadId hmem hnot
      have hnot : threadId ∉ (g.state.merge read.threadId result (some read.after)).archivedThreads :=
        hnot
      rw [(State.merge_frame ..).1, Finset.mem_erase, not_and_or, not_not] at hnot
      obtain rfl | hnot := hnot
      · refine .inl ⟨read, result, scope, rfl, rfl, ?_⟩
        rw [← Bool.not_eq_true]
        intro hmark
        have := ((hs.refuses read hread).2 hmark).symm.trans hvalid
        contradiction
      · exact absurd hmem hnot
  · contradiction

theorem step_notify (hs : g.Sound) {message : Value} {scope : DirectoryScope}
    (hclear : g.Clear (.notify message scope))
    (hstep : g.step (.notify message scope) = some g') :
    g'.Sound ∧ ∀ threadId, Reopens g (.notify message scope) g' threadId := by
  cases hstep
  have hrefuses := hs.refuses.noteArchive hclear
  have hquiet : (g.state.noteArchive message).Quiet := by
    unfold State.noteArchive
    split
    · exact hs.quiet.archiveEvent _ _
    · exact hs.quiet
  have hkeeps : g.state.archivedThreads ⊆ (g.state.noteArchive message).archivedThreads := by
    unfold State.noteArchive State.archiveEvent
    split
    · split
      · simp only
        split
        · split
          · exact Finset.subset_insert _ _
          · exact Finset.Subset.refl _
        · exact Finset.Subset.refl _
      · exact Finset.Subset.refl _
    · exact Finset.Subset.refl _
  obtain hcalm | ⟨u, id, hcalm, hforget⟩ := g.state.reduceScoped_spec message scope
  · refine ⟨⟨hcalm.quiet hquiet, hcalm.refuses hrefuses⟩, ?_⟩
    intro threadId hmem hnot
    exact absurd (hcalm.archived ▸ hkeeps hmem) hnot
  · simp only [hforget]
    refine ⟨⟨(hcalm.quiet hquiet).forget id scope, (hcalm.refuses hrefuses).forget id scope⟩, ?_⟩
    intro threadId hmem hnot
    exact .inr (forget_forgets u id scope (hcalm.archived ▸ hkeeps hmem) hnot)

/-- **One step.** -/
theorem step_sound (hs : g.Sound) (hclear : g.Clear e) (hstep : g.step e = some g') :
    g'.Sound ∧ ∀ threadId, Reopens g e g' threadId := by
  -- the archived threads of all other events are still archived after them
  have hkept (hquiet : g'.state.Quiet) (hreads : g'.reads = g.reads)
      (harchived : g.state.archivedThreads ⊆ g'.state.archivedThreads)
      (haccess : g'.state.accessSequences = g.state.accessSequences)
      (hscope : g'.state.scopeChangeSequences = g.state.scopeChangeSequences)
      (hsequence : g.state.sequence ≤ g'.state.sequence) :
      g'.Sound ∧ ∀ threadId, Reopens g e g' threadId :=
    ⟨⟨hquiet, hreads ▸ hs.refuses.of_records haccess hscope hsequence⟩,
      fun _ hmem hnot => absurd (harchived hmem) hnot⟩
  cases e with
  | notify message scope => exact step_notify hs hclear hstep
  | reply read result scope => exact step_reply hs hstep
  | issue threadId =>
    cases hstep
    refine ⟨⟨hs.quiet, ?_⟩, fun _ hmem hnot => absurd hmem hnot⟩
    intro r hr
    obtain hr | hr := List.mem_append.mp hr
    · exact hs.refuses r hr
    · obtain rfl := List.mem_singleton.mp hr
      exact ⟨Nat.le_refl _, fun hmark => nomatch hmark⟩
  | lose read =>
    cases hstep
    exact ⟨⟨hs.quiet, fun r hr => hs.refuses r (List.mem_of_mem_erase hr)⟩,
      fun _ hmem hnot => absurd hmem hnot⟩
  | archived thread epoch after scope =>
    cases hstep
    cases hstored : g.state.rememberArchivedScoped thread epoch after scope with
    | none => exact ⟨hs, fun _ hmem hnot => absurd hmem hnot⟩
    | some t =>
      obtain ⟨id, harchived, hresumes, haccess, hscope, hsequence, hpending, hstreams⟩ :=
        State.rememberArchived_frame hstored
      refine ⟨⟨hs.quiet.archive harchived hresumes hpending hstreams,
        hs.refuses.of_records haccess hscope (Nat.le_of_eq hsequence.symm)⟩, ?_⟩
      intro threadId hmem hnot
      have hstill : threadId ∈ t.archivedThreads := harchived ▸ Finset.mem_insert_of_mem hmem
      exact absurd hstill hnot
  | begin threadId =>
    cases hstep
    obtain ⟨hsequence, harchived, haccess, hscope⟩ := g.state.beginResume_frame threadId
    exact hkept (hs.quiet.beginResume threadId) rfl (Finset.subset_of_eq harchived.symm) haccess
      hscope (Nat.le_of_eq hsequence.symm)
  | finish threadId =>
    cases hstep
    obtain ⟨hsequence, harchived, haccess, hscope⟩ := g.state.finishResume_frame threadId
    exact hkept (hs.quiet.finishResume threadId) rfl (Finset.subset_of_eq harchived.symm) haccess
      hscope (Nat.le_of_eq hsequence.symm)
  | connect connection =>
    cases hstep
    obtain ⟨hsequence, harchived, haccess, hscope⟩ := g.state.connect_frame connection
    exact hkept (hs.quiet.connect hclear) rfl (Finset.subset_of_eq harchived.symm) haccess hscope
      (hsequence ▸ Nat.le_succ _)
  | reconnect cause =>
    cases hstep
    have hquiet : ({ g.state with connectionError := some cause } : State).Quiet :=
      ⟨hs.quiet.requests, hs.quiet.streams⟩
    obtain ⟨hsequence, harchived, haccess, hscope⟩ :=
      ({ g.state with connectionError := some cause } : State).connect_frame .reconnecting
    exact hkept (hquiet.connect fun _ => hclear) rfl (Finset.subset_of_eq harchived.symm) haccess
      hscope (hsequence ▸ Nat.le_succ _)
  | reserve threadId =>
    cases hstep
    exact hkept ⟨hs.quiet.requests, hs.quiet.streams⟩ rfl (Finset.Subset.refl _) rfl rfl
      (Nat.le_refl _)
  | release threadId =>
    cases hstep
    exact hkept (hs.quiet.dropped rfl rfl (fun _ _ h => State.find?_of_retain h)
      fun _ h => State.isSome_of_retain h) rfl (Finset.Subset.refl _) rfl rfl (Nat.le_refl _)
  | clearRequests =>
    cases hstep
    exact hkept (hs.quiet.dropped rfl rfl (fun _ _ h => nomatch h) fun _ h => h) rfl
      (Finset.Subset.refl _) rfl rfl (Nat.le_refl _)
  | recoverArchived threadId =>
    cases hstep
    exact hkept (hs.quiet.archive rfl rfl (fun _ _ h => State.find?_dropPending h)
      fun _ h => State.find?_clearProvisionalStreams h) rfl (Finset.subset_insert _ _) rfl rfl
      (Nat.le_succ _)
  | recoverFailed threadId message =>
    cases hstep
    exact hkept (hs.quiet.dropped rfl rfl (fun _ _ h => h) fun _ h => State.isSome_of_retain h) rfl
      (Finset.Subset.refl _) rfl rfl (Nat.le_succ _)
  | deactivate =>
    cases hstep
    exact hkept (hs.quiet.dropped rfl rfl (fun _ _ h => nomatch h) fun _ h => h) rfl
      (Finset.Subset.refl _) rfl rfl (Nat.le_succ _)

/-! ## a run that is not clear -/

/-- The runtime archives thread `t`. -/
def archiveNotice : Value :=
  .obj [("method", .str "thread/archived"), ("params", .obj [("threadId", .str "t")])]

/-- The runtime asks the person at thread `t`. -/
def question : Value :=
  .obj [("id", .num 7), ("method", .str "item/tool/requestUserInput"),
    ("params", .obj [("threadId", .str "t")])]

/-- The reply to a resume of thread `t`. -/
def resumed : Value := .obj [("thread", .obj [("id", .str "t"), ("turns", .arr [])])]

/-- A question replayed by a resume that the connection does not outlive. -/
def lostReplay : List Event :=
  [.reserve "t", .notify archiveNotice .unrestricted, .begin "t", .notify question .unrestricted,
    .reconnect "socket closed"]

/-- A change of connection leaves a request of an archived thread no resume of which is in flight. -/
theorem replaced_leaves_request :
    ∃ g, Run (fun g e g' => g.step e = some g') (start [] "n") lostReplay g ∧
      "t" ∈ g.state.archivedThreads ∧ g.state.resumesInFlight.find? "t" = none ∧
      ¬NoControls g.state "t" := by
  have hrun : ((lostReplay.foldlM step (start [] "n")).any fun g =>
      decide ("t" ∈ g.state.archivedThreads) && decide (g.state.resumesInFlight.find? "t" = none) &&
        (g.state.pending.find? (.num 7)).any (requestOf "t")) = true := by decide +kernel
  obtain ⟨g, hg, hend⟩ := (Option.any_eq_true _ _).mp hrun
  simp only [Bool.and_eq_true, decide_eq_true_eq] at hend
  refine ⟨g, .of_foldlM hg, hend.1.1, hend.1.2, fun hno => ?_⟩
  obtain ⟨request, hrequest, hof⟩ := (Option.any_eq_true _ _).mp hend.2
  have := hno.requests _ request hrequest
  rw [hof] at this
  contradiction

theorem noneHeld_of_none {s : State} (h : s.resumesInFlight.rows = []) : s.NoneHeld := by
  intro threadId _ hresume
  rw [Table.find?, h] at hresume
  contradiction

/-! ## orderly runs -/

theorem start_sound (roots : List String) (requestNamespace : String) :
    (start roots requestNamespace).Sound :=
  ⟨⟨fun _ _ _ _ _ h => (nomatch h), fun _ h => (nomatch h)⟩, fun _ h => (nomatch h)⟩

/-- A step whose event is clear. -/
def Orderly (g : Session) (e : Event) (g' : Session) : Prop := g.Clear e ∧ g.step e = some g'

/-- What is not there is not shown. -/
theorem noControls_of_quiet {s : State} (hs : s.Quiet) {threadId : String}
    (h : threadId ∈ s.archivedThreads) (hnone : s.resumesInFlight.find? threadId = none) :
    NoControls s threadId where
  requests := hs.requests threadId h hnone
  streams key hkey heq := hs.streams key hkey (heq ▸ h)
  shown queue := by
    have hpending : s.pendingShown threadId = [] := if_pos h
    have hstreams : s.provisionalShown threadId = [] := if_pos h
    simp only [State.snapshot, hpending, hstreams, decide_eq_true h, if_true, List.map_nil]
    exact ⟨rfl, rfl, rfl, rfl⟩

/-- **Archived means no controls.** In every state of an orderly run an archived thread with no
resume in flight has no request, no stream, and neither settings nor queue in its snapshot; and
no step makes it active but the reply to a read that was issued after it was archived. -/
theorem archived_no_controls {roots : List String} {requestNamespace : String} {es : List Event}
    (h : Run Orderly (start roots requestNamespace) es g) :
    (∀ threadId ∈ g.state.archivedThreads, g.state.resumesInFlight.find? threadId = none →
      NoControls g.state threadId) ∧
    ∀ e g', Orderly g e g' → ∀ threadId, Reopens g e g' threadId := by
  have hs : g.Sound := h.kept (Q := fun _ => True)
    (fun _ _ _ _ hstep hs => (step_sound hs hstep.1 hstep.2).1) (by simp)
    (start_sound roots requestNamespace)
  constructor
  · intro threadId hmem hnone
    exact noControls_of_quiet hs.quiet hmem hnone
  · intro e g' hstep
    exact (step_sound hs hstep.1 hstep.2).2

/-- A resume of an archived thread whose replayed question is kept until the resume ends. -/
theorem archived_no_controls_replayed :
    ∃ g, Run Orderly (start [] "n") [.reserve "t", .notify archiveNotice .unrestricted, .begin "t",
        .notify question .unrestricted, .finish "t", .reconnect "socket closed"] g ∧
      (∀ threadId ∈ g.state.archivedThreads, g.state.resumesInFlight.find? threadId = none →
        NoControls g.state threadId) ∧
      ∀ e g', Orderly g e g' → ∀ threadId, Reopens g e g' threadId := by
  have hclear : ∀ message scope (s : State), Clear { state := s } (.notify message scope) := by
    intro message scope s threadId _ hreads
    obtain ⟨r, hr, -⟩ := hreads
    contradiction
  have hrun : Run Orderly (start [] "n") [.reserve "t", .notify archiveNotice .unrestricted,
      .begin "t", .notify question .unrestricted, .finish "t", .reconnect "socket closed"] _ :=
    .cons ⟨trivial, rfl⟩ <| .cons ⟨hclear _ _ _, rfl⟩ <| .cons ⟨trivial, rfl⟩ <|
      .cons ⟨hclear _ _ _, rfl⟩ <| .cons ⟨trivial, rfl⟩ <|
        .cons ⟨noneHeld_of_none (by decide +kernel), rfl⟩ <| .nil _
  exact ⟨_, hrun, archived_no_controls hrun⟩
end Session

end ClaudeReplay.Gateway
