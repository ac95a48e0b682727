import ClaudeReplay.Gateway.Archive

/-!
# ClaudeReplay.Gateway.Histories

What a notification does to the history of a thread: whether the thread is held, whether it is a
legacy one, up to where its history was read and since when it is dirty, and when its turns
changed.

Of one thread a reduction is `Steady`, whatever the notification is: the read mark stays, the
dirty mark stays or moves to an event yet to come, and records of changed turns are only made
newer. A notification that ends a message or a turn also marks the thread (`Marked`).
-/

namespace ClaudeReplay.Gateway

open Lib

/-- A turn of the thread changed after this read was issued. -/
def State.TurnAfter (s : State) (t : String) (after : Nat) : Prop :=
  ∃ turnId changed, s.turnSequences.find? (t, turnId) = some changed ∧ after < changed

/-- A record stays, or moves to an event yet to come. -/
def Advances (sequence : Nat) (old new : Option Nat) : Prop :=
  new = old ∨ ∃ n, new = some n ∧ sequence < n

/-- What a step leaves of the thread `t`; `started` says that the step may start it. -/
structure Steady (t : String) (started : Prop) (s s' : State) : Prop where
  sequence : s.sequence ≤ s'.sequence
  archived : t ∈ s'.archivedThreads ↔ t ∈ s.archivedThreads
  access : Advances s.sequence (s.accessSequences.find? t) (s'.accessSequences.find? t)
  scope : Advances s.sequence (s.scopeChangeSequences.find? t) (s'.scopeChangeSequences.find? t)
  known : (s'.threads.find? t).isSome → (s.threads.find? t).isSome ∨ started
  legacy : (s.threads.find? t).all isLegacy = true → (s'.threads.find? t).all isLegacy = true
  read : s'.legacyHistoryReadSequences.find? t = s.legacyHistoryReadSequences.find? t
  dirty : Advances s.sequence (s.legacyHistoryDirtySequences.find? t)
    (s'.legacyHistoryDirtySequences.find? t)
  turns : ∀ after ≤ s.sequence, s.TurnAfter t after → s'.TurnAfter t after

/-- The thread is dirty since an event yet to come, which changed a turn of it. -/
structure Marked (t : String) (s s' : State) : Prop where
  dirty : ∃ d, s'.legacyHistoryDirtySequences.find? t = some d ∧ s.sequence < d
  turns : ∀ after ≤ s.sequence, s'.TurnAfter t after

/-- The maps of histories, and those the reads of them are held against. -/
def State.histories (s : State) :=
  (s.archivedThreads, s.accessSequences, s.scopeChangeSequences, s.threads,
    s.legacyHistoryReadSequences, s.legacyHistoryDirtySequences, s.turnSequences)

variable {t : String} {started : Prop} {s s' u : State}

theorem Advances.trans {n m : Nat} {a b c : Option Nat} (h : Advances n a b) (h' : Advances m b c)
    (hle : n ≤ m) : Advances n a c := by
  obtain rfl | ⟨k, hk, hlt⟩ := h'
  · exact h
  · exact .inr ⟨k, hk, Nat.lt_of_le_of_lt hle hlt⟩

namespace Steady

/-- A step that leaves the threads' other maps and makes changed turns newer. -/
theorem of_turns (harchived : s'.archivedThreads = s.archivedThreads)
    (haccess : s'.accessSequences = s.accessSequences)
    (hscope : s'.scopeChangeSequences = s.scopeChangeSequences) (hthreads : s'.threads = s.threads)
    (hread : s'.legacyHistoryReadSequences = s.legacyHistoryReadSequences)
    (hdirty : s'.legacyHistoryDirtySequences = s.legacyHistoryDirtySequences)
    (hsequence : s.sequence ≤ s'.sequence)
    (hturns : ∀ after ≤ s.sequence, s.TurnAfter t after → s'.TurnAfter t after) :
    Steady t started s s' where
  sequence := hsequence
  archived := by rw [harchived]
  access := .inl (by rw [haccess])
  scope := .inl (by rw [hscope])
  known := by
    rw [hthreads]
    exact .inl
  legacy := by
    rw [hthreads]
    exact fun h => h
  read := by rw [hread]
  dirty := .inl (by rw [hdirty])
  turns := hturns

theorem of_histories (h : s'.histories = s.histories) (hsequence : s.sequence ≤ s'.sequence) :
    Steady t started s s' := by
  simp only [State.histories, Prod.mk.injEq] at h
  obtain ⟨harchived, haccess, hscope, hthreads, hread, hdirty, hturns⟩ := h
  refine .of_turns harchived haccess hscope hthreads hread hdirty hsequence fun after _ hafter => ?_
  rw [State.TurnAfter, hturns]
  exact hafter

theorem refl (s : State) : Steady t started s s := .of_histories rfl (Nat.le_refl _)

theorem trans (h : Steady t started s s') (h' : Steady t started s' u) :
    Steady t started s u where
  sequence := Nat.le_trans h.sequence h'.sequence
  archived := h'.archived.trans h.archived
  access := h.access.trans h'.access h.sequence
  scope := h.scope.trans h'.scope h.sequence
  known hknown := by
    obtain hknown | hstarted := h'.known hknown
    · exact h.known hknown
    · exact .inr hstarted
  legacy hlegacy := h'.legacy (h.legacy hlegacy)
  read := h'.read.trans h.read
  dirty := h.dirty.trans h'.dirty h.sequence
  turns after hle hafter := h'.turns after (Nat.le_trans hle h.sequence) (h.turns after hle hafter)

/-- The thread is changed in a way that leaves its history mode. -/
theorem of_update {id : String} {f : Value → Value} (hf : ∀ v, isLegacy v = true → isLegacy (f v) = true)
    (hthreads : s'.threads = s.threads.update id f)
    (harchived : s'.archivedThreads = s.archivedThreads)
    (haccess : s'.accessSequences = s.accessSequences)
    (hscope : s'.scopeChangeSequences = s.scopeChangeSequences)
    (hread : s'.legacyHistoryReadSequences = s.legacyHistoryReadSequences)
    (hdirty : s'.legacyHistoryDirtySequences = s.legacyHistoryDirtySequences)
    (hturns : s'.turnSequences = s.turnSequences) (hsequence : s.sequence ≤ s'.sequence) :
    Steady t started s s' where
  sequence := hsequence
  archived := by rw [harchived]
  access := .inl (by rw [haccess])
  scope := .inl (by rw [hscope])
  known := by
    rw [hthreads, Table.find?_update]
    split
    · next heq =>
      rw [Option.isSome_map, heq]
      exact .inl
    · exact .inl
  legacy := by
    rw [hthreads, Table.find?_update]
    split
    · next heq =>
      rw [heq]
      cases s.threads.find? id with
      | none => exact fun h => h
      | some thread => exact hf thread
    · exact fun h => h
  read := by rw [hread]
  dirty := .inl (by rw [hdirty])
  turns := by
    intro after _ hafter
    rw [State.TurnAfter, hturns]
    exact hafter

end Steady

theorem Marked.steady (h : Marked t s s') (h' : Steady t False s' u)
    (hsequence : s.sequence ≤ s'.sequence) : Marked t s u where
  dirty := by
    obtain ⟨d, hd, hlt⟩ := h.dirty
    obtain hsame | ⟨d', hd', hlt'⟩ := h'.dirty
    · exact ⟨d, hsame.trans hd, hlt⟩
    · exact ⟨d', hd', Nat.lt_of_le_of_lt hsequence hlt'⟩
  turns after hle := h'.turns after (Nat.le_trans hle hsequence) (h.turns after hle)

theorem Marked.of_before (h : Marked t s' u) (hsequence : s.sequence ≤ s'.sequence) :
    Marked t s u where
  dirty := by
    obtain ⟨d, hd, hlt⟩ := h.dirty
    exact ⟨d, hd, Nat.lt_of_le_of_lt hsequence hlt⟩
  turns after hle := h.turns after (Nat.le_trans hle hsequence)

/-! ## the history mode -/

theorem isLegacy_write {k : String} (h : "historyMode" ≠ k) (v x : Value) :
    isLegacy (v.write k x) = isLegacy v := by
  rw [isLegacy, Value.get_write_of_ne h, isLegacy]

theorem isLegacy_mapArr {k : String} (h : "historyMode" ≠ k) (v : Value)
    (f : List Value → List Value) : isLegacy (v.mapArr k f) = isLegacy v := by
  rw [isLegacy, Value.get_mapArr_of_ne h, isLegacy]

theorem isLegacy_projectThread (method : String) (params thread : Value) :
    isLegacy (projectThread method params thread) = isLegacy thread := by
  unfold projectThread changeItem changeItems changeTurn
  split
  · exact isLegacy_write (by decide) _ _
  · split
    · exact isLegacy_mapArr (by decide) _ _
    · split
      · exact isLegacy_mapArr (by decide) _ _
      · split
        · rw [isLegacy_mapArr (by decide)]
          split
          · unfold joinTurn
            split
            · rfl
            · exact isLegacy_mapArr (by decide) _ _
          · rfl
        · rfl

namespace State

/-! ## steps that leave a thread's history alone -/

theorem steady_emit (s : State) (method : String) (params : Value) (requestId : Option Value) :
    Steady t started s (s.emit method params requestId) :=
  .of_histories rfl (Nat.le_succ _)

/-- A changed turn is recorded under an event not before the last. -/
theorem TurnAfter.put {key : String × String} {changed after : Nat}
    (hchanged : ∀ old, s.turnSequences.find? key = some old → old ≤ changed ∨ s.sequence < changed)
    (hturns : s'.turnSequences = s.turnSequences.put key changed) (hle : after ≤ s.sequence)
    (h : s.TurnAfter t after) : s'.TurnAfter t after := by
  obtain ⟨turnId, old, hold, hlt⟩ := h
  by_cases hkey : (t, turnId) = key
  · refine ⟨turnId, changed, by rw [hturns, Table.find?_put, if_pos hkey], ?_⟩
    obtain hnewer | hnewer := hchanged old (hkey ▸ hold)
    · omega
    · omega
  · exact ⟨turnId, old, by rw [hturns, Table.find?_put, if_neg hkey, hold], hlt⟩

theorem steady_retainPlansForHistory (s : State) (threadId : String) (after : Option Nat) :
    Steady t started s (s.retainPlansForHistory threadId after) := by
  unfold retainPlansForHistory
  cases s.pendingPlanUpdates.find? threadId with
  | none => exact .of_histories rfl (Nat.le_refl _)
  | some update =>
    simp only
    split
    · exact .of_histories rfl (Nat.le_refl _)
    · split
      · refine .of_turns rfl rfl rfl rfl rfl rfl (Nat.le_refl _) fun after hle hafter => ?_
        refine hafter.put (fun old hold => .inl ?_) rfl hle
        rw [hold, Option.getD_some]
        exact Nat.le_max_left _ _
      · exact .of_histories rfl (Nat.le_refl _)

theorem steady_noteSettings (s : State) (method : String) (params : Value) :
    Steady t started s (s.noteSettings method params) := by
  unfold noteSettings
  split
  · split
    · exact .of_update (fun v h => (isLegacy_write (k := "cwd") (by decide) v _).trans h) rfl rfl rfl
        rfl rfl rfl rfl (Nat.le_refl _)
    · exact .refl s
  · exact .refl s

theorem steady_noteThread (s : State) (method id : String) :
    Steady t started s (s.noteThread method id) :=
  .of_histories rfl (Nat.le_refl _)

theorem steady_resolveRequest (s : State) (method : String) (params : Value) :
    Steady t started s (s.resolveRequest method params) := by
  unfold resolveRequest
  split
  · exact .of_histories rfl (Nat.le_refl _)
  · exact .refl s

theorem steady_settleToolCall (s : State) (method : String) (params : Value) :
    Steady t started s (s.settleToolCall method params) := by
  unfold settleToolCall
  split
  · exact .of_histories rfl (Nat.le_refl _)
  · exact .refl s

/-- A thread that starts is a legacy one, if it is this one. -/
theorem steady_startThread {method : String} {params : Value}
    (hstarts : method = "thread/started" →
      ((params.get "thread").get "id").asStr = some t → started ∧
        isLegacy (params.get "thread") = true) :
    Steady t started s (s.startThread method params) := by
  unfold startThread
  split
  · next hmethod =>
    cases hid : ((params.get "thread").get "id").asStr with
    | none => exact .refl s
    | some id =>
      by_cases hthread : t = id
      · subst hthread
        obtain ⟨hstarted, hlegacy⟩ := hstarts hmethod hid
        exact
          { sequence := Nat.le_refl _
            archived := .rfl
            access := .inl rfl
            scope := .inl rfl
            known := fun _ => .inr hstarted
            legacy := fun _ => by
              show ((s.threads.put t (params.get "thread")).find? t).all isLegacy = true
              rw [Table.find?_put, if_pos rfl]
              exact hlegacy
            read := rfl
            dirty := .inl rfl
            turns := fun _ _ h => h }
      · have hother : (s.threads.put id (params.get "thread")).find? t = s.threads.find? t := by
          rw [Table.find?_put, if_neg hthread]
        exact
          { sequence := Nat.le_refl _
            archived := .rfl
            access := .inl rfl
            scope := .inl rfl
            known := fun h => .inl (by
              rw [← hother]
              exact h)
            legacy := fun h => by
              show ((s.threads.put id (params.get "thread")).find? t).all isLegacy = true
              rwa [hother]
            read := rfl
            dirty := .inl rfl
            turns := fun _ _ h => h }
  · exact .refl s

theorem steady_project (s : State) (method : String) (params : Value) (id : String) :
    Steady t started s (s.project method params id) :=
  .of_update (fun v h => by rwa [isLegacy_projectThread]) rfl rfl rfl rfl rfl rfl rfl (Nat.le_refl _)

theorem steady_stream (s : State) (method : String) (params : Value) (key : String × String × String)
    (itemType : Option String) : Steady t started s (s.stream method params key itemType) := by
  unfold stream
  split
  · split
    · exact .of_histories rfl (Nat.le_refl _)
    · exact .refl s
  · exact .refl s

theorem steady_noteItem (s : State) (method : String) (key : String × String × String) :
    Steady t started s (s.noteItem method key) :=
  .of_histories rfl (Nat.le_refl _)

theorem steady_storePlan (s : State) (params : Value) (threadId turnId : String) :
    Steady t started s (s.storePlan params threadId turnId) := by
  unfold storePlan
  simp only
  split
  · exact .of_histories rfl (Nat.le_refl _)
  · exact .of_histories rfl (Nat.le_refl _)

theorem steady_storeRequest (s : State) (id : Value) (method : String) (params : Value) :
    Steady t started s (s.storeRequest id method params) :=
  .of_histories rfl (Nat.le_refl _)

/-! ## the marks -/

/-- A record of a thread, moved to the event to come. -/
theorem advances_put (table : Table String Nat) (t threadId : String) (sequence : Nat) :
    Advances sequence (table.find? t) ((table.put threadId (sequence + 1)).find? t) := by
  rw [Table.find?_put]
  split
  · exact .inr ⟨_, rfl, Nat.lt_succ_self _⟩
  · exact .inl rfl

/-- A step that records a changed turn and may move the dirty mark. -/
theorem steady_mark {threadId turnId : String} {f : Value → Value}
    (hf : ∀ v, isLegacy v = true → isLegacy (f v) = true)
    (hthreads : s'.threads = s.threads.update threadId f)
    (harchived : s'.archivedThreads = s.archivedThreads)
    (haccess : s'.accessSequences = s.accessSequences)
    (hscope : s'.scopeChangeSequences = s.scopeChangeSequences)
    (hread : s'.legacyHistoryReadSequences = s.legacyHistoryReadSequences)
    (hdirty : s'.legacyHistoryDirtySequences = s.legacyHistoryDirtySequences ∨
      s'.legacyHistoryDirtySequences =
        s.legacyHistoryDirtySequences.put threadId (s.sequence + 1))
    (hturns : s'.turnSequences = s.turnSequences.put (threadId, turnId) (s.sequence + 1))
    (hsequence : s.sequence ≤ s'.sequence) : Steady t started s s' := by
  let mid : State := { s with threads := s.threads.update threadId f }
  have hmid : Steady t started s mid := .of_update hf rfl rfl rfl rfl rfl rfl rfl (Nat.le_refl _)
  exact
    { sequence := hsequence
      archived := by rw [harchived]
      access := .inl (by rw [haccess])
      scope := .inl (by rw [hscope])
      known := by
        rw [hthreads]
        exact hmid.known
      legacy := by
        rw [hthreads]
        exact hmid.legacy
      read := by rw [hread]
      dirty := by
        obtain hsame | hput := hdirty
        · exact .inl (by rw [hsame])
        · rw [hput]
          exact advances_put _ t threadId _
      turns := fun after hle h => h.put (fun _ _ => .inr (Nat.lt_succ_self _)) hturns hle }

theorem steady_endLegacyTurn (s : State) (method : String) (params : Value)
    (threadId turnId : String) :
    Steady t started s (s.endLegacyTurn method params threadId turnId) := by
  refine Steady.trans ?_ ((steady_retainPlansForHistory _ _ _).trans (steady_emit _ _ _ _))
  refine steady_mark (fun v h => (isLegacy_mapArr (k := "turns") (by decide) v _).trans h) rfl rfl
    rfl rfl rfl ?_ rfl (Nat.le_refl _)
  show (if _ then _ else _) = _ ∨ (if _ then _ else _) = _
  split
  · exact .inl rfl
  · exact .inr rfl

theorem steady_turn (s : State) (threadId turnId : String) : Steady t started s
    { s with turnSequences := s.turnSequences.put (threadId, turnId) (s.sequence + 1) } :=
  .of_turns rfl rfl rfl rfl rfl rfl (Nat.le_refl _) fun _ hle h =>
    h.put (fun _ _ => .inr (Nat.lt_succ_self _)) rfl hle

theorem steady_noteAlias (s : State) (method : String) (params : Value)
    (threadId turnId itemId : String) :
    Steady t started s (s.noteAlias method params threadId turnId itemId) := by
  have hturn := @steady_turn t started s threadId turnId
  unfold noteAlias
  simp only
  split
  · exact
      { sequence := Nat.le_refl _
        archived := .rfl
        access := .inl rfl
        scope := .inl rfl
        known := .inl
        legacy := fun h => h
        read := rfl
        dirty := by
          show Advances _ _ ((if _ then _ else _ : Table String Nat).find? t)
          split
          · exact .inl rfl
          · exact advances_put _ t threadId _
        turns := hturn.turns }
  · split
    · exact hturn
    · exact hturn.trans (steady_stream _ _ _ _ _)

theorem steady_reduceAlias (s : State) (method : String) (params : Value)
    (threadId turnId itemId : String) :
    Steady t started s (s.reduceAlias method params threadId turnId itemId) := by
  unfold reduceAlias
  simp only
  split
  · exact (steady_noteAlias _ _ _ _ _ _).trans (steady_emit _ _ _ _)
  · exact (steady_noteAlias _ _ _ _ _ _).trans (steady_emit _ _ _ _)

theorem steady_reduceLegacyProjection {method : String} {params : Value} {threadId : String}
    (h : s.reduceLegacyProjection method params threadId = some s') : Steady t started s s' := by
  unfold reduceLegacyProjection at h
  simp only at h
  split at h
  · contradiction
  · obtain ⟨turnId, -, h⟩ := Option.bind_eq_some_iff.mp h
    split at h
    · cases h
      exact steady_endLegacyTurn _ _ _ _ _
    · split at h
      · obtain ⟨itemId, -, h⟩ := Option.map_eq_some_iff.mp h
        split at h
        · cases h
          exact .refl s
        · cases h
          exact steady_reduceAlias _ _ _ _ _ _
      · contradiction

theorem steady_noteChange (s : State) (method : String) (params : Value) (threadId turnId : String) :
    Steady t started s (s.noteChange method params threadId turnId) := by
  have hturn := @steady_turn t started s threadId turnId
  unfold noteChange
  split
  · simp only
    split
    · exact hturn.trans (steady_noteItem _ _ _)
    · exact hturn
  · exact .refl s

theorem steady_endTurn (s : State) (method threadId turnId : String) :
    Steady t started s (s.endTurn method threadId turnId) := by
  unfold endTurn
  split
  · exact
      { sequence := Nat.le_refl _
        archived := .rfl
        access := .inl rfl
        scope := .inl rfl
        known := .inl
        legacy := fun h => h
        read := rfl
        dirty := by
          show Advances _ _ ((if _ then _ else _ : Table String Nat).find? t)
          split
          · exact advances_put _ t threadId _
          · exact .inl rfl
        turns := fun _ _ h => h }
  · exact .refl s

theorem steady_noteTurn (s : State) (method : String) (params : Value) (threadId : String) :
    Steady t started s (s.noteTurn method params threadId) := by
  unfold noteTurn
  split
  · exact .refl s
  · simp only
    split
    · exact ((steady_noteChange _ _ _ _ _).trans (steady_endTurn _ _ _ _)).trans
        (steady_retainPlansForHistory _ _ _)
    · exact (steady_noteChange _ _ _ _ _).trans (steady_endTurn _ _ _ _)

/-! ## a notification -/

/-- What comes before the thread itself is changed. -/
def prelude (s : State) (method : String) (params : Value) (id : String) : State :=
  ((((s.noteSettings method params).noteThread method id).resolveRequest method
    params).settleToolCall method params).startThread method params

section

variable {method : String} {params : Value}
  (hstarts : method = "thread/started" → ((params.get "thread").get "id").asStr = some t →
    started ∧ isLegacy (params.get "thread") = true)

include hstarts

theorem steady_prelude (s : State) (id : String) :
    Steady t started s (s.prelude method params id) :=
  (((steady_noteSettings s method params).trans (steady_noteThread _ _ _)).trans
    ((steady_resolveRequest _ _ _).trans (steady_settleToolCall _ _ _))).trans
      (steady_startThread hstarts)

theorem steady_reduceKnown (s : State) (message : Value) (id : String) :
    Steady t started s (s.reduceKnown message method params id) := by
  have hprelude := steady_prelude hstarts s id
  unfold reduceKnown
  simp only
  split
  · next hreduced => exact hprelude.trans (steady_reduceLegacyProjection hreduced)
  · exact hprelude.trans ((steady_project _ _ _ _).trans ((steady_noteTurn _ _ _ _).trans
      (steady_emit _ _ _ _)))

theorem steady_reduceAttached (s : State) (message : Value) (id : String) (scope : DirectoryScope) :
    Steady t started s (s.reduceAttached message method params id scope) ∨
      s.reduceAttached message method params id scope = s.forgetOutsideScope id scope := by
  unfold reduceAttached
  split
  · exact .inr rfl
  · left
    split
    · exact .refl s
    · split
      · exact steady_reduceKnown hstarts s message id
      · split
        · exact .refl s
        · exact (steady_storeRequest _ _ _ _).trans (steady_reduceKnown hstarts _ message id)

end

/-- The notification starts the thread. -/
def starts (message : Value) (t : String) : Bool :=
  isText (message.get "method") "thread/started" &&
    isText (((message.get "params").get "thread").get "id") t

/-- **A notification** changes archive membership first; then it is steady, or closes a thread that
left its scope. -/
theorem steady_reduceScoped (s : State) {message : Value} (scope : DirectoryScope)
    (hstarts : starts message t = true →
      started ∧ isLegacy ((message.get "params").get "thread") = true) :
    Steady t started (s.noteArchive message) (s.reduceScoped message scope) ∨
      ∃ u id, Steady t started (s.noteArchive message) u ∧
        s.reduceScoped message scope = u.forgetOutsideScope id scope := by
  unfold reduceScoped noteArchive
  cases hmethod : (message.get "method").asStr with
  | none => exact .inl (.refl s)
  | some method =>
    have hstarts : method = "thread/started" →
        (((message.get "params").get "thread").get "id").asStr = some t →
          started ∧ isLegacy ((message.get "params").get "thread") = true := by
      rintro rfl hid
      exact hstarts (by simp [starts, isText, hmethod, hid])
    simp only
    cases hid : threadIdOf (message.get "params") with
    | none =>
      simp only
      split
      · exact .inl (.refl s)
      · exact .inl ((steady_resolveRequest s method _).trans (steady_emit _ _ _ _))
    | some id =>
      simp only
      split
      · split
        · exact .inl (steady_emit _ _ _ _)
        · exact .inl (.refl _)
      · split
        · split
          · exact .inl (.refl _)
          · next threadId turnId _ =>
            obtain h | h := steady_reduceAttached hstarts
              ((s.archiveEvent method id).storePlan (message.get "params") threadId turnId)
              message id scope
            · exact .inl ((steady_storePlan _ _ _ _).trans h)
            · exact .inr ⟨_, id, steady_storePlan _ _ _ _, h⟩
        · obtain h | h := steady_reduceAttached hstarts (s.archiveEvent method id) message id scope
          · exact .inl h
          · exact .inr ⟨_, id, .refl _, h⟩

end State

end ClaudeReplay.Gateway
