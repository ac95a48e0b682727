import ClaudeReplay.Gateway.Histories

/-!
# ClaudeReplay.Gateway.Marks

What marks a legacy thread as dirty, and what takes its marks away.

When a message or a turn of it ends, its history is to be read again (`Finishes.marked`). The
reply to a read moves its read mark and leaves the dirty mark (`takes_merge`). Where a thread
leaves its scope, is archived or archived history of it is stored, both marks are dropped
(`Drops`), and what was read before is refused.
-/

namespace ClaudeReplay.Gateway

open Lib

/-! ## messages and turns that end -/

/-- The notification ends a message or a turn of an active thread. -/
def State.Finishes (s : State) (message : Value) (t : String) : Prop :=
  let params := message.get "params"
  threadIdOf params = some t ∧ t ∈ s.subscribed ∧ t ∉ s.archivedThreads ∧
    (∃ turnId, turnIdOf params = some turnId ∧ turnId ≠ "") ∧
    ((message.get "method").asStr = some "turn/completed" ∨
      (message.get "method").asStr = some "item/completed" ∧
        legacyAliasType ((params.get "item").get "type").asStr = true ∧
        ∃ itemId, itemIdOf params = some itemId ∧ itemId ≠ "")

variable {t : String} {s s' : State}

namespace State

/-- A changed turn under the event to come. -/
theorem turnAfter_put {turnId : String}
    (h : s'.turnSequences = s.turnSequences.put (t, turnId) (s.sequence + 1)) {after : Nat}
    (hle : after ≤ s.sequence) : s'.TurnAfter t after :=
  ⟨turnId, s.sequence + 1, by rw [h, Table.find?_put, if_pos rfl], by omega⟩

theorem marked_of_put {turnId : String}
    (hdirty : s'.legacyHistoryDirtySequences =
      s.legacyHistoryDirtySequences.put t (s.sequence + 1))
    (hturns : s'.turnSequences = s.turnSequences.put (t, turnId) (s.sequence + 1)) :
    Marked t s s' where
  dirty := ⟨s.sequence + 1, by rw [hdirty, Table.find?_put, if_pos rfl], Nat.lt_succ_self _⟩
  turns _ hle := turnAfter_put hturns hle

theorem marked_endLegacyTurn (h : t ∉ s.archivedThreads) (method : String) (params : Value)
    (turnId : String) : Marked t s (s.endLegacyTurn method params t turnId) := by
  unfold endLegacyTurn
  refine Marked.steady (@marked_of_put _ s _ turnId ?_ rfl)
    ((steady_retainPlansForHistory _ _ _).trans (steady_emit _ _ _ _)) (Nat.le_refl _)
  exact if_neg h

theorem marked_reduceAlias (h : t ∉ s.archivedThreads) (params : Value) (turnId itemId : String) :
    Marked t s (s.reduceAlias "item/completed" params t turnId itemId) := by
  have halias : Marked t s (s.noteAlias "item/completed" params t turnId itemId) := by
    refine @marked_of_put _ s _ turnId ?_ rfl
    exact if_neg h
  have hemit (method : String) (params' : Value) :
      Marked t s ((s.noteAlias "item/completed" params t turnId itemId).emit method params' none) :=
    halias.steady (steady_emit _ _ _ _) (Nat.le_refl _)
  unfold reduceAlias
  simp only
  split
  · exact hemit _ _
  · exact hemit _ _

/-- A turn that ends before the thread's history is known. -/
theorem marked_noteTurn (h : t ∉ s.archivedThreads) (hunknown : s.threads.find? t = none)
    {params : Value} {turnId : String} (hturn : turnIdOf params = some turnId) :
    Marked t s (s.noteTurn "turn/completed" params t) := by
  have hchange : (s.noteChange "turn/completed" params t turnId).turnSequences =
      s.turnSequences.put (t, turnId) (s.sequence + 1) := by
    rw [noteChange, if_pos ⟨by decide, .inl (by decide)⟩]
    simp only
    split
    · rfl
    · rfl
  have hsame : Steady t False s (s.noteChange "turn/completed" params t turnId) :=
    steady_noteChange _ _ _ _ _
  have hsequence : (s.noteChange "turn/completed" params t turnId).sequence = s.sequence := by
    rw [noteChange]
    split
    · simp only
      split
      · rfl
      · rfl
    · rfl
  have hthreads : (s.noteChange "turn/completed" params t turnId).threads.find? t = none := by
    rw [← Option.not_isSome_iff_eq_none]
    intro hknown
    obtain hknown | hfalse := hsame.known hknown
    · rw [hunknown] at hknown
      cases hknown
    · exact hfalse
  have hend : Marked t s
      ((s.noteChange "turn/completed" params t turnId).endTurn "turn/completed" t turnId) := by
    rw [endTurn, if_pos rfl]
    constructor
    · refine ⟨s.sequence + 1, ?_, Nat.lt_succ_self _⟩
      show (if _ then _ else _ : Table String Nat).find? t = _
      rw [if_pos ⟨by rw [hthreads]; rfl, fun hin => h (hsame.archived.mp hin)⟩, hsequence,
        Table.find?_put, if_pos rfl]
    · exact fun after hle => turnAfter_put hchange hle
  have hended : Steady t False (s.noteChange "turn/completed" params t turnId)
      ((s.noteChange "turn/completed" params t turnId).endTurn "turn/completed" t turnId) :=
    steady_endTurn _ _ _ _
  unfold noteTurn
  rw [hturn]
  simp only [or_true, if_true]
  exact hend.steady (steady_retainPlansForHistory _ _ _)
    ((Nat.le_of_eq hsequence.symm).trans hended.sequence)

theorem ne_started_of_ends {method : String}
    (h : method = "turn/completed" ∨ method = "item/completed") : method ≠ "thread/started" := by
  obtain rfl | rfl := h
  · decide
  · decide

theorem reduceKnown_eq (s : State) (message : Value) (method : String) (params : Value)
    (id : String) :
    s.reduceKnown message method params id =
      match (s.prelude method params id).reduceLegacyProjection method params id with
      | some s => s
      | none => (((s.prelude method params id).project method params id).noteTurn method params
          id).emit method params (message.get? "id") :=
  rfl

/-- **A message or a turn that ends** marks its thread, whether its history is known or not. -/
theorem marked_reduceKnown {message : Value} {method : String} {params : Value}
    (harchived : t ∉ s.archivedThreads) (hlegacy : (s.threads.find? t).all isLegacy = true)
    {turnId : String} (hturn : turnIdOf params = some turnId) (hturnId : turnId ≠ "")
    (hmethod : method = "turn/completed" ∨ method = "item/completed" ∧
      legacyAliasType ((params.get "item").get "type").asStr = true ∧
      ∃ itemId, itemIdOf params = some itemId ∧ itemId ≠ "") :
    Marked t s (s.reduceKnown message method params t) := by
  have hstarts : method = "thread/started" → ((params.get "thread").get "id").asStr = some t →
      False ∧ isLegacy (params.get "thread") = true :=
    fun hstarted => absurd hstarted (ne_started_of_ends (hmethod.imp_right And.left))
  have hprelude : Steady t False s (s.prelude method params t) := steady_prelude hstarts s t
  have harchived' : t ∉ (s.prelude method params t).archivedThreads :=
    fun hin => harchived (hprelude.archived.mp hin)
  have hlegacy' := hprelude.legacy hlegacy
  generalize hu : s.prelude method params t = u at hprelude harchived' hlegacy'
  refine @Marked.of_before t s u _ ?_ hprelude.sequence
  have hnamed : (turnIdOf params).filter (· ≠ "") = some turnId := by
    rw [hturn]
    simp [hturnId]
  have hmode : (u.threads.find? t).any (fun thread => !isLegacy thread) = false := by
    cases hthread : u.threads.find? t with
    | none => rfl
    | some thread =>
      rw [hthread] at hlegacy'
      have hthread' : isLegacy thread = true := hlegacy'
      rw [Option.any_some, hthread', Bool.not_true]
  rw [reduceKnown_eq, hu, reduceLegacyProjection]
  simp only [hmode, Bool.false_eq_true, if_false, hnamed, Option.bind_some]
  obtain rfl | ⟨rfl, halias, itemId, hitem, hitemId⟩ := hmethod
  · cases hthread : u.threads.find? t with
    | some thread =>
      simp only [Option.isSome_some, and_self, if_true]
      exact marked_endLegacyTurn harchived' _ _ _
    | none =>
      have hdelta : deltaType "turn/completed" = none := by decide
      simp only [Option.isSome_none, Bool.false_eq_true, and_false, if_false, hdelta,
        String.reduceEq, or_self, false_and]
      have hproject : Steady t False u (u.project "turn/completed" params t) :=
        steady_project _ _ _ _
      have hunknown : (u.project "turn/completed" params t).threads.find? t = none := by
        show (u.threads.update t _).find? t = none
        rw [Table.find?_update, if_pos rfl, hthread, Option.map_none]
      have hnoted := marked_noteTurn (s := u.project "turn/completed" params t)
        (fun hin => harchived' (hproject.archived.mp hin)) hunknown hturn
      exact (hnoted.steady (steady_emit _ _ _ _) (Steady.sequence
        (steady_noteTurn (t := t) _ _ _ _ : Steady t False _ _))).of_before hproject.sequence
  · have hnamedItem : (itemIdOf params).filter (· ≠ "") = some itemId := by
      rw [hitem]
      simp [hitemId]
    simp only [String.reduceEq, false_and, if_false, or_true, halias, and_self, true_or, if_true,
      hnamedItem, Option.map_some]
    rw [if_neg (by simp)]
    exact marked_reduceAlias harchived' _ _ _

theorem lt_reduceLegacyProjection {method : String} {params : Value} {id : String}
    (hmethod : method = "turn/completed" ∨ method = "item/completed")
    (h : s.reduceLegacyProjection method params id = some s') : s.sequence < s'.sequence := by
  unfold reduceLegacyProjection at h
  simp only at h
  split at h
  · contradiction
  · obtain ⟨turnId, -, h⟩ := Option.bind_eq_some_iff.mp h
    split at h
    · cases h
      show s.sequence < (State.retainPlansForHistory _ _ _).sequence + 1
      rw [(controls_retainPlansForHistory ..).2]
      exact Nat.lt_succ_self _
    · next hended =>
      split at h
      · obtain ⟨itemId, -, h⟩ := Option.map_eq_some_iff.mp h
        have hopen : ¬((s.threads.find? id).isSome = true ∧ id ∈ s.archivedThreads ∧
            method ≠ "item/completed") := by
          rintro ⟨hknown, -, hother⟩
          obtain hmethod | hmethod := hmethod
          · exact hended ⟨hmethod, hknown⟩
          · exact hother hmethod
        rw [if_neg hopen] at h
        have halias : Steady id False s (s.noteAlias method params id turnId itemId) :=
          steady_noteAlias _ _ _ _ _ _
        rw [← h]
        unfold reduceAlias
        simp only
        split
        · exact Nat.lt_succ_of_le halias.sequence
        · exact Nat.lt_succ_of_le halias.sequence
      · contradiction

/-- A message or a turn that ends is told. -/
theorem lt_reduceKnown {message : Value} {method : String} {params : Value}
    (hmethod : method = "turn/completed" ∨ method = "item/completed") (id : String) :
    s.sequence < (s.reduceKnown message method params id).sequence := by
  have hstarts : method = "thread/started" → ((params.get "thread").get "id").asStr = some id →
      False ∧ isLegacy (params.get "thread") = true :=
    fun hstarted => absurd hstarted (ne_started_of_ends hmethod)
  have hprelude : Steady id False s (s.prelude method params id) := steady_prelude hstarts s id
  rw [reduceKnown_eq]
  refine Nat.lt_of_le_of_lt hprelude.sequence ?_
  split
  · next hreduced => exact lt_reduceLegacyProjection hmethod hreduced
  · have hnoted : Steady id False (s.prelude method params id)
        (((s.prelude method params id).project method params id).noteTurn method params id) :=
      (steady_project _ _ _ _).trans (steady_noteTurn _ _ _ _)
    exact Nat.lt_succ_of_le hnoted.sequence

/-- The end of a message or a turn passes every guard; a request that it carries is stored. -/
theorem Finishes.reduceScoped_eq {message : Value} (h : s.Finishes message t)
    (scope : DirectoryScope) :
    ∃ (u : State) (method : String), u.histories = s.histories ∧ u.sequence = s.sequence ∧
      (method = "turn/completed" ∨ method = "item/completed" ∧
        legacyAliasType (((message.get "params").get "item").get "type").asStr = true ∧
        ∃ itemId, itemIdOf (message.get "params") = some itemId ∧ itemId ≠ "") ∧
      s.reduceScoped message scope = u.reduceKnown message method (message.get "params") t := by
  obtain ⟨hid, hsubscribed, harchived, -, hmethod⟩ := h
  obtain ⟨method, hmessage, hmethod⟩ : ∃ method, (message.get "method").asStr = some method ∧
      (method = "turn/completed" ∨ method = "item/completed" ∧
        legacyAliasType (((message.get "params").get "item").get "type").asStr = true ∧
        ∃ itemId, itemIdOf (message.get "params") = some itemId ∧ itemId ≠ "") := by
    obtain hmethod | ⟨hmethod, hitem⟩ := hmethod
    · exact ⟨_, hmethod, .inl rfl⟩
    · exact ⟨_, hmethod, .inr ⟨rfl, hitem⟩⟩
  have hnames : method ≠ "thread/archived" ∧ method ≠ "thread/unarchived" ∧
      method ≠ "turn/plan/updated" ∧ method ≠ "thread/settings/updated" ∧
      method ≠ "serverRequest/resolved" := by
    obtain rfl | ⟨rfl, _⟩ := hmethod
    · decide
    · decide
  have harchive : s.archiveEvent method t = s := by
    rw [archiveEvent, if_neg (by simp [hnames.1, hnames.2.1])]
  have hreduce : s.reduceScoped message scope =
      s.reduceAttached message method (message.get "params") t scope := by
    unfold reduceScoped
    simp only [hmessage, hid, harchive, hsubscribed, not_true_eq_false, if_false, hnames.2.2.1]
  rw [hreduce]
  unfold reduceAttached
  simp only [hnames.2.2.2.1, hnames.2.2.2.2, false_and, if_false]
  split
  · exact ⟨s, method, rfl, rfl, hmethod, rfl⟩
  · next requestId _ =>
    rw [if_neg (by simp [harchived])]
    exact ⟨s.storeRequest requestId method (message.get "params"), method, rfl, rfl, hmethod, rfl⟩

theorem Finishes.marked {message : Value} (h : s.Finishes message t)
    (hlegacy : (s.threads.find? t).all isLegacy = true) (scope : DirectoryScope) :
    Marked t s (s.reduceScoped message scope) := by
  obtain ⟨u, method, hhistories, hsequence, hmethod, hreduce⟩ := h.reduceScoped_eq scope
  obtain ⟨-, -, harchived, ⟨turnId, hturn, hturnId⟩, -⟩ := h
  simp only [histories, Prod.mk.injEq] at hhistories
  obtain ⟨hsame, -, -, hthreads, -⟩ := hhistories
  rw [← hsame] at harchived
  rw [← hthreads] at hlegacy
  rw [hreduce]
  exact (marked_reduceKnown harchived hlegacy hturn hturnId hmethod).of_before
    (Nat.le_of_eq hsequence.symm)

/-- What ends does not move the read mark. -/
theorem Finishes.steady {message : Value} (h : s.Finishes message t) (scope : DirectoryScope) :
    Steady t False s (s.reduceScoped message scope) := by
  obtain ⟨u, method, hhistories, hsequence, hmethod, hreduce⟩ := h.reduceScoped_eq scope
  rw [hreduce]
  have hsame : Steady t False s u := .of_histories hhistories (Nat.le_of_eq hsequence.symm)
  exact hsame.trans (steady_reduceKnown
    (fun hstarted => absurd hstarted (ne_started_of_ends (hmethod.imp_right And.left))) u message t)

theorem Finishes.told {message : Value} (h : s.Finishes message t) (scope : DirectoryScope) :
    s.sequence < (s.reduceScoped message scope).sequence := by
  obtain ⟨u, method, -, hsequence, hmethod, hreduce⟩ := h.reduceScoped_eq scope
  rw [hreduce, ← hsequence]
  exact lt_reduceKnown (hmethod.imp_right And.left) t

end State

/-! ## the marks are dropped, and moved -/

/-- The marks of the thread are dropped. -/
structure Drops (t : String) (s s' : State) : Prop where
  sequence : s.sequence ≤ s'.sequence
  legacy : (s.threads.find? t).all isLegacy = true → (s'.threads.find? t).all isLegacy = true
  read : s'.legacyHistoryReadSequences.find? t = none
  newer : (∀ after ≤ s.sequence, s.TurnAfter t after → s'.TurnAfter t after) ∧
      Advances s.sequence (s.scopeChangeSequences.find? t) (s'.scopeChangeSequences.find? t) ∨
    ∃ n, s'.scopeChangeSequences.find? t = some n ∧ s.sequence < n

/-- The thread is not shown as an active one. -/
def Hidden (t : String) (s : State) : Prop :=
  s.threads.find? t = none ∨ t ∈ s.archivedThreads

/-- The marks are dropped where the thread is hidden, and what was read before is refused. -/
structure Fences (t : String) (s s' : State) : Prop extends Drops t s s' where
  hidden : Hidden t s'
  refused : ∀ after ≤ s.sequence, s'.snapshotInvalidatedAfter t after = true

/-- The thread is stored as it was read at `after`, which is not refused. -/
structure Takes (t : String) (after : Nat) (s s' : State) : Prop where
  valid : s.snapshotInvalidatedAfter t after = false
  sequence : s'.sequence = s.sequence
  scope : s'.scopeChangeSequences = s.scopeChangeSequences
  legacy : (s'.threads.find? t).all isLegacy = true
  read : s'.legacyHistoryReadSequences.find? t = some after
  dirty : s'.legacyHistoryDirtySequences.find? t = s.legacyHistoryDirtySequences.find? t
  turns : ∀ after ≤ s.sequence, s.TurnAfter t after → s'.TurnAfter t after

namespace State

theorem find?_erase_of_ne {ν : Type} {table : Table String ν} {id : String} (h : t ≠ id) :
    (table.erase id).find? t = table.find? t := by
  rw [Table.find?_erase, if_neg h]

theorem find?_put_of_ne {ν : Type} {table : Table String ν} {id : String} {v : ν} (h : t ≠ id) :
    (table.put id v).find? t = table.find? t := by
  rw [Table.find?_put, if_neg h]

/-! ## a thread that leaves its scope, or is archived -/

/-- Another thread is closed. -/
theorem steady_forget {id : String} (h : t ≠ id) (scope : DirectoryScope) :
    Steady t False s (s.forgetOutsideScope id scope) where
  sequence := Nat.le_succ _
  archived := by
    show t ∈ s.archivedThreads.erase id ↔ _
    simp [h]
  access := .inl (find?_erase_of_ne h)
  scope := .inl (find?_put_of_ne h)
  known hknown := .inl (by
    rwa [show (s.forgetOutsideScope id scope).threads.find? t = s.threads.find? t from
      find?_erase_of_ne h] at hknown)
  legacy hlegacy := by
    rwa [show (s.forgetOutsideScope id scope).threads.find? t = s.threads.find? t from
      find?_erase_of_ne h]
  read := find?_erase_of_ne h
  dirty := .inl (find?_erase_of_ne h)
  turns after _ hafter := by
    obtain ⟨turnId, changed, hfound, hlt⟩ := hafter
    refine ⟨turnId, changed, ?_, hlt⟩
    show (s.turnSequences.retain _).find? (t, turnId) = _
    rw [Table.find?_retain, hfound]
    simp [h]

theorem fences_forget (s : State) (t : String) (scope : DirectoryScope) :
    Fences t s (s.forgetOutsideScope t scope) := by
  have hthreads : (s.forgetOutsideScope t scope).threads.find? t = none := by
    show (s.threads.erase t).find? t = none
    rw [Table.find?_erase, if_pos rfl]
  have hscope : (s.forgetOutsideScope t scope).scopeChangeSequences.find? t =
      some (s.sequence + 1) := by
    show (s.scopeChangeSequences.put t (s.sequence + 1)).find? t = _
    rw [Table.find?_put, if_pos rfl]
  exact
    { sequence := Nat.le_succ _
      legacy := fun _ => by
        rw [hthreads]
        rfl
      read := by
        show (s.legacyHistoryReadSequences.erase t).find? t = none
        rw [Table.find?_erase, if_pos rfl]
      newer := .inr ⟨s.sequence + 1, hscope, Nat.lt_succ_self _⟩
      hidden := .inl hthreads
      refused := fun after hle => by
        rw [invalidated_iff, hscope]
        left
        simp only [Option.any_some, decide_eq_true_eq]
        omega }

/-- **Archive membership** of a thread: a step as any other, or its marks are dropped and what was
read before is refused. -/
theorem archiveEvent_steady (s : State) (method id : String) :
    Steady t False s (s.archiveEvent method id) ∨ Fences t s (s.archiveEvent method id) := by
  unfold archiveEvent
  split
  · simp only
    split
    · split
      · by_cases hid : t = id
        · subst hid
          right
          exact
            { sequence := Nat.le_refl _
              legacy := fun h => h
              read := by
                show (s.legacyHistoryReadSequences.erase t).find? t = none
                rw [Table.find?_erase, if_pos rfl]
              newer := .inl ⟨fun _ _ h => h, .inl rfl⟩
              hidden := .inr (Finset.mem_insert_self t _)
              refused := fun after hle => by
                rw [invalidated_iff]
                right
                show ((s.accessSequences.put t (s.sequence + 1)).find? t).any _ = true
                rw [Table.find?_put, if_pos rfl]
                simp only [Option.any_some, decide_eq_true_eq]
                omega }
        · left
          exact
            { sequence := Nat.le_refl _
              archived := by
                show t ∈ insert id s.archivedThreads ↔ _
                rw [Finset.mem_insert, or_iff_right hid]
              access := advances_put _ t id _
              scope := .inl rfl
              known := .inl
              legacy := fun h => h
              read := find?_erase_of_ne hid
              dirty := .inl (find?_erase_of_ne hid)
              turns := fun _ _ h => h }
      · left
        exact
          { sequence := Nat.le_refl _
            archived := .rfl
            access := advances_put _ t id _
            scope := .inl rfl
            known := .inl
            legacy := fun h => h
            read := rfl
            dirty := .inl rfl
            turns := fun _ _ h => h }
    · exact .inl (.of_histories rfl (Nat.le_refl _))
  · exact .inl (.refl s)

theorem noteArchive_steady (s : State) (message : Value) :
    Steady t False s (s.noteArchive message) ∨ Fences t s (s.noteArchive message) := by
  unfold noteArchive
  split
  · exact archiveEvent_steady s _ _
  · exact .inl (.refl s)

/-- A thread that starts changes no archive membership. -/
theorem noteArchive_of_starts {message : Value} (h : starts message t = true) :
    s.noteArchive message = s := by
  rw [starts, Bool.and_eq_true, isText, decide_eq_true_eq] at h
  unfold noteArchive
  rw [h.1]
  cases threadIdOf (message.get "params") with
  | none => rfl
  | some id =>
    show s.archiveEvent "thread/started" id = s
    rw [archiveEvent, if_neg (by decide)]

/-! ## replies -/

/-- The reply to a full read is taken: it is not refused, and within scope. -/
def takes (s : State) (result : Value) (id : String) (after : Nat) (scope : DirectoryScope) : Bool :=
  !s.snapshotInvalidatedAfter id after && (s.allowedRoots = [] ||
    ((result.get "cwd").asStr <|> ((result.get "thread").get "cwd").asStr).any scope.permits)

theorem rememberScoped_takes {result : Value} {id : String} {after : Nat} {scope : DirectoryScope}
    (hid : isText ((result.get "thread").get "id") id = true) :
    (s.takes result id after scope = true ∧
        s.rememberScoped result (some after) scope = s.merge id result (some after)) ∨
      s.rememberScoped result (some after) scope = s ∨
      s.rememberScoped result (some after) scope = s.forgetOutsideScope id scope := by
  have hid : ((result.get "thread").get "id").asStr = some id := by simpa [isText] using hid
  unfold rememberScoped takes
  rw [hid]
  simp only [Option.any_some]
  split
  · exact .inr (.inl rfl)
  · next hvalid =>
    split
    · exact .inr (.inr rfl)
    · next hscope =>
      refine .inl ⟨?_, rfl⟩
      rw [not_and_or, not_not, not_not] at hscope
      rw [Bool.and_eq_true, Bool.or_eq_true, Bool.not_eq_true', decide_eq_true_eq]
      exact ⟨by simpa using hvalid, hscope⟩

/-- Another thread's reply is stored. -/
theorem steady_merge {id : String} (h : t ≠ id) (s : State) (result : Value) (after : Option Nat) :
    Steady t False s (s.merge id result after) := by
  have hthreads : (s.storeSnapshot id result after).threads.find? t = s.threads.find? t :=
    find?_put_of_ne h
  have hstored : Steady t False s (s.storeSnapshot id result after) :=
    { sequence := Nat.le_refl _
      archived := .rfl
      access := .inl rfl
      scope := .inl rfl
      known := fun hknown => .inl (by rwa [hthreads] at hknown)
      legacy := fun hlegacy => by rwa [hthreads]
      read := by
        show (if _ then _ else _ : Table String Nat).find? t = _
        split
        · exact find?_put_of_ne h
        · exact find?_erase_of_ne h
      dirty := .inl (by
        show (if _ then _ else _ : Table String Nat).find? t = _
        split
        · rfl
        · exact find?_erase_of_ne h)
      turns := fun _ _ h => h }
  have hkept := hstored.trans (steady_retainPlansForHistory _ id after)
  exact
    { sequence := hkept.sequence
      archived := by
        show t ∈ Finset.erase _ id ↔ _
        rw [Finset.mem_erase, and_iff_right h]
        exact hkept.archived
      access := hkept.access
      scope := hkept.scope
      known := hkept.known
      legacy := hkept.legacy
      read := hkept.read
      dirty := hkept.dirty
      turns := hkept.turns }

theorem isLegacy_mergeThread (s : State) (id : String) (after : Option Nat) (thread : Value) :
    isLegacy (s.mergeThread id after thread) = isLegacy thread := by
  unfold mergeThread
  cases after with
  | none => rfl
  | some after =>
    simp only
    rw [isLegacy_mapArr (by decide)]
    split
    · exact isLegacy_write (by decide) _ _
    · rfl

theorem isLegacy_rememberSettings (s : State) (id : String) (after : Option Nat)
    (result thread : Value) :
    isLegacy (s.rememberSettings id after result thread).2 = isLegacy thread := by
  unfold rememberSettings
  split
  · split
    · split
      · exact isLegacy_write (by decide) _ _
      · rfl
    · rfl
  · rfl

theorem dirty_retainPlansForHistory (s : State) (id : String) (after : Option Nat) :
    (s.retainPlansForHistory id after).legacyHistoryDirtySequences =
      s.legacyHistoryDirtySequences := by
  unfold retainPlansForHistory
  cases s.pendingPlanUpdates.find? id with
  | none => rfl
  | some update =>
    simp only
    split
    · rfl
    · split
      · rfl
      · rfl

/-- **The reply to a read** moves the read mark of its thread, and nothing else of its marks. -/
theorem takes_merge {result : Value} {after : Nat}
    (hvalid : s.snapshotInvalidatedAfter t after = false)
    (hlegacy : isLegacy (result.get "thread") = true) :
    Takes t after s (s.merge t result (some after)) := by
  have hkept : Steady t False (s.storeSnapshot t result (some after))
      ((s.storeSnapshot t result (some after)).retainPlansForHistory t (some after)) :=
    steady_retainPlansForHistory _ _ _
  obtain ⟨-, -, -, hscope, hsequence, -, -⟩ := merge_frame s t result (some after)
  constructor
  · exact hvalid
  · exact hsequence
  · exact hscope
  · refine hkept.legacy ?_
    show ((s.threads.put t _).find? t).all isLegacy = true
    rw [Table.find?_put, if_pos rfl, Option.all_some, isLegacy_rememberSettings,
      isLegacy_mergeThread, hlegacy]
  · refine hkept.read.trans ?_
    show (if _ then _ else _ : Table String Nat).find? t = _
    rw [if_pos hlegacy, Table.find?_put, if_pos rfl, Option.getD_some]
  · refine (congrArg (Table.find? · t) (dirty_retainPlansForHistory _ _ _)).trans ?_
    show (if _ then _ else _ : Table String Nat).find? t = _
    rw [if_pos hlegacy]
  · exact hkept.turns

/-- Archived history of the thread is stored only where nothing of it is newer. -/
theorem rememberArchived_steady {thread : Value} {epoch after : Nat} {scope : DirectoryScope}
    (h : s.rememberArchivedScoped thread epoch after scope = some s') :
    Steady t False s s' ∨
      isText (thread.get "id") t = true ∧ s.newerThan t after = false ∧
        (isLegacy thread = true → Drops t s s') := by
  unfold rememberArchivedScoped at h
  obtain ⟨id, hid, h⟩ := Option.bind_eq_some_iff.mp h
  split at h
  · contradiction
  · next hguard =>
    simp only [not_or, Bool.not_eq_true] at hguard
    obtain ⟨-, -, -, hnewer, -⟩ := hguard
    obtain rfl := Option.some.inj h
    have hkept : Steady t False (s.storeArchived id thread) _ :=
      steady_retainPlansForHistory _ id (some after)
    by_cases hthread : t = id
    · subst hthread
      right
      have hname : isText (thread.get "id") t = true := by rw [isText, hid, decide_eq_true rfl]
      refine ⟨hname, hnewer, fun hlegacy => ?_⟩
      exact
        { sequence := hkept.sequence
          legacy := fun _ => hkept.legacy (by
            show ((s.threads.put t thread).find? t).all isLegacy = true
            rw [Table.find?_put, if_pos rfl]
            exact hlegacy)
          read := hkept.read.trans (by
            show (s.legacyHistoryReadSequences.erase t).find? t = none
            rw [Table.find?_erase, if_pos rfl])
          newer := .inl ⟨hkept.turns, hkept.scope⟩ }
    · left
      have hthreads : (s.threads.put id thread).find? t = s.threads.find? t := find?_put_of_ne hthread
      have hstored : Steady t False s (s.storeArchived id thread) :=
        { sequence := Nat.le_refl _
          archived := by
            show t ∈ insert id s.archivedThreads ↔ _
            rw [Finset.mem_insert, or_iff_right hthread]
          access := .inl rfl
          scope := .inl rfl
          known := fun hknown => .inl (hthreads ▸ hknown)
          legacy := fun hlegacy => hthreads ▸ hlegacy
          read := find?_erase_of_ne hthread
          dirty := .inl (find?_erase_of_ne hthread)
          turns := fun _ _ h => h }
      exact hstored.trans (hkept.trans (.of_histories rfl (Nat.le_refl _)))

/-! ## the worker -/

/-- The connection comes up: nothing of a history is changed. -/
theorem steady_connect (s : State) {c : Connection} (h : s.replaces c = false) :
    Steady t False s (s.connect c) := by
  unfold connect
  simp only [h, Bool.false_eq_true, if_false]
  split
  · exact .of_histories rfl (Nat.le_succ _)
  · exact .of_histories rfl (Nat.le_succ _)

theorem steady_beginResume (s : State) (id : String) : Steady t False s (s.beginResume id) := by
  unfold beginResume
  simp only
  split
  · exact .of_histories rfl (Nat.le_refl _)
  · exact .of_histories rfl (Nat.le_refl _)

theorem steady_finishResume (s : State) (id : String) : Steady t False s (s.finishResume id) := by
  have hend (u : State) (hu : u.histories = s.histories) (hsequence : u.sequence = s.sequence) :
      Steady t False s (if id ∈ u.archivedThreads ∧ (u.resumesInFlight.find? id).isNone then
        u.dropPending id else u) := by
    split
    · exact .of_histories hu (Nat.le_of_eq hsequence.symm)
    · exact .of_histories hu (Nat.le_of_eq hsequence.symm)
  unfold finishResume
  split
  · exact hend s rfl rfl
  · exact hend _ rfl rfl

/-- Nothing of the gateway is left that could be shown. -/
theorem steady_deactivate (s : State) : Steady t False s s.deactivate where
  sequence := Nat.le_succ _
  archived := .rfl
  access := .inl rfl
  scope := .inl rfl
  known hknown := nomatch hknown
  legacy _ := rfl
  read := rfl
  dirty := .inl rfl
  turns _ _ h := h

/-- The streams of another thread are closed. -/
theorem steady_clearProvisionalStreams {id : String} (h : t ≠ id) (s : State) :
    Steady t False s (s.clearProvisionalStreams id) where
  sequence := Nat.le_refl _
  archived := .rfl
  access := .inl rfl
  scope := .inl rfl
  known := .inl
  legacy hlegacy := hlegacy
  read := find?_erase_of_ne h
  dirty := .inl (find?_erase_of_ne h)
  turns _ _ h := h

theorem steady_release {id : String} (h : t ≠ id) (s : State) :
    Steady t False s (s.release id) :=
  ((.of_histories rfl (Nat.le_refl _) : Steady t False s
    { s with subscribed := s.subscribed.erase id }).trans
      (steady_clearProvisionalStreams h _)).trans (.of_histories rfl (Nat.le_refl _))

theorem steady_recoverArchived {id : String} (h : t ≠ id) (s : State) :
    Steady t False s (s.recoverArchived id) where
  sequence := Nat.le_succ _
  archived := by
    show t ∈ insert id s.archivedThreads ↔ _
    rw [Finset.mem_insert, or_iff_right h]
  access := .inl rfl
  scope := .inl rfl
  known := .inl
  legacy hlegacy := hlegacy
  read := find?_erase_of_ne h
  dirty := .inl (find?_erase_of_ne h)
  turns _ _ h := h

theorem steady_recoverFailed {id : String} (h : t ≠ id) (s : State) (message : String) :
    Steady t False s (s.recoverFailed id message) := by
  have hthreads : (s.recoverFailed id message).threads.find? t = s.threads.find? t :=
    find?_erase_of_ne h
  exact
    { sequence := Nat.le_succ _
      archived := .rfl
      access := .inl rfl
      scope := .inl rfl
      known := fun hknown => .inl (by rwa [hthreads] at hknown)
      legacy := fun hlegacy => by rwa [hthreads]
      read := find?_erase_of_ne h
      dirty := .inl (find?_erase_of_ne h)
      turns := fun _ _ h => h }

/-- The marks of a thread are dropped with its streams. -/
theorem drops_of_cleared (hsequence : s.sequence ≤ s'.sequence)
    (hlegacy : (s.threads.find? t).all isLegacy = true →
      (s'.threads.find? t).all isLegacy = true)
    (hread : s'.legacyHistoryReadSequences = s.legacyHistoryReadSequences.erase t)
    (hturns : s'.turnSequences = s.turnSequences)
    (hscope : s'.scopeChangeSequences = s.scopeChangeSequences) : Drops t s s' where
  sequence := hsequence
  legacy := hlegacy
  read := by rw [hread, Table.find?_erase, if_pos rfl]
  newer := by
    left
    constructor
    · intro after _ hafter
      rwa [TurnAfter, hturns]
    · left
      rw [hscope]

end State

end ClaudeReplay.Gateway
