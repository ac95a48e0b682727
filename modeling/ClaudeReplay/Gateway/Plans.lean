import ClaudeReplay.Gateway.Known
import ClaudeReplay.Gateway.Marks

/-!
# ClaudeReplay.Gateway.Plans

The plans of a thread's turns. An update for a turn that is known is kept in a table; one for a
turn not yet known waits, in the one place its thread has, until the turn is known. Snapshots make
known turns unknown again, and then their plans are dropped (`retainPlansForHistory`).

That a plan never goes back (`plan_is_latest`) rests on what the table holds: a plan in it is for
a known turn, and the turn changed when the plan came (`Plans`). So an update for a turn with a plan
in the table never has to wait, where a later one could overwrite it; and a snapshot that was read
before the plan came leaves the turn known.
-/

namespace ClaudeReplay.Gateway

open Lib

/-! ## what was received -/

/-- The plan updates that were received, with the threads and turns they are for. -/
abbrev PlanLog := List ((String × String) × Value)

/-- The last update for a turn. -/
def PlanLog.latest (log : PlanLog) (key : String × String) : Option Value :=
  ((log.filter fun received => received.1 = key).getLast?).map Prod.snd

theorem PlanLog.latest_append (log : PlanLog) (key other : String × String) (params : Value) :
    PlanLog.latest (log ++ [(other, params)]) key =
      if other = key then some params else log.latest key := by
  unfold latest
  rw [List.filter_append]
  by_cases hkey : other = key
  · simp [hkey]
  · simp [hkey]

/-- The message is a plan update that passes the checks of its shape, its thread and its scope. -/
def State.receivedPlan (s : State) (message : Value) (scope : DirectoryScope) :
    Option ((String × String) × Value) :=
  if isText (message.get "method") "turn/plan/updated" then
    (s.scopedPlanIds (message.get "params") scope).map fun key => (key, message.get "params")
  else none

/-! ## what is held -/

/-- The turn changed at this event or later. -/
def State.TurnSince (s : State) (t u : String) (event : Nat) : Prop :=
  ∃ changed, s.turnSequences.find? (t, u) = some changed ∧ event ≤ changed

/-- An update is the last one received for the turn it names, and came by now. -/
structure Current (log : PlanLog) (t u : String) (sequence : Nat) (update : LivePlanUpdate) :
    Prop where
  turn : (update.params.get "turnId").asStr = some u
  latest : log.latest (t, u) = some update.params
  sequence : update.sequence ≤ sequence

/-- The plans of a thread are current; those in the table came when their turn changed. -/
structure Dated (t : String) (log : PlanLog) (s : State) : Prop where
  held : ∀ u update, s.planUpdates.find? (t, u) = some update →
    Current log t u s.sequence update ∧ s.TurnSince t u update.sequence
  waiting : ∀ update, s.pendingPlanUpdates.find? t = some update →
    ∃ u, Current log t u s.sequence update

/-- Also the turns of those in the table are known. -/
structure Plans (t : String) (log : PlanLog) (s : State) : Prop extends Dated t log s where
  known : ∀ u update, s.planUpdates.find? (t, u) = some update → s.Knows t u

/-- The maps of plans, and those they are held against. -/
def State.planned (s : State) :=
  (s.threads, s.planUpdates, s.pendingPlanUpdates, s.turnSequences)

/-- What a step leaves of the plans of a thread, if the thread's known turns may be lost. -/
structure KeepsPlans (t : String) (s s' : State) : Prop where
  sequence : s.sequence ≤ s'.sequence
  held : ∀ u, s'.planUpdates.find? (t, u) = s.planUpdates.find? (t, u)
  waiting : s'.pendingPlanUpdates.find? t = s.pendingPlanUpdates.find? t
  turns : ∀ u, ∀ event ≤ s.sequence, s.TurnSince t u event → s'.TurnSince t u event

/-- What a step leaves of the plans of a thread. -/
structure Keeps (t : String) (s s' : State) : Prop extends KeepsPlans t s s' where
  known : ∀ u, s.Knows t u → s'.Knows t u

variable {t u : String} {log : PlanLog} {s s' s'' : State}

theorem Current.later {n m : Nat} {update : LivePlanUpdate} (h : Current log t u n update)
    (hle : n ≤ m) : Current log t u m update :=
  { h with sequence := Nat.le_trans h.sequence hle }

theorem Dated.keeps (hs : Dated t log s) (h : KeepsPlans t s s') : Dated t log s' where
  held u update hfound := by
    obtain ⟨hcurrent, hsince⟩ := hs.held u update (h.held u ▸ hfound)
    exact ⟨hcurrent.later h.sequence, h.turns u _ hcurrent.sequence hsince⟩
  waiting update hfound := by
    obtain ⟨u, hcurrent⟩ := hs.waiting update (h.waiting ▸ hfound)
    exact ⟨u, hcurrent.later h.sequence⟩

theorem Plans.keeps (hs : Plans t log s) (h : Keeps t s s') : Plans t log s' :=
  { hs.toDated.keeps h.toKeepsPlans with
    known := fun u update hfound => h.known u (hs.known u update (h.held u ▸ hfound)) }

/-- A thread without plans. -/
theorem Plans.of_none (hheld : ∀ u, s.planUpdates.find? (t, u) = none)
    (hwaiting : s.pendingPlanUpdates.find? t = none) : Plans t log s where
  held u update hfound := by
    rw [hheld] at hfound
    contradiction
  waiting update hfound := by
    rw [hwaiting] at hfound
    contradiction
  known u update hfound := by
    rw [hheld] at hfound
    contradiction

namespace KeepsPlans

theorem trans (h : KeepsPlans t s s') (h' : KeepsPlans t s' s'') : KeepsPlans t s s'' where
  sequence := Nat.le_trans h.sequence h'.sequence
  held u := (h'.held u).trans (h.held u)
  waiting := h'.waiting.trans h.waiting
  turns u event hle hsince := h'.turns u event (Nat.le_trans hle h.sequence) (h.turns u event hle hsince)

/-- A step that leaves the plans and records a changed turn at most. -/
theorem of_turns (hheld : s'.planUpdates = s.planUpdates)
    (hwaiting : s'.pendingPlanUpdates = s.pendingPlanUpdates)
    (hturns : s'.turnSequences = s.turnSequences ∨
      ∃ key, s'.turnSequences = s.turnSequences.put key (s.sequence + 1))
    (hsequence : s.sequence ≤ s'.sequence) : KeepsPlans t s s' where
  sequence := hsequence
  held u := by rw [hheld]
  waiting := by rw [hwaiting]
  turns := by
    intro u event hle ⟨changed, hfound, hevent⟩
    obtain hsame | ⟨key, hput⟩ := hturns
    · exact ⟨changed, by rw [hsame, hfound], hevent⟩
    · by_cases hkey : (t, u) = key
      · exact ⟨s.sequence + 1, by rw [hput, Table.find?_put, if_pos hkey], by omega⟩
      · exact ⟨changed, by rw [hput, Table.find?_put, if_neg hkey, hfound], hevent⟩

end KeepsPlans

namespace Keeps

theorem trans (h : Keeps t s s') (h' : Keeps t s' s'') : Keeps t s s'' :=
  { h.toKeepsPlans.trans h'.toKeepsPlans with
    known := fun u hknown => h'.known u (h.known u hknown) }

theorem of_turns (hthreads : s'.threads = s.threads) (hheld : s'.planUpdates = s.planUpdates)
    (hwaiting : s'.pendingPlanUpdates = s.pendingPlanUpdates)
    (hturns : s'.turnSequences = s.turnSequences ∨
      ∃ key, s'.turnSequences = s.turnSequences.put key (s.sequence + 1))
    (hsequence : s.sequence ≤ s'.sequence) : Keeps t s s' :=
  { KeepsPlans.of_turns hheld hwaiting hturns hsequence with
    known := fun u hknown => by
      rw [State.Knows, hthreads]
      exact hknown }

theorem of_planned (h : s'.planned = s.planned) (hsequence : s.sequence ≤ s'.sequence) :
    Keeps t s s' := by
  simp only [State.planned, Prod.mk.injEq] at h
  obtain ⟨hthreads, hheld, hwaiting, hturns⟩ := h
  exact .of_turns hthreads hheld hwaiting (.inl hturns) hsequence

theorem refl (s : State) : Keeps t s s := .of_planned rfl (Nat.le_refl _)

/-- A thread is changed in a way that leaves its turns. -/
theorem of_update {id : String} {f : Value → Value}
    (hthreads : s'.threads = s.threads.update id f) (hheld : s'.planUpdates = s.planUpdates)
    (hwaiting : s'.pendingPlanUpdates = s.pendingPlanUpdates)
    (hturns : s'.turnSequences = s.turnSequences) (hsequence : s.sequence ≤ s'.sequence)
    (hf : ∀ v u, HasTurn (turnsOf v) u → HasTurn (turnsOf (f v)) u) : Keeps t s s' :=
  { KeepsPlans.of_turns hheld hwaiting (.inl hturns) hsequence with
    known := fun u hknown => by
      obtain ⟨thread, hfound, hhas⟩ := hknown
      rw [State.Knows, hthreads]
      by_cases hid : t = id
      · exact ⟨f thread, by rw [Table.find?_update, if_pos hid, ← hid, hfound]; rfl, hf thread u hhas⟩
      · exact ⟨thread, by rw [Table.find?_update, if_neg hid, hfound], hhas⟩ }

end Keeps

namespace State

/-! ## plans of known turns -/

/-- The ids `retainPlansForHistory` collects. -/
theorem knows_iff (s : State) (t u : String) :
    (((s.threads.find? t).map turnsOf |>.getD []).filterMap
      fun turn => (turn.get "id").asStr).contains u = true ↔ s.Knows t u := by
  rw [List.contains_iff_mem, List.mem_filterMap]
  cases hthread : s.threads.find? t with
  | none => simp [Knows, hthread]
  | some thread => simp [Knows, HasTurn, hthread]

/-- A plan that is held afterwards was held, for a known turn or newer than the read; or it waited,
and its turn is known and changed no earlier. -/
theorem held_retainPlans {id : String} {after : Option Nat} {update : LivePlanUpdate}
    (h : (s.retainPlansForHistory id after).planUpdates.find? (t, u) = some update) :
    s.planUpdates.find? (t, u) = some update ∧
        (id = t → s.Knows t u ∨ after.any (· < update.sequence) = true) ∨
      s.pendingPlanUpdates.find? t = some update ∧ s.Knows t u ∧
        (update.params.get "turnId").asStr.getD "" = u ∧
        (s.retainPlansForHistory id after).TurnSince t u update.sequence := by
  have hkept : ((s.planUpdates.retain fun k update =>
      k.1 ≠ id || (update.epoch = s.nativeEventEpoch &&
        ((((s.threads.find? id).map turnsOf |>.getD []).filterMap
          fun turn => (turn.get "id").asStr).contains k.2 ||
            after.any (· < update.sequence)))).find? (t, u) = some update) →
      s.planUpdates.find? (t, u) = some update ∧
        (id = t → s.Knows t u ∨ after.any (· < update.sequence) = true) := by
    intro hfound
    rw [Table.find?_retain, Option.filter_eq_some_iff] at hfound
    refine ⟨hfound.1, ?_⟩
    rintro rfl
    have hkeep := hfound.2
    simp only [ne_eq, not_true_eq_false, decide_false, Bool.false_or, Bool.and_eq_true,
      Bool.or_eq_true] at hkeep
    exact hkeep.2.imp_left (knows_iff s id u).mp
  unfold retainPlansForHistory at h ⊢
  cases hwaiting : s.pendingPlanUpdates.find? id with
  | none =>
    rw [hwaiting] at h
    exact .inl (hkept h)
  | some waiting =>
    rw [hwaiting] at h
    simp only at h ⊢
    split at h
    · exact .inl (hkept h)
    · split at h
      · next hepoch hknown =>
        rw [Table.find?_put] at h
        split at h
        · next hkey =>
          cases h
          cases hkey
          right
          rw [if_neg hepoch, if_pos hknown]
          have hput := Table.find?_put s.turnSequences (t, (update.params.get "turnId").asStr.getD "")
            (max ((s.turnSequences.find? (t, (update.params.get "turnId").asStr.getD "")).getD 0)
              update.sequence) (t, (update.params.get "turnId").asStr.getD "")
          rw [if_pos rfl] at hput
          exact ⟨hwaiting, (knows_iff s t _).mp hknown, rfl, _, hput, Nat.le_max_right _ _⟩
        · exact .inl (hkept h)
      · exact .inl (hkept h)

/-- What else `retainPlansForHistory` leaves. -/
theorem retainPlans_frame (s : State) (id : String) (after : Option Nat) :
    (s.retainPlansForHistory id after).sequence = s.sequence ∧
      (s.retainPlansForHistory id after).threads = s.threads ∧
      (∀ update, (s.retainPlansForHistory id after).pendingPlanUpdates.find? t = some update →
        s.pendingPlanUpdates.find? t = some update) ∧
      ∀ u event, s.TurnSince t u event → (s.retainPlansForHistory id after).TurnSince t u event := by
  have herased : ∀ update, (s.pendingPlanUpdates.erase id).find? t = some update →
      s.pendingPlanUpdates.find? t = some update := by
    intro update h
    rw [Table.find?_erase] at h
    split at h
    · contradiction
    · exact h
  unfold retainPlansForHistory
  cases s.pendingPlanUpdates.find? id with
  | none => exact ⟨rfl, rfl, fun _ h => h, fun _ _ h => h⟩
  | some waiting =>
    simp only
    split
    · exact ⟨rfl, rfl, herased, fun _ _ h => h⟩
    · split
      · refine ⟨rfl, rfl, herased, fun u event h => ?_⟩
        obtain ⟨changed, hfound, hevent⟩ := h
        by_cases hkey : (t, u) = (id, (waiting.params.get "turnId").asStr.getD "")
        · refine ⟨_, by rw [Table.find?_put, if_pos hkey], ?_⟩
          rw [← hkey, hfound, Option.getD_some]
          omega
        · exact ⟨changed, by rw [Table.find?_put, if_neg hkey, hfound], hevent⟩
      · exact ⟨rfl, rfl, fun _ h => h, fun _ _ h => h⟩

end State

/-- **Known turns.** If the plans held that are newer than the read are for known turns, then
afterwards all are. -/
theorem Dated.retain (hs : Dated t log s) {id : String} {after : Option Nat}
    (hnewer : ∀ u update, s.planUpdates.find? (t, u) = some update →
      (id = t → after.any (· < update.sequence) = true) → s.Knows t u) :
    Plans t log (s.retainPlansForHistory id after) := by
  obtain ⟨hsequence, hthreads, hpending, hturns⟩ := s.retainPlans_frame (t := t) id after
  have hknows : ∀ u, s.Knows t u → (s.retainPlansForHistory id after).Knows t u := by
    intro u h
    rw [State.Knows, hthreads]
    exact h
  constructor
  · constructor
    · intro u update hfound
      obtain ⟨hold, -⟩ | ⟨hwaited, -, hname, hsince⟩ := State.held_retainPlans hfound
      · obtain ⟨hcurrent, hsince⟩ := hs.held u update hold
        exact ⟨hcurrent.later (Nat.le_of_eq hsequence.symm), hturns u _ hsince⟩
      · obtain ⟨named, hcurrent⟩ := hs.waiting update hwaited
        rw [hcurrent.turn, Option.getD_some] at hname
        subst hname
        exact ⟨hcurrent.later (Nat.le_of_eq hsequence.symm), hsince⟩
    · intro update hfound
      obtain ⟨u, hcurrent⟩ := hs.waiting update (hpending update hfound)
      exact ⟨u, hcurrent.later (Nat.le_of_eq hsequence.symm)⟩
  · intro u update hfound
    apply hknows
    obtain ⟨hold, hkept⟩ | ⟨-, hknown, -, -⟩ := State.held_retainPlans hfound
    · by_cases hid : id = t
      · obtain hknown | hlater := hkept hid
        · exact hknown
        · exact hnewer u update hold fun _ => hlater
      · exact hnewer u update hold fun h => absurd h hid
    · exact hknown

theorem Plans.retain (hs : Plans t log s) (id : String) (after : Option Nat) :
    Plans t log (s.retainPlansForHistory id after) :=
  hs.toDated.retain fun u update hfound _ => hs.known u update hfound

namespace State

/-! ## steps that leave the plans alone -/

theorem keeps_emit (s : State) (method : String) (params : Value) (requestId : Option Value) :
    Keeps t s (s.emit method params requestId) :=
  .of_planned rfl (Nat.le_succ _)

theorem keeps_archiveEvent (s : State) (method id : String) : Keeps t s (s.archiveEvent method id) := by
  unfold archiveEvent
  split
  · simp only
    split
    · split
      · exact .of_planned rfl (Nat.le_refl _)
      · exact .of_planned rfl (Nat.le_refl _)
    · exact .of_planned rfl (Nat.le_refl _)
  · exact .refl s

theorem keeps_noteSettings (s : State) (method : String) (params : Value) :
    Keeps t s (s.noteSettings method params) := by
  unfold noteSettings
  split
  · split
    · next id _ =>
      have hwrite (v : Value) (u : String) (h : HasTurn (turnsOf v) u) :
          HasTurn (turnsOf (v.write "cwd" ((params.get "threadSettings").get "cwd"))) u := by
        rwa [turnsOf_write (by decide)]
      exact .of_update rfl rfl rfl rfl (Nat.le_refl _) hwrite
    · exact .refl s
  · exact .refl s

theorem keeps_noteThread (s : State) (method id : String) : Keeps t s (s.noteThread method id) :=
  .of_planned rfl (Nat.le_refl _)

theorem keeps_resolveRequest (s : State) (method : String) (params : Value) :
    Keeps t s (s.resolveRequest method params) := by
  unfold resolveRequest
  split
  · exact .of_planned rfl (Nat.le_refl _)
  · exact .refl s

theorem keeps_settleToolCall (s : State) (method : String) (params : Value) :
    Keeps t s (s.settleToolCall method params) := by
  unfold settleToolCall
  split
  · exact .of_planned rfl (Nat.le_refl _)
  · exact .refl s

/-- A thread that starts is not held yet. -/
theorem keeps_startThread {method : String} {params : Value}
    (hstarts : method = "thread/started" → ((params.get "thread").get "id").asStr = some t →
      s.threads.find? t = none) : Keeps t s (s.startThread method params) := by
  unfold startThread
  split
  · next hmethod =>
    split
    · next id hid =>
      exact
        { KeepsPlans.of_turns rfl rfl (.inl rfl) (Nat.le_refl _) with
          known := fun u ⟨thread, hfound, hhas⟩ => by
            have hother : t ≠ id := by
              rintro rfl
              rw [hstarts hmethod hid] at hfound
              contradiction
            exact ⟨thread, (find?_put_of_ne hother).trans hfound, hhas⟩ }
    · exact .refl s
  · exact .refl s

theorem keeps_prelude {method : String} {params : Value}
    (hstarts : method = "thread/started" → ((params.get "thread").get "id").asStr = some t →
      s.threads.find? t = none) (id : String) : Keeps t s (s.prelude method params id) := by
  have hbefore : Keeps t s ((((s.noteSettings method params).noteThread method id).resolveRequest
      method params).settleToolCall method params) :=
    ((keeps_noteSettings s method params).trans (keeps_noteThread _ _ _)).trans
      ((keeps_resolveRequest _ _ _).trans (keeps_settleToolCall _ _ _))
  refine hbefore.trans (keeps_startThread fun hmethod hid => ?_)
  have hnone := hstarts hmethod hid
  have hsettings : s.noteSettings method params = s := if_neg (by
    rw [hmethod]
    decide)
  have hresolved (u : State) : u.resolveRequest method params = u := if_neg (by
    rw [hmethod]
    decide)
  have hsettled (u : State) : u.settleToolCall method params = u := if_neg fun h => by
    rw [hmethod] at h
    exact absurd h.1 (by decide)
  rw [hsettled, hresolved, hsettings]
  exact hnone

theorem keeps_storeRequest (s : State) (id : Value) (method : String) (params : Value) :
    Keeps t s (s.storeRequest id method params) :=
  .of_planned rfl (Nat.le_refl _)

theorem keeps_project (s : State) (method : String) (params : Value) (id : String) :
    Keeps t s (s.project method params id) :=
  .of_update rfl rfl rfl rfl (Nat.le_refl _) fun _ _ h => h.projectThread method params

theorem keeps_noteChange (s : State) (method : String) (params : Value) (threadId turnId : String) :
    Keeps t s (s.noteChange method params threadId turnId) := by
  unfold noteChange
  split
  · simp only
    split
    · exact .of_turns rfl rfl rfl (.inr ⟨_, rfl⟩) (Nat.le_refl _)
    · exact .of_turns rfl rfl rfl (.inr ⟨_, rfl⟩) (Nat.le_refl _)
  · exact .refl s

theorem keeps_endTurn (s : State) (method threadId turnId : String) :
    Keeps t s (s.endTurn method threadId turnId) := by
  unfold endTurn
  split
  · exact .of_planned rfl (Nat.le_refl _)
  · exact .refl s

theorem keeps_reduceAlias (s : State) (method : String) (params : Value)
    (threadId turnId itemId : String) :
    Keeps t s (s.reduceAlias method params threadId turnId itemId) := by
  have hstream (u : State) (key : String × String × String) (itemType : Option String) :
      Keeps t u (u.stream method params key itemType) := by
    unfold stream
    split
    · split
      · exact .of_planned rfl (Nat.le_refl _)
      · exact .refl u
    · exact .refl u
  have halias : Keeps t s (s.noteAlias method params threadId turnId itemId) := by
    have hturn : Keeps t s
        { s with turnSequences := s.turnSequences.put (threadId, turnId) (s.sequence + 1) } :=
      .of_turns rfl rfl rfl (.inr ⟨_, rfl⟩) (Nat.le_refl _)
    unfold noteAlias
    simp only
    split
    · exact .of_turns rfl rfl rfl (.inr ⟨_, rfl⟩) (Nat.le_refl _)
    · split
      · exact hturn
      · exact hturn.trans (hstream _ _ _)
  unfold reduceAlias
  simp only
  split
  · exact halias.trans (keeps_emit _ _ _ _)
  · exact halias.trans (keeps_emit _ _ _ _)

end State

/-! ## turns that start and end -/

open State

/-- Nothing that is held is newer than an event to come. -/
theorem Dated.not_newer (hs : Dated t log s) {update : LivePlanUpdate}
    (hfound : s.planUpdates.find? (t, u) = some update) {after : Nat} (hle : s.sequence ≤ after) :
    (some after).any (· < update.sequence) = false := by
  have := (hs.held u update hfound).1.sequence
  simp only [Option.any_some, decide_eq_false_iff_not, Nat.not_lt]
  omega

theorem Plans.endLegacyTurn (hs : Plans t log s) (method : String) (params : Value)
    (threadId turnId : String) : Plans t log (s.endLegacyTurn method params threadId turnId) := by
  refine Plans.keeps ?_ (keeps_emit _ _ _ _)
  apply Dated.retain
  · exact hs.toDated.keeps (.of_turns rfl rfl (.inr ⟨_, rfl⟩) (Nat.le_refl _))
  · intro u update hfound hnewer
    by_cases hid : threadId = t
    · have hold : s.planUpdates.find? (t, u) = some update := hfound
      rw [hs.not_newer hold (Nat.le_succ _)] at hnewer
      exact absurd (hnewer hid) (by decide)
    · obtain ⟨thread, hthread, hhas⟩ := hs.known u update hfound
      refine ⟨thread, ?_, hhas⟩
      show (s.threads.update threadId _).find? t = _
      rw [Table.find?_update, if_neg fun h => hid h.symm, hthread]

theorem Plans.reduceLegacyProjection (hs : Plans t log s) {method : String} {params : Value}
    {threadId : String} (h : s.reduceLegacyProjection method params threadId = some s') :
    Plans t log s' := by
  unfold State.reduceLegacyProjection at h
  simp only at h
  split at h
  · contradiction
  · obtain ⟨turnId, -, h⟩ := Option.bind_eq_some_iff.mp h
    split at h
    · cases h
      exact hs.endLegacyTurn _ _ _ _
    · split at h
      · obtain ⟨itemId, -, h⟩ := Option.map_eq_some_iff.mp h
        split at h
        · cases h
          exact hs
        · cases h
          exact hs.keeps (keeps_reduceAlias _ _ _ _ _ _)
      · contradiction

theorem Plans.noteTurn (hs : Plans t log s) (method : String) (params : Value) (threadId : String) :
    Plans t log (s.noteTurn method params threadId) := by
  unfold State.noteTurn
  split
  · exact hs
  · next turnId _ =>
    have hended := hs.keeps ((keeps_noteChange s method params threadId turnId).trans
      (keeps_endTurn _ method threadId turnId))
    simp only
    split
    · exact hended.retain _ _
    · exact hended

/-! ## a notification -/

/-- A thread that leaves its scope has no plans. -/
theorem Plans.forget (hs : Plans t log s) (id : String) (scope : DirectoryScope) :
    Plans t log (s.forgetOutsideScope id scope) := by
  by_cases hid : t = id
  · subst hid
    have hheld (u : String) : (s.forgetOutsideScope t scope).planUpdates.find? (t, u) = none := by
      show (s.planUpdates.retain fun k _ => k.1 ≠ t).find? (t, u) = none
      rw [Table.find?_retain]
      cases s.planUpdates.find? (t, u) <;> simp
    have hwaiting : (s.forgetOutsideScope t scope).pendingPlanUpdates.find? t = none := by
      show (s.pendingPlanUpdates.erase t).find? t = none
      rw [Table.find?_erase, if_pos rfl]
    exact .of_none hheld hwaiting
  · refine hs.keeps ⟨⟨Nat.le_succ _, fun u => ?_, find?_erase_of_ne hid, ?_⟩, ?_⟩
    · show (s.planUpdates.retain fun k _ => k.1 ≠ id).find? (t, u) = _
      rw [Table.find?_retain]
      cases s.planUpdates.find? (t, u) <;> simp [hid]
    · intro u event _ ⟨changed, hfound, hevent⟩
      refine ⟨changed, ?_, hevent⟩
      show (s.turnSequences.retain fun k _ => k.1 ≠ id).find? (t, u) = _
      rw [Table.find?_retain, hfound]
      simp [hid]
    · intro u ⟨thread, hfound, hhas⟩
      exact ⟨thread, (find?_erase_of_ne hid).trans hfound, hhas⟩

section

variable {method : String} {params : Value}
  (hstarts : method = "thread/started" → ((params.get "thread").get "id").asStr = some t →
    s.threads.find? t = none)

include hstarts

theorem Plans.reduceKnown (hs : Plans t log s) (message : Value) (id : String) :
    Plans t log (s.reduceKnown message method params id) := by
  have hprelude := hs.keeps (keeps_prelude hstarts id)
  rw [reduceKnown_eq]
  split
  · next hreduced => exact hprelude.reduceLegacyProjection hreduced
  · exact ((hprelude.keeps (keeps_project _ _ _ _)).noteTurn _ _ _).keeps (keeps_emit _ _ _ _)

theorem Plans.reduceAttached (hs : Plans t log s) (message : Value) (id : String)
    (scope : DirectoryScope) : Plans t log (s.reduceAttached message method params id scope) := by
  unfold State.reduceAttached
  split
  · exact hs.forget id scope
  · split
    · exact hs
    · split
      · exact hs.reduceKnown hstarts message id
      · split
        · exact hs
        · next requestId _ _ =>
          have hstored : Plans t log (s.storeRequest requestId method params) :=
            hs.keeps (keeps_storeRequest _ _ _ _)
          have hstarted : method = "thread/started" →
              ((params.get "thread").get "id").asStr = some t →
                (s.storeRequest requestId method params).threads.find? t = none := hstarts
          exact hstored.reduceKnown hstarted message id

end

/-! ## a plan update -/

/-- A plan update that was received names its thread, its turn, and nothing else. -/
theorem scopedPlanIds_names {params : Value} {scope : DirectoryScope} {threadId turnId : String}
    (h : s.scopedPlanIds params scope = some (threadId, turnId)) :
    (params.get "threadId").asStr = some threadId ∧ (params.get "turnId").asStr = some turnId ∧
      threadId ∈ s.subscribed := by
  unfold scopedPlanIds at h
  obtain ⟨named, hthread, h⟩ := Option.bind_eq_some_iff.mp h
  obtain ⟨turn, hturn, h⟩ := Option.bind_eq_some_iff.mp h
  split at h
  · contradiction
  · next hopen =>
    obtain ⟨thread, -, h⟩ := Option.bind_eq_some_iff.mp h
    split at h
    · contradiction
    · split at h
      · contradiction
      · obtain ⟨plan, -, h⟩ := Option.bind_eq_some_iff.mp h
        split at h
        · cases h
          rw [not_or, not_not] at hopen
          exact ⟨(Option.filter_eq_some_iff.mp hthread).1, (Option.filter_eq_some_iff.mp hturn).1,
            hopen.1⟩
        · contradiction

/-- A notification that passes the checks of a plan update is stored; any other is dropped. -/
theorem reduceScoped_plan {message : Value} {scope : DirectoryScope}
    (hmethod : isText (message.get "method") "turn/plan/updated" = true) :
    s.receivedPlan message scope = none ∧ s.reduceScoped message scope = s ∨
      ∃ threadId turnId, s.receivedPlan message scope =
          some ((threadId, turnId), message.get "params") ∧
        ((message.get "params").get "turnId").asStr = some turnId ∧
        s.reduceScoped message scope =
          (s.storePlan (message.get "params") threadId turnId).reduceAttached message
            "turn/plan/updated" (message.get "params") threadId scope := by
  have htext : (message.get "method").asStr = some "turn/plan/updated" := by
    simpa [isText] using hmethod
  have harchive (id : String) : s.archiveEvent "turn/plan/updated" id = s := if_neg (by decide)
  unfold receivedPlan reduceScoped
  rw [if_pos hmethod, htext]
  simp only [harchive]
  cases hscoped : s.scopedPlanIds (message.get "params") scope with
  | none =>
    left
    refine ⟨rfl, ?_⟩
    split
    · exact if_pos (.inl (by decide))
    · split
      · exact if_neg (by decide)
      · rw [if_pos trivial]
  | some key =>
    obtain ⟨threadId, turnId⟩ := key
    obtain ⟨hthread, hturn, hmem⟩ := scopedPlanIds_names hscoped
    right
    have hid : threadIdOf (message.get "params") = some threadId := by
      rw [threadIdOf, hthread]
      rfl
    rw [hid]
    simp only
    rw [if_neg (not_not.mpr hmem), if_pos trivial]
    exact ⟨threadId, turnId, rfl, hturn, rfl⟩

/-- What follows the storing of a plan update leaves the plans, and records that the turn changed
if it has one in the table. -/
theorem keeps_planUpdate {message : Value} {threadId turnId : String} {scope : DirectoryScope}
    (hid : message.get? "id" = none)
    (hturn : ((message.get "params").get "turnId").asStr = some turnId)
    (h : s' = s.reduceAttached message "turn/plan/updated" (message.get "params") threadId scope) :
    Keeps t s s' ∧ s.sequence < s'.sequence ∧
      ((s.planUpdates.find? (threadId, turnId)).isSome →
        s'.TurnSince threadId turnId (s.sequence + 1)) := by
  have hname : turnIdOf (message.get "params") = some turnId := by
    rw [turnIdOf, hturn]
    rfl
  have hlegacy (u : State) :
      u.reduceLegacyProjection "turn/plan/updated" (message.get "params") threadId = none := by
    unfold reduceLegacyProjection
    simp only [hname]
    split
    · rfl
    · rw [Option.bind_eq_none_iff]
      intro named _
      rw [if_neg (by simp), if_neg (by simp [deltaType])]
  have hbefore (k : String) : Keeps k s ((s.prelude "turn/plan/updated" (message.get "params")
      threadId).project "turn/plan/updated" (message.get "params") threadId) :=
    (keeps_prelude (fun h => absurd h (by decide)) threadId).trans (keeps_project _ _ _ _)
  generalize hmid : (s.prelude "turn/plan/updated" (message.get "params") threadId).project
    "turn/plan/updated" (message.get "params") threadId = mid at hbefore
  have heq : s' = (mid.noteChange "turn/plan/updated" (message.get "params") threadId
      turnId).emit "turn/plan/updated" (message.get "params") none := by
    rw [h, State.reduceAttached, if_neg (by simp), if_neg (by simp), hid]
    simp only
    rw [reduceKnown_eq, hlegacy, hmid, hid]
    simp only [State.noteTurn, hname]
    rw [if_neg (by decide)]
    rfl
  subst heq
  refine ⟨((hbefore t).trans (keeps_noteChange _ _ _ _ _)).trans (keeps_emit _ _ _ _), ?_, ?_⟩
  · have hle := ((hbefore t).trans (keeps_noteChange (t := t) mid "turn/plan/updated"
      (message.get "params") threadId turnId)).sequence
    exact Nat.lt_succ_of_le hle
  · intro hsome
    have hmidSome : (mid.planUpdates.find? (threadId, turnId)).isSome := by
      rwa [(hbefore threadId).held turnId]
    refine ⟨mid.sequence + 1, ?_, Nat.succ_le_succ (hbefore t).sequence⟩
    show (mid.noteChange "turn/plan/updated" (message.get "params") threadId
      turnId).turnSequences.find? (threadId, turnId) = _
    unfold noteChange
    rw [if_pos ⟨by decide, .inr hmidSome⟩]
    simp only
    split
    · show (mid.turnSequences.put _ _).find? _ = _
      rw [Table.find?_put, if_pos rfl]
    · show (mid.turnSequences.put _ _).find? _ = _
      rw [Table.find?_put, if_pos rfl]

/-- An update for another turn. -/
theorem Current.append {n : Nat} {update : LivePlanUpdate} (h : Current log t u n update)
    {key : String × String} (hkey : key ≠ (t, u)) (params : Value) :
    Current (log ++ [(key, params)]) t u n update :=
  { h with latest := by rw [PlanLog.latest_append, if_neg hkey, h.latest] }

/-- An update for a turn of another thread. -/
theorem Plans.append (hs : Plans t log s) {key : String × String} (hkey : key.1 ≠ t)
    (params : Value) : Plans t (log ++ [(key, params)]) s where
  held u update hfound := by
    obtain ⟨hcurrent, hsince⟩ := hs.held u update hfound
    refine ⟨hcurrent.append ?_ params, hsince⟩
    rintro rfl
    exact hkey rfl
  waiting update hfound := by
    obtain ⟨u, hcurrent⟩ := hs.waiting update hfound
    refine ⟨u, hcurrent.append ?_ params⟩
    rintro rfl
    exact hkey rfl
  known := hs.known

/-- `storePlan` asks whether the turn is known. -/
theorem any_isText_iff (s : State) (t u : String) :
    (((s.threads.find? t).map turnsOf |>.getD []).any fun turn => isText (turn.get "id") u) = true ↔
      s.Knows t u := by
  rw [List.any_eq_true]
  cases hthread : s.threads.find? t with
  | none => simp [State.Knows, hthread]
  | some thread => simp [State.Knows, HasTurn, hthread, isText]

/-- **A plan update** is the last one for its turn: in the table, in place of an older one there or
of one that waited; or waiting, if its turn is not known and so has none in the table. -/
theorem Plans.storePlan (hs : Plans t log s) {params : Value}
    (hturn : (params.get "turnId").asStr = some u) (hkeeps : Keeps t (s.storePlan params t u) s')
    (hsequence : s.sequence < s'.sequence)
    (hsince : ((s.storePlan params t u).planUpdates.find? (t, u)).isSome →
      s'.TurnSince t u (s.sequence + 1)) :
    Plans t (log ++ [((t, u), params)]) s' := by
  have hnew (n : Nat) (hn : s.sequence < n) : Current (log ++ [((t, u), params)]) t u n
      { epoch := s.nativeEventEpoch, sequence := s.sequence + 1, params } :=
    { turn := hturn
      latest := by rw [PlanLog.latest_append, if_pos rfl]
      sequence := hn }
  have hold (named : String) (hne : named ≠ u) (update : LivePlanUpdate)
      (hcurrent : Current log t named s.sequence update) :
      Current (log ++ [((t, u), params)]) t named s'.sequence update :=
    (hcurrent.append (fun h => hne (Prod.mk.inj h).2.symm) params).later (Nat.le_of_lt hsequence)
  by_cases hknown : s.Knows t u
  · have hstored : s.storePlan params t u = { s with
        pendingPlanUpdates :=
          if (s.pendingPlanUpdates.find? t).any
              fun waiting => isText (waiting.params.get "turnId") u then
            s.pendingPlanUpdates.erase t
          else s.pendingPlanUpdates
        planUpdates := s.planUpdates.put (t, u)
          { epoch := s.nativeEventEpoch, sequence := s.sequence + 1, params } } :=
      if_pos ((any_isText_iff s t u).mpr hknown)
    rw [hstored] at hkeeps hsince
    have hfind (named : String) : s'.planUpdates.find? (t, named) = if named = u then
        some { epoch := s.nativeEventEpoch, sequence := s.sequence + 1, params }
        else s.planUpdates.find? (t, named) := by
      rw [hkeeps.held named]
      show (s.planUpdates.put _ _).find? _ = _
      rw [Table.find?_put]
      simp only [Prod.mk.injEq, true_and]
    constructor
    · constructor
      · intro named update hfound
        rw [hfind] at hfound
        split at hfound
        · next heq =>
          subst heq
          cases hfound
          refine ⟨hnew _ hsequence, hsince ?_⟩
          show ((s.planUpdates.put _ _).find? _).isSome
          rw [Table.find?_put, if_pos rfl]
          rfl
        · next hne =>
          obtain ⟨hcurrent, hdate⟩ := hs.held named update hfound
          exact ⟨hold named hne update hcurrent, hkeeps.turns named _ hcurrent.sequence hdate⟩
      · intro update hfound
        rw [hkeeps.waiting] at hfound
        simp only at hfound
        split at hfound
        · rw [Table.find?_erase, if_pos rfl] at hfound
          contradiction
        · next hother =>
          obtain ⟨named, hcurrent⟩ := hs.waiting update hfound
          refine ⟨named, hold named ?_ update hcurrent⟩
          rintro rfl
          rw [hfound] at hother
          exact hother (by simpa [isText] using hcurrent.turn)
    · intro named update hfound
      apply hkeeps.known
      rw [hfind] at hfound
      split at hfound
      · next heq =>
        subst heq
        exact hknown
      · exact hs.known named update hfound
  · have hstored : s.storePlan params t u = { s with
        pendingPlanUpdates := s.pendingPlanUpdates.put t
          { epoch := s.nativeEventEpoch, sequence := s.sequence + 1, params } } :=
      if_neg fun h => hknown ((any_isText_iff s t u).mp h)
    rw [hstored] at hkeeps
    have hne (named : String) (update : LivePlanUpdate)
        (hfound : s'.planUpdates.find? (t, named) = some update) :
        named ≠ u ∧ s.planUpdates.find? (t, named) = some update := by
      have hfound : s.planUpdates.find? (t, named) = some update := (hkeeps.held named).symm.trans hfound
      refine ⟨?_, hfound⟩
      rintro rfl
      exact hknown (hs.known named update hfound)
    constructor
    · constructor
      · intro named update hfound
        obtain ⟨hother, hfound⟩ := hne named update hfound
        obtain ⟨hcurrent, hdate⟩ := hs.held named update hfound
        exact ⟨hold named hother update hcurrent, hkeeps.turns named _ hcurrent.sequence hdate⟩
      · intro update hfound
        rw [hkeeps.waiting] at hfound
        simp only [Table.find?_put, if_true] at hfound
        cases hfound
        exact ⟨u, hnew _ hsequence⟩
    · intro named update hfound
      obtain ⟨-, hfound⟩ := hne named update hfound
      exact hkeeps.known named (hs.known named update hfound)

/-- Storing a plan of another thread. -/
theorem keeps_storePlan {threadId : String} (h : t ≠ threadId) (s : State) (params : Value)
    (turnId : String) : Keeps t s (s.storePlan params threadId turnId) := by
  unfold State.storePlan
  simp only
  split
  · refine ⟨⟨Nat.le_refl _, fun u => ?_, ?_, fun _ _ _ h => h⟩, fun _ h => h⟩
    · show (s.planUpdates.put _ _).find? _ = _
      rw [Table.find?_put, if_neg fun heq => h (Prod.mk.inj heq).1]
    · show (if _ then _ else _ : Table String LivePlanUpdate).find? t = _
      split
      · exact find?_erase_of_ne h
      · rfl
  · exact ⟨⟨Nat.le_refl _, fun _ => rfl, find?_put_of_ne h, fun _ _ _ h => h⟩, fun _ h => h⟩

theorem sequence_storePlan (s : State) (params : Value) (threadId turnId : String) :
    (s.storePlan params threadId turnId).sequence = s.sequence := by
  unfold State.storePlan
  simp only
  split
  · rfl
  · rfl

/-- **A notification**: plan updates are notifications, and a thread that starts is not held yet. -/
theorem Plans.reduceScoped (hs : Plans t log s) {message : Value} {scope : DirectoryScope}
    (hplan : isText (message.get "method") "turn/plan/updated" = true →
      message.get? "id" = none)
    (hstarts : starts message t = true → s.threads.find? t = none) :
    Plans t (log ++ (s.receivedPlan message scope).toList) (s.reduceScoped message scope) := by
  by_cases hmethod : isText (message.get "method") "turn/plan/updated" = true
  · obtain ⟨hnone, heq⟩ | ⟨threadId, turnId, hreceived, hturn, heq⟩ :=
      @reduceScoped_plan s message scope hmethod
    · rw [hnone, heq, Option.toList_none, List.append_nil]
      exact hs
    · obtain ⟨hkeeps, hsequence, hsince⟩ := keeps_planUpdate (t := t) (hplan hmethod) hturn heq
      rw [hreceived, Option.toList_some]
      by_cases hthread : t = threadId
      · subst hthread
        rw [sequence_storePlan] at hsequence hsince
        exact hs.storePlan hturn hkeeps hsequence hsince
      · exact (hs.append (fun h => hthread h.symm) _).keeps
          ((keeps_storePlan hthread _ _ _).trans hkeeps)
  · have hnone : s.receivedPlan message scope = none := if_neg hmethod
    rw [hnone, Option.toList_none, List.append_nil]
    unfold State.reduceScoped
    cases htext : (message.get "method").asStr with
    | none => exact hs
    | some method =>
      simp only
      cases hid : threadIdOf (message.get "params") with
      | none =>
        simp only
        split
        · exact hs
        · exact hs.keeps ((keeps_resolveRequest _ _ _).trans (keeps_emit _ _ _ _))
      | some id =>
        have harchived : Plans t log (s.archiveEvent method id) := hs.keeps (keeps_archiveEvent s method id)
        simp only
        split
        · split
          · exact harchived.keeps (keeps_emit _ _ _ _)
          · exact harchived
        · have hother : method ≠ "turn/plan/updated" := by
            rintro rfl
            exact hmethod (by simp [isText, htext])
          rw [if_neg hother]
          refine harchived.reduceAttached (fun hstarted hname => ?_) message id scope
          have hunheld := hstarts (by simp [starts, isText, htext, hstarted, hname])
          rwa [State.archiveEvent, if_neg (by simp [hstarted])]

/-! ## snapshots -/

/-- What a snapshot stores of a thread, apart from the thread. -/
theorem keepsPlans_storeSnapshot (s : State) (id : String) (result : Value) (after : Option Nat) :
    KeepsPlans t s (s.storeSnapshot id result after) :=
  .of_turns rfl rfl (.inl rfl) (Nat.le_refl _)

theorem turnsOf_rememberSettings (s : State) (id : String) (after : Option Nat)
    (result thread : Value) : turnsOf (s.rememberSettings id after result thread).2 = turnsOf thread := by
  unfold rememberSettings
  split
  · split
    · split
      · exact turnsOf_write (by decide) _ _
      · rfl
    · rfl
  · rfl

/-- **A snapshot.** A plan that came after the read is for a turn that changed after it, and the
merge keeps such a turn. -/
theorem Plans.merge (hs : Plans t log s) {id : String} {result : Value} {after : Nat}
    (hturns : ((result.get "thread").get "turns").asArray.isSome) :
    Plans t log (s.merge id result (some after)) := by
  have hstored : Plans t log
      ((s.storeSnapshot id result (some after)).retainPlansForHistory id (some after)) := by
    refine (hs.toDated.keeps (keepsPlans_storeSnapshot s id result (some after))).retain ?_
    intro u update hfound hnewer
    have hfound : s.planUpdates.find? (t, u) = some update := hfound
    have hknown := hs.known u update hfound
    by_cases hid : t = id
    · subst hid
      have hlater := hnewer rfl
      rw [Option.any_some, decide_eq_true_eq] at hlater
      obtain ⟨changed, hchanged, hle⟩ := (hs.held u update hfound).2
      refine ⟨_, (Table.find?_put _ _ _ _).trans (if_pos rfl), ?_⟩
      rw [turnsOf_rememberSettings]
      refine hasTurn_mergeThread hturns hknown ?_
      rw [hchanged, Option.any_some, decide_eq_true_eq]
      omega
    · obtain ⟨thread, hthread, hhas⟩ := hknown
      exact ⟨thread, (find?_put_of_ne hid).trans hthread, hhas⟩
  exact hstored.keeps (.of_planned rfl (Nat.le_refl _))

theorem Plans.rememberScoped (hs : Plans t log s) {read : Read} {result : Value}
    {scope : DirectoryScope}
    (hid : isText ((result.get "thread").get "id") read.threadId = true)
    (hturns : ((result.get "thread").get "turns").asArray.isSome) :
    Plans t log (s.rememberScoped result (some read.after) scope) := by
  obtain heq | ⟨-, heq | heq⟩ :=
    @rememberScoped_cases s read.threadId result read.after scope hid
  · rwa [heq]
  · rw [heq]
    exact hs.forget _ _
  · rw [heq]
    exact hs.merge hturns

/-- Archived history is stored only where no turn changed after the read, so no plan came. -/
theorem Plans.rememberArchived (hs : Plans t log s) {thread : Value} {epoch after : Nat}
    {scope : DirectoryScope} (h : s.rememberArchivedScoped thread epoch after scope = some s') :
    Plans t log s' := by
  unfold rememberArchivedScoped at h
  obtain ⟨id, -, h⟩ := Option.bind_eq_some_iff.mp h
  split at h
  · contradiction
  · next hguard =>
    simp only [not_or, Bool.not_eq_true] at hguard
    obtain ⟨-, -, -, hnewer, -⟩ := hguard
    obtain rfl := Option.some.inj h
    refine Plans.keeps (Dated.retain (hs.toDated.keeps ?_) ?_) (.of_planned rfl (Nat.le_refl _))
    · exact .of_turns rfl rfl (.inl rfl) (Nat.le_refl _)
    · intro u update hfound hlater
      have hfound : s.planUpdates.find? (t, u) = some update := hfound
      by_cases hid : t = id
      · subst hid
        have hlater := hlater rfl
        rw [Option.any_some, decide_eq_true_eq] at hlater
        obtain ⟨changed, hchanged, hle⟩ := (hs.held u update hfound).2
        simp only [newerThan, Bool.or_eq_false_iff] at hnewer
        have hturn := List.any_eq_false.mp hnewer.2 _ (Table.mem_iff.mpr hchanged)
        simp only [decide_true, Bool.true_and, decide_eq_true_eq] at hturn
        omega
      · obtain ⟨held, hthread, hhas⟩ := hs.known u update hfound
        exact ⟨held, (find?_put_of_ne hid).trans hthread, hhas⟩

/-! ## connections and the worker -/

/-- A connection that replaces another keeps no plan of it. -/
theorem Plans.connect (hs : Plans t log s) (c : Connection) : Plans t log (s.connect c) := by
  cases hreplaces : s.replaces c with
  | true =>
    refine .of_none (fun u => ?_) ?_
    · unfold State.connect
      simp only [hreplaces, if_true]
      split
      · rfl
      · rfl
    · unfold State.connect
      simp only [hreplaces, if_true]
      split
      · rfl
      · rfl
  | false =>
    refine hs.keeps ?_
    unfold State.connect
    simp only [hreplaces, Bool.false_eq_true, if_false]
    split
    · exact .of_planned rfl (Nat.le_succ _)
    · exact .of_planned rfl (Nat.le_succ _)

theorem keeps_beginResume (s : State) (id : String) : Keeps t s (s.beginResume id) := by
  unfold beginResume
  simp only
  split
  · exact .of_planned rfl (Nat.le_refl _)
  · exact .of_planned rfl (Nat.le_refl _)

theorem keeps_finishResume (s : State) (id : String) : Keeps t s (s.finishResume id) := by
  have hend (u : State) (hu : u.planned = s.planned) (hsequence : u.sequence = s.sequence) :
      Keeps t s (if id ∈ u.archivedThreads ∧ (u.resumesInFlight.find? id).isNone then
        u.dropPending id else u) := by
    split
    · exact .of_planned hu (Nat.le_of_eq hsequence.symm)
    · exact .of_planned hu (Nat.le_of_eq hsequence.symm)
  unfold finishResume
  split
  · exact hend s rfl rfl
  · exact hend _ rfl rfl

namespace Session

/-! ## runs -/

variable {g g' : Session} {e : Event} {es : List Event}

/-- The plan update that an event delivers. -/
def receivedPlan (g : Session) : Event → Option ((String × String) × Value)
  | .notify message scope => g.state.receivedPlan message scope
  | _ => none

/-- The plan updates received while the events happen, in their order. -/
def receivedPlans (g : Session) : List Event → PlanLog
  | [] => []
  | e :: es =>
    (g.receivedPlan e).toList ++
      match g.step e with
      | some g' => g'.receivedPlans es
      | none => []

/-- An event of a gateway that stays on and gives up no thread, in the shapes of the protocol: a
plan update is a notification, a reply has the turns of its thread, and a thread that starts is
not one that is held. -/
def Goes (g : Session) : Event → Prop
  | .notify message _ =>
    (isText (message.get "method") "turn/plan/updated" = true → message.get? "id" = none) ∧
      ∀ t, starts message t = true → g.state.threads.find? t = none
  | .reply _ result _ => ((result.get "thread").get "turns").asArray.isSome
  | .recoverFailed _ _ | .deactivate => False
  | _ => True

/-- Such a step. -/
def GoesOn (g : Session) (e : Event) (g' : Session) : Prop := g.Goes e ∧ g.step e = some g'

theorem step_plans (hs : Plans t log g.state) (h : GoesOn g e g') :
    Plans t (log ++ (g.receivedPlan e).toList) g'.state := by
  obtain ⟨hgoes, hstep⟩ := h
  cases e
  case notify message scope =>
    cases hstep
    exact hs.reduceScoped hgoes.1 (hgoes.2 t)
  all_goals simp only [receivedPlan, Option.toList_none, List.append_nil]
  case reply read result scope =>
    unfold step at hstep
    simp only at hstep
    split at hstep
    · next hanswers =>
      cases hstep
      exact hs.rememberScoped hanswers.2 hgoes
    · contradiction
  case archived thread epoch after scope =>
    cases hstep
    cases hremembered : g.state.rememberArchivedScoped thread epoch after scope with
    | none =>
      rw [Option.getD_none]
      exact hs
    | some s' =>
      rw [Option.getD_some]
      exact hs.rememberArchived hremembered
  case recoverFailed threadId message => exact absurd hgoes id
  case deactivate => exact absurd hgoes id
  case connect c =>
    cases hstep
    exact hs.connect c
  case reconnect cause =>
    cases hstep
    have hlost : Plans t log { g.state with connectionError := some cause } :=
      hs.keeps (.of_planned rfl (Nat.le_refl _))
    exact hlost.connect .reconnecting
  case begin threadId =>
    cases hstep
    exact hs.keeps (keeps_beginResume _ _)
  case finish threadId =>
    cases hstep
    exact hs.keeps (keeps_finishResume _ _)
  case recoverArchived threadId =>
    cases hstep
    exact hs.keeps (.of_planned rfl (Nat.le_succ _))
  all_goals
    cases hstep
    exact hs.keeps (.of_planned rfl (Nat.le_refl _))

/-- A whole run. -/
theorem run_plans (h : Run GoesOn g es g') (hs : Plans t log g.state) :
    Plans t (log ++ g.receivedPlans es) g'.state := by
  induction h generalizing log with
  | nil g => simpa [receivedPlans] using hs
  | cons hstep _ ih =>
    rw [receivedPlans, hstep.2, ← List.append_assoc]
    exact ih (step_plans hs hstep)

theorem goes_notify {message : Value} (hid : message.get? "id" = none)
    (hmethod : isText (message.get "method") "thread/started" = false) (scope : DirectoryScope) :
    g.Goes (.notify message scope) := by
  refine ⟨fun _ => hid, fun t hstarts => ?_⟩
  rw [starts, hmethod] at hstarts
  contradiction

/-- The snapshot of a thread shows the plans of its known turns that are in the table. -/
theorem held_of_shown {s : State} {queue plan : Value}
    (h : plan ∈ ((s.snapshot t queue).get "planUpdates").asArray.getD []) :
    ∃ u update, s.planUpdates.find? (t, u) = some update ∧ update.params = plan := by
  have hshown : plan ∈ s.plansShown t := h
  unfold State.plansShown at hshown
  obtain ⟨turn, -, hplan⟩ := List.mem_filterMap.mp hshown
  obtain ⟨u, -, hplan⟩ := Option.bind_eq_some_iff.mp hplan
  obtain ⟨update, hfound, hparams⟩ := Option.map_eq_some_iff.mp hplan
  exact ⟨u, update, (Option.filter_eq_some_iff.mp hfound).1, hparams⟩

/-- **A plan never goes back.** Whatever plan updates for known and unknown turns, starts and ends
of turns, snapshots and other events came: a plan that the snapshot of a thread shows is for a turn
of it, and is the last update that was received for that turn. -/
theorem plan_is_latest {roots : List String} {requestNamespace : String}
    (h : Run GoesOn (start roots requestNamespace) es g) {t : String} {queue plan : Value}
    (hshown : plan ∈ ((g.state.snapshot t queue).get "planUpdates").asArray.getD []) :
    ∃ u, (plan.get "turnId").asStr = some u ∧ g.state.Knows t u ∧
      ((start roots requestNamespace).receivedPlans es).latest (t, u) = some plan := by
  have hstart : Plans t [] (start roots requestNamespace).state := .of_none (fun _ => rfl) rfl
  have hplans := run_plans h hstart
  obtain ⟨u, update, hfound, rfl⟩ := held_of_shown hshown
  have hcurrent := (hplans.held u update hfound).1
  exact ⟨u, hcurrent.turn, hplans.known u update hfound, hcurrent.latest⟩

/-- A plan of one step for a turn of thread `t`. -/
def planFor (turn step : String) : Value :=
  .obj [("threadId", .str "t"), ("turnId", .str turn),
    ("plan", .arr [.obj [("step", .str step), ("status", .str "pending")]])]

/-- Two plans come before their turn; the second, which waits in place of the first, is shown when
the turn has started. -/
def earlyPlans : List Event :=
  [.issue "t", .reply ⟨"t", 0, false⟩ resumed .unrestricted,
    .notify (.obj [("method", .str "turn/plan/updated"), ("params", planFor "a" "first")])
      .unrestricted,
    .notify (.obj [("method", .str "turn/plan/updated"), ("params", planFor "a" "second")])
      .unrestricted,
    .notify (.obj [("method", .str "turn/started"), ("params", .obj [("threadId", .str "t"),
      ("turn", .obj [("id", .str "a"), ("status", .str "inProgress"), ("items", .arr [])])])])
      .unrestricted]

theorem plan_is_latest_early :
    ∃ g, Run GoesOn (start [] "n") earlyPlans g ∧
      planFor "a" "second" ∈ ((g.state.snapshot "t" .null).get "planUpdates").asArray.getD [] ∧
      ∃ u, ((planFor "a" "second").get "turnId").asStr = some u ∧ g.state.Knows "t" u ∧
        ((start [] "n").receivedPlans earlyPlans).latest ("t", u) =
          some (planFor "a" "second") := by
  obtain ⟨g, hrun, hshown⟩ : ∃ g, Run GoesOn (start [] "n") earlyPlans g ∧
      planFor "a" "second" ∈ ((g.state.snapshot "t" .null).get "planUpdates").asArray.getD [] := by
    refine ⟨_, .cons ⟨trivial, rfl⟩ <| .cons ⟨rfl, rfl⟩ <|
      .cons ⟨goes_notify rfl (by decide) _, rfl⟩ <| .cons ⟨goes_notify rfl (by decide) _, rfl⟩ <|
        .cons ⟨goes_notify rfl (by decide) _, rfl⟩ <| .nil _, ?_⟩
    decide +kernel
  exact ⟨g, hrun, hshown, plan_is_latest hrun hshown⟩

end Session

end ClaudeReplay.Gateway
