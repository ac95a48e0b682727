import ClaudeReplay.Gateway.Histories
import ClaudeReplay.Gateway.Items

/-!
# ClaudeReplay.Gateway.Known

Which turns the history of a thread is known to have. A notification may change what is known of
a turn, but does not take the turn away (`HasTurn.projectThread`); a snapshot takes away the turns
it does not have, except those that changed after it was read (`hasTurn_mergeThread`).
-/

namespace ClaudeReplay.Gateway

open Lib

/-- One of the turns has this id. -/
def HasTurn (turns : List Value) (u : String) : Prop :=
  ∃ turn ∈ turns, (turn.get "id").asStr = some u

/-- The history of the thread is known to have the turn. -/
def State.Knows (s : State) (t u : String) : Prop :=
  ∃ thread, s.threads.find? t = some thread ∧ HasTurn (turnsOf thread) u

variable {u : String} {turns existing : List Value} {thread : Value}

namespace HasTurn

theorem append (h : HasTurn turns u) (more : List Value) : HasTurn (turns ++ more) u := by
  obtain ⟨turn, hmem, hid⟩ := h
  exact ⟨turn, List.mem_append_left _ hmem, hid⟩

theorem append_self {turn : Value} (h : (turn.get "id").asStr = some u) (turns : List Value) :
    HasTurn (turns ++ [turn]) u :=
  ⟨turn, by simp, h⟩

/-- Changes that leave the ids leave the turns. -/
theorem map {f : Value → Value} (hf : ∀ turn, (f turn).get "id" = turn.get "id")
    (h : HasTurn turns u) : HasTurn (turns.map f) u := by
  obtain ⟨turn, hmem, hid⟩ := h
  exact ⟨f turn, List.mem_map_of_mem hmem, by rw [hf, hid]⟩

theorem modifyFirst {p : Value → Bool} {f : Value → Value}
    (hf : ∀ turn, p turn = true → (f turn).get "id" = turn.get "id") (h : HasTurn turns u) :
    HasTurn (Lib.modifyFirst p f turns) u := by
  induction turns with
  | nil => exact h
  | cons turn turns ih =>
    obtain ⟨found, hmem, hid⟩ := h
    unfold Lib.modifyFirst
    split
    · next hp =>
      obtain rfl | hmem := List.mem_cons.mp hmem
      · exact ⟨f found, List.mem_cons_self, by rw [hf found hp, hid]⟩
      · exact ⟨found, List.mem_cons_of_mem _ hmem, hid⟩
    · obtain rfl | hmem := List.mem_cons.mp hmem
      · exact ⟨found, List.mem_cons_self, hid⟩
      · obtain ⟨kept, hkept, hkeptId⟩ := ih ⟨found, hmem, hid⟩
        exact ⟨kept, List.mem_cons_of_mem _ hkept, hkeptId⟩

/-- A thread that has a turn has an array of them. -/
theorem mapArr {f : List Value → List Value} (h : HasTurn (turnsOf thread) u)
    (hf : HasTurn (turnsOf thread) u → HasTurn (f (turnsOf thread)) u) :
    HasTurn (turnsOf (thread.mapArr "turns" f)) u := by
  have hnew := hf h
  rw [turnsOf] at h hnew ⊢
  rw [Value.asArray_mapArr]
  cases hturns : (thread.get "turns").asArray with
  | none =>
    rw [hturns] at h
    obtain ⟨_, hmem, -⟩ := h
    contradiction
  | some turns =>
    rw [hturns] at hnew
    exact hnew

/-! ## a notification -/

theorem changeItems (h : HasTurn (turnsOf thread) u) (params : Value)
    (f : List Value → List Value) : HasTurn (turnsOf (changeItems thread params f)) u :=
  h.mapArr fun h => h.modifyFirst fun turn _ => get_id_mapArr turn f

theorem placeTurn (h : HasTurn turns u) (turn : Value) : HasTurn (placeTurn turn turns) u := by
  unfold Gateway.placeTurn
  split
  · refine h.modifyFirst fun old hold => ?_
    rw [decide_eq_true_eq] at hold
    unfold replaceTurn
    split
    · exact hold.symm
    · rw [Value.get_write_of_ne (by decide)]
      exact hold.symm
  · exact h.append _

theorem joinTurn (h : HasTurn (turnsOf thread) u) (params : Value) :
    HasTurn (turnsOf (joinTurn thread params)) u := by
  unfold Gateway.joinTurn
  split
  · exact h
  · exact h.mapArr fun h => h.modifyFirst fun turn _ => get_id_mapArr turn _

/-- No notification takes a turn away. -/
theorem projectThread (h : HasTurn (turnsOf thread) u) (method : String) (params : Value) :
    HasTurn (turnsOf (projectThread method params thread)) u := by
  unfold Gateway.projectThread
  split
  · rwa [turnsOf_write (by decide)]
  · split
    · exact h.mapArr fun h => h.placeTurn _
    · split
      · exact h.changeItems params _
      · split
        · unfold changeItem
          split
          · exact (h.joinTurn params).changeItems params _
          · exact h.changeItems params _
        · exact h

end HasTurn

/-! ## a snapshot -/

namespace State

/-- What the merge makes of one cached turn: nothing is lost, and a newer one is there. -/
theorem hasTurn_mergeOne {legacy : Bool} {newer : String → Bool} {turn : Value}
    (h : HasTurn turns u ∨ newer u = true ∧ (turn.get "id").asStr = some u) :
    HasTurn (mergeNewerTurns legacy newer [turn] turns) u := by
  show HasTurn (if _ then if _ then if _ then _ else _ else _ else _) u
  split
  · split
    · next hthere =>
      have hturns : HasTurn turns u := by
        obtain hturns | ⟨-, hid⟩ := h
        · exact hturns
        · obtain ⟨item, hmem, heq⟩ := List.any_eq_true.mp hthere
          rw [decide_eq_true_eq] at heq
          exact ⟨item, hmem, heq ▸ hid⟩
      split
      · exact hturns
      · refine hturns.modifyFirst fun item hitem => ?_
        rw [decide_eq_true_eq] at hitem
        split
        · exact id_copyTurnMetadata hitem
        · exact hitem.symm
    · obtain hturns | ⟨-, hid⟩ := h
      · exact hturns.append _
      · refine HasTurn.append_self ?_ turns
        split
        · rwa [Value.get_write_of_ne (by decide)]
        · exact hid
  · next hold =>
    obtain hturns | ⟨hnewer, hid⟩ := h
    · exact hturns
    · rw [hid, Option.any_some] at hold
      exact absurd hnewer hold

/-- The merge has the snapshot's turns, and the cached ones that are newer. -/
theorem hasTurn_mergeNewerTurns {legacy : Bool} {newer : String → Bool}
    (h : HasTurn turns u ∨ newer u = true ∧ HasTurn existing u) :
    HasTurn (mergeNewerTurns legacy newer existing turns) u := by
  induction existing generalizing turns with
  | nil =>
    obtain hturns | ⟨-, _, hmem, -⟩ := h
    · exact hturns
    · contradiction
  | cons turn existing ih =>
    show HasTurn (mergeNewerTurns legacy newer existing
      (mergeNewerTurns legacy newer [turn] turns)) u
    obtain hturns | ⟨hnewer, found, hmem, hid⟩ := h
    · exact ih (.inl (hasTurn_mergeOne (.inl hturns)))
    · obtain rfl | hmem := List.mem_cons.mp hmem
      · exact ih (.inl (hasTurn_mergeOne (.inr ⟨hnewer, hid⟩)))
      · exact ih (.inr ⟨hnewer, found, hmem, hid⟩)

/-- Streamed items are put into turns that stay. -/
theorem hasTurn_keepLiveItems {legacy : Bool} {live : String → String → Option LiveItem}
    (h : HasTurn turns u) : HasTurn (keepLiveItems legacy live existing turns) u := by
  refine h.map fun turn => ?_
  split
  · split
    · rfl
    · split
      · rfl
      · exact get_id_mapArr turn _
  · rfl

/-- **A merged snapshot** still has a known turn that changed after the read. -/
theorem hasTurn_mergeThread {s : State} {t : String} {after : Nat}
    (hturns : ((thread.get "turns").asArray).isSome) (hknown : s.Knows t u)
    (hnewer : (s.turnSequences.find? (t, u)).any (after < ·) = true) :
    HasTurn (turnsOf (s.mergeThread t (some after) thread)) u := by
  obtain ⟨current, hcurrent, hhas⟩ := hknown
  obtain ⟨turns, harray⟩ : ∃ turns, (current.get "turns").asArray = some turns := by
    cases harray : (current.get "turns").asArray with
    | some turns => exact ⟨turns, rfl⟩
    | none =>
      obtain ⟨_, hmem, -⟩ := hhas
      rw [turnsOf, harray] at hmem
      contradiction
  rw [turnsOf, harray, Option.getD_some] at hhas
  simp only [mergeThread, hcurrent, Option.bind_some, harray]
  rw [turnsOf, Value.asArray_mapArr]
  have hwritten : ∀ (v : Value), ((thread.write "status" v).get "turns").asArray =
      (thread.get "turns").asArray := by
    intro v
    rw [Value.get_write_of_ne (by decide)]
  have hkept : ∀ legacy live snapshot, HasTurn (keepLiveItems legacy live turns
      (mergeNewerTurns legacy (fun u => (s.turnSequences.find? (t, u)).any (after < ·)) turns
        snapshot)) u :=
    fun legacy live snapshot =>
      hasTurn_keepLiveItems (hasTurn_mergeNewerTurns (.inr ⟨hnewer, hhas⟩))
  obtain ⟨snapshot, hsnapshot⟩ := Option.isSome_iff_exists.mp hturns
  split
  · rw [hwritten, hsnapshot]
    exact hkept _ _ _
  · rw [hsnapshot]
    exact hkept _ _ _

end State

end ClaudeReplay.Gateway
