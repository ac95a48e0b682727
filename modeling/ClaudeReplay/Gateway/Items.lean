import ClaudeReplay.Gateway.Reduce

/-!
# ClaudeReplay.Gateway.Items

What a change leaves of turns and their ids: another field of the thread, the items of a turn, and
the metadata of another turn of the same id (`id_copyTurnMetadata`).
-/

namespace ClaudeReplay.Gateway

open Lib

/-- Writing any other field leaves the turns. -/
theorem turnsOf_write {k : String} (h : "turns" ≠ k) (thread x : Value) :
    turnsOf (thread.write k x) = turnsOf thread := by
  rw [turnsOf, Value.get_write_of_ne h, turnsOf]

theorem get_id_mapArr (turn : Value) (f : List Value → List Value) :
    (turn.mapArr "items" f).get "id" = turn.get "id" :=
  Value.get_mapArr_of_ne (by decide) turn f

/-- A field of a turn whose metadata was copied. -/
theorem get?_copyTurnMetadata (old fields : List (String × Value)) (k : String) :
    (copyTurnMetadata (.obj old) (.obj fields)).get? k =
      if k = "items" ∨ k = "itemsView" then old.lookup k
      else (fields.lookup k).or (old.lookup k) := by
  have hobj (kept : List (String × Value)) :
      ∃ new, kept.foldr (fun f target => target.set f.1 f.2) (Value.obj old) = .obj new := by
    induction kept with
    | nil => exact ⟨old, rfl⟩
    | cons f kept ih =>
      obtain ⟨new, hnew⟩ := ih
      rw [List.foldr_cons, hnew, Value.set]
      split
      · exact ⟨_, rfl⟩
      · exact ⟨_, rfl⟩
  simp only [copyTurnMetadata]
  induction fields with
  | nil =>
    show old.lookup k = _
    simp
  | cons f fields ih =>
    obtain ⟨j, v⟩ := f
    rw [List.filter_cons]
    split
    · next hkept =>
      obtain ⟨new, hnew⟩ := hobj (fields.filter fun f => f.1 ≠ "items" ∧ f.1 ≠ "itemsView")
      rw [hnew] at ih
      rw [List.foldr_cons, hnew, Value.get?_set, ih, lookup_cons_ite]
      simp only [decide_eq_true_eq] at hkept
      by_cases hk : k = j
      · subst hk
        simp [hkept.1, hkept.2]
      · simp [hk]
    · next hdropped =>
      rw [ih, lookup_cons_ite]
      split
      · rfl
      · next hk =>
        have hne : k ≠ j := by
          rintro rfl
          exact hdropped (by simpa [not_or] using hk)
        simp [hne]

/-- A turn keeps its id when it is given the metadata of one under the same id. -/
theorem id_copyTurnMetadata {target source : Value} (h : target.get "id" = source.get "id") :
    (copyTurnMetadata target source).get "id" = target.get "id" := by
  cases target with
  | obj old =>
    cases source with
    | obj fields =>
      rw [Value.get, get?_copyTurnMetadata, if_neg (by decide)]
      cases hid : fields.lookup "id" with
      | none => rfl
      | some v =>
        rw [h]
        simp [Value.get, Value.get?, hid]
    | _ => rfl
  | _ => rfl

end ClaudeReplay.Gateway
