import ClaudeReplay.Lib.Chase
import ClaudeReplay.Linking.Procs

/-!
# ClaudeReplay.Linking.Families

The family that the page lists a session under.

A fork's transcript is for the most part a copy of its origin's, so the rail shows one row
per family: the session that the fork edges lead back to. `familyRoot` follows the edges
for at most 64 steps. The families are consistent (`Consistent`) exactly when each chain of
edges ends within 64 and each cycle's length divides 64 (`consistent_iff`).

Of a row only the fork edge is kept. What a process's argv says of a fork is given.
-/

namespace ClaudeReplay.Linking

open Lib

/-- The `fork_from` of each row: the session that its transcript is a fork of. -/
abbrev Forks := Table Sid (Option Sid)

namespace Forks

variable (forks : Forks)

def isRow (sid : Sid) : Bool := (forks.find? sid).isSome

/-- The fork edge of a row, if it leads to a row. -/
def origin (sid : Sid) : Option Sid := ((forks.find? sid).bind id).filter forks.isRow

/-- One turn of the loop: the edge to another row. -/
def step (cur : Sid) : Option Sid :=
  match (forks.find? cur).bind id with
  | some next => if forks.isRow next ∧ next ≠ cur then some next else none
  | none => none

/-- `family_root`: follow `fork_from` until a session that is not itself a fork. -/
def familyRoot (sid : Sid) : Sid := chase forks.step 64 sid

/-- What the page's row says of its family. -/
structure FamilyFields where
  family : Sid
  isFork : Bool
  sideOf : Option Sid
  deriving DecidableEq

/-- The fields of one row. `sideOf` are the starters of the desktop's side sessions. -/
def familyFields (sideOf : Table Sid Sid) (sid : Sid) : FamilyFields where
  family := forks.familyRoot sid
  isFork := forks.familyRoot sid ≠ sid
  sideOf := (sideOf.find? sid).filter fun starter =>
    forks.isRow starter && forks.familyRoot starter != forks.familyRoot sid

/-! ## consistent families -/

variable {forks}

theorem isRow_of_origin {a b : Sid} (h : forks.origin a = some b) :
    forks.isRow a = true ∧ forks.isRow b = true := by
  obtain ⟨hfrom, hrow⟩ := Option.filter_eq_some_iff.mp h
  refine ⟨?_, hrow⟩
  cases hfind : forks.find? a with
  | none => simp [hfind] at hfrom
  | some _ => simp [isRow, hfind]

/-- The loop steps along each edge but one to the row itself. -/
theorem step_eq (sid : Sid) : forks.step sid = (forks.origin sid).filter (· ≠ sid) := by
  simp only [step, origin]
  cases (forks.find? sid).bind id with
  | none => rfl
  | some next => by_cases hrow : forks.isRow next = true <;> simp [Option.filter, hrow]

/-- What `family_root` finds is a chase along the edges. -/
theorem familyRoot_eq (sid : Sid) : forks.familyRoot sid = chase forks.origin 64 sid := by
  suffices h : ∀ n sid, chase forks.step n sid = chase forks.origin n sid from h 64 sid
  intro n
  induction n with
  | zero => exact fun _ => rfl
  | succ n ih =>
    intro sid
    cases horigin : forks.origin sid with
    | none => rw [chase_none horigin, chase_none (by simp [step_eq, horigin])]
    | some next =>
      by_cases hself : next = sid
      · subst hself
        have hstill : Still forks.origin next := by simp [Still, horigin]
        rw [hstill.chase, chase_none (by simp [step_eq, horigin])]
      · have hstep : forks.step sid = some next := by simp [step_eq, horigin, hself]
        rw [chase_succ_some horigin, chase_succ_some hstep, ih]

/-- The families of an index are consistent: the family of a row is a row that is the root
of its own family and no fork, the rows that an edge joins have one family unless the edge
lies on a cycle, and a row on a cycle is its own family. -/
structure Consistent (forks : Forks) (sideOf : Table Sid Sid) : Prop where
  row : ∀ sid, forks.isRow sid = true → forks.isRow (forks.familyFields sideOf sid).family = true
  root : ∀ sid, forks.isRow sid = true →
    (forks.familyFields sideOf (forks.familyFields sideOf sid).family).family =
      (forks.familyFields sideOf sid).family
  not_fork : ∀ sid, forks.isRow sid = true →
    (forks.familyFields sideOf (forks.familyFields sideOf sid).family).isFork = false
  joined : ∀ a b, forks.origin a = some b → ¬(∃ n, Leads forks.origin n b a) →
    (forks.familyFields sideOf a).family = (forks.familyFields sideOf b).family
  own : ∀ sid, OnCycle forks.origin sid → (forks.familyFields sideOf sid).family = sid

theorem isRow_leads {n : Nat} {a b : Sid} (ha : forks.isRow a = true)
    (h : Leads forks.origin n a b) : forks.isRow b = true := by
  induction n generalizing a with
  | zero =>
    cases h
    exact ha
  | succ n ih =>
    obtain ⟨c, hc, hrest⟩ := h
    exact ih (isRow_of_origin hc).2 hrest

/-- **The families are consistent** exactly when each chain of fork edges ends within 64 and
each cycle is of a length that divides 64, with nothing leading into it. -/
theorem consistent_iff (forks : Forks) (sideOf : Table Sid Sid) :
    forks.Consistent sideOf ↔ ∀ sid, forks.isRow sid = true →
      EndsWithin forks.origin 64 sid ∨ ∃ n, 0 < n ∧ n ∣ 64 ∧ Leads forks.origin n sid sid := by
  simp only [← settled_iff]
  constructor
  · intro h sid hrow
    constructor
    · simpa [familyFields, familyRoot_eq] using h.root sid hrow
    · intro b hb hback
      simpa [familyFields, familyRoot_eq] using h.joined sid b hb hback
    · intro hcycle
      simpa [familyFields, familyRoot_eq] using h.own sid hcycle
  · intro h
    constructor
    · intro sid hrow
      obtain ⟨m, _, hway⟩ := leads_chase forks.origin 64 sid
      simpa [familyFields, familyRoot_eq] using isRow_leads hrow hway
    · intro sid hrow
      simpa [familyFields, familyRoot_eq] using (h sid hrow).root
    · intro sid hrow
      simpa [familyFields, familyRoot_eq] using (h sid hrow).root
    · intro a b hedge hback
      simpa [familyFields, familyRoot_eq] using
        (h a (isRow_of_origin hedge).1).joined b hedge hback
    · intro sid hcycle
      obtain ⟨b, hb⟩ := hcycle.exists_next
      simpa [familyFields, familyRoot_eq] using (h sid (isRow_of_origin hb).1).own hcycle

/-- Three forks in a circle: 64 edges lead from each to the next. -/
def circle : Forks := ⟨[("a", some "b"), ("b", some "c"), ("c", some "a")], by decide⟩

theorem circle_not_consistent : ¬circle.Consistent .empty := by
  intro h
  have hcycle : OnCycle circle.origin "a" :=
    ⟨3, by decide, "b", by decide, "c", by decide, "a", by decide, rfl⟩
  exact absurd (h.own "a" hcycle) (by decide)

end Forks

end ClaudeReplay.Linking
