/-!
# ClaudeReplay.Lib.Chase

A partial successor function, followed for a bounded number of steps.

`chase` stops where there is no successor, and otherwise where its fuel ends. Its answer
is a root wherever the fuel reaches the end of each chain, and wherever it runs a cycle
a whole number of times; `settled_iff` says that these are the only ways.
-/

namespace ClaudeReplay.Lib

variable {α : Type} {next : α → Option α} {x y z : α} {m n : Nat}

/-- Follows `next` for at most `fuel` steps. -/
def chase (next : α → Option α) : Nat → α → α
  | 0, x => x
  | fuel + 1, x => ((next x).map (chase next fuel)).getD x

/-- `n` steps lead from one element to another. -/
def Leads (next : α → Option α) : Nat → α → α → Prop
  | 0, x, z => x = z
  | n + 1, x, z => ∃ y, next x = some y ∧ Leads next n y z

/-- No step leads away. -/
def Still (next : α → Option α) (x : α) : Prop := ∀ y, next x = some y → y = x

/-- A chain that is followed to its end within `fuel` steps. -/
def EndsWithin (next : α → Option α) (fuel : Nat) (x : α) : Prop :=
  ∃ n ≤ fuel, ∃ y, Leads next n x y ∧ Still next y

def OnCycle (next : α → Option α) (x : α) : Prop := ∃ n, 0 < n ∧ Leads next n x x

namespace Leads

theorem trans (h : Leads next m x y) (h' : Leads next n y z) : Leads next (m + n) x z := by
  induction m generalizing x with
  | zero =>
    cases h
    simpa using h'
  | succ m ih =>
    obtain ⟨w, hw, hrest⟩ := h
    rw [Nat.succ_add]
    exact ⟨w, hw, ih hrest⟩

/-- Steps lead to one place. -/
theorem unique (h : Leads next n x y) (h' : Leads next n x z) : y = z := by
  induction n generalizing x with
  | zero => exact h.symm.trans h'
  | succ n ih =>
    obtain ⟨w, hw, hrest⟩ := h
    obtain ⟨w', hw', hrest'⟩ := h'
    rw [hw] at hw'
    cases hw'
    exact ih hrest hrest'

/-- A way is cut behind any of its steps. -/
theorem split (h : Leads next (m + n) x z) : ∃ y, Leads next m x y ∧ Leads next n y z := by
  induction m generalizing x with
  | zero => exact ⟨x, rfl, by simpa using h⟩
  | succ m ih =>
    rw [Nat.succ_add] at h
    obtain ⟨w, hw, hrest⟩ := h
    obtain ⟨y, hleft, hright⟩ := ih hrest
    exact ⟨y, ⟨w, hw, hleft⟩, hright⟩

theorem stays (h : Leads next n x z) (hx : Still next x) : x = z := by
  induction n generalizing x with
  | zero => exact h
  | succ n ih =>
    obtain ⟨y, hy, hrest⟩ := h
    cases hx y hy
    exact ih hrest hx

/-- A cycle may be run again and again. -/
theorem repeat_mul (h : Leads next n x x) (k : Nat) : Leads next (n * k) x x := by
  induction k with
  | zero => rfl
  | succ k ih =>
    rw [Nat.mul_succ]
    exact ih.trans h

end Leads

namespace OnCycle

theorem step (h : OnCycle next x) (hy : next x = some y) : OnCycle next y := by
  obtain ⟨n, hpos, hcycle⟩ := h
  obtain ⟨k, rfl⟩ := Nat.exists_eq_succ_of_ne_zero (Nat.ne_of_gt hpos)
  obtain ⟨w, hw, hback⟩ := hcycle
  rw [hy] at hw
  cases hw
  exact ⟨k + 1, Nat.succ_pos k, hback.trans (n := 1) ⟨y, hy, rfl⟩⟩

/-- A cycle is run in steps that its least length divides. -/
theorem exists_dvd (h : OnCycle next x) :
    ∃ n, 0 < n ∧ Leads next n x x ∧ ∀ m, Leads next m x x → n ∣ m := by
  classical
  have hleast : ∃ n, (0 < n ∧ Leads next n x x) ∧ ∀ m < n, ¬(0 < m ∧ Leads next m x x) := by
    obtain ⟨n, hn⟩ := h
    induction n using Nat.strongRecOn with
    | ind n ih =>
      by_cases hsmaller : ∃ m < n, 0 < m ∧ Leads next m x x
      · obtain ⟨m, hm, hcycle⟩ := hsmaller
        exact ih m hm hcycle
      · exact ⟨n, hn, fun m hm hcycle => hsmaller ⟨m, hm, hcycle⟩⟩
  obtain ⟨n, ⟨hpos, hcycle⟩, hmin⟩ := hleast
  refine ⟨n, hpos, hcycle, fun m => ?_⟩
  induction m using Nat.strongRecOn with
  | ind m ih =>
    intro hm
    rcases Nat.lt_or_ge m n with hlt | hge
    · cases Nat.eq_zero_or_pos m with
      | inl hzero => simp [hzero]
      | inr hmpos => exact absurd ⟨hmpos, hm⟩ (hmin m hlt)
    · obtain ⟨k, rfl⟩ := Nat.exists_eq_add_of_le hge
      obtain ⟨y, hfirst, hrest⟩ := hm.split
      cases hcycle.unique hfirst
      obtain ⟨c, hc⟩ := ih k (by omega) hrest
      exact ⟨c + 1, by rw [hc, Nat.mul_succ, Nat.add_comm]⟩

/-- A way along a cycle may be gone on to where it began. -/
theorem back (h : OnCycle next x) (hy : Leads next m x y) : ∃ k, Leads next k y x := by
  obtain ⟨n, hpos, hcycle⟩ := h
  have hlong : n * m = m + (n * m - m) := by
    have := Nat.le_mul_of_pos_left m hpos
    omega
  have hmany := hcycle.repeat_mul m
  rw [hlong] at hmany
  obtain ⟨w, hfirst, hrest⟩ := hmany.split
  cases hy.unique hfirst
  exact ⟨_, hrest⟩

theorem exists_next (h : OnCycle next x) : ∃ y, next x = some y := by
  obtain ⟨n, hpos, hcycle⟩ := h
  obtain ⟨k, rfl⟩ := Nat.exists_eq_succ_of_ne_zero (Nat.ne_of_gt hpos)
  obtain ⟨y, hy, _⟩ := hcycle
  exact ⟨y, hy⟩

end OnCycle

/-! ## the chase -/

@[simp] theorem chase_zero (x : α) : chase next 0 x = x := rfl

theorem chase_succ_some (h : next x = some y) (n : Nat) :
    chase next (n + 1) x = chase next n y := by simp [chase, h]

theorem chase_none (h : next x = none) (n : Nat) : chase next n x = x := by
  cases n <;> simp [chase, h]

theorem Still.chase (h : Still next x) (n : Nat) : chase next n x = x := by
  induction n with
  | zero => rfl
  | succ n ih =>
    cases hx : next x with
    | none => exact chase_none hx _
    | some y =>
      cases h y hx
      rw [chase_succ_some hx, ih]

/-- The last step of a chase may be taken apart from the others. -/
theorem chase_succ (n : Nat) (x : α) : chase next (n + 1) x = chase next 1 (chase next n x) := by
  induction n generalizing x with
  | zero => rfl
  | succ n ih =>
    cases hx : next x with
    | none => rw [chase_none hx, chase_none hx, chase_none hx]
    | some y => rw [chase_succ_some hx, ih, chase_succ_some hx]

/-- A chase is a way that its fuel allows. -/
theorem leads_chase (next : α → Option α) (n : Nat) (x : α) :
    ∃ m ≤ n, Leads next m x (chase next n x) := by
  induction n generalizing x with
  | zero => exact ⟨0, Nat.le_refl 0, rfl⟩
  | succ n ih =>
    cases hx : next x with
    | none =>
      rw [chase_none hx]
      exact ⟨0, Nat.zero_le _, rfl⟩
    | some y =>
      obtain ⟨m, hm, hway⟩ := ih y
      rw [chase_succ_some hx]
      exact ⟨m + 1, Nat.succ_le_succ hm, y, hx, hway⟩

theorem Leads.chase_add (h : Leads next m x y) (n : Nat) :
    chase next (m + n) x = chase next n y := by
  induction m generalizing x with
  | zero =>
    cases h
    rw [Nat.zero_add]
  | succ m ih =>
    obtain ⟨w, hw, hrest⟩ := h
    rw [Nat.succ_add, chase_succ_some hw, ih hrest]

theorem Leads.chase (h : Leads next n x y) : chase next n x = y := by
  simpa using h.chase_add 0

/-- A chase to the end of a chain stands there however much fuel is left. -/
theorem Leads.chase_still (h : Leads next m x y) (hy : Still next y) (hm : m ≤ n) :
    Lib.chase next n x = y := by
  obtain ⟨k, rfl⟩ := Nat.exists_eq_add_of_le hm
  rw [h.chase_add, hy.chase]

/-- A chase along a cycle uses all its fuel. -/
theorem OnCycle.leads_chase (h : OnCycle next x) (n : Nat) :
    Leads next n x (Lib.chase next n x) := by
  induction n generalizing x with
  | zero => rfl
  | succ n ih =>
    obtain ⟨y, hy⟩ := h.exists_next
    rw [chase_succ_some hy]
    exact ⟨y, hy, ih (h.step hy)⟩

theorem still_iff : Still next x ↔ chase next 1 x = x := by
  cases hx : next x with
  | none => simp [Still, hx, chase]
  | some y =>
    rw [chase_succ_some hx]
    simp [Still, hx]

/-- The chain of an element on no cycle is followed to its end when one step more finds the
same element. -/
theorem endsWithin_of_chase_succ (h : chase next (n + 1) x = chase next n x) :
    EndsWithin next n x := by
  obtain ⟨m, hm, hway⟩ := leads_chase next n x
  rw [chase_succ] at h
  exact ⟨m, hm, _, hway, still_iff.mpr h⟩

/-! ## when the answers settle -/

/-- The answers are roots, the elements that one step joins have one root unless the step
lies on a cycle, and an element on a cycle is its own. -/
structure Settled (next : α → Option α) (fuel : Nat) (x : α) : Prop where
  root : chase next fuel (chase next fuel x) = chase next fuel x
  joined : ∀ y, next x = some y → ¬(∃ n, Leads next n y x) →
    chase next fuel x = chase next fuel y
  own : OnCycle next x → chase next fuel x = x

theorem onCycle_iff (h : next x = some y) : OnCycle next x ↔ ∃ n, Leads next n y x := by
  constructor
  · rintro ⟨n, hpos, hcycle⟩
    obtain ⟨k, rfl⟩ := Nat.exists_eq_succ_of_ne_zero (Nat.ne_of_gt hpos)
    obtain ⟨w, hw, hback⟩ := hcycle
    rw [h] at hw
    cases hw
    exact ⟨k, hback⟩
  · rintro ⟨n, hback⟩
    exact ⟨n + 1, Nat.succ_pos n, y, h, hback⟩

/-- **The answer at an element settles** exactly when its chain ends within the fuel or
the element lies on a cycle whose length divides the fuel. -/
theorem settled_iff (fuel : Nat) (x : α) :
    Settled next fuel x ↔
      EndsWithin next fuel x ∨ ∃ n, 0 < n ∧ n ∣ fuel ∧ Leads next n x x := by
  constructor
  · intro h
    by_cases hcycle : OnCycle next x
    · obtain ⟨n, hpos, hn, hdvd⟩ := hcycle.exists_dvd
      have hway := hcycle.leads_chase fuel
      rw [h.own hcycle] at hway
      exact .inr ⟨n, hpos, hdvd fuel hway, hn⟩
    · cases hx : next x with
      | none => exact .inl ⟨0, Nat.zero_le _, x, rfl, by simp [Still, hx]⟩
      | some y =>
        left
        apply endsWithin_of_chase_succ
        rw [chase_succ_some hx]
        exact (h.joined y hx fun hback => hcycle ((onCycle_iff hx).mpr hback)).symm
  · rintro (⟨m, hm, y, hway, hy⟩ | ⟨n, hpos, ⟨k, rfl⟩, hcycle⟩)
    · have hroot := hway.chase_still hy hm
      constructor
      · rw [hroot, hy.chase]
      · intro w hw hback
        cases m with
        | zero =>
          cases hway
          exact absurd ⟨0, hy w hw⟩ hback
        | succ m =>
          obtain ⟨v, hv, hrest⟩ := hway
          rw [hw] at hv
          cases hv
          rw [hroot, hrest.chase_still hy (Nat.le_of_succ_le hm)]
      · intro hcycle
        obtain ⟨k, hback⟩ := hcycle.back hway
        rw [hroot, hback.stays hy]
    · have hroot := (hcycle.repeat_mul k).chase
      constructor
      · rw [hroot, hroot]
      · intro y hy hback
        exact absurd ((onCycle_iff hy).mp ⟨n, hpos, hcycle⟩) hback
      · exact fun _ => hroot

end ClaudeReplay.Lib
