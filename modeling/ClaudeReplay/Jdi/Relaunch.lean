import ClaudeReplay.Jdi.Supervisor
import ClaudeReplay.Lib.Streak

/-!
# ClaudeReplay.Jdi.Relaunch

How often a session is relaunched, and what its stops say.

A phase is the main run or one drain cycle. `Honest` is what the guards and the limit are for:
a stop as blocked or idle rests on the last three turns, a limited phase runs so many turns and
no more, an unlimited run pauses.

The loop does not keep it. `Done` and a drain leave both guards as they are, `AdvanceMode` and
`RecreateSession` leave the fingerprint, and `RecreateSession` neither looks at the limit nor
pauses. `Clear` says of the turns of a run that none of this matters, and `honest_iff_clear` that
the loop is honest in these runs and in no others.
-/

namespace ClaudeReplay.Jdi

open Lib

variable {α : Type*}

/-! ## the log -/

namespace Round

/-- `AdvanceMode` and `RecreateSession`, after which the failures are counted anew. -/
def remedies (t : Round) : Bool :=
  match t.outcome with
  | some (.advanceMode _) | some .recreateSession => true
  | _ => false

/-- A turn that the limit counts: every one but the transitions. -/
def counts (t : Round) : Bool :=
  match t.outcome with
  | some (.advanceMode _) => false
  | _ => true

theorem counts_eq_false_iff {t : Round} :
    t.counts = false ↔ ∃ next, t.outcome = some (.advanceMode next) := by
  unfold counts
  split <;> simp_all

end Round

/-- The last three turns were `Retry` turns of the phase `p`. -/
def InARow (p : Nat) (ts : List Round) : Prop :=
  Latest 3 (fun t => (t.outcome, t.phase)) (some .retry, p) ts

/-- They were so, and had the same `f`. -/
def Repeated (f : Round → α) (p : Nat) (x : α) (ts : List Round) : Prop :=
  Latest 3 (fun t => ((t.outcome, t.phase), f t)) ((some .retry, p), x) ts

/-- The `Retry` turns of a log. -/
def retries (ts : List Round) : List Round := ts.filter fun t => t.outcome = some .retry

/-- The turns since the last remedy. -/
def sinceRemedy (ts : List Round) : List Round := ts.takeWhile fun t => !t.remedies

/-- How many turns of a phase the limit counts. -/
def counted (p : Nat) (ts : List Round) : Nat := ts.countP fun t => t.phase = p ∧ t.counts

/-- How many of the latest turns were of one phase, with no pause after any of them. -/
def unpaused (p : Nat) (ts : List Round) : Nat :=
  (ts.takeWhile fun t => t.phase = p ∧ t.outcome ≠ some .retry).length

/-- How many of the latest turns were `RecreateSession` turns. -/
def recreations (ts : List Round) : Nat :=
  (ts.takeWhile fun t => t.outcome = some .recreateSession).length

section Log

variable {f : Round → α} {p : Nat} {x : α} {t : Round} {ts : List Round}

theorem retries_cons (h : t.outcome = some .retry) : retries (t :: ts) = t :: retries ts :=
  List.filter_cons_of_pos (by simp [h])

theorem retries_cons_of_ne (h : t.outcome ≠ some .retry) : retries (t :: ts) = retries ts :=
  List.filter_cons_of_neg (by simp [h])

theorem sinceRemedy_cons (h : t.remedies = false) :
    sinceRemedy (t :: ts) = t :: sinceRemedy ts :=
  List.takeWhile_cons_of_pos (by simp [h])

theorem sinceRemedy_cons_of_remedies (h : t.remedies = true) : sinceRemedy (t :: ts) = [] :=
  List.takeWhile_cons_of_neg (by simp [h])

/-- Three turns in a row are the latest `Retry` turns, and no remedy came since. -/
theorem repeated_iff_retries (h : InARow p ts) :
    Repeated f p x ts ↔ Latest 3 f x (retries ts) := by
  have hretry : Latest 3 (fun t => decide (t.outcome = some .retry)) true ts :=
    h.mono (by simp +contextual)
  rw [Repeated, latest_pair, retries, latest_filter hretry]
  exact and_iff_right h

theorem repeated_iff_sinceRemedy (h : InARow p ts) :
    Repeated f p x ts ↔ Latest 3 f x (retries (sinceRemedy ts)) := by
  have hkept : Latest 3 (fun t => !t.remedies) true ts :=
    h.mono (by simp +contextual [Round.remedies])
  have hretry : Latest 3 (fun t => decide (t.outcome = some .retry)) true (sinceRemedy ts) :=
    (latest_takeWhile hkept).mpr (h.mono (by simp +contextual))
  rw [Repeated, latest_pair, retries, latest_filter hretry, sinceRemedy, latest_takeWhile hkept]
  exact and_iff_right h

theorem InARow.outcome (h : InARow p ts) : Latest 3 Round.outcome (some .retry) ts :=
  h.mono (by simp +contextual)

theorem inARow_of_repeated (h : Repeated f p x ts) : InARow p ts := (latest_pair.mp h).1

end Log

/-! ## the guards -/

namespace Guards

/-- The fingerprint's guard counts the latest of some fingerprints that are alike and could be
taken. -/
structure CountsProgress (g : Guards) (fps : List (Option UInt64)) : Prop where
  last : g.lastStateFp = fps.head?.join
  count : g.noProgress = if g.lastStateFp.isSome then streak fps - 1 else 0

/-- The other counts the latest of some signatures that are alike. -/
structure CountsFailures (g : Guards) (sigs : List (List Char)) : Prop where
  last : ∀ sig, sigs.head? = some sig → g.lastFailure = sig
  count : g.identicalFailures = streak sigs

variable {g : Guards} {fps : List (Option UInt64)} {fp : Option UInt64} {sigs : List (List Char)}
  {sig : List Char}

theorem CountsProgress.head? (h : g.CountsProgress fps) {x : UInt64} :
    g.lastStateFp = some x ↔ fps.head? = some (some x) := by
  rw [h.last, Option.join_eq_some_iff]

theorem CountsProgress.measure (h : g.CountsProgress fps) :
    (g.measure fp).CountsProgress (fp :: fps) := by
  unfold Guards.measure
  split
  · next hsame =>
    obtain ⟨x, rfl⟩ := Option.isSome_iff_exists.mp hsame.1
    have hhead : fps.head? = some (some x) := h.head?.mp hsame.2.symm
    have hpos : 0 < streak fps := streak_pos (by rintro rfl; simp at hhead)
    refine ⟨hsame.2.symm, ?_⟩
    simp only [h.count, ← hsame.2, Option.isSome_some, if_true, streak_cons, if_pos hhead]
    omega
  · next hne =>
    refine ⟨rfl, ?_⟩
    cases fp with
    | none => rfl
    | some x =>
      have hhead : fps.head? ≠ some (some x) := by
        intro hhead
        exact hne ⟨rfl, (h.head?.mpr hhead).symm⟩
      simp [streak_cons, hhead]

theorem CountsFailures.sign (h : g.CountsFailures sigs) :
    (g.sign sig).CountsFailures (sig :: sigs) := by
  unfold Guards.sign
  split
  · next hsame =>
    refine ⟨by simp [hsame], ?_⟩
    cases sigs with
    | nil => simp [h.count, streak_cons]
    | cons x xs =>
      have hx : x = sig := by rw [hsame, h.last x rfl]
      rw [h.count, streak_cons (x := sig), hx]
      simp
  · next hne =>
    refine ⟨by simp, ?_⟩
    have hhead : sigs.head? ≠ some sig := by
      intro hhead
      exact hne (h.last sig hhead).symm
    rw [streak_cons, if_neg hhead]

theorem CountsProgress.sign (h : g.CountsProgress fps) : (g.sign sig).CountsProgress fps := by
  unfold Guards.sign
  split <;> exact ⟨h.last, h.count⟩

theorem CountsProgress.forgive (h : g.CountsProgress fps) : g.forgive.CountsProgress fps :=
  ⟨h.last, h.count⟩

theorem CountsFailures.measure (h : g.CountsFailures sigs) :
    (g.measure fp).CountsFailures sigs := by
  unfold Guards.measure
  split <;> exact ⟨h.last, h.count⟩

theorem CountsFailures.forgive : g.forgive.CountsFailures [] := ⟨by simp, rfl⟩

/-- It has reached its bound when three fingerprints in succession were one. -/
theorem CountsProgress.reached (h : g.CountsProgress fps) :
    maxNoProgress ≤ g.noProgress ↔ ∃ fp, Latest 3 id (some fp) fps := by
  rw [h.count]
  constructor
  · intro hle
    split at hle
    · next hsome =>
      obtain ⟨x, hx⟩ := Option.isSome_iff_exists.mp hsome
      have hthree : 3 ≤ streak fps := by simp only [maxNoProgress] at hle; omega
      obtain ⟨y, hy⟩ := le_streak_iff.mp hthree
      have hhead := hy.head?
      rw [List.map_id, h.head?.mp hx, Option.some.injEq] at hhead
      exact ⟨x, hhead ▸ hy⟩
    · exact absurd hle (by decide)
  · rintro ⟨x, hx⟩
    have hhead := hx.head?
    rw [List.map_id, ← h.head?] at hhead
    have hthree : 3 ≤ streak fps := le_streak_iff.mpr ⟨_, hx⟩
    rw [hhead, Option.isSome_some, if_pos rfl, maxNoProgress]
    omega

theorem CountsFailures.reached (h : g.CountsFailures sigs) :
    maxIdenticalFailures ≤ g.identicalFailures ↔ ∃ sig, Latest 3 id sig sigs := by
  rw [h.count]
  exact le_streak_iff

/-- Both guards hold what a log says, and neither has reached its bound. -/
structure Counts (g : Guards) (ts : List Round) : Prop where
  progress : g.CountsProgress ((retries ts).map Round.fp)
  failures : g.CountsFailures ((retries (sinceRemedy ts)).map Round.sig)
  progress_lt : g.noProgress < maxNoProgress
  failures_lt : g.identicalFailures < maxIdenticalFailures

variable {ts : List Round}

theorem Counts.no_progress (h : g.Counts ts) : ¬ ∃ fp, Latest 3 Round.fp (some fp) (retries ts) := by
  have hlt := h.progress_lt
  rw [← Nat.not_le, h.progress.reached] at hlt
  simpa [Latest] using hlt

theorem Counts.no_failures (h : g.Counts ts) :
    ¬ ∃ sig, Latest 3 Round.sig sig (retries (sinceRemedy ts)) := by
  have hlt := h.failures_lt
  rw [← Nat.not_le, h.failures.reached] at hlt
  simpa [Latest] using hlt

theorem Counts.remedied {t : Round} (h : g.Counts ts) (ht : t.remedies = true) :
    g.forgive.Counts (t :: ts) := by
  have hne : t.outcome ≠ some .retry := by
    intro ho
    simp [Round.remedies, ho] at ht
  refine ⟨?_, ?_, h.progress_lt, Nat.succ_pos 2⟩
  · rw [retries_cons_of_ne hne]
    exact h.progress.forgive
  · rw [sinceRemedy_cons_of_remedies ht]
    exact CountsFailures.forgive

end Guards

namespace Loop

variable {s : Settings} {hash : Hashing} {l l' : Loop} {x : Option TurnResult} {t : Round}
  {ts : List Round}

/-- The guards count on over a turn that goes on. -/
theorem Onward.counts (h : Onward s l t l') (hc : l.guards.Counts ts) :
    l'.guards.Counts (t :: ts) := by
  cases h with
  | drained outcome _ _ guards =>
    rw [guards]
    have hne : t.outcome ≠ some .retry := by simp [outcome]
    refine ⟨?_, ?_, hc.progress_lt, hc.failures_lt⟩
    · rw [retries_cons_of_ne hne]
      exact hc.progress
    · rw [sinceRemedy_cons (by simp [Round.remedies, outcome]), retries_cons_of_ne hne]
      exact hc.failures
  | advanced next outcome _ _ guards =>
    rw [guards]
    exact hc.remedied (by simp [Round.remedies, outcome])
  | recreated outcome _ _ guards =>
    rw [guards]
    exact hc.remedied (by simp [Round.remedies, outcome])
  | retried outcome _ _ _ guards progress failures =>
    have hsign : l'.guards.noProgress = (l.guards.measure t.fp).noProgress := by
      rw [guards, Guards.sign]
      split <;> rfl
    refine ⟨?_, ?_, by rw [hsign]; exact progress, failures⟩
    · rw [guards, retries_cons outcome]
      exact hc.progress.measure.sign
    · rw [guards, sinceRemedy_cons (by simp [Round.remedies, outcome]), retries_cons outcome]
      exact hc.failures.measure.sign

/-- The loop stops as idle where the log has three `Retry` turns with one fingerprint. -/
theorem idle_iff (hc : l.guards.Counts ts) :
    (∃ code, l.step s hash x = .error (.idle code)) ↔
      (l.round s hash x).outcome = some .retry ∧ ¬ l.tried.Spent s ∧
        ∃ fp, Latest 3 Round.fp (some fp) (retries (l.round s hash x :: ts)) := by
  rw [step_idle_iff]
  refine and_congr_right fun ho => and_congr_right fun _ => ?_
  rw [hc.progress.measure.reached, retries_cons ho]
  simp [Latest]

/-- It stops as blocked where the log has three with one signature since the last remedy. -/
theorem blocked_iff (hc : l.guards.Counts ts) :
    (∃ code, l.step s hash x = .error (.blocked code)) ↔
      (l.round s hash x).outcome = some .retry ∧ ¬ l.tried.Spent s ∧
        (¬ ∃ fp, Latest 3 Round.fp (some fp) (retries (l.round s hash x :: ts))) ∧
        ∃ sig, Latest 3 Round.sig sig (retries (sinceRemedy (l.round s hash x :: ts))) := by
  rw [step_blocked_iff]
  refine and_congr_right fun ho => and_congr_right fun _ => and_congr ?_ ?_
  · rw [← Nat.not_le, hc.progress.measure.reached, retries_cons ho]
    simp [Latest]
  · rw [hc.failures.measure.sign.reached, sinceRemedy_cons (by simp [Round.remedies, ho]),
      retries_cons ho]
    simp [Latest]

end Loop

/-! ## runs -/

namespace Supervision

open Loop

variable {s : Settings} {hash : Hashing} {rs : Nat → Option TurnResult} {k : Nat} {l : Loop}

theorem ran_succ (h : (ran s hash rs k).loop = .ok l) : ran s hash rs (k + 1) =
    ⟨l.round s hash (rs k) :: (ran s hash rs k).turns, l.step s hash (rs k)⟩ := by
  simp only [ran, next, h]

theorem turns_succ (h : (ran s hash rs k).loop = .ok l) : (ran s hash rs (k + 1)).turns =
    l.round s hash (rs k) :: (ran s hash rs k).turns :=
  congrArg Supervision.turns (ran_succ h)

theorem loop_succ (h : (ran s hash rs k).loop = .ok l) :
    (ran s hash rs (k + 1)).loop = l.step s hash (rs k) :=
  congrArg Supervision.loop (ran_succ h)

/-- A run that has ended made its last turn somewhere. -/
theorem ended_at {e : Stop} (h : (ran s hash rs k).loop = .error e) :
    ∃ j l, (ran s hash rs j).loop = .ok l ∧ l.step s hash (rs j) = .error e ∧
      ran s hash rs k = ran s hash rs (j + 1) := by
  induction k with
  | zero => contradiction
  | succ k ih =>
    cases hk : (ran s hash rs k).loop with
    | ok l =>
      rw [ran_succ hk] at h
      exact ⟨k, l, hk, h, rfl⟩
    | error e' =>
      have hsame : ran s hash rs (k + 1) = ran s hash rs k := by
        simp only [ran, next, hk]
        rw [← hk]
      rw [hsame] at h ⊢
      exact ih h

/-- **The invariant rule.** What holds at the start, and of a turn that goes on, holds wherever
the loop is about to run a turn. -/
theorem goes {P : Loop → List Round → Prop} (hstart : P s.started [])
    (hstep : ∀ k l l', (ran s hash rs k).loop = .ok l →
      Onward s l (l.round s hash (rs k)) l' → P l (ran s hash rs k).turns →
        P l' (l.round s hash (rs k) :: (ran s hash rs k).turns))
    (h : (ran s hash rs k).loop = .ok l) : P l (ran s hash rs k).turns := by
  induction k generalizing l with
  | zero =>
    obtain rfl := Except.ok.inj h
    exact hstart
  | succ k ih =>
    cases hk : (ran s hash rs k).loop with
    | error e => simp [ran, next, hk] at h
    | ok l₀ =>
      rw [ran_succ hk] at h ⊢
      exact hstep k l₀ l hk (step_ok h) (ih hk)

theorem counts_ran (h : (ran s hash rs k).loop = .ok l) :
    l.guards.Counts (ran s hash rs k).turns := by
  refine goes (P := fun l ts => l.guards.Counts ts) ?_ ?_ h
  · exact ⟨⟨rfl, rfl⟩, ⟨by simp [retries, sinceRemedy], rfl⟩, Nat.succ_pos 1, Nat.succ_pos 2⟩
  · intro k l l' _ hon hc
    exact hon.counts hc

end Supervision

/-! ## the worker of the queue, over a run -/

/-- A turn that the worker of the queue goes on from, with the claim behind a `Done`. -/
def Worker.Goes (w : Worker) (r : TurnResult) (w' : Worker) : Prop :=
  ∃ u, w.turned (r.ended true) = some u ∧
    (u.place = .ready ∧ u = w' ∨ u.place ≠ .ready ∧ u.resumed false r.claimed = some w')

/-- A turn that ends it, or after which it has nothing to claim. -/
def Worker.Stops (w : Worker) (r : TurnResult) : Prop :=
  w.turned (r.ended false) = none ∨
    ∃ u, w.turned (r.ended false) = some u ∧ u.place ≠ .ready ∧ u.resumed false r.claimed = none

namespace Supervision

variable {s : Settings} {hash : Hashing} {rs : Nat → Option TurnResult} {k : Nat} {l : Loop}

theorem worker_goes (h : (ran s hash rs k).loop = .ok l) : ∃ results : List TurnResult,
    (List.range k).map rs = results.map some ∧
      Run Worker.Goes (s.started.worker s) results (l.worker s) := by
  induction k generalizing l with
  | zero =>
    obtain rfl := Except.ok.inj h
    exact ⟨[], rfl, .nil _⟩
  | succ k ih =>
    cases hk : (ran s hash rs k).loop with
    | error e => simp [ran, next, hk] at h
    | ok l₀ =>
      obtain ⟨results, hresults, hrun⟩ := ih hk
      rw [loop_succ hk] at h
      cases hr : rs k with
      | none =>
        rw [hr] at h
        cases h
      | some r =>
        rw [hr] at h
        refine ⟨results ++ [r], ?_, Run.append_iff.mpr
          ⟨_, hrun, .cons (Loop.step_worker h) (.nil _)⟩⟩
        rw [List.range_succ, List.map_append, List.map_append, hresults, List.map_singleton, hr]
        rfl

/-- **The loop is the worker of the queue.** Turn by turn a run of the loop is a run of that
worker; and where the loop ends on a turn that it classified, the worker ends on it too, or claims
nothing more. -/
theorem ran_worker (s : Settings) (hash : Hashing) (rs : Nat → Option TurnResult) (k : Nat) :
    match (ran s hash rs k).loop with
    | .ok l => ∃ results : List TurnResult, (List.range k).map rs = results.map some ∧
        Run Worker.Goes (s.started.worker s) results (l.worker s)
    | .error e => e = .broken ∨ e = .noSessionId ∨ ∃ (results : List TurnResult) (r : TurnResult)
        (w : Worker), (List.range (results.length + 1)).map rs = (results ++ [r]).map some ∧
          Run Worker.Goes (s.started.worker s) results w ∧ w.Stops r := by
  split
  · next l h => exact worker_goes h
  · next e h =>
    obtain ⟨j, l, hl, hstep, -⟩ := ended_at h
    obtain ⟨results, hresults, hrun⟩ := worker_goes hl
    have hlength : results.length = j := by simpa using (congrArg List.length hresults).symm
    cases hr : rs j with
    | none =>
      rw [hr] at hstep
      exact .inl (Except.error.inj hstep).symm
    | some r =>
      rw [hr] at hstep
      by_cases hid : e = .noSessionId
      · exact .inr (.inl hid)
      · refine .inr (.inr ⟨results, r, l.worker s, ?_, hrun, Loop.stop_worker hstep hid⟩)
        rw [hlength, List.range_succ, List.map_append, List.map_append, hresults,
          List.map_singleton, hr]
        rfl

end Supervision

/-! ## honest runs -/

section Honest

open Supervision

variable (s : Settings) (hash : Hashing) (rs : Nat → Option TurnResult)

/-- What the guards and the limit promise of a run. -/
structure Honest : Prop where
  /-- A stop as blocked comes after three `Retry` turns of one phase with one signature. -/
  blocked : ∀ k code, (ran s hash rs k).loop = .error (.blocked code) →
    ∃ p sig, Repeated Round.sig p sig (ran s hash rs k).turns
  /-- A stop for want of progress comes after three with one fingerprint that could be taken. -/
  idle : ∀ k code, (ran s hash rs k).loop = .error (.idle code) →
    ∃ p fp, Repeated Round.fp p (some fp) (ran s hash rs k).turns
  /-- There is no turn after such three. -/
  ends : ∀ k l, (ran s hash rs k).loop = .ok l → ∀ p,
    (∀ sig, ¬ Repeated Round.sig p sig (ran s hash rs k).turns) ∧
      ∀ fp, ¬ Repeated Round.fp p (some fp) (ran s hash rs k).turns
  /-- A limited phase has so many turns beside its transitions, and no more. -/
  limit : 0 < s.maxAttempts → ∀ k p, counted p (ran s hash rs k).turns ≤ s.maxAttempts
  /-- An unlimited run pauses, or its phase changes, before some number of turns. -/
  paced : s.maxAttempts = 0 → ∃ bound, ∀ k p, unpaused p (ran s hash rs k).turns ≤ bound

/-- What has to be so of the turns for that. -/
structure Clear : Prop where
  /-- Where a `Retry` turn with attempts left is the third with one fingerprint, nothing was
  between the three. -/
  fps : ∀ k l, (ran s hash rs k).loop = .ok l →
    (l.round s hash (rs k)).outcome = some .retry → ¬ l.tried.Spent s →
    (∃ fp, Latest 3 Round.fp (some fp) (retries (ran s hash rs (k + 1)).turns)) →
      ∃ p, InARow p (ran s hash rs (k + 1)).turns
  /-- Nor where it is the third with one signature since the last remedy, and it is not the
  fingerprint that ends the run. -/
  sigs : ∀ k l, (ran s hash rs k).loop = .ok l →
    (l.round s hash (rs k)).outcome = some .retry → ¬ l.tried.Spent s →
    (¬ ∃ fp, Latest 3 Round.fp (some fp) (retries (ran s hash rs (k + 1)).turns)) →
    (∃ sig, Latest 3 Round.sig sig (retries (sinceRemedy (ran s hash rs (k + 1)).turns))) →
      ∃ p, InARow p (ran s hash rs (k + 1)).turns
  /-- A `RecreateSession` turn of a limited phase is not its last. -/
  limit : 0 < s.maxAttempts → ∀ k l, (ran s hash rs k).loop = .ok l →
    (l.round s hash (rs k)).outcome = some .recreateSession →
      counted l.drainCycles (ran s hash rs (k + 1)).turns < s.maxAttempts
  /-- An unlimited run has no endless row of `RecreateSession` turns. -/
  paced : s.maxAttempts = 0 → ∃ bound, ∀ k, recreations (ran s hash rs k).turns ≤ bound

end Honest

section Guarded

open Supervision

variable {s : Settings} {hash : Hashing} {rs : Nat → Option TurnResult}

/-- No run goes on after three such turns. -/
theorem ends_after_three {k : Nat} {l : Loop} (h : (ran s hash rs k).loop = .ok l) (p : Nat) :
    (∀ sig, ¬ Repeated Round.sig p sig (ran s hash rs k).turns) ∧
      ∀ fp, ¬ Repeated Round.fp p (some fp) (ran s hash rs k).turns := by
  have hc := counts_ran h
  constructor
  · intro sig hsig
    exact hc.no_failures
      ⟨sig, (repeated_iff_sinceRemedy (inARow_of_repeated hsig)).mp hsig⟩
  · intro fp hfp
    exact hc.no_progress ⟨fp, (repeated_iff_retries (inARow_of_repeated hfp)).mp hfp⟩

theorem Clear.idle (h : Clear s hash rs) {k : Nat} {code : Int}
    (hk : (ran s hash rs k).loop = .error (.idle code)) :
    ∃ p fp, Repeated Round.fp p (some fp) (ran s hash rs k).turns := by
  obtain ⟨j, l, hj, hstep, hsame⟩ := ended_at hk
  obtain ⟨ho, hspent, hfp⟩ := (Loop.idle_iff (counts_ran hj)).mp ⟨code, hstep⟩
  rw [← turns_succ hj] at hfp
  obtain ⟨p, hp⟩ := h.fps j l hj ho hspent hfp
  obtain ⟨fp, hfp⟩ := hfp
  rw [hsame]
  exact ⟨p, fp, (repeated_iff_retries hp).mpr hfp⟩

theorem Clear.blocked (h : Clear s hash rs) {k : Nat} {code : Int}
    (hk : (ran s hash rs k).loop = .error (.blocked code)) :
    ∃ p sig, Repeated Round.sig p sig (ran s hash rs k).turns := by
  obtain ⟨j, l, hj, hstep, hsame⟩ := ended_at hk
  obtain ⟨ho, hspent, hfp, hsig⟩ := (Loop.blocked_iff (counts_ran hj)).mp ⟨code, hstep⟩
  rw [← turns_succ hj] at hfp hsig
  obtain ⟨p, hp⟩ := h.sigs j l hj ho hspent hfp hsig
  obtain ⟨sig, hsig⟩ := hsig
  rw [hsame]
  exact ⟨p, sig, (repeated_iff_sinceRemedy hp).mpr hsig⟩

theorem Honest.fps (h : Honest s hash rs) {k : Nat} {l : Loop}
    (hk : (ran s hash rs k).loop = .ok l)
    (ho : (l.round s hash (rs k)).outcome = some .retry) (hspent : ¬ l.tried.Spent s)
    (hfp : ∃ fp, Latest 3 Round.fp (some fp) (retries (ran s hash rs (k + 1)).turns)) :
    ∃ p, InARow p (ran s hash rs (k + 1)).turns := by
  rw [turns_succ hk] at hfp
  obtain ⟨code, hstep⟩ := (Loop.idle_iff (counts_ran hk)).mpr ⟨ho, hspent, hfp⟩
  obtain ⟨p, fp, hp⟩ := h.idle (k + 1) code ((loop_succ hk).trans hstep)
  exact ⟨p, inARow_of_repeated hp⟩

theorem Honest.sigs (h : Honest s hash rs) {k : Nat} {l : Loop}
    (hk : (ran s hash rs k).loop = .ok l)
    (ho : (l.round s hash (rs k)).outcome = some .retry) (hspent : ¬ l.tried.Spent s)
    (hfp : ¬ ∃ fp, Latest 3 Round.fp (some fp) (retries (ran s hash rs (k + 1)).turns))
    (hsig : ∃ sig, Latest 3 Round.sig sig
      (retries (sinceRemedy (ran s hash rs (k + 1)).turns))) :
    ∃ p, InARow p (ran s hash rs (k + 1)).turns := by
  rw [turns_succ hk] at hfp hsig
  obtain ⟨code, hstep⟩ := (Loop.blocked_iff (counts_ran hk)).mpr ⟨ho, hspent, hfp, hsig⟩
  obtain ⟨p, sig, hp⟩ := h.blocked (k + 1) code ((loop_succ hk).trans hstep)
  exact ⟨p, inARow_of_repeated hp⟩

end Guarded

/-! ## the limit -/

theorem counted_cons {p : Nat} {t : Round} {ts : List Round} :
    counted p (t :: ts) = counted p ts + if t.phase = p ∧ t.counts = true then 1 else 0 := by
  simp [counted, List.countP_cons]

theorem counted_of_phase_lt {p : Nat} {ts : List Round} (h : ∀ t ∈ ts, t.phase < p) :
    counted p ts = 0 := by
  rw [counted, List.countP_eq_zero]
  intro t ht
  have hne : t.phase ≠ p := (h t ht).ne
  simp [hne]

namespace Loop

variable {s : Settings} {hash : Hashing} {l l' : Loop} {x : Option TurnResult} {t : Round}
  {ts : List Round}

theorem round_phase : (l.round s hash x).phase = l.drainCycles := by
  cases x <;> rfl

/-- The attempts of a phase are its counted turns, and there are some left. -/
structure Budget (s : Settings) (l : Loop) (ts : List Round) : Prop where
  attempt : l.attempt = counted l.drainCycles ts
  lt : l.attempt < s.maxAttempts
  phases : ∀ t ∈ ts, t.phase ≤ l.drainCycles

theorem Budget.tried (h : Budget s l ts) : l.tried.attempt = l.attempt + 1 := by
  have := h.lt
  have := s.maxAttempts_lt
  exact Nat.mod_eq_of_lt (by omega)

theorem Budget.counted (h : Budget s l ts) (ht : t.phase = l.drainCycles)
    (hc : t.counts = true) : counted l.drainCycles (t :: ts) = l.attempt + 1 := by
  rw [counted_cons, if_pos ⟨ht, hc⟩, h.attempt]

/-- A turn that goes on leaves attempts, where a `RecreateSession` turn does. -/
theorem Onward.budget (h : Onward s l t l') (hb : Budget s l ts) (ht : t.phase = l.drainCycles)
    (hrec : t.outcome = some .recreateSession →
      counted l.drainCycles (t :: ts) < s.maxAttempts) : Budget s l' (t :: ts) := by
  have hphases : ∀ t' ∈ t :: ts, t'.phase ≤ l.drainCycles := by
    intro t' ht'
    obtain rfl | ht' := List.mem_cons.mp ht'
    · exact ht.le
    · exact hb.phases t' ht'
  cases h with
  | drained outcome phase attempt =>
    have hlt := hb.lt
    refine ⟨?_, by omega, ?_⟩
    · rw [attempt, counted_of_phase_lt]
      intro t' ht'
      have := hphases t' ht'
      omega
    · intro t' ht'
      have := hphases t' ht'
      omega
  | advanced next outcome phase attempt =>
    have hcount : counted l.drainCycles (t :: ts) = l.attempt := by
      rw [counted_cons, hb.attempt]
      simp [Round.counts, outcome]
    have htried := hb.tried
    have hlt := hb.lt
    rw [← phase] at hphases
    refine ⟨?_, ?_, hphases⟩
    · rw [phase, hcount]
      omega
    · omega
  | recreated outcome phase attempt =>
    have hcount := hb.counted ht (by simp [Round.counts, outcome])
    have hrec := hrec outcome
    rw [← phase] at hphases
    refine ⟨?_, ?_, hphases⟩
    · rw [phase, hcount, attempt, hb.tried]
    · rw [attempt, hb.tried]
      omega
  | retried outcome phase attempt unspent =>
    have hcount := hb.counted ht (by simp [Round.counts, outcome])
    have hlt := hb.lt
    rw [← phase] at hphases
    refine ⟨?_, ?_, hphases⟩
    · rw [phase, hcount, attempt, hb.tried]
    · rw [attempt]
      simp only [Spent, not_and, Nat.not_le] at unspent
      exact unspent (by omega)

/-- An outcome that goes on whatever came before. -/
theorem step_ok_of_outcome {o : TurnOutcome} (h : (l.round s hash x).outcome = some o)
    (ho : o = .recreateSession ∨ ∃ next, o = .advanceMode next) :
    ∃ l', l.step s hash x = .ok l' := by
  obtain ⟨r, id, rfl, -, hstep⟩ := step_of_outcome h
  rw [hstep]
  obtain rfl | ⟨next, rfl⟩ := ho
  · exact ⟨_, rfl⟩
  · exact ⟨_, rfl⟩

/-- A turn that is not counted plans, and the one after it does not. -/
theorem onward_of_not_counts (h : (l.round s hash x).counts = false) :
    (l.turnMode s).plans = true ∧ ∃ l', l.step s hash x = .ok l' ∧
      l'.drainCycles = l.drainCycles ∧ (l'.turnMode s).plans = false := by
  obtain ⟨next, ho⟩ := Round.counts_eq_false_iff.mp h
  obtain ⟨l', hstep⟩ := step_ok_of_outcome ho (.inr ⟨next, rfl⟩)
  cases step_ok hstep with
  | advanced _ _ phase _ _ planned mode => exact ⟨planned, l', hstep, phase, mode⟩
  | drained outcome | recreated outcome | retried outcome => simp [ho] at outcome

end Loop

section Limit

open Supervision

variable {s : Settings} {hash : Hashing} {rs : Nat → Option TurnResult} {k : Nat} {l : Loop}

theorem Clear.budget (h : Clear s hash rs) (hmax : 0 < s.maxAttempts)
    (hk : (ran s hash rs k).loop = .ok l) : l.Budget s (ran s hash rs k).turns := by
  refine goes (P := fun l ts => l.Budget s ts) ?_ ?_ hk
  · exact ⟨rfl, hmax, by simp⟩
  · intro k l l' hk hon hb
    refine hon.budget hb Loop.round_phase fun ho => ?_
    rw [← turns_succ hk]
    exact h.limit hmax k l hk ho

/-- What holds of a log when nothing ran yet, and after each turn, holds throughout. -/
theorem turns_induction {P : List Round → Prop} (hstart : P [])
    (hstep : ∀ k l, (ran s hash rs k).loop = .ok l → P (ran s hash rs k).turns →
      P (ran s hash rs (k + 1)).turns) (k : Nat) : P (ran s hash rs k).turns := by
  induction k with
  | zero => exact hstart
  | succ k ih =>
    cases hk : (ran s hash rs k).loop with
    | ok l => exact hstep k l hk ih
    | error e =>
      simp only [ran, next, hk]
      exact ih

theorem Clear.counted_le (h : Clear s hash rs) (hmax : 0 < s.maxAttempts) (p : Nat) :
    counted p (ran s hash rs k).turns ≤ s.maxAttempts := by
  refine turns_induction (P := fun ts => counted p ts ≤ s.maxAttempts) (Nat.zero_le _) ?_ k
  intro k l hk ih
  have hb := h.budget hmax hk
  have hlt := hb.lt
  rw [turns_succ hk, counted_cons]
  split
  · next hp =>
    rw [Loop.round_phase] at hp
    rw [← hp.1, ← hb.attempt]
    omega
  · exact ih

theorem counted_succ (hk : (ran s hash rs k).loop = .ok l)
    (hc : (l.round s hash (rs k)).counts = true) :
    counted l.drainCycles (ran s hash rs (k + 1)).turns =
      counted l.drainCycles (ran s hash rs k).turns + 1 := by
  rw [turns_succ hk, counted_cons, if_pos ⟨Loop.round_phase, hc⟩]

/-- A phase that goes on with all its turns made has one too many: the next, or the one behind
a transition. -/
theorem counted_exceeds (hk : (ran s hash rs k).loop = .ok l)
    (h : s.maxAttempts ≤ counted l.drainCycles (ran s hash rs k).turns) :
    ∃ k', s.maxAttempts < counted l.drainCycles (ran s hash rs k').turns := by
  cases hc : (l.round s hash (rs k)).counts with
  | true =>
    refine ⟨k + 1, ?_⟩
    rw [counted_succ hk hc]
    omega
  | false =>
    obtain ⟨-, l', hstep, hphase, hmode⟩ := Loop.onward_of_not_counts hc
    have hk' : (ran s hash rs (k + 1)).loop = .ok l' := (loop_succ hk).trans hstep
    have hc' : (l'.round s hash (rs (k + 1))).counts = true := by
      by_contra hne
      have hplans := (Loop.onward_of_not_counts (Bool.eq_false_iff.mpr hne)).1
      simp [hmode] at hplans
    have hcount := counted_succ hk' hc'
    rw [hphase, turns_succ hk, counted_cons] at hcount
    exact ⟨k + 1 + 1, by omega⟩

theorem Honest.recreation_lt (h : Honest s hash rs) (hmax : 0 < s.maxAttempts)
    (hk : (ran s hash rs k).loop = .ok l)
    (ho : (l.round s hash (rs k)).outcome = some .recreateSession) :
    counted l.drainCycles (ran s hash rs (k + 1)).turns < s.maxAttempts := by
  obtain ⟨l', hstep⟩ := Loop.step_ok_of_outcome ho (.inl rfl)
  have hk' : (ran s hash rs (k + 1)).loop = .ok l' := (loop_succ hk).trans hstep
  have hphase : l'.drainCycles = l.drainCycles := by
    cases Loop.step_ok hstep with
    | recreated _ phase => exact phase
    | drained outcome | advanced _ outcome | retried outcome => simp [ho] at outcome
  by_contra hle
  rw [Nat.not_lt, ← hphase] at hle
  obtain ⟨k', hlt⟩ := counted_exceeds hk' hle
  exact absurd (h.limit hmax k' _) (Nat.not_le.mpr hlt)

end Limit

/-! ## the pace -/

theorem unpaused_cons {p : Nat} {t : Round} {ts : List Round} : unpaused p (t :: ts) =
    if t.phase = p ∧ t.outcome ≠ some .retry then unpaused p ts + 1 else 0 := by
  simp only [unpaused, List.takeWhile_cons]
  split <;> simp_all

theorem recreations_cons {t : Round} {ts : List Round} : recreations (t :: ts) =
    if t.outcome = some .recreateSession then recreations ts + 1 else 0 := by
  simp only [recreations, List.takeWhile_cons]
  split <;> simp_all

namespace Loop

variable {s : Settings} {l l' : Loop} {t : Round} {ts : List Round} {bound : Nat}

/-- A stretch without a pause is made of `RecreateSession` turns and, where the plan is behind
it, one transition. -/
structure Paced (s : Settings) (bound : Nat) (l : Loop) (ts : List Round) : Prop where
  planning : (l.turnMode s).plans = true → unpaused l.drainCycles ts ≤ recreations ts
  le : unpaused l.drainCycles ts ≤ bound + 1 + recreations ts

theorem Onward.paced (h : Onward s l t l') (hp : Paced s bound l ts)
    (ht : t.phase = l.drainCycles) (hbound : recreations ts ≤ bound) :
    Paced s bound l' (t :: ts) := by
  cases h with
  | drained outcome phase =>
    have hnone : unpaused l'.drainCycles (t :: ts) = 0 := by
      rw [unpaused_cons, if_neg (by omega)]
    have hrec : recreations (t :: ts) = 0 := by simp [recreations_cons, outcome]
    exact ⟨fun _ => by omega, by omega⟩
  | advanced next outcome phase _ _ planned mode =>
    have hone : unpaused l'.drainCycles (t :: ts) = unpaused l.drainCycles ts + 1 := by
      rw [unpaused_cons, if_pos ⟨by omega, by simp [outcome]⟩, phase]
    have hrec : recreations (t :: ts) = 0 := by simp [recreations_cons, outcome]
    have hplanning := hp.planning planned
    exact ⟨by simp [mode], by omega⟩
  | recreated outcome phase _ _ mode =>
    have hone : unpaused l'.drainCycles (t :: ts) = unpaused l.drainCycles ts + 1 := by
      rw [unpaused_cons, if_pos ⟨by omega, by simp [outcome]⟩, phase]
    have hrec : recreations (t :: ts) = recreations ts + 1 := by
      simp [recreations_cons, outcome]
    have hle := hp.le
    refine ⟨fun hplans => ?_, by omega⟩
    have hplanning := hp.planning (mode ▸ hplans)
    omega
  | retried outcome =>
    have hnone : unpaused l'.drainCycles (t :: ts) = 0 := by simp [unpaused_cons, outcome]
    have hrec : recreations (t :: ts) = 0 := by simp [recreations_cons, outcome]
    exact ⟨fun _ => by omega, by omega⟩

/-- A row of `RecreateSession` turns is a stretch without a pause. -/
theorem recreations_le_unpaused (h : recreations ts ≤ unpaused t.phase ts) :
    recreations (t :: ts) ≤ unpaused t.phase (t :: ts) := by
  rw [recreations_cons, unpaused_cons]
  split
  · next ho =>
    rw [if_pos ⟨rfl, by simp [ho]⟩]
    omega
  · exact Nat.zero_le _

theorem Onward.recreations_le (h : Onward s l t l') (ht : t.phase = l.drainCycles)
    (hle : recreations ts ≤ unpaused l.drainCycles ts) :
    recreations (t :: ts) ≤ unpaused l'.drainCycles (t :: ts) := by
  rw [← ht] at hle
  have hstretch := recreations_le_unpaused hle
  cases h with
  | drained outcome | advanced _ outcome | retried outcome => simp [recreations_cons, outcome]
  | recreated _ phase => rwa [phase, ← ht]

end Loop

section Pace

open Supervision

variable {s : Settings} {hash : Hashing} {rs : Nat → Option TurnResult} {k : Nat} {l : Loop}
  {bound : Nat}

theorem paced_ran (hbound : ∀ k, recreations (ran s hash rs k).turns ≤ bound)
    (hk : (ran s hash rs k).loop = .ok l) : l.Paced s bound (ran s hash rs k).turns := by
  refine goes (P := fun l ts => l.Paced s bound ts) ?_ ?_ hk
  · exact ⟨fun _ => le_refl 0, Nat.zero_le _⟩
  · intro k l l' _ hon hp
    exact hon.paced hp Loop.round_phase (hbound k)

/-- Where no row of `RecreateSession` turns is longer than a bound, no stretch without a pause is
longer than two such rows, a transition between them, and a turn that ends it. -/
theorem unpaused_le (hbound : ∀ k, recreations (ran s hash rs k).turns ≤ bound) (k p : Nat) :
    unpaused p (ran s hash rs k).turns ≤ 2 * bound + 2 := by
  refine turns_induction (P := fun ts => unpaused p ts ≤ 2 * bound + 2) (Nat.zero_le _) ?_ k
  intro k l hk _
  have hle := (paced_ran hbound hk).le
  have hrec := hbound k
  rw [turns_succ hk, unpaused_cons]
  split
  · next hp =>
    rw [← hp.1, Loop.round_phase]
    omega
  · exact Nat.zero_le _

theorem recreations_le (hbound : ∀ k p, unpaused p (ran s hash rs k).turns ≤ bound) (k : Nat) :
    recreations (ran s hash rs k).turns ≤ bound := by
  refine turns_induction (P := fun ts => recreations ts ≤ bound) (Nat.zero_le _) ?_ k
  intro k l hk _
  have hle : recreations (ran s hash rs k).turns ≤
      unpaused l.drainCycles (ran s hash rs k).turns := by
    refine goes (P := fun l ts => recreations ts ≤ unpaused l.drainCycles ts) (le_refl 0) ?_ hk
    intro k l l' _ hon hle
    exact hon.recreations_le Loop.round_phase hle
  have hnext := hbound (k + 1) (l.round s hash (rs k)).phase
  rw [turns_succ hk] at hnext ⊢
  have hphase : (l.round s hash (rs k)).phase = l.drainCycles := Loop.round_phase
  rw [← hphase] at hle
  exact (Loop.recreations_le_unpaused hle).trans hnext

end Pace

/-! ## where the loop is honest -/

/-- The loop is honest in the runs of which `Clear` speaks, and in no others. -/
theorem honest_iff_clear (s : Settings) (hash : Hashing) (rs : Nat → Option TurnResult) :
    Honest s hash rs ↔ Clear s hash rs := by
  constructor
  · intro h
    refine ⟨fun k l => h.fps, fun k l => h.sigs, ?_, ?_⟩
    · intro hmax k l hk ho
      exact h.recreation_lt hmax hk ho
    · intro hmax
      obtain ⟨bound, hbound⟩ := h.paced hmax
      exact ⟨bound, recreations_le hbound⟩
  · intro h
    refine ⟨fun k code => h.blocked, fun k code => h.idle, ?_, ?_, ?_⟩
    · intro k l hk p
      exact ends_after_three hk p
    · intro hmax k p
      exact h.counted_le hmax p
    · intro hmax
      obtain ⟨bound, hbound⟩ := h.paced hmax
      exact ⟨2 * bound + 2, unpaused_le hbound⟩

/-! ## where it is not -/

section Dishonest

open Supervision

/-- A run that was resumed, in its execute mode. -/
def resuming (agent : Agent) (maxAttempts : Nat) (h : maxAttempts < 2 ^ 32) : Settings :=
  ⟨agent, "0a1b2c3d", maxAttempts, agent.continueMode, true, [], h⟩

/-- A hash that tells lengths apart. -/
def lengths : Hashing where
  tasks ts := UInt64.ofNat ts.length
  state x := x.1.getD 0 + UInt64.ofNat (x.2.1.getD "").length + UInt64.ofNat (x.2.2.getD "").length

/-- A turn that exits with 1, having printed a line. -/
def failing (line : String) (head : Option String) : TurnResult :=
  ⟨1, line.toList, none, none, none, none, head, head.map fun _ => "", []⟩

/-- Its session is not there. -/
def vanished : TurnResult := failing "No conversation found" (some "4b825dc")

def refused : TurnResult := failing "cannot push: network unreachable" (some "4b825dc")

/-- The same outside a git repository. -/
def refusedUnmeasured : TurnResult := failing "cannot push: network unreachable" none

/-- A turn that is done, with an item in the backlog. -/
def finished : TurnResult :=
  ⟨0, [], none, none, none, none, none, none, [(0, "also update the changelog")]⟩

theorem outcome_vanished {s : Settings} {l : Loop} (hagent : s.agent = .claude)
    (hfresh : l.fresh = false) (hmode : l.mode = .resumeExecute) :
    l.outcome s vanished = some .recreateSession := by
  have hclass : Agent.claude.classify (vanished.ended true) .resumeExecute = .recreateSession := rfl
  simp [Loop.outcome, Loop.returned, Loop.tried, hagent, hfresh, hmode, hclass]

/-- A turn whose session is not there leaves the loop where it was. -/
theorem step_vanished {s : Settings} {hash : Hashing} {l : Loop} (hagent : s.agent = .claude)
    (hfresh : l.fresh = false) (hmode : l.mode = .resumeExecute) :
    ∃ l', l.step s hash (some vanished) = .ok l' ∧
      l'.fresh = false ∧ l'.mode = .resumeExecute ∧ l'.drainCycles = l.drainCycles := by
  have hturn : l.turnMode s = .resumeExecute := by simp [Loop.turnMode, hfresh, hmode]
  have hround : (l.round s hash (some vanished)).outcome = some .recreateSession :=
    outcome_vanished hagent hfresh hmode
  obtain ⟨r, id, ⟨⟩, -, hstep⟩ := Loop.step_of_outcome hround
  exact ⟨_, hstep, rfl, hturn, rfl⟩

theorem goes_vanished (k : Nat) : ∃ l,
    (ran (resuming .claude 0 (by decide)) lengths (fun _ => some vanished) k).loop = .ok l ∧
      l.fresh = false ∧ l.mode = .resumeExecute ∧ l.drainCycles = 0 := by
  induction k with
  | zero => exact ⟨_, rfl, rfl, rfl, rfl⟩
  | succ k ih =>
    obtain ⟨l, hk, hfresh, hmode, hphase⟩ := ih
    obtain ⟨l', hstep, hfresh', hmode', hphase'⟩ :=
      step_vanished (s := resuming .claude 0 (by decide)) rfl hfresh hmode
    exact ⟨l', (loop_succ hk).trans hstep, hfresh', hmode', hphase'.trans hphase⟩

/-- Without a limit such turns go on and on, with no pause. -/
theorem unpaused_vanished (k : Nat) :
    unpaused 0 (ran (resuming .claude 0 (by decide)) lengths (fun _ => some vanished) k).turns =
      k := by
  induction k with
  | zero => rfl
  | succ k ih =>
    obtain ⟨l, hk, hfresh, hmode, hphase⟩ := goes_vanished k
    have hround : (l.round (resuming .claude 0 (by decide)) lengths (some vanished)).outcome =
        some .recreateSession := outcome_vanished rfl hfresh hmode
    rw [turns_succ hk, unpaused_cons, if_pos ⟨Loop.round_phase.trans hphase, by simp [hround]⟩, ih]

theorem relaunching_not_honest :
    ¬ Honest (resuming .claude 1 (by decide)) lengths (fun _ => some vanished) ∧
    ¬ Honest (resuming .claude 0 (by decide)) lengths (fun _ => some vanished) ∧
    ¬ Honest (resuming .claude 0 (by decide)) lengths
      (fun k => some (if k = 2 then vanished else refused)) ∧
    ¬ Honest (resuming .codex 0 (by decide)) lengths
      (fun k => some (if k = 2 then finished else refusedUnmeasured)) := by
  refine ⟨fun h => ?_, fun h => ?_, fun h => ?_, fun h => ?_⟩
  · exact absurd (h.limit (by decide) 2 0) (by decide +kernel)
  · obtain ⟨bound, hbound⟩ := h.paced rfl
    have hle := hbound (bound + 1) 0
    rw [unpaused_vanished] at hle
    omega
  · obtain ⟨p, fp, hrep⟩ := h.idle 4 1 rfl
    exact absurd (inARow_of_repeated hrep).outcome (by decide +kernel)
  · obtain ⟨p, sig, hrep⟩ := h.blocked 4 1 rfl
    exact absurd (inARow_of_repeated hrep).outcome (by decide +kernel)

end Dishonest

end ClaudeReplay.Jdi
