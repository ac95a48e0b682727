import ClaudeReplay.Lib.Matching
import ClaudeReplay.Linking.Growth
import Mathlib.Data.List.Sort
import Mathlib.Data.String.Basic
import Mathlib.Data.List.Dedup

/-!
# ClaudeReplay.Linking.OneShots

`pair_one_shots`, which pairs each one-shot process with the session it created.

A session that a record names is paired with a process whose record names it. The other
one-shots of a directory claim its other sessions, in the order in which they began, each
the earliest that is left in its window. As all windows have one length, no assignment
that respects them pairs more (`pairOneShots_largest`).

`rivals` counts the one-shots that could have had a session instead: those without a
claim whose window holds it, and those that could swap. A pair without rivals is forced
among the processes that are paired (`confirmed_forced`). It is not when a process
without a claim may take another one's, whose process then takes this one
(`confirmed_not_forced`).
-/

namespace ClaudeReplay.Linking

open Lib

/-! ## who competes -/

/-- `ONE_SHOT_SLACK_SECS`. -/
def oneShotSlackSecs : Nat := 3

/-- `ONE_SHOT_WINDOW_SECS`. -/
def oneShotWindowSecs : Nat := 60

/-- The session's first record falls inside the window of a one-shot that began at `start`. -/
def within (start first : Nat) : Bool :=
  start ≤ first + oneShotSlackSecs && first ≤ start + oneShotWindowSecs

/-- A one-shot that can have created a session. -/
def Proc.worker (p : Proc) : Bool := p.agentExe && p.serves .claude && p.oneShot && !p.helper

/-- A session that a record names, so that no process competes for it by time. -/
def reserved (procs : List Proc) (sid : Sid) : Bool :=
  procs.any fun p => p.serves .claude && p.native.session = some sid

/-- The one-shots of a directory that name no session, by the moment they began. -/
def shotsIn (procs : List Proc) (cwd : Dir) : List (Nat × Pid) :=
  (procs.filterMap fun p =>
    if p.worker ∧ p.sessionRef = none ∧ p.cwd = some cwd then p.started.map fun start => (start, p.pid)
    else none).insertionSort fun a b => a.1 < b.1 ∨ a.1 = b.1 ∧ a.2 ≤ b.2

theorem shotsIn_nodup (procs : ProcTable) (cwd : Dir) :
    ((shotsIn procs.procs cwd).map Prod.snd).Nodup := by
  have hperm := (List.perm_insertionSort (fun a b : Nat × Pid => a.1 < b.1 ∨ a.1 = b.1 ∧ a.2 ≤ b.2)
    (procs.procs.filterMap fun p =>
      if p.worker ∧ p.sessionRef = none ∧ p.cwd = some cwd then
        p.started.map fun start => (start, p.pid)
      else none)).map Prod.snd
  refine hperm.nodup_iff.mpr ?_
  refine procs.distinct.sublist ?_
  induction procs.procs with
  | nil => simp
  | cons p ps ih =>
    rw [List.filterMap_cons]
    split
    · exact ih.cons _
    · next shot hshot =>
      split at hshot
      · obtain ⟨start, -, rfl⟩ := Option.map_eq_some_iff.mp hshot
        exact ih.cons_cons _
      · cases hshot

namespace OneShots

/-! ## the pairs -/

inductive OneShotEvidence
  | registered
  | timed (rivals : Nat)
  deriving DecidableEq

namespace OneShotEvidence

def confirmed : OneShotEvidence → Bool
  | registered => true
  | timed rivals => rivals = 0

def ambiguity : OneShotEvidence → Nat
  | registered => 1
  | timed rivals => rivals + 1

def isTimed : OneShotEvidence → Bool
  | registered => false
  | timed _ => true

end OneShotEvidence

structure OneShotPair where
  pid : Pid
  evidence : OneShotEvidence
  deriving DecidableEq

/-- A one-shot session: its directory, and the second of its first record. -/
structure OneShotSession where
  sid : Sid
  cwd : Dir
  first : Nat
  deriving DecidableEq

/-- The one-shot sessions of the index, each under its own id. -/
structure OneShotSessions where
  sessions : List OneShotSession
  distinct : (sessions.map (·.sid)).Nodup

/-- The one-shot sessions that the index hands over. -/
def oneShotSessions (rows : Rows) : List OneShotSession :=
  rows.rows.filterMap fun row =>
    if row.2.oneShot then
      row.2.cwd.bind fun cwd => row.2.firstEvent.map fun first => ⟨row.1, cwd, first⟩
    else none

theorem oneShotSessions_nodup (rows : Rows) : ((oneShotSessions rows).map (·.sid)).Nodup := by
  refine rows.unique.sublist ?_
  unfold oneShotSessions
  induction rows.rows with
  | nil => simp
  | cons row rest ih =>
    rw [List.filterMap_cons]
    split
    · exact ih.cons _
    · next session hsession =>
      split at hsession
      · simp only [Option.bind_eq_some_iff, Option.map_eq_some_iff] at hsession
        obtain ⟨cwd, -, first, -, rfl⟩ := hsession
        exact ih.cons_cons _
      · cases hsession

/-- The one-shot sessions of the index. -/
def indexed (rows : Rows) : OneShotSessions := ⟨oneShotSessions rows, oneShotSessions_nodup rows⟩

/-- The session that a one-shot's record names is its own, or that of the least pid. -/
def register (out : Table Sid OneShotPair) (p : Proc) : Table Sid OneShotPair :=
  match p.native.session with
  | none => out
  | some sid =>
    let entry := (out.find? sid).getD ⟨p.pid, .registered⟩
    out.put sid { entry with pid := min entry.pid p.pid }

def registered (procs : List Proc) : Table Sid OneShotPair :=
  (procs.filter Proc.worker).foldl register .empty

/-- A one-shot that names no session, by its record or its argv. -/
def Unnamed (p : Proc) : Prop := p.worker = true ∧ p.sessionRef = none

instance : DecidablePred Unnamed := fun _ => inferInstanceAs (Decidable (_ ∧ _))

/-- The keys of `shots`. -/
def shotDirs (procs : List Proc) : List Dir :=
  (procs.filterMap fun p => if Unnamed p ∧ p.started.isSome then p.cwd else none).dedup

/-- `by_cwd`, at one directory: the sessions that no record names, sorted. -/
def freeIn (procs : List Proc) (sessions : List OneShotSession) (cwd : Dir) : List (Nat × Sid) :=
  (sessions.filterMap fun s =>
    if s.cwd = cwd ∧ ¬reserved procs s.sid then some (s.first, s.sid)
    else none).insertionSort fun a b => a.1 < b.1 ∨ a.1 = b.1 ∧ a.2 ≤ b.2

/-- The window of a process holds the first record of a session. -/
def holds (shot : Nat × Pid) (session : Nat × Sid) : Bool := within shot.1 session.1

abbrev Claim := (Nat × Pid) × Option (Nat × Sid)

/-- The claims of a directory, in start order. -/
def claimsIn (procs : List Proc) (sessions : List OneShotSession) (cwd : Dir) : List Claim :=
  Lib.claims holds (shotsIn procs cwd) (freeIn procs sessions cwd)

/-- The other one-shots that could have taken the session that the `k`-th, begun at `start`,
has claimed: those without a claim, and those whose claim it could have taken in turn. -/
def rivals (here : List Claim) (k start first : Nat) : Nat :=
  here.zipIdx.countP fun other =>
    other.2 ≠ k && within other.1.1.1 first && other.1.2.all fun c => within start c.1

/-- The pairs that the times give a directory. -/
def timedIn (here : List Claim) : List (Sid × OneShotPair) :=
  here.zipIdx.filterMap fun claim =>
    claim.1.2.map fun session =>
      (session.2, ⟨claim.1.1.2, .timed (rivals here claim.2 claim.1.1.1 session.1)⟩)

/-- `pair_one_shots`. No session is of two directories, so their order does not matter. -/
def pairOneShots (procs : List Proc) (sessions : List OneShotSession) : Table Sid OneShotPair :=
  (registered procs).putAll
    ((shotDirs procs).flatMap fun cwd => timedIn (claimsIn procs sessions cwd))

/-! ## who takes part -/

variable {procs : List Proc} {sessions : List OneShotSession} {cwd : Dir}

theorem mem_shotsIn {shot : Nat × Pid} :
    shot ∈ shotsIn procs cwd ↔
      ∃ p ∈ procs, p.pid = shot.2 ∧ Unnamed p ∧ p.cwd = some cwd ∧ p.started = some shot.1 := by
  rw [shotsIn, List.mem_insertionSort, List.mem_filterMap]
  constructor
  · rintro ⟨p, hp, h⟩
    split at h
    · next hp' =>
      obtain ⟨start, hstart, rfl⟩ := Option.map_eq_some_iff.mp h
      exact ⟨p, hp, rfl, ⟨hp'.1, hp'.2.1⟩, hp'.2.2, hstart⟩
    · cases h
  · rintro ⟨p, hp, hpid, hnew, hcwd, hstart⟩
    refine ⟨p, hp, ?_⟩
    rw [if_pos ⟨hnew.1, hnew.2, hcwd⟩, hstart, hpid]
    rfl

theorem mem_freeIn {session : Nat × Sid} :
    session ∈ freeIn procs sessions cwd ↔
      (⟨session.2, cwd, session.1⟩ : OneShotSession) ∈ sessions ∧
        reserved procs session.2 = false := by
  rw [freeIn, List.mem_insertionSort, List.mem_filterMap]
  constructor
  · rintro ⟨s, hs, h⟩
    split at h
    · next hs' =>
      obtain rfl := Option.some.inj h
      obtain ⟨rfl, hfree⟩ := hs'
      exact ⟨hs, by simpa using hfree⟩
    · cases h
  · rintro ⟨hs, hfree⟩
    exact ⟨_, hs, by simp [hfree]⟩

/-- The order of the processes and of the sessions of a directory. -/
theorem shotsIn_sorted (procs : List Proc) (cwd : Dir) :
    (shotsIn procs cwd).Pairwise fun a b => a.1 ≤ b.1 := by
  have htotal : Std.Total fun a b : Nat × Pid => a.1 < b.1 ∨ a.1 = b.1 ∧ a.2 ≤ b.2 :=
    ⟨fun a b => by grind [le_total a.2 b.2]⟩
  have htrans : IsTrans (Nat × Pid) fun a b => a.1 < b.1 ∨ a.1 = b.1 ∧ a.2 ≤ b.2 :=
    ⟨fun a b c hab hbc => by grind [le_trans (a := a.2) (b := b.2) (c := c.2)]⟩
  refine (List.pairwise_insertionSort _ _).imp fun h => ?_
  omega

theorem freeIn_sorted : (freeIn procs sessions cwd).Pairwise fun a b => a.1 ≤ b.1 := by
  have htotal : Std.Total fun a b : Nat × Sid => a.1 < b.1 ∨ a.1 = b.1 ∧ a.2 ≤ b.2 :=
    ⟨fun a b => by grind [le_total a.2 b.2]⟩
  have htrans : IsTrans (Nat × Sid) fun a b => a.1 < b.1 ∨ a.1 = b.1 ∧ a.2 ≤ b.2 :=
    ⟨fun a b c hab hbc => by grind [le_trans (a := a.2) (b := b.2) (c := c.2)]⟩
  refine (List.pairwise_insertionSort _ _).imp fun h => ?_
  omega

/-- All windows have one length. -/
theorem holds_crossing : Crossing holds (fun a b => a.1 ≤ b.1) (fun a b => a.1 ≤ b.1) := by
  constructor <;>
  · intro a a' b b' ha hb hab hba
    simp only [holds, within, Bool.and_eq_true, decide_eq_true_eq] at *
    omega

/-! ## the claims of a directory -/

theorem freeIn_nodup (procs : List Proc) (sessions : OneShotSessions) (cwd : Dir) :
    ((freeIn procs sessions.sessions cwd).map Prod.snd).Nodup := by
  have hperm := (List.perm_insertionSort (fun a b : Nat × Sid => a.1 < b.1 ∨ a.1 = b.1 ∧ a.2 ≤ b.2)
    (sessions.sessions.filterMap fun s =>
      if s.cwd = cwd ∧ ¬reserved procs s.sid then some (s.first, s.sid) else none)).map Prod.snd
  refine hperm.nodup_iff.mpr (sessions.distinct.sublist ?_)
  induction sessions.sessions with
  | nil => simp
  | cons s rest ih =>
    rw [List.filterMap_cons]
    split
    · exact ih.cons _
    · next session hsession =>
      split at hsession
      · obtain rfl := Option.some.inj hsession
        exact ih.cons_cons _
      · cases hsession

theorem claimsIn_shots (procs : List Proc) (sessions : List OneShotSession) (cwd : Dir) :
    (claimsIn procs sessions cwd).map Prod.fst = shotsIn procs cwd :=
  map_fst_claims

/-- A claim is of a one-shot that names no session, and of a session inside its window. -/
theorem claimsIn_fits {start first : Nat} {pid : Pid} {sid : Sid}
    (h : ((start, pid), some (first, sid)) ∈ claimsIn procs sessions cwd) :
    (∃ p ∈ procs, p.pid = pid ∧ Unnamed p ∧ p.cwd = some cwd ∧ p.started = some start) ∧
      (⟨sid, cwd, first⟩ : OneShotSession) ∈ sessions ∧ reserved procs sid = false ∧
        within start first = true := by
  obtain ⟨hshot, hsession, hfits⟩ := claims_fits h
  obtain ⟨hmem, hfree⟩ := mem_freeIn.mp hsession
  exact ⟨mem_shotsIn.mp hshot, hmem, hfree, hfits⟩

/-- A process has one claim. -/
theorem claimsIn_index {procs : ProcTable} {i j : Nat} {c c' : Claim}
    (hc : (claimsIn procs.procs sessions cwd)[i]? = some c)
    (hc' : (claimsIn procs.procs sessions cwd)[j]? = some c') (h : c.1.2 = c'.1.2) : i = j := by
  have hnodup := shotsIn_nodup procs cwd
  rw [← claimsIn_shots procs.procs sessions, List.map_map] at hnodup
  obtain ⟨hi, rfl⟩ := List.getElem?_eq_some_iff.mp hc
  obtain ⟨hj, rfl⟩ := List.getElem?_eq_some_iff.mp hc'
  have hinj := List.nodup_iff_injective_get.mp hnodup
  exact Fin.val_eq_of_eq (@hinj ⟨i, by simpa using hi⟩ ⟨j, by simpa using hj⟩ (by simpa using h))

/-- A session is claimed once. -/
theorem claimsIn_sids (sessions : OneShotSessions) :
    ((claimsIn procs sessions.sessions cwd).filterMap fun c => c.2.map Prod.snd).Nodup := by
  have hfree := freeIn_nodup procs sessions cwd
  have hclaimed : ((claimsIn procs sessions.sessions cwd).filterMap Prod.snd).Nodup :=
    claims_nodup hfree.of_map
  have hsub : ((claimsIn procs sessions.sessions cwd).filterMap fun c => c.2.map Prod.snd) =
      ((claimsIn procs sessions.sessions cwd).filterMap Prod.snd).map Prod.snd := by
    rw [List.map_filterMap]
  rw [hsub]
  apply List.Nodup.map_on _ hclaimed
  intro x hx y hy hxy
  have hmem : ∀ {x}, x ∈ (claimsIn procs sessions.sessions cwd).filterMap Prod.snd →
      x ∈ freeIn procs sessions.sessions cwd := by
    intro x hx
    obtain ⟨⟨shot, claim⟩, hc, rfl⟩ := List.mem_filterMap.mp hx
    exact (claims_fits hc).2.1
  exact List.inj_on_of_nodup_map hfree (hmem hx) (hmem hy) hxy

theorem mem_timedIn {here : List Claim} {sid : Sid} {pair : OneShotPair} :
    (sid, pair) ∈ timedIn here ↔ ∃ k start first pid,
      here[k]? = some ((start, pid), some (first, sid)) ∧
        pair = ⟨pid, .timed (rivals here k start first)⟩ := by
  simp only [timedIn, List.mem_filterMap, Option.map_eq_some_iff]
  constructor
  · rintro ⟨⟨⟨⟨start, pid⟩, claim⟩, k⟩, hk, ⟨first, sid⟩, rfl, heq⟩
    cases heq
    exact ⟨k, start, first, pid, List.mk_mem_zipIdx_iff_getElem?.mp hk, rfl⟩
  · rintro ⟨k, start, first, pid, hk, rfl⟩
    exact ⟨(((start, pid), some (first, sid)), k), List.mk_mem_zipIdx_iff_getElem?.mpr hk,
      (first, sid), rfl, rfl⟩

theorem timedIn_sids (here : List Claim) :
    (timedIn here).map Prod.fst = here.filterMap fun c => c.2.map Prod.snd := by
  have hfst : (timedIn here).map Prod.fst =
      here.zipIdx.filterMap fun c => c.1.2.map Prod.snd := by
    rw [timedIn, List.map_filterMap]
    congr 1
    funext c
    cases c.1.2 <;> rfl
  have hzip : (here.zipIdx.map Prod.fst).filterMap (fun c => c.2.map Prod.snd) =
      here.zipIdx.filterMap fun c => c.1.2.map Prod.snd := List.filterMap_map
  rw [hfst, ← hzip, List.zipIdx_map_fst]

/-- No session is paired by time twice. -/
theorem timed_nodup (procs : List Proc) (sessions : OneShotSessions) :
    (((shotDirs procs).flatMap fun cwd =>
      timedIn (claimsIn procs sessions.sessions cwd)).map Prod.fst).Nodup := by
  rw [List.map_flatMap, List.nodup_flatMap]
  constructor
  · intro cwd _
    rw [timedIn_sids]
    exact claimsIn_sids sessions
  · apply (List.nodup_dedup _).imp
    intro cwd cwd' hne sid hsid hsid'
    simp only [timedIn_sids] at hsid hsid'
    have hdir : ∀ {cwd}, sid ∈ (claimsIn procs sessions.sessions cwd).filterMap
        (fun c => c.2.map Prod.snd) →
        ∃ first, (⟨sid, cwd, first⟩ : OneShotSession) ∈ sessions.sessions := by
      intro cwd h
      obtain ⟨⟨⟨start, pid⟩, claim⟩, hc, hclaim⟩ := List.mem_filterMap.mp h
      obtain ⟨⟨first, sid⟩, rfl, rfl⟩ := Option.map_eq_some_iff.mp hclaim
      exact ⟨first, (claimsIn_fits hc).2.1⟩
    obtain ⟨first, hs⟩ := hdir hsid
    obtain ⟨first', hs'⟩ := hdir hsid'
    have heq := List.inj_on_of_nodup_map sessions.distinct hs hs' rfl
    exact hne (congrArg OneShotSession.cwd heq)

/-! ## what a pair says -/

/-- A one-shot whose record names a session is entered under it. -/
def enter (entry : Option OneShotPair) (pid : Pid) : OneShotPair :=
  let entry := entry.getD ⟨pid, .registered⟩
  { entry with pid := min entry.pid pid }

/-- The one-shots whose records name a session. -/
def recordedBy (procs : List Proc) (sid : Sid) : List Pid :=
  (procs.filter fun p => p.worker && p.native.session = some sid).map (·.pid)

theorem find?_register (out : Table Sid OneShotPair) (p : Proc) (sid : Sid) :
    (register out p).find? sid =
      if p.native.session = some sid then some (enter (out.find? sid) p.pid) else out.find? sid := by
  cases h : p.native.session with
  | none => simp [register, h]
  | some sid' =>
    simp only [register, h, Table.find?_put, Option.some.injEq]
    by_cases hsid : sid = sid'
    · simp [hsid, enter]
    · simp [hsid, Ne.symm hsid]

theorem foldl_enter (pids : List Pid) (pid : Pid) :
    pids.foldl (fun entry pid => some (enter entry pid)) (some ⟨pid, .registered⟩) =
      some ⟨pids.foldl min pid, .registered⟩ := by
  induction pids generalizing pid with
  | nil => rfl
  | cons other pids ih => exact ih (min pid other)

/-- The one-shot of the least pid has the session that its record names. -/
theorem find?_registered (procs : List Proc) (sid : Sid) :
    (registered procs).find? sid = (recordedBy procs sid).min?.map (⟨·, .registered⟩) := by
  have hfold : ∀ (ps : List Proc) (out : Table Sid OneShotPair),
      ((ps.filter Proc.worker).foldl register out).find? sid =
        (recordedBy ps sid).foldl (fun entry pid => some (enter entry pid)) (out.find? sid) := by
    intro ps
    induction ps with
    | nil => exact fun _ => rfl
    | cons p ps ih =>
      intro out
      by_cases hworker : p.worker = true
      · rw [List.filter_cons_of_pos hworker, List.foldl_cons, ih, find?_register]
        by_cases hsid : p.native.session = some sid
        · simp [recordedBy, hworker, hsid]
        · simp [recordedBy, hsid]
      · rw [List.filter_cons_of_neg hworker, ih]
        simp [recordedBy, hworker]
  rw [registered, hfold, Table.find?_empty]
  cases recordedBy procs sid with
  | nil => rfl
  | cons pid pids =>
    show pids.foldl _ (some (enter none pid)) = _
    rw [show enter none pid = ⟨pid, .registered⟩ by simp [enter], foldl_enter]
    rfl

theorem registered_iff {sid : Sid} {pair : OneShotPair} :
    (registered procs).find? sid = some pair ↔
      pair.evidence = .registered ∧ (recordedBy procs sid).min? = some pair.pid := by
  rw [find?_registered, Option.map_eq_some_iff]
  obtain ⟨pid, evidence⟩ := pair
  constructor
  · rintro ⟨least, hleast, heq⟩
    cases heq
    exact ⟨rfl, hleast⟩
  · rintro ⟨rfl, hleast⟩
    exact ⟨pid, hleast, rfl⟩

theorem recorded_of_registered {sid : Sid} {pair : OneShotPair}
    (h : (registered procs).find? sid = some pair) :
    ∃ p ∈ procs, p.pid = pair.pid ∧ p.worker = true ∧ p.native.session = some sid := by
  have hmem := List.min?_mem (registered_iff.mp h).2
  obtain ⟨p, hp, hpid⟩ := List.mem_map.mp hmem
  simp only [List.mem_filter, Bool.and_eq_true, decide_eq_true_eq] at hp
  exact ⟨p, hp.1, hpid, hp.2.1, hp.2.2⟩

theorem reserved_of_registered {sid : Sid} {pair : OneShotPair}
    (h : (registered procs).find? sid = some pair) : reserved procs sid = true := by
  obtain ⟨p, hp, -, hworker, hsid⟩ := recorded_of_registered h
  simp only [Proc.worker, Bool.and_eq_true] at hworker
  exact List.any_eq_true.mpr ⟨p, hp, by simp [hworker.1.1.2, hsid]⟩

/-- The claim that a pair by time is of. -/
def Timed (procs : List Proc) (sessions : List OneShotSession) (cwd : Dir) (k start first : Nat)
    (pid : Pid) (sid : Sid) : Prop :=
  (claimsIn procs sessions cwd)[k]? = some ((start, pid), some (first, sid))

/-- **A pair** is of a session that a record names, or a claim. -/
theorem find?_pairOneShots {sessions : OneShotSessions} {sid : Sid} {pair : OneShotPair} :
    (pairOneShots procs sessions.sessions).find? sid = some pair ↔
      (registered procs).find? sid = some pair ∨
        ∃ cwd k start first, Timed procs sessions.sessions cwd k start first pair.pid sid ∧
          pair.evidence =
            .timed (rivals (claimsIn procs sessions.sessions cwd) k start first) := by
  have hmem : ∀ {pair}, (((shotDirs procs).flatMap fun cwd =>
        timedIn (claimsIn procs sessions.sessions cwd)).lookup sid = some pair) ↔
      ∃ cwd k start first, Timed procs sessions.sessions cwd k start first pair.pid sid ∧
        pair.evidence = .timed (rivals (claimsIn procs sessions.sessions cwd) k start first) := by
    intro pair
    have hlookup := Table.mem_iff (t := ⟨_, timed_nodup procs sessions⟩)
      (k := sid) (v := pair)
    rw [Table.find?] at hlookup
    rw [← hlookup, List.mem_flatMap]
    constructor
    · rintro ⟨cwd, -, h⟩
      obtain ⟨k, start, first, pid, hk, rfl⟩ := mem_timedIn.mp h
      exact ⟨cwd, k, start, first, hk, rfl⟩
    · rintro ⟨cwd, k, start, first, hk, hevidence⟩
      obtain ⟨⟨p, hp, -, hnew, hcwd, hstart⟩, -⟩ := claimsIn_fits (List.mem_of_getElem? hk)
      refine ⟨cwd, ?_, mem_timedIn.mpr ⟨k, start, first, pair.pid, hk, ?_⟩⟩
      · rw [shotDirs, List.mem_dedup, List.mem_filterMap]
        exact ⟨p, hp, by simp [hnew, hstart, hcwd]⟩
      · cases pair
        simp_all
  rw [pairOneShots, Table.find?_putAll _ (timed_nodup procs sessions), Option.or_eq_some_iff, hmem]
  constructor
  · rintro (h | ⟨-, h⟩)
    · exact .inr h
    · exact .inl h
  · rintro (h | h)
    · refine .inr ⟨?_, h⟩
      apply Option.eq_none_iff_forall_ne_some.mpr
      intro other hother
      obtain ⟨cwd, k, start, first, hk, -⟩ := hmem.mp hother
      have hfree := (claimsIn_fits (List.mem_of_getElem? hk)).2.2.1
      simp [reserved_of_registered h] at hfree
    · exact .inl h

/-! ## the assignments of a directory -/

/-- A one-to-one assignment of the free sessions of a directory to its processes of a kind
that respects the windows. -/
structure Assigns (kind : Proc → Prop) (procs : List Proc) (sessions : List OneShotSession)
    (cwd : Dir) (f : Pid → Option Sid) : Prop where
  respects : ∀ pid sid, f pid = some sid → ∃ p ∈ procs, ∃ s ∈ sessions, p.pid = pid ∧ s.sid = sid ∧
    kind p ∧ p.cwd = some cwd ∧ s.cwd = cwd ∧ reserved procs sid = false ∧
      ∃ start, p.started = some start ∧ within start s.first = true
  oneToOne : ∀ pid pid' sid, f pid = some sid → f pid' = some sid → pid = pid'

/-- How many of the processes are given a session. -/
def size (procs : List Proc) (f : Pid → Option Sid) : Nat := procs.countP fun p => (f p.pid).isSome

/-- A session of a directory is paired with a process by time. -/
def takes (out : Table Sid OneShotPair) (cwd : Dir) (pid : Pid) (s : OneShotSession) : Bool :=
  s.cwd = cwd && (out.find? s.sid).any fun pair => pair.pid = pid && pair.evidence.isTimed

/-- The session of a directory that a process is paired with by time. -/
def sessionOf (out : Table Sid OneShotPair) (sessions : List OneShotSession) (cwd : Dir)
    (pid : Pid) : Option Sid :=
  (sessions.find? (takes out cwd pid)).map (·.sid)

/-- A process has one claim, in its own directory. -/
theorem Timed.unique {procs : ProcTable} {sessions : List OneShotSession} {cwd cwd' : Dir}
    {k k' start start' first first' : Nat} {pid : Pid} {sid sid' : Sid}
    (h : Timed procs.procs sessions cwd k start first pid sid)
    (h' : Timed procs.procs sessions cwd' k' start' first' pid sid') : cwd = cwd' ∧ sid = sid' := by
  obtain ⟨⟨p, hp, hpid, -, hcwd, -⟩, -⟩ := claimsIn_fits (List.mem_of_getElem? h)
  obtain ⟨⟨q, hq, hqid, -, hcwd', -⟩, -⟩ := claimsIn_fits (List.mem_of_getElem? h')
  obtain rfl := ProcTable.eq_of_pid hp hq (hpid.trans hqid.symm)
  obtain rfl := Option.some.inj (hcwd.symm.trans hcwd')
  obtain rfl := claimsIn_index h h' rfl
  have hclaim := Option.some.inj (h.symm.trans h')
  simp only [Prod.mk.injEq, Option.some.injEq] at hclaim
  exact ⟨rfl, hclaim.2.2⟩

theorem Timed.find? {sessions : OneShotSessions} {k start first : Nat} {pid : Pid} {sid : Sid}
    (h : Timed procs sessions.sessions cwd k start first pid sid) :
    (pairOneShots procs sessions.sessions).find? sid =
      some ⟨pid, .timed (rivals (claimsIn procs sessions.sessions cwd) k start first)⟩ :=
  find?_pairOneShots.mpr (.inr ⟨cwd, k, start, first, h, rfl⟩)

theorem takes_iff {sessions : OneShotSessions} {pid : Pid} {s : OneShotSession}
    (hs : s ∈ sessions.sessions) :
    takes (pairOneShots procs sessions.sessions) cwd pid s = true ↔
      ∃ k start first, Timed procs sessions.sessions cwd k start first pid s.sid := by
  simp only [takes, Bool.and_eq_true, decide_eq_true_eq]
  constructor
  · rintro ⟨rfl, htakes⟩
    cases hpair : (pairOneShots procs sessions.sessions).find? s.sid with
    | none => simp [hpair] at htakes
    | some pair =>
      simp only [hpair, Option.any_some, Bool.and_eq_true, decide_eq_true_eq] at htakes
      obtain hreg | ⟨cwd, k, start, first, hk, -⟩ := find?_pairOneShots.mp hpair
      · simp [(registered_iff.mp hreg).1, OneShotEvidence.isTimed] at htakes
      · have hs' := (claimsIn_fits (List.mem_of_getElem? hk)).2.1
        have heq := List.inj_on_of_nodup_map sessions.distinct hs hs' rfl
        obtain rfl := congrArg OneShotSession.cwd heq
        exact ⟨k, start, first, htakes.1 ▸ hk⟩
  · rintro ⟨k, start, first, hk⟩
    have hs' := (claimsIn_fits (List.mem_of_getElem? hk)).2.1
    have heq := List.inj_on_of_nodup_map sessions.distinct hs hs' rfl
    exact ⟨congrArg OneShotSession.cwd heq, by simp [hk.find?, OneShotEvidence.isTimed]⟩

theorem sessionOf_iff {procs : ProcTable} {sessions : OneShotSessions} {cwd : Dir} {pid : Pid}
    {sid : Sid} :
    sessionOf (pairOneShots procs.procs sessions.sessions) sessions.sessions cwd pid = some sid ↔
      ∃ k start first, Timed procs.procs sessions.sessions cwd k start first pid sid := by
  rw [sessionOf, Option.map_eq_some_iff]
  constructor
  · rintro ⟨s, hs, rfl⟩
    exact (takes_iff (List.mem_of_find?_eq_some hs)).mp (List.find?_some hs)
  · rintro ⟨k, start, first, hk⟩
    have hs := (claimsIn_fits (List.mem_of_getElem? hk)).2.1
    have hsome := List.find?_isSome.mpr ⟨_, hs, (takes_iff hs).mpr ⟨k, start, first, hk⟩⟩
    obtain ⟨s, hfind⟩ := Option.isSome_iff_exists.mp hsome
    obtain ⟨k', start', first', hk'⟩ :=
      (takes_iff (List.mem_of_find?_eq_some hfind)).mp (List.find?_some hfind)
    exact ⟨s, hfind, (hk'.unique hk).2⟩

section Largest

variable {procs : ProcTable} {sessions : OneShotSessions} {cwd : Dir}

/-- What is paired by time is an assignment. -/
theorem assigns_sessionOf :
    Assigns Unnamed procs.procs sessions.sessions cwd
      (sessionOf (pairOneShots procs.procs sessions.sessions) sessions.sessions cwd) := by
  constructor
  · intro pid sid h
    obtain ⟨k, start, first, hk⟩ := sessionOf_iff.mp h
    obtain ⟨⟨p, hp, hpid, hnew, hcwd, hstart⟩, hs, hfree, hwithin⟩ :=
      claimsIn_fits (List.mem_of_getElem? hk)
    exact ⟨p, hp, _, hs, hpid, rfl, hnew, hcwd, rfl, hfree, start, hstart, hwithin⟩
  · intro pid pid' sid h h'
    obtain ⟨k, start, first, hk⟩ := sessionOf_iff.mp h
    obtain ⟨k', start', first', hk'⟩ := sessionOf_iff.mp h'
    exact congrArg OneShotPair.pid (Option.some.inj (hk.find?.symm.trans hk'.find?))

/-- An assignment of the processes and sessions that compete. -/
def onShots (sessions : List OneShotSession) (f : Pid → Option Sid) (shot : Nat × Pid) :
    Option (Nat × Sid) :=
  (f shot.2).bind fun sid => (sessions.find? (·.sid = sid)).map fun s => (s.first, s.sid)

theorem onShots_iff {f : Pid → Option Sid} {shot : Nat × Pid} {session : Nat × Sid} :
    onShots sessions.sessions f shot = some session ↔
      f shot.2 = some session.2 ∧ ∃ s ∈ sessions.sessions, (s.first, s.sid) = session := by
  simp only [onShots, Option.bind_eq_some_iff, Option.map_eq_some_iff]
  constructor
  · rintro ⟨sid, hf, s, hs, rfl⟩
    have hsid : s.sid = sid := by simpa using List.find?_some hs
    exact ⟨hsid ▸ hf, s, List.mem_of_find?_eq_some hs, rfl⟩
  · rintro ⟨hf, s, hs, rfl⟩
    refine ⟨s.sid, hf, ?_⟩
    obtain ⟨t, ht⟩ := Option.isSome_iff_exists.mp
      ((List.find?_isSome (p := fun t => decide (t.sid = s.sid))).mpr ⟨s, hs, by simp⟩)
    have hsid : t.sid = s.sid := by simpa using List.find?_some ht
    have heq := List.inj_on_of_nodup_map sessions.distinct (List.mem_of_find?_eq_some ht) hs hsid
    exact ⟨t, ht, by rw [heq]⟩

theorem Assigns.assignment {f : Pid → Option Sid}
    (h : Assigns Unnamed procs.procs sessions.sessions cwd f) :
    Assignment holds (shotsIn procs.procs cwd) (freeIn procs.procs sessions.sessions cwd)
      (onShots sessions.sessions f) := by
  constructor
  · rintro ⟨start, pid⟩ hshot ⟨first, sid⟩ hf
    obtain ⟨hf, s, hs, heq⟩ := onShots_iff.mp hf
    obtain ⟨p, hp, t, ht, hpid, hsid, -, -, hcwd, hfree, start', hstart', hwithin⟩ :=
      h.respects pid sid hf
    cases heq
    obtain rfl := List.inj_on_of_nodup_map sessions.distinct ht hs hsid
    obtain ⟨q, hq, hqid, -, -, hstart⟩ := mem_shotsIn.mp hshot
    obtain rfl := ProcTable.eq_of_pid hp hq (hpid.trans hqid.symm)
    obtain rfl := Option.some.inj (hstart.symm.trans hstart')
    exact ⟨mem_freeIn.mpr ⟨hcwd ▸ hs, hfree⟩, hwithin⟩
  · intro shot hshot shot' hshot' session hf hf'
    have hpid := h.oneToOne _ _ _ (onShots_iff.mp hf).1 (onShots_iff.mp hf').1
    exact List.inj_on_of_nodup_map (shotsIn_nodup procs cwd) hshot hshot' hpid

/-- Each process that is given a session competes for it. -/
theorem Assigns.size_le {f : Pid → Option Sid}
    (h : Assigns Unnamed procs.procs sessions.sessions cwd f) :
    size procs.procs f ≤ assigned (onShots sessions.sessions f) (shotsIn procs.procs cwd) := by
  have hnodup : ((procs.procs.filter fun p => (f p.pid).isSome).map (·.pid)).Nodup :=
    procs.distinct.sublist (List.filter_sublist.map _)
  have hsub : ((procs.procs.filter fun p => (f p.pid).isSome).map (·.pid)) ⊆
      ((shotsIn procs.procs cwd).filter fun shot => (onShots sessions.sessions f shot).isSome).map
        Prod.snd := by
    intro pid hpid
    obtain ⟨p, hp, rfl⟩ := List.mem_map.mp hpid
    obtain ⟨sid, hsid⟩ := Option.isSome_iff_exists.mp (List.mem_filter.mp hp).2
    obtain ⟨q, hq, s, hs, hqid, rfl, hnew, hcwd, -, -, start, hstart, -⟩ := h.respects _ _ hsid
    refine List.mem_map.mpr ⟨(start, p.pid), List.mem_filter.mpr ⟨?_, ?_⟩, rfl⟩
    · exact mem_shotsIn.mpr ⟨q, hq, hqid, hnew, hcwd, hstart⟩
    · exact Option.isSome_iff_exists.mpr ⟨_, onShots_iff.mpr ⟨hsid, s, hs, rfl⟩⟩
  have hle := (hnodup.subperm hsub).length_le
  simpa [size, assigned, List.countP_eq_length_filter] using hle

/-- Each claim is a process that is paired. -/
theorem claimed_le_size :
    ((claimsIn procs.procs sessions.sessions cwd).filterMap Prod.snd).length ≤
      size procs.procs
        (sessionOf (pairOneShots procs.procs sessions.sessions) sessions.sessions cwd) := by
  have hlength : ((claimsIn procs.procs sessions.sessions cwd).filterMap Prod.snd).length =
      (((claimsIn procs.procs sessions.sessions cwd).filter fun c => c.2.isSome).map
        fun c => c.1.2).length := by
    rw [List.length_map, ← List.countP_eq_length_filter, List.length_filterMap_eq_countP]
  have hnodup : (((claimsIn procs.procs sessions.sessions cwd).filter fun c => c.2.isSome).map
      fun c => c.1.2).Nodup := by
    have hshots := shotsIn_nodup procs cwd
    rw [← claimsIn_shots procs.procs sessions.sessions, List.map_map] at hshots
    exact hshots.sublist (List.filter_sublist.map _)
  have hsub : (((claimsIn procs.procs sessions.sessions cwd).filter fun c => c.2.isSome).map
      fun c => c.1.2) ⊆ (procs.procs.filter fun p => (sessionOf
        (pairOneShots procs.procs sessions.sessions) sessions.sessions cwd p.pid).isSome).map
          (·.pid) := by
    intro pid hpid
    obtain ⟨⟨⟨start, pid⟩, claim⟩, hc, rfl⟩ := List.mem_map.mp hpid
    obtain ⟨hc, hsome⟩ := List.mem_filter.mp hc
    obtain ⟨⟨first, sid⟩, rfl⟩ := Option.isSome_iff_exists.mp hsome
    obtain ⟨k, hk⟩ := List.mem_iff_getElem?.mp hc
    obtain ⟨p, hp, rfl, -⟩ := (claimsIn_fits hc).1
    refine List.mem_map.mpr ⟨p, List.mem_filter.mpr ⟨hp, ?_⟩, rfl⟩
    exact Option.isSome_iff_exists.mpr ⟨sid, sessionOf_iff.mpr ⟨k, start, first, hk⟩⟩
  have hle := (hnodup.subperm hsub).length_le
  rw [hlength]
  simpa [size, List.countP_eq_length_filter] using hle

/-- No assignment of the processes that name no session pairs more. -/
theorem size_le_sessionOf {f : Pid → Option Sid}
    (h : Assigns Unnamed procs.procs sessions.sessions cwd f) :
    size procs.procs f ≤ size procs.procs
      (sessionOf (pairOneShots procs.procs sessions.sessions) sessions.sessions cwd) := by
  have hlargest := h.assignment.size_le_claims holds_crossing (shotsIn_nodup procs cwd).of_map
    (shotsIn_sorted procs.procs cwd) (freeIn_nodup procs.procs sessions cwd).of_map freeIn_sorted
  exact h.size_le.trans (hlargest.trans claimed_le_size)

/-- What the pairs of a scan are: which processes and which sessions are paired, and how many. -/
structure LargestPairing (procs : ProcTable) (sessions : OneShotSessions)
    (out : Table Sid OneShotPair) : Prop where
  /-- A pair by time is of one directory, inside the window. -/
  window : ∀ sid pid n, out.find? sid = some ⟨pid, .timed n⟩ →
    ∃ p ∈ procs.procs, ∃ s ∈ sessions.sessions, p.pid = pid ∧ s.sid = sid ∧ p.cwd = some s.cwd ∧
      ∃ start, p.started = some start ∧ within start s.first = true
  /-- Any other pair is what the process's own record says. -/
  recorded : ∀ sid pid, out.find? sid = some ⟨pid, .registered⟩ →
    ∃ p ∈ procs.procs, p.pid = pid ∧ p.native.session = some sid
  /-- A process has one session. -/
  oneSession : ∀ sid sid' pair pair', out.find? sid = some pair → out.find? sid' = some pair' →
    pair.pid = pair'.pid → sid = sid'
  /-- A session that the record of a process names goes to no other. -/
  reserved : ∀ q ∈ procs.procs, q.serves .claude = true → ∀ sid pair, q.native.session = some sid →
    out.find? sid = some pair → ∃ p ∈ procs.procs, p.pid = pair.pid ∧ p.native.session = some sid
  /-- A process that names a session takes none by time. -/
  named : ∀ p ∈ procs.procs, p.sessionRef ≠ none → ∀ sid n,
    out.find? sid ≠ some ⟨p.pid, .timed n⟩
  /-- In each directory, the pairs by time are an assignment, and none is larger. -/
  largest : ∀ cwd, Assigns Unnamed procs.procs sessions.sessions cwd
      (sessionOf out sessions.sessions cwd) ∧
    ∀ f, Assigns Unnamed procs.procs sessions.sessions cwd f →
      size procs.procs f ≤ size procs.procs (sessionOf out sessions.sessions cwd)

/-- A process that has a pair: by its record, or by a claim. -/
theorem proc_of_pair {sid : Sid} {pair : OneShotPair}
    (h : (pairOneShots procs.procs sessions.sessions).find? sid = some pair) :
    ∃ p ∈ procs.procs, p.pid = pair.pid ∧ p.worker = true ∧
      (p.native.session = some sid ∨ p.sessionRef = none ∧
        ∃ cwd k start first, Timed procs.procs sessions.sessions cwd k start first pair.pid sid) := by
  obtain hreg | ⟨cwd, k, start, first, hk, -⟩ := find?_pairOneShots.mp h
  · obtain ⟨p, hp, hpid, hworker, hsid⟩ := recorded_of_registered hreg
    exact ⟨p, hp, hpid, hworker, .inl hsid⟩
  · obtain ⟨p, hp, hpid, hnew, -⟩ := (claimsIn_fits (List.mem_of_getElem? hk)).1
    exact ⟨p, hp, hpid, hnew.1, .inr ⟨hnew.2, cwd, k, start, first, hk⟩⟩

theorem sessionRef_ne_none {p : Proc} {sid : Sid} (h : p.native.session = some sid) :
    p.sessionRef ≠ none := by
  simp [Proc.sessionRef, h]

/-- A process has one session. -/
theorem pid_inj {sid sid' : Sid} {pair pair' : OneShotPair}
    (h : (pairOneShots procs.procs sessions.sessions).find? sid = some pair)
    (h' : (pairOneShots procs.procs sessions.sessions).find? sid' = some pair')
    (hpid : pair.pid = pair'.pid) : sid = sid' := by
  obtain ⟨p, hp, hpp, -, hsid⟩ := proc_of_pair h
  obtain ⟨q, hq, hqq, -, hsid'⟩ := proc_of_pair h'
  obtain rfl := ProcTable.eq_of_pid hp hq (hpp.trans (hpid.trans hqq.symm))
  obtain hrec | ⟨hnew, cwd, k, start, first, hk⟩ := hsid <;>
    obtain hrec' | ⟨hnew', cwd', k', start', first', hk'⟩ := hsid'
  · exact Option.some.inj (hrec.symm.trans hrec')
  · exact absurd hnew' (sessionRef_ne_none hrec)
  · exact absurd hnew (sessionRef_ne_none hrec')
  · exact (hk.unique (hpid ▸ hk')).2

theorem timed_of_find? {sid : Sid} {pid : Pid} {n : Nat}
    (h : (pairOneShots procs.procs sessions.sessions).find? sid = some ⟨pid, .timed n⟩) :
    ∃ cwd k start first, Timed procs.procs sessions.sessions cwd k start first pid sid ∧
      n = rivals (claimsIn procs.procs sessions.sessions cwd) k start first := by
  obtain hreg | ⟨cwd, k, start, first, hk, hn⟩ := find?_pairOneShots.mp h
  · cases (registered_iff.mp hreg).1
  · exact ⟨cwd, k, start, first, hk, by injection hn⟩

/-- **The pairing of one-shots is a largest one-to-one matching** of the processes that name
no session and the sessions that no record names. -/
theorem pairOneShots_largest (procs : ProcTable) (sessions : OneShotSessions) :
    LargestPairing procs sessions (pairOneShots procs.procs sessions.sessions) := by
  constructor
  case window =>
    intro sid pid n h
    obtain ⟨cwd, k, start, first, hk, -⟩ := timed_of_find? h
    obtain ⟨⟨p, hp, hpid, -, hcwd, hstart⟩, hs, -, hwithin⟩ :=
      claimsIn_fits (List.mem_of_getElem? hk)
    exact ⟨p, hp, _, hs, hpid, rfl, hcwd, start, hstart, hwithin⟩
  case recorded =>
    intro sid pid h
    obtain hreg | ⟨cwd, k, start, first, -, hn⟩ := find?_pairOneShots.mp h
    · obtain ⟨p, hp, hpid, -, hsid⟩ := recorded_of_registered hreg
      exact ⟨p, hp, hpid, hsid⟩
    · cases hn
  case oneSession => exact fun _ _ _ _ => pid_inj
  case reserved =>
    intro q hq hserves sid pair hrec h
    obtain ⟨p, hp, hpid, -, hsid | ⟨-, cwd, k, start, first, hk⟩⟩ := proc_of_pair h
    · exact ⟨p, hp, hpid, hsid⟩
    · have hfree := (claimsIn_fits (List.mem_of_getElem? hk)).2.2.1
      have hreserved : Linking.reserved procs.procs sid = true :=
        List.any_eq_true.mpr ⟨q, hq, by simp [hserves, hrec]⟩
      simp [hreserved] at hfree
  case named =>
    intro p hp href sid n h
    obtain ⟨cwd, k, start, first, hk, -⟩ := timed_of_find? h
    obtain ⟨q, hq, hqid, hnew, -⟩ := (claimsIn_fits (List.mem_of_getElem? hk)).1
    obtain rfl := ProcTable.eq_of_pid hq hp hqid
    exact href hnew.2
  case largest => exact fun cwd => ⟨assigns_sessionOf, fun f h => size_le_sessionOf h⟩

/-- A one-shot of `/w` that began at `started`; its argv names `argvRef`. -/
def shotAt (pid : Pid) (argvRef : Option SessionRef) (started : Nat) : Proc :=
  { Proc.plain pid .claude with argvRef, argvOneShot := true, started := some started }

/-- A one-shot whose argv names its session has no record, and is paired with nothing. -/
theorem named_unpaired :
    ∃ (procs : ProcTable) (sessions : OneShotSessions) (cwd : Dir) (f : Pid → Option Sid),
      Assigns (fun p => p.worker = true ∧ p.native.session = none) procs.procs sessions.sessions
        cwd f ∧
      size procs.procs (sessionOf (pairOneShots procs.procs sessions.sessions) sessions.sessions
        cwd) < size procs.procs f := by
  refine ⟨⟨[shotAt 1 (some (.exact "a")) 100], by simp⟩, ⟨[⟨"a", "/w", 100⟩], by simp⟩, "/w",
    fun pid => if pid = 1 then some "a" else none, ⟨?_, ?_⟩, by decide +kernel⟩
  · intro pid sid h
    obtain ⟨rfl, rfl⟩ : pid = 1 ∧ "a" = sid := by simpa using h
    exact ⟨_, List.mem_singleton_self _, _, List.mem_singleton_self _, rfl, rfl, ⟨rfl, rfl⟩, rfl, rfl,
      rfl, 100, rfl, rfl⟩
  · intro pid pid' sid h h'
    obtain ⟨rfl, -⟩ : pid = 1 ∧ "a" = sid := by simpa using h
    obtain ⟨rfl, -⟩ : pid' = 1 ∧ "a" = sid := by simpa using h'
    rfl

/-! ## what is confirmed -/

/-- A claim without rivals: every other one-shot has the session outside its window, or has
a claim that this one could not take. -/
theorem no_rival {k start first : Nat} {here : List Claim} (h : rivals here k start first = 0)
    {j : Nat} (hj : j ≠ k) {c : Claim} (hc : here[j]? = some c)
    (hwithin : within c.1.1 first = true) :
    ∃ session, c.2 = some session ∧ within start session.1 = false := by
  rw [rivals, List.countP_eq_zero] at h
  have hnot := h (c, j) (List.mk_mem_zipIdx_iff_getElem?.mpr hc)
  simp only [hwithin, Bool.and_eq_true, decide_eq_true_eq, ne_eq, hj, not_false_iff, true_and] at hnot
  cases hclaim : c.2 with
  | none => simp [hclaim] at hnot
  | some session => exact ⟨session, rfl, by simpa [hclaim] using hnot⟩

/-- The claims of a directory that have a session, in start order. -/
abbrev Held (here : List Claim) : Type := { i : Fin here.length // here[i].2.isSome = true }

namespace Held

variable {here : List Claim}

def start (i : Held here) : Nat := here[i.1].1.1

def pid (i : Held here) : Pid := here[i.1].1.2

def session (i : Held here) : Nat × Sid := here[i.1].2.get i.2

theorem getElem? (i : Held here) :
    here[i.1.1]? = some ((i.start, i.pid), some i.session) := by
  rw [List.getElem?_eq_getElem i.1.2]
  simp [start, pid, session]

/-- The window of one holds the session of another. -/
def fits (i j : Held here) : Bool := within i.start j.session.1

end Held

theorem held_crossing :
    Crossing (@Held.fits (claimsIn procs.procs sessions.sessions cwd)) (· < ·) (· < ·) := by
  have hshots := shotsIn_sorted procs.procs cwd
  rw [← claimsIn_shots procs.procs sessions.sessions, List.pairwise_map,
    List.pairwise_iff_getElem] at hshots
  have hclaims := claims_ordered holds_crossing (shotsIn_sorted procs.procs cwd)
    (freeIn_nodup procs.procs sessions cwd).of_map freeIn_sorted
  rw [List.pairwise_iff_getElem] at hclaims
  have hstart : ∀ {i j : Held (claimsIn procs.procs sessions.sessions cwd)}, i < j →
      i.start ≤ j.start := fun {i j} hij => hshots i.1 j.1 i.1.2 j.1.2 hij
  have hfirst : ∀ {i j : Held (claimsIn procs.procs sessions.sessions cwd)}, i < j →
      i.session.1 ≤ j.session.1 := fun {i j} hij =>
    hclaims i.1 j.1 i.1.2 j.1.2 hij _ (Option.get_mem i.2) _ (Option.get_mem j.2)
  constructor <;>
  · intro i i' j j' hi hj hij hji
    have hi := hstart hi
    have hj := hfirst hj
    simp only [Held.fits, within, Bool.and_eq_true, decide_eq_true_eq] at *
    omega

theorem Held.timed (i : Held (claimsIn procs.procs sessions.sessions cwd)) :
    Timed procs.procs sessions.sessions cwd i.1 i.start i.session.1 i.pid i.session.2 := i.getElem?

theorem Timed.held {k start first : Nat} {pid : Pid} {sid : Sid}
    (h : Timed procs.procs sessions.sessions cwd k start first pid sid) :
    ∃ i : Held (claimsIn procs.procs sessions.sessions cwd),
      i.1.1 = k ∧ i.start = start ∧ i.pid = pid ∧ i.session = (first, sid) := by
  obtain ⟨hk, hget⟩ := List.getElem?_eq_some_iff.mp h
  refine ⟨⟨⟨k, hk⟩, ?_⟩, rfl, ?_, ?_, ?_⟩ <;> simp [Held.start, Held.pid, Held.session, hget]

/-- A session is held once. -/
theorem Held.eq_of_sid {i j : Held (claimsIn procs.procs sessions.sessions cwd)}
    (h : i.session.2 = j.session.2) : i = j := by
  have hfind := i.timed.find?
  rw [h, j.timed.find?, Option.some.injEq, OneShotPair.mk.injEq] at hfind
  exact Subtype.ext (Fin.ext (claimsIn_index i.timed j.timed hfind.1.symm))

/-- An assignment that gives the sessions that are held to those who hold them. -/
theorem Assigns.onHeld {f : Pid → Option Sid}
    (h : Assigns Unnamed procs.procs sessions.sessions cwd f)
    (hpaired : ∀ pid, (f pid).isSome = true → (sessionOf (pairOneShots procs.procs
      sessions.sessions) sessions.sessions cwd pid).isSome = true)
    {j : Held (claimsIn procs.procs sessions.sessions cwd)} {pid : Pid}
    (hj : f pid = some j.session.2) :
    ∃ i : Held (claimsIn procs.procs sessions.sessions cwd),
      f i.pid = some j.session.2 ∧ i.fits j = true := by
  obtain ⟨sid, hsid⟩ := Option.isSome_iff_exists.mp (hpaired pid (by simp [hj]))
  obtain ⟨k, start, first, hk⟩ := sessionOf_iff.mp hsid
  obtain ⟨i, -, rfl, rfl, -⟩ := hk.held
  refine ⟨i, hj, ?_⟩
  obtain ⟨p, hp, s, hs, hpid, hssid, -, -, -, -, start, hstart, hwithin⟩ := h.respects _ _ hj
  obtain ⟨q, hq, hqid, -, -, hstart'⟩ := (claimsIn_fits (List.mem_of_getElem? i.timed)).1
  have hs' := (claimsIn_fits (List.mem_of_getElem? j.timed)).2.1
  obtain rfl := ProcTable.eq_of_pid hp hq (hpid.trans hqid.symm)
  obtain rfl := Option.some.inj (hstart.symm.trans hstart')
  obtain rfl := List.inj_on_of_nodup_map sessions.distinct hs hs' hssid
  exact hwithin

/-- **A confirmed pairing is forced** among the processes that are paired: any other way to give
them the same sessions gives this session to this process. And no process that is left without
a session began at a time that allows it this one. -/
theorem confirmed_forced (procs : ProcTable) (sessions : OneShotSessions) (cwd : Dir) (pid : Pid)
    (sid : Sid) (pair : OneShotPair)
    (hpair : sessionOf (pairOneShots procs.procs sessions.sessions) sessions.sessions cwd pid =
      some sid)
    (hfind : (pairOneShots procs.procs sessions.sessions).find? sid = some pair)
    (hconfirmed : pair.evidence.confirmed = true) :
    (∀ f, Assigns Unnamed procs.procs sessions.sessions cwd f →
      (∀ other, (f other).isSome = true → (sessionOf (pairOneShots procs.procs sessions.sessions)
        sessions.sessions cwd other).isSome = true) →
      (∀ s, (∃ other, f other = some s) ↔ ∃ other, sessionOf (pairOneShots procs.procs
        sessions.sessions) sessions.sessions cwd other = some s) →
      f pid = some sid) ∧
    ∀ p ∈ procs.procs, Unnamed p → p.cwd = some cwd →
      sessionOf (pairOneShots procs.procs sessions.sessions) sessions.sessions cwd p.pid = none →
      ∀ s ∈ sessions.sessions, s.sid = sid → ∀ start, p.started = some start →
        within start s.first = false := by
  obtain ⟨k, start, first, hk⟩ := sessionOf_iff.mp hpair
  have hrivals : rivals (claimsIn procs.procs sessions.sessions cwd) k start first = 0 := by
    obtain rfl := Option.some.inj (hk.find?.symm.trans hfind)
    simpa [OneShotEvidence.confirmed] using hconfirmed
  constructor
  · intro f hf hpaired hsame
    obtain ⟨i, hik, rfl, rfl, hsession⟩ := hk.held
    have hfirst : i.session.1 = first := by rw [hsession]
    have hsid : i.session.2 = sid := by rw [hsession]
    have hgiven : ∀ j : Held (claimsIn procs.procs sessions.sessions cwd),
        ∃ i : Held (claimsIn procs.procs sessions.sessions cwd),
          f i.pid = some j.session.2 ∧ i.fits j = true := by
      intro j
      obtain ⟨other, hother⟩ := (hsame j.session.2).mpr
        ⟨j.pid, sessionOf_iff.mpr ⟨_, _, _, j.timed⟩⟩
      exact hf.onHeld hpaired hother
    choose σ hσ hfits using hgiven
    have hinj : Function.Injective σ := by
      intro j j' hjj
      have h := hσ j
      rw [hjj, hσ j', Option.some.injEq] at h
      exact Held.eq_of_sid h.symm
    have hself : ∀ j : Held (claimsIn procs.procs sessions.sessions cwd), j.fits j = true :=
      fun j => (claimsIn_fits (List.mem_of_getElem? j.timed)).2.2.2
    by_contra hne
    have hmoved : σ i ≠ i := by
      intro heq
      have h := hσ i
      rw [heq, hsid] at h
      exact hne h
    obtain ⟨m, hm, him, hmi⟩ := held_crossing.flip.exists_swap hself hinj hfits hmoved
    have hmk : m.1.1 ≠ k := fun heq => hm (Subtype.ext (Fin.ext (heq.trans hik.symm)))
    have hwithin : within m.start first = true := hfirst ▸ hmi
    obtain ⟨session, hsome, hout⟩ := no_rival hrivals hmk m.timed hwithin
    obtain rfl := Option.some.inj hsome
    exact absurd him (by simp [Held.fits, hout])
  · intro p hp hnew hcwd hnone s hs hsid start' hstart'
    have hs' := (claimsIn_fits (List.mem_of_getElem? hk)).2.1
    obtain rfl := List.inj_on_of_nodup_map sessions.distinct hs hs' hsid
    have hshot : (start', p.pid) ∈ (claimsIn procs.procs sessions.sessions cwd).map Prod.fst := by
      rw [claimsIn_shots]
      exact mem_shotsIn.mpr ⟨p, hp, rfl, hnew, hcwd, hstart'⟩
    obtain ⟨⟨shot, claim⟩, hc, hshot⟩ := List.mem_map.mp hshot
    obtain ⟨j, hj⟩ := List.mem_iff_getElem?.mp hc
    cases hclaim : claim with
    | some session =>
      subst hclaim hshot
      have hsome := sessionOf_iff.mpr ⟨j, start', session.1, hj⟩
      simp [hnone] at hsome
    | none =>
      subst hclaim hshot
      by_contra hwithin
      have hjk : j ≠ k := by
        rintro rfl
        exact absurd (hj.symm.trans hk) (by simp)
      obtain ⟨session, hsome, -⟩ := no_rival hrivals hjk hj (by simpa using hwithin)
      cases hsome

end Largest

/-- Two workers that began fourteen seconds apart. The session of the second lies in the window
of the first, which the second could not swap with. -/
def apart : ProcTable := ⟨[shotAt 501 none 2000, shotAt 502 none 2014], by simp [shotAt, Proc.plain]⟩

def apartSessions : OneShotSessions := ⟨[⟨"a", "/w", 2001⟩, ⟨"b", "/w", 2015⟩], by simp⟩

theorem confirmed_forced_apart :
    (∀ f, Assigns Unnamed apart.procs apartSessions.sessions "/w" f →
      (∀ other, (f other).isSome = true → (sessionOf (pairOneShots apart.procs
        apartSessions.sessions) apartSessions.sessions "/w" other).isSome = true) →
      (∀ s, (∃ other, f other = some s) ↔ ∃ other, sessionOf (pairOneShots apart.procs
        apartSessions.sessions) apartSessions.sessions "/w" other = some s) →
      f 501 = some "a") ∧
    ∀ p ∈ apart.procs, Unnamed p → p.cwd = some "/w" →
      sessionOf (pairOneShots apart.procs apartSessions.sessions) apartSessions.sessions "/w"
        p.pid = none →
      ∀ s ∈ apartSessions.sessions, s.sid = "a" → ∀ start, p.started = some start →
        within start s.first = false :=
  confirmed_forced apart apartSessions "/w" 501 "a" ⟨501, .timed 0⟩ (by decide +kernel)
    (by decide +kernel) rfl

/-- Three one-shots of `/w`. The second could have had the session of the first, and the third,
which has none, that of the second. -/
def chain : ProcTable :=
  ⟨[shotAt 1 none 1000, shotAt 2 none 1050, shotAt 3 none 1090], by simp [shotAt, Proc.plain]⟩

def chainSessions : OneShotSessions := ⟨[⟨"a", "/w", 1050⟩, ⟨"b", "/w", 1100⟩], by simp⟩

/-- The sessions moved along the chain. -/
def movedAlong : Pid → Option Sid := fun pid =>
  if pid = 2 then some "a" else if pid = 3 then some "b" else none

theorem movedAlong_iff {pid : Pid} {sid : Sid} :
    movedAlong pid = some sid ↔ pid = 2 ∧ sid = "a" ∨ pid = 3 ∧ sid = "b" := by
  grind [movedAlong]

/-- A pairing without rivals is not forced where a process without a session takes part. -/
theorem confirmed_not_forced :
    Assigns Unnamed chain.procs chainSessions.sessions "/w" movedAlong ∧
      (∀ s, (∃ other, movedAlong other = some s) ↔ ∃ other, sessionOf (pairOneShots chain.procs
        chainSessions.sessions) chainSessions.sessions "/w" other = some s) ∧
      (pairOneShots chain.procs chainSessions.sessions).find? "a" = some ⟨1, .timed 0⟩ ∧
      movedAlong 1 ≠ some "a" := by
  refine ⟨⟨?_, ?_⟩, fun s => ?_, by decide +kernel, by decide⟩
  · intro pid sid h
    obtain ⟨rfl, rfl⟩ | ⟨rfl, rfl⟩ := movedAlong_iff.mp h
    · exact ⟨shotAt 2 none 1050, by simp [chain], ⟨"a", "/w", 1050⟩, by simp [chainSessions], rfl, rfl,
        ⟨rfl, rfl⟩, rfl, rfl, rfl, 1050, rfl, rfl⟩
    · exact ⟨shotAt 3 none 1090, by simp [chain], ⟨"b", "/w", 1100⟩, by simp [chainSessions], rfl, rfl,
        ⟨rfl, rfl⟩, rfl, rfl, rfl, 1090, rfl, rfl⟩
  · intro pid pid' sid h h'
    obtain ⟨rfl, rfl⟩ | ⟨rfl, rfl⟩ := movedAlong_iff.mp h <;> simp [movedAlong_iff] at h' <;> exact h'.symm
  · constructor
    · rintro ⟨other, h⟩
      obtain ⟨-, rfl⟩ | ⟨-, rfl⟩ := movedAlong_iff.mp h
      · exact ⟨1, by decide +kernel⟩
      · exact ⟨2, by decide +kernel⟩
    · rintro ⟨other, h⟩
      obtain ⟨p, -, t, ht, -, rfl, -⟩ := assigns_sessionOf.respects other s h
      simp only [chainSessions, List.mem_cons, List.not_mem_nil, or_false] at ht
      obtain rfl | rfl := ht
      · exact ⟨2, rfl⟩
      · exact ⟨3, rfl⟩

end OneShots

end ClaudeReplay.Linking
