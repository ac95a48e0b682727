import ClaudeReplay.Jdi.Slot

/-!
# ClaudeReplay.Jdi.OneSupervisor

One supervisor for each slot: where it holds.

Three things break it. A lock is removed by its path, after a look at its owner that
another process can overtake; a drain takes no lock at all; and a worker counts for as
much as its recorded pid, which a `meta_set` that read the file before can take back.
`Slot.Clear` says of a step that it does none of these, and `one_supervisor` is what holds
of the runs whose steps all do so. `two_workers` has runs that do not.
-/

namespace ClaudeReplay.Jdi

open Lib

namespace Phase

/-- The directory whose owner the process has read. -/
def seen? : Phase → Option Nat
  | .probing _ seen | .reclaiming seen | .removing seen => seen
  | _ => none

/-- The directory the process takes for a dead one's. -/
def stale? : Phase → Option Nat
  | .reclaiming seen | .removing seen => seen
  | _ => none

/-- The owner the process probes, and the directory it read it in. -/
def probes? : Phase → Option (Nat × Nat)
  | .probing owner (some k) => some (owner, k)
  | _ => none

/-- The command has found no worker, and not spawned its own. -/
def checked : Phase → Bool
  | .owning _ | .signing _ _ | .held _ | .guarding true | .draining => true
  | _ => false

/-- The recorded pid that the process is about to probe. -/
def asks? : Phase → Option (Option Nat)
  | .asking _ r | .drainAsking r => some r
  | _ => none

theorem starts_of_checked {x : Phase} (h : x.checked = true) : x.starts = true := by
  cases x with
  | guarding drain => cases drain <;> simp_all [checked, starts, drains]
  | owning | signing | held | draining => rfl
  | _ => simp [checked] at h

theorem starts_of_asks {x : Phase} {r : Option Nat} (h : x.asks? = some r) : x.starts = true := by
  cases x with
  | asking | drainAsking => rfl
  | _ => simp [asks?] at h

theorem starts_of_launched {x : Phase} {w : Nat} (h : x.launched? = some w) :
    x.starts = true := by
  cases x with
  | launched | drainLaunched => rfl
  | _ => simp [launched?] at h

/-- A command that is not a drain has the lock by then. -/
theorem claim_of_starts {x : Phase} (h : x.starts = true) (hd : x.drains = false) :
    ∃ k, x.claim? = some k := by
  cases x with
  | asking k | owning k | signing k | held k | launched k => exact ⟨k, rfl⟩
  | _ => simp_all [starts, drains]

theorem seen_of_probes {x : Phase} {o k : Nat} (h : x.probes? = some (o, k)) : x.seen? = some k := by
  cases x with
  | probing owner seen => cases seen <;> simp_all [probes?, seen?]
  | _ => simp [probes?] at h

theorem seen_of_stale {x : Phase} {k : Nat} (h : x.stale? = some k) : x.seen? = some k := by
  cases x with
  | reclaiming seen | removing seen => exact h
  | _ => simp [stale?] at h

end Phase

namespace Slot

variable {s t : Slot} {p q w : Nat} {act : Act} {x : Phase} {k : Nat}

/-! ## what is claimed -/

/-- A slot nobody is at, whatever lock an earlier setup left: a worker that runs is recorded. -/
structure Fresh (s : Slot) : Prop where
  idle : ∀ p, s.phase p = .away ∨ s.phase p = .worker ∧ s.pid = some p
  serial : ∀ d, s.lock = some d → d.serial < s.next

/-- At most one `SlotLock` is held. -/
def Exclusive (s : Slot) : Prop :=
  ∀ p q, (s.phase p).holds = true → (s.phase q).holds = true → p = q

/-- A process that removes a lock removes none that another one took. -/
def RemovesOwn (s : Slot) (p : Nat) (act : Act) : Prop :=
  act = .empty ∨ act = .rmdir →
    ∀ d q, s.lock = some d → (s.phase q).claim? = some d.serial → q = p

/-- No worker is spawned while one is alive. -/
def SpawnsAlone (s : Slot) (act : Act) : Prop :=
  ∀ w, act = .spawn w → ∀ v, s.phase v ≠ .worker

/-- What a step must be for the slot to stay with one supervisor. -/
def Clear (s : Slot) (p : Nat) (act : Act) : Prop :=
  match act, s.phase p with
  -- the directory reclaimed is the one whose owner was read
  | .empty, .reclaiming seen | .rmdir, .removing seen =>
    ∀ d, s.lock = some d → seen = some d.serial
  -- a directory without an owner after the wait is not being set up
  | .readOwner, .grace =>
    s.readOwner = none → ∀ d, s.lock = some d → ∀ q, (s.phase q).claim? ≠ some d.serial
  -- no drain is under way, or, for a drain, no command at all
  | .readPid, .made _ => ∀ q, (s.phase q).drains = false
  | .readPid, .looking => ∀ q, (s.phase q).starts = false
  -- a worker spawned gets recorded
  | .die, x | .release, x | .quit, x => x.launched? = none
  -- and no other `meta_set` takes it back
  | .writeMeta, _ => s.copy p = some s.pid
  | _, _ => True

/-- A step that meets the condition. -/
def ClearStep (s : Slot) (e : Nat × Act) (t : Slot) : Prop :=
  s.Clear e.1 e.2 ∧ s.step e.1 e.2 = some t

/-! ## moving one process -/

@[simp] theorem goto_lock (s : Slot) (p : Nat) (x : Phase) : (s.goto p x).lock = s.lock := rfl

@[simp] theorem goto_pid (s : Slot) (p : Nat) (x : Phase) : (s.goto p x).pid = s.pid := rfl

@[simp] theorem goto_next (s : Slot) (p : Nat) (x : Phase) : (s.goto p x).next = s.next := rfl

theorem goto_phase (s : Slot) (p : Nat) (x : Phase) (q : Nat) :
    (s.goto p x).phase q = if q = p then x else s.phase q := by
  simp only [goto, Function.update_apply]

/-! ## the lock -/

/-- **The lock invariant.** -/
structure LockOk (s : Slot) : Prop where
  made_lt : ∀ d, s.lock = some d → d.serial < s.next
  seen_lt : ∀ p k, (s.phase p).seen? = some k → k < s.next
  /-- a directory made is there until its maker is done with it -/
  present : ∀ p k, (s.phase p).claim? = some k → s.lock.map (·.serial) = some k
  alone : ∀ p q k l, (s.phase p).claim? = some k → (s.phase q).claim? = some l → p = q
  /-- its owner is its maker -/
  owner : ∀ o p k, s.readOwner = some o → (s.phase p).claim? = some k → o = p
  probe : ∀ q o k p, (s.phase q).probes? = some (o, k) → (s.phase p).claim? = some k → o = p
  /-- what is taken for dead is nobody's -/
  stale : ∀ q k p, (s.phase q).stale? = some k → (s.phase p).claim? ≠ some k

namespace LockOk

theorem of_fresh (h : s.Fresh) : s.LockOk := by
  have hclaim (p : Nat) : (s.phase p).claim? = none ∧ (s.phase p).seen? = none ∧
      (s.phase p).probes? = none := by
    obtain hp | ⟨hp, -⟩ := h.idle p <;> rw [hp] <;> exact ⟨rfl, rfl, rfl⟩
  constructor
  · exact h.serial
  all_goals simp [hclaim]

/-- A process moves, with no new claim. -/
theorem goto (h : s.LockOk)
    (hclaim : ∀ k, x.claim? = some k → (s.phase p).claim? = some k)
    (hseen : ∀ k, x.seen? = some k → k < s.next)
    (hprobe : ∀ o k q, x.probes? = some (o, k) → (s.phase q).claim? = some k → o = q)
    (hstale : ∀ k q, x.stale? = some k → (s.phase q).claim? ≠ some k) : (s.goto p x).LockOk := by
  have hold {q k : Nat} (hq : ((s.goto p x).phase q).claim? = some k) :
      (s.phase q).claim? = some k := by
    rw [goto_phase] at hq
    split at hq
    · next heq => exact heq ▸ hclaim k hq
    · exact hq
  constructor
  · exact h.made_lt
  · intro q k hq
    rw [goto_phase] at hq
    split at hq
    · exact hseen k hq
    · exact h.seen_lt q k hq
  · exact fun q k hq => h.present q k (hold hq)
  · exact fun q r k l hq hr => h.alone q r k l (hold hq) (hold hr)
  · exact fun o q k ho hq => h.owner o q k ho (hold hq)
  · intro q o k r hq hr
    rw [goto_phase] at hq
    split at hq
    · exact hprobe o k r hq (hold hr)
    · exact h.probe q o k r hq (hold hr)
  · intro q k r hq hr
    rw [goto_phase] at hq
    split at hq
    · exact hstale k r hq (hold hr)
    · exact h.stale q k r hq (hold hr)

/-- A process moves to where it has neither read an owner nor a new claim. -/
theorem leave (h : s.LockOk) (hseen : x.seen? = none)
    (hclaim : ∀ k, x.claim? = some k → (s.phase p).claim? = some k) : (s.goto p x).LockOk := by
  refine h.goto hclaim (by simp [hseen]) (fun o k q hx => ?_) (fun k q hx => ?_)
  · simp [Phase.seen_of_probes hx] at hseen
  · simp [Phase.seen_of_stale hx] at hseen

/-- What `meta` says is not in it. -/
theorem congr (h : s.LockOk) (hlock : t.lock = s.lock) (hphase : t.phase = s.phase)
    (hnext : t.next = s.next) : t.LockOk := by
  obtain ⟨lock, pid, phase, copy, next⟩ := t
  obtain rfl : lock = s.lock := hlock
  obtain rfl : phase = s.phase := hphase
  obtain rfl : next = s.next := hnext
  exact ⟨h.made_lt, h.seen_lt, h.present, h.alone, h.owner, h.probe, h.stale⟩

/-- The directory stays, and its owner is still none but its maker. -/
theorem relock {lock : Option LockDir} {n : Nat} (h : s.LockOk)
    (hserial : lock.map (·.serial) = s.lock.map (·.serial)) (hn : s.next ≤ n)
    (howner : ∀ o q k, lock.bind (·.readOwner) = some o → (s.phase q).claim? = some k → o = q) :
    { s with lock := lock, next := n : Slot }.LockOk := by
  constructor
  · intro d hd
    obtain rfl : lock = some d := hd
    obtain ⟨d', hd', heq⟩ := Option.map_eq_some_iff.mp hserial.symm
    have heq : d'.serial = d.serial := heq
    exact heq ▸ Nat.lt_of_lt_of_le (h.made_lt d' hd') hn
  · exact fun q k hq => Nat.lt_of_lt_of_le (h.seen_lt q k hq) hn
  · exact fun q k hq => hserial.trans (h.present q k hq)
  · exact h.alone
  · exact howner
  · exact h.probe
  · exact h.stale

/-- What nobody claims may go. -/
theorem unlock (h : s.LockOk) (hnone : ∀ q, (s.phase q).claim? = none) :
    { s with lock := rmdir s.lock : Slot }.LockOk := by
  constructor
  · intro d hd
    apply h.made_lt d
    cases hl : s.lock with
    | none => simp [hl, rmdir] at hd
    | some d' =>
      obtain ⟨k, owner⟩ := d'
      cases owner <;> simp_all [rmdir]
  · exact h.seen_lt
  all_goals simp [hnone]

/-- A new directory is made where there is none. -/
theorem mkdir (h : s.LockOk) (hlock : s.lock = none) :
    { s.goto p (.made s.next) with
      lock := some ⟨s.next, none⟩, next := s.next + 1 : Slot }.LockOk := by
  have hnone (q : Nat) : (s.phase q).claim? = none := by
    rw [Option.eq_none_iff_forall_ne_some]
    intro k hk
    simpa [hlock] using h.present q k hk
  have hclaim {q k : Nat} (hq : ((s.goto p (.made s.next)).phase q).claim? = some k) :
      q = p ∧ k = s.next := by
    rw [goto_phase] at hq
    split at hq
    · exact ⟨‹_›, (Option.some.inj hq).symm⟩
    · simp [hnone] at hq
  have hseen {q k : Nat} (hq : ((s.goto p (.made s.next)).phase q).seen? = some k) :
      k < s.next := by
    rw [goto_phase] at hq
    split at hq
    · simp [Phase.seen?] at hq
    · exact h.seen_lt q k hq
  constructor
  · intro d hd
    obtain rfl := Option.some.inj hd
    exact Nat.lt_succ_self _
  · exact fun q k hq => Nat.lt_succ_of_lt (hseen hq)
  · intro q k hq
    rw [(hclaim hq).2]
    rfl
  · exact fun q r k l hq hr => (hclaim hq).1.trans (hclaim hr).1.symm
  · exact fun o q k ho => by simp [readOwner, LockDir.readOwner] at ho
  · intro q o k r hq hr
    have hlt := hseen (Phase.seen_of_probes hq)
    exact absurd (hclaim hr).2 (Nat.ne_of_lt hlt)
  · intro q k r hq hr
    have hlt := hseen (Phase.seen_of_stale hq)
    exact absurd (hclaim hr).2 (Nat.ne_of_lt hlt)

/-- The owner a process reads is the directory's maker, if that is still at it. -/
theorem probing {o : Nat} (h : s.LockOk) (ho : s.readOwner = some o) :
    (s.goto p (.probing o (s.lock.map (·.serial)))).LockOk := by
  cases hl : s.lock with
  | none => simp [readOwner, hl] at ho
  | some d =>
    refine h.goto (by simp [Phase.claim?]) ?_ ?_ (by simp [Phase.stale?])
    · intro k hk
      obtain rfl := Option.some.inj hk
      exact h.made_lt d hl
    · intro o' k q hk hq
      obtain ⟨rfl, rfl⟩ := Prod.mk.inj (Option.some.inj hk)
      exact h.owner o q _ ho hq

/-- A process takes the directory whose owner it has read for a dead one's. -/
theorem reclaiming {seen : Option Nat} (h : s.LockOk) (hseen : ∀ k, seen = some k → k < s.next)
    (hstale : ∀ k q, seen = some k → (s.phase q).claim? ≠ some k) :
    (s.goto p (.reclaiming seen)).LockOk :=
  h.goto (by simp [Phase.claim?]) hseen (by simp [Phase.probes?]) hstale

/-- A `SlotLock` is dropped. -/
theorem release (h : s.LockOk) (hp : (s.phase p).claim? = some k) :
    ((s.goto p (.releasing k)).forget p).LockOk := by
  have hgo : (s.goto p (.releasing k)).LockOk :=
    h.leave rfl fun _ hk => Option.some.inj hk ▸ hp
  exact hgo.congr rfl rfl rfl

/-- The directory is emptied. -/
theorem empty (h : s.LockOk) : { s with lock := s.lock.map (·.emptied) : Slot }.LockOk := by
  refine h.relock ?_ (Nat.le_refl _) ?_ <;> cases s.lock <;> simp

/-- **What one step keeps of the lock.** -/
theorem step (h : s.LockOk) (hclear : s.Clear p act) (hs : s.step p act = some t) : t.LockOk := by
  simp only [Slot.step] at hs
  split at hs
  · next hp =>
    obtain rfl := Option.some.inj hs
    exact h.leave rfl (by simp [Phase.claim?])
  · next hp =>
    obtain rfl := Option.some.inj hs
    exact h.leave rfl (by simp [Phase.claim?])
  · next conflict drain hp =>
    obtain rfl := Option.some.inj hs
    refine h.leave ?_ ?_ <;> cases conflict <;> cases drain <;> simp [Phase.seen?, Phase.claim?]
  · next hp =>
    cases hl : s.lock with
    | none =>
      simp only [hl, Option.some.injEq] at hs
      exact hs ▸ h.mkdir hl
    | some d =>
      simp only [hl, Option.some.injEq] at hs
      exact hs ▸ h.leave rfl (by simp [Phase.claim?])
  · next hp =>
    cases ho : s.readOwner with
    | none =>
      simp only [ho, Option.some.injEq] at hs
      exact hs ▸ h.leave rfl (by simp [Phase.claim?])
    | some o =>
      simp only [ho, Option.some.injEq] at hs
      exact hs ▸ h.probing ho
  · next hp =>
    cases ho : s.readOwner with
    | none =>
      simp only [ho, Option.some.injEq] at hs
      simp only [Clear, hp] at hclear
      refine hs ▸ h.reclaiming (fun k hk => ?_) (fun k q hk => ?_)
      · obtain ⟨d, hd, rfl⟩ := Option.map_eq_some_iff.mp hk
        exact h.made_lt d hd
      · obtain ⟨d, hd, rfl⟩ := Option.map_eq_some_iff.mp hk
        exact hclear ho d hd q
    | some o =>
      simp only [ho, Option.some.injEq] at hs
      exact hs ▸ h.probing ho
  · next live owner seen hp =>
    split at hs
    · next hlive =>
      obtain rfl := Option.some.inj hs
      cases live with
      | true => exact h.leave rfl (by simp [Phase.claim?])
      | false =>
        refine h.reclaiming (fun k hk => ?_) (fun k q hk hq => ?_)
        · exact h.seen_lt p k (by rw [hp, hk]; rfl)
        · -- its maker would be the owner that did not answer
          obtain rfl := h.probe p owner k q (by rw [hp, hk]; rfl) hq
          have haway : s.phase owner = .away := by simpa [Answers] using hlive
          simp [haway, Phase.claim?] at hq
    · cases hs
  · next seen hp =>
    obtain rfl := Option.some.inj hs
    have hgo : (s.goto p (.removing seen)).LockOk := by
      refine h.goto (by simp [Phase.claim?]) (fun k hk => ?_) (by simp [Phase.probes?])
        (fun k q hk => ?_)
      · exact h.seen_lt p k (by rw [hp]; exact hk)
      · exact h.stale p k q (by rw [hp]; exact hk)
    exact hgo.empty
  · next seen hp =>
    obtain rfl := Option.some.inj hs
    simp only [Clear, hp] at hclear
    have hgo : (s.goto p .trying).LockOk := h.leave rfl (by simp [Phase.claim?])
    refine hgo.unlock fun q => ?_
    rw [Option.eq_none_iff_forall_ne_some]
    intro k hk
    obtain ⟨d, hd, rfl⟩ := Option.map_eq_some_iff.mp (hgo.present q k hk)
    have hold : (s.phase q).claim? = some d.serial := by
      rw [goto_phase] at hk
      split at hk
      · cases hk
      · exact hk
    exact h.stale p d.serial q (by rw [hp]; exact hclear d hd) hold
  · next k hp =>
    obtain rfl := Option.some.inj hs
    exact h.leave rfl (by simp [hp, Phase.claim?])
  · next live k recorded hp =>
    split at hs
    · obtain rfl := Option.some.inj hs
      cases live
      · exact h.leave rfl (by simp [hp, Phase.claim?])
      · exact h.leave rfl (by simp [hp, Phase.claim?])
    · cases hs
  · next k hp =>
    cases hl : s.lock with
    | none =>
      simp only [hl, Option.some.injEq] at hs
      exact hs ▸ h.leave rfl (by simp [Phase.claim?])
    | some d =>
      simp only [hl, Option.some.injEq] at hs
      have hgo : (s.goto p (.signing k ((d.owner.map (·.serial)).getD s.next))).LockOk :=
        h.leave rfl (by simp [hp, Phase.claim?])
      exact hs ▸ hgo.relock (by simp [hl]) (Nat.le_succ _) (by simp)
  · next k file hp =>
    obtain rfl := Option.some.inj hs
    have hgo : (s.goto p (.held k)).LockOk := h.leave rfl (by simp [hp, Phase.claim?])
    have hself : ((s.goto p (.held k)).phase p).claim? = some k := by
      rw [goto_phase, if_pos rfl]
      rfl
    refine hgo.relock ?_ (Nat.le_refl _) ?_
    · cases hl : s.lock <;> simp [hl]
    · intro o q l ho hq
      obtain ⟨d', hd', ho⟩ := Option.bind_eq_some_iff.mp ho
      obtain ⟨d, hd, rfl⟩ := Option.map_eq_some_iff.mp hd'
      obtain ho | rfl := LockDir.signed_readOwner ho
      · exact hgo.owner o q l (by simp [readOwner, hd, ho]) hq
      · exact hgo.alone _ _ _ _ hself hq
  · next w k hp =>
    split at hs
    · obtain rfl := Option.some.inj hs
      have hgo : (s.goto p (.launched k w)).LockOk := h.leave rfl (by simp [hp, Phase.claim?])
      exact hgo.leave rfl (by simp [Phase.claim?])
    · cases hs
  · next k w hp =>
    obtain rfl := Option.some.inj hs
    have hgo : (s.goto p (.recorded k)).LockOk := h.leave rfl (by simp [hp, Phase.claim?])
    exact hgo.congr rfl rfl rfl
  iterate 3
    · next hp =>
      obtain rfl := Option.some.inj hs
      exact h.release (by rw [hp]; rfl)
  · next k hp =>
    obtain rfl := Option.some.inj hs
    have hgo : (s.goto p (.leaving k)).LockOk := h.leave rfl (by simp [hp, Phase.claim?])
    exact hgo.empty
  · next k hp =>
    obtain rfl := Option.some.inj hs
    have hgo : (s.goto p .away).LockOk := h.leave rfl (by simp [Phase.claim?])
    refine hgo.unlock fun q => ?_
    rw [Option.eq_none_iff_forall_ne_some]
    intro l hq
    rw [goto_phase] at hq
    split at hq
    · cases hq
    · next hqp => exact hqp (h.alone q p l k hq (by rw [hp]; rfl))
  · next hp =>
    obtain rfl := Option.some.inj hs
    exact h.leave rfl (by simp [Phase.claim?])
  · next live recorded hp =>
    split at hs
    · obtain rfl := Option.some.inj hs
      cases live
      · exact h.leave rfl (by simp [Phase.claim?])
      · exact h.leave rfl (by simp [Phase.claim?])
    · cases hs
  · next w hp =>
    split at hs
    · obtain rfl := Option.some.inj hs
      have hgo : (s.goto p (.drainLaunched w)).LockOk := h.leave rfl (by simp [Phase.claim?])
      exact hgo.leave rfl (by simp [Phase.claim?])
    · cases hs
  · next w hp =>
    obtain rfl := Option.some.inj hs
    have hgo : (s.goto p .drained).LockOk := h.leave rfl (by simp [Phase.claim?])
    exact hgo.congr rfl rfl rfl
  iterate 3
    · obtain rfl := Option.some.inj hs
      have hgo : (s.goto p .away).LockOk := h.leave rfl (by simp [Phase.claim?])
      exact hgo.congr rfl rfl rfl
  · split at hs
    · obtain rfl := Option.some.inj hs
      exact h.congr rfl rfl rfl
    · cases hs
  · split at hs
    · obtain rfl := Option.some.inj hs
      exact h.congr rfl rfl rfl
    · cases hs
  · obtain rfl := Option.some.inj hs
    have hgo : (s.goto p .away).LockOk := h.leave rfl (by simp [Phase.claim?])
    exact hgo.congr rfl rfl rfl
  · cases hs

end LockOk

/-! ## the worker -/

/-- **The worker invariant.** -/
structure WorkerOk (s : Slot) : Prop where
  /-- one command at most is between its look at the recorded pid and its own record -/
  alone : ∀ p q, (s.phase p).starts = true → (s.phase q).starts = true → p = q
  checked : ∀ p, (s.phase p).checked = true → ∀ v, s.phase v ≠ .worker
  asks : ∀ p r, (s.phase p).asks? = some r → r = s.pid
  launched : ∀ p w, (s.phase p).launched? = some w → ∀ v, s.phase v = .worker → v = w
  /-- a worker is recorded, or about to be -/
  known : (∀ p, (s.phase p).launched? = none) → ∀ v, s.phase v = .worker → s.pid = some v

namespace WorkerOk

theorem of_fresh (h : s.Fresh) : s.WorkerOk := by
  have hidle (p : Nat) : (s.phase p).starts = false ∧ (s.phase p).checked = false ∧
      (s.phase p).asks? = none ∧ (s.phase p).launched? = none := by
    obtain hp | ⟨hp, -⟩ := h.idle p <;> rw [hp] <;> exact ⟨rfl, rfl, rfl, rfl⟩
  constructor
  case known =>
    intro _ v hv
    obtain hp | ⟨-, hp⟩ := h.idle v
    · rw [hp] at hv
      cases hv
    · exact hp
  all_goals simp [hidle]

/-- A process moves that neither is nor launches a worker, and records none. -/
theorem goto (h : s.WorkerOk) (hp : (s.phase p).launched? = none)
    (hworker : x ≠ .worker) (hlaunched : x.launched? = none)
    (hstarts : x.starts = true → (s.phase p).starts = true ∨ ∀ q, (s.phase q).starts = false)
    (hchecked : x.checked = true → (s.phase p).checked = true ∨ ∀ v, s.phase v ≠ .worker)
    (hasks : ∀ r, x.asks? = some r → r = s.pid) : (s.goto p x).WorkerOk := by
  have hold {v : Nat} (hv : (s.goto p x).phase v = .worker) : s.phase v = .worker := by
    rw [goto_phase] at hv
    split at hv
    · exact absurd hv hworker
    · exact hv
  have hstart {q : Nat} (hq : ((s.goto p x).phase q).starts = true) :
      (s.phase q).starts = true ∨ q = p ∧ ∀ q, (s.phase q).starts = false := by
    rw [goto_phase] at hq
    split at hq
    · next heq => exact (hstarts hq).imp (heq ▸ ·) fun h => ⟨heq, h⟩
    · exact .inl hq
  constructor
  · intro q r hq hr
    obtain hq' | ⟨rfl, hnone⟩ := hstart hq
    · obtain hr' | ⟨rfl, hnone⟩ := hstart hr
      · exact h.alone q r hq' hr'
      · simp [hnone] at hq'
    · obtain hr' | ⟨rfl, -⟩ := hstart hr
      · simp [hnone] at hr'
      · rfl
  · intro q hq v hv
    rw [goto_phase] at hq
    split at hq
    · obtain hc | hnone := hchecked hq
      · exact h.checked p hc v (hold hv)
      · exact hnone v (hold hv)
    · exact h.checked q hq v (hold hv)
  · intro q r hq
    rw [goto_phase] at hq
    split at hq
    · exact hasks r hq
    · exact h.asks q r hq
  · intro q w hq v hv
    rw [goto_phase] at hq
    split at hq
    · simp [hlaunched] at hq
    · exact h.launched q w hq v (hold hv)
  · intro hnone v hv
    refine h.known (fun q => ?_) v (hold hv)
    by_cases hqp : q = p
    · exact hqp ▸ hp
    · simpa only [goto_phase, if_neg hqp] using hnone q

/-- A process moves out of what the worker depends on. -/
theorem leave (h : s.WorkerOk) (hp : (s.phase p).launched? = none) (hworker : x ≠ .worker)
    (hx : x.starts = false) : (s.goto p x).WorkerOk := by
  refine h.goto hp hworker ?_ (by simp [hx]) (fun hc => ?_) (fun r hr => ?_)
  · rw [Option.eq_none_iff_forall_ne_some]
    intro w hw
    simp [Phase.starts_of_launched hw] at hx
  · simp [Phase.starts_of_checked hc] at hx
  · simp [Phase.starts_of_asks hr] at hx

/-- A command that has found no worker spawns one. -/
theorem spawn (h : s.WorkerOk) (hw : s.phase w = .away) (hp : (s.phase p).checked = true)
    (hx : x.launched? = some w) (hxc : x.checked = false) (hxa : x.asks? = none) :
    ((s.goto p x).goto w .worker).WorkerOk := by
  have hpw : p ≠ w := by
    rintro rfl
    rw [hw] at hp
    cases hp
  have hphase (q : Nat) : ((s.goto p x).goto w .worker).phase q =
      if q = w then .worker else if q = p then x else s.phase q := by
    rw [goto_phase, goto_phase]
  have hstart {q : Nat} (hq : (((s.goto p x).goto w .worker).phase q).starts = true) : q = p := by
    rw [hphase] at hq
    split at hq
    · cases hq
    · split at hq
      · assumption
      · exact h.alone q p hq (Phase.starts_of_checked hp)
  have hworker {v : Nat} (hv : ((s.goto p x).goto w .worker).phase v = .worker) : v = w := by
    rw [hphase] at hv
    split at hv
    · assumption
    · split at hv
      · rw [hv] at hx
        cases hx
      · exact absurd hv (h.checked p hp v)
  have hself : ((s.goto p x).goto w .worker).phase p = x := by
    rw [hphase, if_neg hpw, if_pos rfl]
  constructor
  · exact fun q r hq hr => (hstart hq).trans (hstart hr).symm
  · intro q hq
    rw [hstart (Phase.starts_of_checked hq), hself, hxc] at hq
    cases hq
  · intro q r hq
    rw [hstart (Phase.starts_of_asks hq), hself, hxa] at hq
    cases hq
  · intro q w' hq v hv
    rw [hstart (Phase.starts_of_launched hq), hself, hx] at hq
    exact (hworker hv).trans (Option.some.inj hq)
  · intro hnone
    simpa [hself, hx] using hnone p

/-- The worker launched is recorded. -/
theorem record (h : s.WorkerOk) (hp : (s.phase p).launched? = some w) (hx : x.starts = false)
    (hworker : x ≠ .worker) : { s.goto p x with pid := some w : Slot }.WorkerOk := by
  have hnone (q : Nat) : ((s.goto p x).phase q).starts = false := by
    rw [goto_phase]
    split
    · exact hx
    · next hqp =>
      rw [Bool.eq_false_iff]
      exact fun hq => hqp (h.alone q p hq (Phase.starts_of_launched hp))
  constructor
  · intro q r hq
    exact absurd hq (by simp [hnone])
  · intro q hq
    exact absurd (Phase.starts_of_checked hq) (by simp [hnone])
  · intro q r hq
    exact absurd (Phase.starts_of_asks hq) (by simp [hnone])
  · intro q w hq
    exact absurd (Phase.starts_of_launched hq) (by simp [hnone])
  · intro _ v hv
    have hv : (s.goto p x).phase v = .worker := hv
    rw [goto_phase] at hv
    split at hv
    · exact absurd hv hworker
    · exact congrArg some (h.launched p w hp v hv).symm

/-- What the lock says is not in it. -/
theorem congr (h : s.WorkerOk) (hpid : t.pid = s.pid) (hphase : t.phase = s.phase) :
    t.WorkerOk := by
  obtain ⟨lock, pid, phase, copy, next⟩ := t
  obtain rfl : pid = s.pid := hpid
  obtain rfl : phase = s.phase := hphase
  exact ⟨h.alone, h.checked, h.asks, h.launched, h.known⟩

/-- A process with no worker to record returns, or dies. -/
theorem drop (h : s.WorkerOk) (hp : (s.phase p).launched? = none) (hworker : x ≠ .worker)
    (hx : x.starts = false) : ((s.goto p x).forget p).WorkerOk :=
  (h.leave hp hworker hx).congr rfl rfl

/-- A recorded pid that does not answer leaves no worker. -/
theorem none_of_answer {recorded : Option Nat} (h : s.WorkerOk)
    (hasks : (s.phase p).asks? = some recorded) (hlive : s.Answers recorded false) :
    ∀ v, s.phase v ≠ .worker := by
  intro v hv
  have hpid : s.pid = some v := by
    apply h.known
    · intro q
      rw [Option.eq_none_iff_forall_ne_some]
      intro w hw
      obtain rfl := h.alone q p (Phase.starts_of_launched hw) (Phase.starts_of_asks hasks)
      revert hw hasks
      cases s.phase q <;> simp [Phase.launched?, Phase.asks?]
    · exact hv
  rw [h.asks p recorded hasks, hpid] at hlive
  simp [Answers, hv] at hlive

/-- **What one step keeps of the worker.** -/
theorem step (h : s.WorkerOk) (hlock : s.LockOk) (hclear : s.Clear p act)
    (hs : s.step p act = some t) : t.WorkerOk := by
  simp only [Slot.step] at hs
  split at hs
  · next hp =>
    obtain rfl := Option.some.inj hs
    exact h.leave (by rw [hp]; rfl) nofun rfl
  · next hp =>
    obtain rfl := Option.some.inj hs
    exact h.leave (by rw [hp]; rfl) nofun rfl
  · next conflict drain hp =>
    obtain rfl := Option.some.inj hs
    have hnone : (s.phase p).launched? = none := by rw [hp]; rfl
    cases conflict with
    | true => exact h.leave hnone nofun rfl
    | false =>
      cases drain with
      | true =>
        refine h.goto hnone nofun rfl ?_ ?_ nofun
        · exact fun _ => .inl (by rw [hp]; rfl)
        · exact fun _ => .inl (by rw [hp]; rfl)
      | false => exact h.leave hnone nofun rfl
  · next hp =>
    have hnone : (s.phase p).launched? = none := by rw [hp]; rfl
    cases hl : s.lock with
    | none =>
      simp only [hl, Option.some.injEq] at hs
      have hgo : (s.goto p (.made s.next)).WorkerOk := h.leave hnone nofun rfl
      exact hs ▸ hgo.congr rfl rfl
    | some d =>
      simp only [hl, Option.some.injEq] at hs
      exact hs ▸ h.leave hnone nofun rfl
  iterate 2
    · next hp =>
      have hnone : (s.phase p).launched? = none := by rw [hp]; rfl
      split at hs
      · exact Option.some.inj hs ▸ h.leave hnone nofun rfl
      · exact Option.some.inj hs ▸ h.leave hnone nofun rfl
  · next live owner seen hp =>
    have hnone : (s.phase p).launched? = none := by rw [hp]; rfl
    split at hs
    · obtain rfl := Option.some.inj hs
      cases live
      · exact h.leave hnone nofun rfl
      · exact h.leave hnone nofun rfl
    · cases hs
  · next seen hp =>
    obtain rfl := Option.some.inj hs
    have hgo : (s.goto p (.removing seen)).WorkerOk := h.leave (by rw [hp]; rfl) nofun rfl
    exact hgo.congr rfl rfl
  · next seen hp =>
    obtain rfl := Option.some.inj hs
    have hgo : (s.goto p .trying).WorkerOk := h.leave (by rw [hp]; rfl) nofun rfl
    exact hgo.congr rfl rfl
  · next k hp =>
    obtain rfl := Option.some.inj hs
    simp only [Clear, hp] at hclear
    refine h.goto (by rw [hp]; rfl) nofun rfl (fun _ => .inr fun q => ?_) nofun ?_
    · -- a command that took the lock would be this one, and a drain is excluded
      rw [Bool.eq_false_iff]
      intro hq
      obtain ⟨l, hl⟩ := Phase.claim_of_starts hq (hclear q)
      obtain rfl := hlock.alone q p l k hl (by rw [hp]; rfl)
      rw [hp] at hq
      cases hq
    · exact fun r hr => (Option.some.inj hr).symm
  · next live k recorded hp =>
    have hnone : (s.phase p).launched? = none := by rw [hp]; rfl
    split at hs
    · next hlive =>
      obtain rfl := Option.some.inj hs
      cases live with
      | true => exact h.leave hnone nofun rfl
      | false =>
        refine h.goto hnone nofun rfl (fun _ => .inl (by rw [hp]; rfl)) (fun _ => .inr ?_) nofun
        exact h.none_of_answer (by rw [hp]; rfl) hlive
    · cases hs
  · next k hp =>
    have hnone : (s.phase p).launched? = none := by rw [hp]; rfl
    split at hs
    · exact Option.some.inj hs ▸ h.leave hnone nofun rfl
    · obtain rfl := Option.some.inj hs
      have hgo (file : Nat) : (s.goto p (.signing k file)).WorkerOk := by
        refine h.goto hnone nofun rfl ?_ ?_ nofun
        · exact fun _ => .inl (by rw [hp]; rfl)
        · exact fun _ => .inl (by rw [hp]; rfl)
      exact (hgo _).congr rfl rfl
  · next k file hp =>
    obtain rfl := Option.some.inj hs
    have hgo : (s.goto p (.held k)).WorkerOk := by
      refine h.goto (by rw [hp]; rfl) nofun rfl ?_ ?_ nofun
      · exact fun _ => .inl (by rw [hp]; rfl)
      · exact fun _ => .inl (by rw [hp]; rfl)
    exact hgo.congr rfl rfl
  · next w k hp =>
    split at hs
    · next hw => exact Option.some.inj hs ▸ h.spawn hw.2 (by rw [hp]; rfl) rfl rfl rfl
    · cases hs
  · next k w hp =>
    obtain rfl := Option.some.inj hs
    exact h.record (by rw [hp]; rfl) rfl nofun
  iterate 3
    · next hp =>
      obtain rfl := Option.some.inj hs
      exact h.drop hclear nofun rfl
  · next k hp =>
    obtain rfl := Option.some.inj hs
    have hgo : (s.goto p (.leaving k)).WorkerOk := h.leave (by rw [hp]; rfl) nofun rfl
    exact hgo.congr rfl rfl
  · next k hp =>
    obtain rfl := Option.some.inj hs
    have hgo : (s.goto p .away).WorkerOk := h.leave (by rw [hp]; rfl) nofun rfl
    exact hgo.congr rfl rfl
  · next hp =>
    obtain rfl := Option.some.inj hs
    simp only [Clear, hp] at hclear
    refine h.goto (by rw [hp]; rfl) nofun rfl (fun _ => .inr hclear) nofun ?_
    exact fun r hr => (Option.some.inj hr).symm
  · next live recorded hp =>
    have hnone : (s.phase p).launched? = none := by rw [hp]; rfl
    split at hs
    · next hlive =>
      obtain rfl := Option.some.inj hs
      cases live with
      | true => exact h.leave hnone nofun rfl
      | false =>
        refine h.goto hnone nofun rfl (fun _ => .inl (by rw [hp]; rfl)) (fun _ => .inr ?_) nofun
        exact h.none_of_answer (by rw [hp]; rfl) hlive
    · cases hs
  · next w hp =>
    split at hs
    · next hw => exact Option.some.inj hs ▸ h.spawn hw.2 (by rw [hp]; rfl) rfl rfl rfl
    · cases hs
  · next w hp =>
    obtain rfl := Option.some.inj hs
    exact h.record (by rw [hp]; rfl) rfl nofun
  iterate 3
    · obtain rfl := Option.some.inj hs
      exact h.drop hclear nofun rfl
  · split at hs
    · obtain rfl := Option.some.inj hs
      exact h.congr rfl rfl
    · cases hs
  · split at hs
    · next recorded hcopy =>
      obtain rfl := Option.some.inj hs
      have heq : s.copy p = some s.pid := hclear
      obtain rfl := Option.some.inj (hcopy.symm.trans heq)
      exact h.congr rfl rfl
    · cases hs
  · obtain rfl := Option.some.inj hs
    exact h.drop hclear nofun rfl
  · cases hs

end WorkerOk

/-! ## runs -/

/-- The lock and the worker are in order. -/
structure Sound (s : Slot) : Prop where
  lock : s.LockOk
  worker : s.WorkerOk

theorem Sound.run {es : List (Nat × Act)} (h : s.Sound) (hrun : Run ClearStep s es t) :
    t.Sound := by
  apply hrun.kept (Q := fun _ => True)
  · rintro u e v - ⟨hclear, hstep⟩ hu
    exact ⟨hu.lock.step hclear hstep, hu.worker.step hu.lock hclear hstep⟩
  · exact fun _ _ => trivial
  · exact h

theorem Sound.exclusive (h : s.Sound) : s.Exclusive := by
  intro p q hp hq
  have hclaim {x : Phase} (hx : x.holds = true) : ∃ k, x.claim? = some k := by
    cases x with
    | held k | launched k | recorded k | releasing k | leaving k => exact ⟨k, rfl⟩
    | _ => cases hx
  obtain ⟨k, hk⟩ := hclaim hp
  obtain ⟨l, hl⟩ := hclaim hq
  exact h.lock.alone p q k l hk hl

theorem Sound.removesOwn (h : s.Sound) (hclear : s.Clear p act)
    (henabled : (s.step p act).isSome = true) : s.RemovesOwn p act := by
  intro hact d q hd hq
  -- its own lock, or one it takes for a dead process's
  have hwhose : (∃ k, (s.phase p).claim? = some k) ∨ (s.phase p).stale? = some d.serial := by
    obtain rfl | rfl := hact
    · cases hp : s.phase p with
      | reclaiming seen =>
        simp only [Clear, hp] at hclear
        exact .inr (hclear d hd)
      | releasing k => exact .inl ⟨k, rfl⟩
      | _ => simp [step, hp] at henabled
    · cases hp : s.phase p with
      | removing seen =>
        simp only [Clear, hp] at hclear
        exact .inr (hclear d hd)
      | leaving k => exact .inl ⟨k, rfl⟩
      | _ => simp [step, hp] at henabled
  obtain ⟨k, hk⟩ | hstale := hwhose
  · exact h.lock.alone q p _ k hq hk
  · exact absurd hq (h.lock.stale p _ q hstale)

theorem Sound.spawnsAlone (h : s.Sound) (henabled : (s.step p act).isSome = true) :
    s.SpawnsAlone act := by
  rintro w rfl
  apply h.worker.checked p
  cases hp : s.phase p with
  | held k | draining => rfl
  | _ => simp [step, hp] at henabled

/-- **One supervisor for each slot.** Whatever lock was left behind, and whatever commands run
on the slot in whatever order: as long as every step meets the condition, one `SlotLock` at
most is held, a step that removes a lock removes none that another process took, and no
worker is spawned while one is alive. -/
theorem one_supervisor {es : List (Nat × Act)} (hs : s.Fresh) (h : Run ClearStep s es t) :
    t.Exclusive ∧ ∀ p act, t.Clear p act → (t.step p act).isSome = true →
      t.RemovesOwn p act ∧ t.SpawnsAlone act := by
  have hsound : t.Sound := Sound.run ⟨.of_fresh hs, .of_fresh hs⟩ h
  refine ⟨hsound.exclusive, fun p act hclear henabled => ⟨?_, ?_⟩⟩
  · exact hsound.removesOwn hclear henabled
  · exact hsound.spawnsAlone henabled

/-- A slot no command has run on. -/
def untouched : Slot := ⟨none, none, fun _ => .away, fun _ => none, 0⟩

/-- A slot whose lock was left by process 9, which is gone. -/
def abandoned : Slot := { untouched with lock := some ⟨0, some ⟨1, some 9⟩⟩, next := 2 }

theorem fresh_untouched : untouched.Fresh := ⟨fun _ => .inl rfl, nofun⟩

/-- Process 1 starts worker 7, and a drain finds it. -/
theorem one_supervisor_drain :
    ∃ t, Run ClearStep untouched [(1, .start), (1, .guard false), (1, .mkdir), (1, .readPid),
        (1, .answer false), (1, .openOwner), (1, .signOwner), (1, .spawn 7), (1, .record),
        (1, .release), (1, .empty), (1, .rmdir), (2, .drain), (2, .readPid)] t ∧
      t.phase 7 = .worker ∧ t.phase 2 = .drainAsking (some 7) ∧
      t.Exclusive ∧ ∀ p act, t.Clear p act → (t.step p act).isSome = true →
        t.RemovesOwn p act ∧ t.SpawnsAlone act := by
  obtain ⟨t, h, hworker, hdrain⟩ : ∃ t, Run ClearStep untouched [(1, .start), (1, .guard false),
      (1, .mkdir), (1, .readPid), (1, .answer false), (1, .openOwner), (1, .signOwner),
      (1, .spawn 7), (1, .record), (1, .release), (1, .empty), (1, .rmdir), (2, .drain),
      (2, .readPid)] t ∧ t.phase 7 = .worker ∧ t.phase 2 = .drainAsking (some 7) := by
    refine ⟨_, .cons ⟨trivial, rfl⟩ (.cons ⟨trivial, rfl⟩ (.cons ⟨trivial, rfl⟩
      (.cons ⟨fun q => ?_, rfl⟩ (.cons ⟨trivial, rfl⟩ (.cons ⟨trivial, rfl⟩ (.cons ⟨trivial, rfl⟩
      (.cons ⟨trivial, rfl⟩ (.cons ⟨trivial, rfl⟩ (.cons ⟨rfl, rfl⟩ (.cons ⟨trivial, rfl⟩
      (.cons ⟨trivial, rfl⟩ (.cons ⟨trivial, rfl⟩ (.cons ⟨fun q => ?_, rfl⟩
      (.nil _)))))))))))))), ?_, ?_⟩
    · simp only [goto_phase, untouched]
      split_ifs <;> rfl
    · simp only [goto_phase, forget, untouched]
      split_ifs <;> rfl
    · rfl
    · rfl
  exact ⟨t, h, hworker, hdrain, one_supervisor fresh_untouched h⟩

/-- **Two workers, and a lock removed.** Two drains that both look before either records
spawn a worker each. A worker that writes its state back takes its own pid out of the record,
and the next command spawns another. Two commands that both find a dead owner: the second to
remove the directory removes the first one's lock. -/
theorem two_workers :
    (∃ t, Run (fun s e t => s.step e.1 e.2 = some t) untouched [(1, .drain), (2, .drain),
        (1, .readPid), (2, .readPid), (1, .answer false), (2, .answer false), (1, .guard false),
        (2, .guard false), (1, .spawn 7), (1, .record)] t ∧
      (t.step 2 (.spawn 8)).isSome = true ∧ ¬t.SpawnsAlone (.spawn 8)) ∧
    (∃ t, Run (fun s e t => s.step e.1 e.2 = some t) untouched [(1, .start), (1, .guard false),
        (1, .mkdir), (1, .readPid), (1, .answer false), (1, .openOwner), (1, .signOwner),
        (1, .spawn 7), (7, .readMeta), (1, .record), (7, .writeMeta), (1, .release), (1, .empty),
        (1, .rmdir), (2, .start), (2, .guard false), (2, .mkdir), (2, .readPid),
        (2, .answer false), (2, .openOwner), (2, .signOwner)] t ∧
      (t.step 2 (.spawn 8)).isSome = true ∧ ¬t.SpawnsAlone (.spawn 8)) ∧
    ∃ t, Run (fun s e t => s.step e.1 e.2 = some t) abandoned [(1, .start), (2, .start),
        (1, .guard false), (2, .guard false), (1, .mkdir), (2, .mkdir), (1, .readOwner),
        (2, .readOwner), (1, .answer false), (2, .answer false), (1, .empty), (1, .rmdir),
        (1, .mkdir)] t ∧
      (t.step 2 .empty).isSome = true ∧ ¬t.RemovesOwn 2 .empty := by
  constructor
  · exact ⟨_, .of_foldlM rfl, rfl, fun h => h 8 rfl 7 rfl⟩
  constructor
  · exact ⟨_, .of_foldlM rfl, rfl, fun h => h 8 rfl 7 rfl⟩
  · refine ⟨_, .of_foldlM rfl, rfl, fun h => ?_⟩
    exact absurd (h (.inl rfl) _ 1 rfl rfl) (by decide)

end Slot

end ClaudeReplay.Jdi
