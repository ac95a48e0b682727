import Mathlib.Logic.Function.Basic

/-!
# ClaudeReplay.Cache.Residency

One session id inside one process: its slot, the shared sessions handed out of it,
and the entry's `LOCK`. A session writes its entry while it is not frozen; its
`EntryWriter` carries the lease, so dropping the writer releases the lock, and a
session goes away with its last handle.

Admissions of the id hold the slot's `opening` mutex and are modelled step by step
(`Flight`), since everything else may run in between: reaping, over-budget
eviction, `remove_pull`, `release`, clones and drops on other threads, and peers
that take a free lock. Sessions are numbered as they are built.

The lock is keyed by the process alone, so `acquire` never denies this process. A
second session is kept out only by finding the first in its slot; but eviction
empties the slot whoever still holds the session (`evicted_still_writing`).
`CacheState.Clear` is the condition under which an admission may open the entry,
and `residents_hold_lock` what then holds after every schedule.
-/

namespace ClaudeReplay.Cache

/-! ## the state -/

/-- Where the admission that holds the `opening` mutex is. -/
inductive Flight
  /-- nobody holds the mutex -/
  | free
  /-- the mutex is ours; the slot is to be looked at again -/
  | entered
  /-- about to take the lock, with the frozen resident it found -/
  | opening (held : Option Nat)
  /-- the lock is ours; the backing is being looked at -/
  | claimed (held : Option Nat)
  /-- the resident describes the entry; its new writer is built, or could not be -/
  | retaining (i : Nat) (writer : Bool)
  /-- the entry is loaded; the session is to be built -/
  | building (held : Option Nat) (writer : Bool)
  /-- the session is installed; its writer is to be attached -/
  | installed (held : Option Nat) (i : Nat) (writer : Bool)
  deriving DecidableEq, Repr

namespace Flight

/-- The admission keeps a handle of session `i`. -/
def holds (i : Nat) : Flight → Bool
  | .free | .entered => false
  | .opening held | .claimed held | .building held _ => held == some i
  | .retaining j _ => j == i
  | .installed held j _ => held == some i || j == i

/-- The lock was taken, and no session has been given back yet. -/
def claims : Flight → Bool
  | .claimed _ | .retaining .. | .building .. => true
  | _ => false

/-- The admission holds the lease. -/
def leased : Flight → Bool
  | .claimed _ => true
  | .retaining _ w | .building _ w | .installed _ _ w => w
  | _ => false

/-- A flight that promises no more than another. -/
structure Le (f g : Flight) : Prop where
  leased : f.leased = true → g.leased = true
  claims : f.claims = true → g.claims = true
  installed : ∀ held n w, f = .installed held n w → ∃ held' w', g = .installed held' n w'

theorem Le.refl (f : Flight) : f.Le f :=
  ⟨id, id, fun held _ w h => ⟨held, w, h⟩⟩

/-- An admission that has nothing, or only a frozen session, promises nothing. -/
theorem Le.of_idle {f g : Flight} (hl : f.leased = false) (hc : f.claims = false)
    (hi : ∀ held n w, f ≠ .installed held n w) : f.Le g :=
  ⟨fun h => by simp [hl] at h, fun h => by simp [hc] at h,
    fun held n w h => absurd h (hi held n w)⟩

end Flight

/-- The slot of one session id, its sessions, and the pid its lock file names. -/
structure CacheState where
  file : Option Nat
  resident : Option Nat
  flight : Flight
  /-- the clones of session `i` outside the slot and the flight -/
  handles : Nat → Nat
  frozen : Nat → Bool
  writer : Nat → Bool
  next : Nat

namespace CacheState

/-- Somebody holds session `i`. -/
def alive (s : CacheState) (i : Nat) : Bool :=
  decide (0 < s.handles i) || s.resident == some i || s.flight.holds i

/-- Session `i` writes the entry. -/
def writes (s : CacheState) (i : Nat) : Bool := s.alive i && !s.frozen i

/-! ## the operations -/

/-- `release_any`: remove the lock file if it names this process. -/
def releaseAny (me : Nat) (file : Option Nat) : Option Nat :=
  if file = some me then none else file

/-- What becomes of session `i` when a handle of it is gone: with the last, its
writer is dropped, and the lease with it. -/
def collect (me : Nat) (s : CacheState) (i : Nat) : CacheState :=
  if !s.alive i && s.writer i then
    { s with file := releaseAny me s.file, writer := Function.update s.writer i false }
  else s

/-- The same for a session that may not be there. -/
def collect? (me : Nat) (s : CacheState) : Option Nat → CacheState
  | some i => s.collect me i
  | none => s

/-- Hand out another clone. -/
def clone (s : CacheState) (i : Nat) : CacheState :=
  { s with handles := Function.update s.handles i (s.handles i + 1) }

/-- `attach_writer`: a writer already there is dropped, and its lease with it. -/
def attachWriter (me : Nat) (s : CacheState) (i : Nat) : CacheState :=
  { s with
    file := if s.writer i then releaseAny me s.file else s.file
    writer := Function.update s.writer i true
    frozen := Function.update s.frozen i false }

/-- `thaw`. -/
def thaw (s : CacheState) (i : Nat) : CacheState :=
  { s with frozen := Function.update s.frozen i false }

/-- `quiesce`: detach the writer, which releases the lock, and stop folding. -/
def quiesce (me : Nat) (s : CacheState) (i : Nat) : CacheState :=
  { s with
    file := if s.writer i then releaseAny me s.file else s.file
    writer := Function.update s.writer i false
    frozen := Function.update s.frozen i true }

/-- The lock file once `armed_writer` has run: without a writer the lease is dropped. -/
def armed (me : Nat) (file : Option Nat) (writer : Bool) : Option Nat :=
  if writer then file else releaseAny me file

/-- One step on one thread, or of a peer. -/
inductive CacheAct
  /-- `admit` finds a resident that is not frozen -/
  | hit
  /-- `admit` takes the `opening` mutex -/
  | enter
  /-- it finds one now -/
  | rehit
  /-- it finds none, or a frozen one -/
  | miss
  /-- `lock::acquire`, with the answer of the probe if a peer is named -/
  | acquire (live : Bool)
  /-- the backing cannot be used: the lock is handed back -/
  | unusable
  /-- the resident still describes the entry -/
  | retain (writer : Bool)
  /-- the entry is loaded, or reset -/
  | own (writer : Bool)
  /-- the session is built and installed -/
  | install
  /-- the writer is attached, or the retained session thawed, and the session returned -/
  | finish
  /-- `reap` takes an idle resident that nobody else holds -/
  | reap
  /-- `reap_over_budget` or `remove_pull` empties the slot -/
  | evict
  /-- a clone of the resident, or of another handle -/
  | clone (i : Nat)
  /-- `quiesce`, on a handle: `release` is a clone, this, and a drop -/
  | quiesce (i : Nat)
  | drop (i : Nat)
  /-- a peer takes the lock, where it is free -/
  | peerTake (q : Nat)
  /-- a peer releases its own -/
  | peerFree
  deriving DecidableEq, Repr

/-- One step, where it can be taken. -/
def step (me : Nat) (s : CacheState) : CacheAct → Option CacheState
  | .hit =>
    match s.resident with
    | some i => if s.frozen i then none else some (s.clone i)
    | none => none
  | .enter => if s.flight = .free then some { s with flight := .entered } else none
  | .rehit =>
    match s.flight, s.resident with
    | .entered, some i => if s.frozen i then none else some { s.clone i with flight := .free }
    | _, _ => none
  | .miss =>
    match s.flight, s.resident with
    | .entered, none => some { s with flight := .opening none }
    | .entered, some i => if s.frozen i then some { s with flight := .opening (some i) } else none
    | _, _ => none
  | .acquire live =>
    match s.flight with
    | .opening held =>
      if (s.file.any fun q => q != me) && live then
        some (collect? me { s with flight := .free } held)
      else some { s with file := some me, flight := .claimed held }
    | _ => none
  | .unusable =>
    match s.flight with
    | .claimed held =>
      some (collect? me { s with file := releaseAny me s.file, flight := .free } held)
    | _ => none
  | .retain w =>
    match s.flight with
    | .claimed (some i) => some { s with file := armed me s.file w, flight := .retaining i w }
    | _ => none
  | .own w =>
    match s.flight with
    | .claimed held => some { s with file := armed me s.file w, flight := .building held w }
    | _ => none
  | .install =>
    match s.flight with
    | .building held w =>
      some (collect? me {
        s with
        resident := some s.next
        flight := .installed held s.next w
        frozen := Function.update s.frozen s.next false
        writer := Function.update s.writer s.next false
        next := s.next + 1 } s.resident)
    | _ => none
  | .finish =>
    match s.flight with
    | .retaining i w =>
      some { (if w then s.attachWriter me i else s.thaw i).clone i with flight := .free }
    | .installed held i w =>
      some (collect? me { (if w then s.attachWriter me i else s).clone i with flight := .free } held)
    | _ => none
  | .reap =>
    match s.resident with
    | some i =>
      if s.handles i = 0 ∧ s.flight.holds i = false then
        some { s.clone i with resident := none }
      else none
    | none => none
  | .evict =>
    match s.resident with
    | some i => some (collect me { s with resident := none } i)
    | none => none
  | .clone i => if 0 < s.handles i ∨ s.resident = some i then some (s.clone i) else none
  | .quiesce i => if 0 < s.handles i then some (s.quiesce me i) else none
  | .drop i =>
    if 0 < s.handles i then
      some (collect me { s with handles := Function.update s.handles i (s.handles i - 1) } i)
    else none
  | .peerTake q => if s.file = none ∧ q ≠ me then some { s with file := some q } else none
  | .peerFree => if s.file.any fun q => q != me then some { s with file := none } else none

/-- A schedule: the steps of all threads, in the order they happen. -/
def run (me : Nat) (s : CacheState) : List CacheAct → Option CacheState
  | [] => some s
  | act :: acts => (s.step me act).bind fun s => s.run me acts

/-- The slot before its first admission, and whatever the lock file says. -/
def start (file : Option Nat) : CacheState :=
  ⟨file, none, .free, fun _ => 0, fun _ => false, fun _ => false, 0⟩

/-- A resident that has a writer holds the lock. -/
def Covered (me : Nat) (s : CacheState) : Prop :=
  ∀ i, s.resident = some i → s.writer i = true → s.file = some me

/-- At most one session writes the entry. -/
def SoleWriter (s : CacheState) : Prop :=
  ∀ i j, s.writes i = true → s.writes j = true → i = j

/-- An admission takes the lock only while no session of the id writes: those put
out of the slot are dropped, or frozen. -/
def Clear (s : CacheState) : CacheAct → Prop
  | .acquire _ => ∀ i, s.writes i = false
  | _ => True

/-- A schedule all of whose steps meet the condition. -/
def Quiet (me : Nat) (s : CacheState) : List CacheAct → Prop
  | [] => True
  | act :: acts => s.Clear act ∧ ∀ s', s.step me act = some s' → s'.Quiet me acts

/-! ## the invariant -/

/-- **One session at most writes**, and the lock is held for it and for the
admission that is about to give one back. -/
structure Sole (me : Nat) (s : CacheState) : Prop where
  unique : s.SoleWriter
  writer : ∀ i, s.writer i = true → s.writes i = true ∧ s.file = some me
  lease : s.flight.leased = true → s.file = some me
  /-- until the admission gives a session back, none writes -/
  quiet : s.flight.claims = true → ∀ i, s.writes i = false
  /-- once it is installed, no other writes, and its writer is still to come -/
  fresh : ∀ held n w, s.flight = .installed held n w →
    s.writer n = false ∧ ∀ i, s.writes i = true → i = n
  bound : ∀ i, s.alive i = true → i < s.next

variable {me : Nat} {s s₁ : CacheState} {i : Nat}

theorem writes_iff : s.writes i = true ↔ s.alive i = true ∧ s.frozen i = false := by
  simp [writes]

theorem Sole.no_writer (h : s.Sole me) (hw : ∀ i, s.writes i = false) (i : Nat) :
    s.writer i = false := by
  rw [Bool.eq_false_iff]
  intro hi
  exact absurd (h.writer i hi).1 (by simp [hw i])

/-- While a session has a writer, no admission holds the lease. -/
theorem Sole.not_flying (h : s.Sole me) (hi : s.writer i = true) :
    s.flight.leased = false ∧ s.flight.claims = false ∧
      ∀ held n w, s.flight ≠ .installed held n w := by
  have hwrites := (h.writer i hi).1
  have hclaims : s.flight.claims = false := by
    rw [Bool.eq_false_iff]
    intro hc
    simp [h.quiet hc i] at hwrites
  have hinstalled : ∀ held n w, s.flight ≠ .installed held n w := by
    intro held n w hf
    obtain ⟨hn, hsole⟩ := h.fresh held n w hf
    rw [hsole i hwrites, hn] at hi
    contradiction
  refine ⟨?_, hclaims, hinstalled⟩
  cases hf : s.flight with
  | installed held n w => exact absurd hf (hinstalled held n w)
  | free | entered | opening => rfl
  | _ => simp [hf, Flight.claims] at hclaims

/-- Handles come and go: the invariant stays while no session with a writer goes. -/
theorem Sole.handles (h : s.Sole me) (hfile : s₁.file = s.file) (hfrozen : s₁.frozen = s.frozen)
    (hwriter : s₁.writer = s.writer) (hnext : s₁.next = s.next) (hf : s₁.flight.Le s.flight)
    (hback : ∀ j, s₁.alive j = true → s.alive j = true)
    (hkeep : ∀ j, s.writer j = true → s₁.alive j = true) : s₁.Sole me := by
  have hwrites : ∀ j, s₁.writes j = true → s.writes j = true := by
    intro j hj
    rw [writes_iff, hfrozen] at hj
    exact writes_iff.mpr ⟨hback j hj.1, hj.2⟩
  refine ⟨fun i j hi hj => h.unique i j (hwrites i hi) (hwrites j hj), fun j hj => ?_,
    fun hl => hfile ▸ h.lease (hf.leased hl), fun hc j => ?_, fun held n w hin => ?_,
    fun j hj => hnext ▸ h.bound j (hback j hj)⟩
  · rw [hwriter] at hj
    obtain ⟨hw, hme⟩ := h.writer j hj
    rw [writes_iff] at hw
    exact ⟨writes_iff.mpr ⟨hkeep j hj, hfrozen ▸ hw.2⟩, hfile ▸ hme⟩
  · rw [Bool.eq_false_iff]
    intro hj
    have := hwrites j hj
    simp [h.quiet (hf.claims hc) j] at this
  · obtain ⟨held', w', hg⟩ := hf.installed held n w hin
    obtain ⟨hn, hsole⟩ := h.fresh held' n w' hg
    exact ⟨hwriter ▸ hn, fun j hj => hsole j (hwrites j hj)⟩

theorem collect_of_not (h : s.alive i = true ∨ s.writer i = false) : s.collect me i = s := by
  unfold collect
  obtain h | h := h <;> simp [h]

/-- **A handle is dropped**: if it was the last of the session with the writer, the
lock goes with it, and nobody writes. -/
theorem Sole.collect (h : s.Sole me) (hfile : s₁.file = s.file) (hfrozen : s₁.frozen = s.frozen)
    (hwriter : s₁.writer = s.writer) (hnext : s₁.next = s.next) (hf : s₁.flight.Le s.flight)
    (hback : ∀ j, s₁.alive j = true → s.alive j = true)
    (hkeep : ∀ j, j ≠ i → s.alive j = true → s₁.alive j = true) : (s₁.collect me i).Sole me := by
  cases halive : s₁.alive i with
  | true =>
    rw [collect_of_not (.inl halive)]
    refine h.handles hfile hfrozen hwriter hnext hf hback fun j hj => ?_
    by_cases hji : j = i
    · exact hji ▸ halive
    · exact hkeep j hji (writes_iff.mp (h.writer j hj).1).1
  | false =>
    cases hi : s.writer i with
    | false =>
      rw [collect_of_not (.inr (hwriter ▸ hi))]
      refine h.handles hfile hfrozen hwriter hnext hf hback fun j hj => ?_
      have hji : j ≠ i := fun heq => by rw [heq, hi] at hj; contradiction
      exact hkeep j hji (writes_iff.mp (h.writer j hj).1).1
    | true =>
      obtain ⟨hl, hc, hin⟩ := h.not_flying hi
      have hnone : ∀ j, (s₁.collect me i).writes j = false := by
        intro j
        rw [Bool.eq_false_iff]
        intro hj
        have halive' : s₁.writes j = true := by
          unfold CacheState.collect at hj
          split at hj <;> exact hj
        rw [writes_iff, hfrozen] at halive'
        have hji := h.unique j i (writes_iff.mpr ⟨hback j halive'.1, halive'.2⟩) (h.writer i hi).1
        rw [hji, halive] at halive'
        exact absurd halive'.1 (by simp)
      have heq : s₁.collect me i = { s₁ with
          file := releaseAny me s₁.file, writer := Function.update s₁.writer i false } := by
        unfold CacheState.collect
        simp [halive, hwriter, hi]
      have hflight : (s₁.collect me i).flight = s₁.flight := by rw [heq]
      refine ⟨fun j k hj => absurd hj (by simp [hnone]), fun j hj => ?_, fun hl' => ?_,
        fun _ => hnone, fun held n w hin' => ?_, fun j hj => ?_⟩
      · rw [heq] at hj
        simp only [hwriter] at hj
        by_cases hji : j = i
        · subst hji
          simp at hj
        · rw [Function.update_of_ne hji] at hj
          exact absurd (h.unique j i (h.writer j hj).1 (h.writer i hi).1) hji
      · rw [hflight] at hl'
        simp [hf.leased hl'] at hl
      · rw [hflight] at hin'
        obtain ⟨held', w', hg⟩ := hf.installed held n w hin'
        exact absurd hg (hin held' n w')
      · rw [heq] at hj ⊢
        exact hnext ▸ h.bound j (hback j hj)

theorem Sole.collect? (h : s.Sole me) {held : Option Nat} (hfile : s₁.file = s.file)
    (hfrozen : s₁.frozen = s.frozen) (hwriter : s₁.writer = s.writer) (hnext : s₁.next = s.next)
    (hf : s₁.flight.Le s.flight) (hback : ∀ j, s₁.alive j = true → s.alive j = true)
    (hkeep : ∀ j, held ≠ some j → s.alive j = true → s₁.alive j = true) :
    (collect? me s₁ held).Sole me := by
  cases held with
  | none =>
    refine h.handles hfile hfrozen hwriter hnext hf hback fun j hj => ?_
    exact hkeep j (by simp) (writes_iff.mp (h.writer j hj).1).1
  | some i =>
    refine h.collect hfile hfrozen hwriter hnext hf hback fun j hj => hkeep j fun heq => ?_
    exact hj (Option.some.inj heq).symm

theorem collect?_of_no_writer (h : ∀ i, s.writer i = false) (held : Option Nat) :
    CacheState.collect? me s held = s := by
  cases held with
  | none => rfl
  | some i => exact collect_of_not (.inr (h i))

/-- No session writes. -/
theorem Sole.of_none (hwrites : ∀ i, s.writes i = false) (hwriter : ∀ i, s.writer i = false)
    (hl : s.flight.leased = true → s.file = some me)
    (hin : ∀ held n w, s.flight ≠ .installed held n w)
    (hb : ∀ i, s.alive i = true → i < s.next) : s.Sole me where
  unique i j hi := by simp [hwrites i] at hi
  writer i hi := by simp [hwriter i] at hi
  lease := hl
  quiet _ := hwrites
  fresh held n w h := absurd h (hin held n w)
  bound := hb

/-- No session but `i` writes. -/
theorem Sole.of_one (i : Nat) (hwrites : ∀ j, s.writes j = true → j = i)
    (hwriter : ∀ j, s.writer j = true → s.writes j = true ∧ s.file = some me)
    (hl : s.flight.leased = true → s.file = some me) (hc : s.flight.claims = false)
    (hin : ∀ held n w, s.flight = .installed held n w → n = i ∧ s.writer i = false)
    (hb : ∀ j, s.alive j = true → j < s.next) : s.Sole me where
  unique j k hj hk := (hwrites j hj).trans (hwrites k hk).symm
  writer := hwriter
  lease := hl
  quiet h := by simp [hc] at h
  fresh held n w h := by
    obtain ⟨rfl, hn⟩ := hin held n w h
    exact ⟨hn, hwrites⟩
  bound := hb

/-- A peer changes a lock file that does not name this process. -/
theorem Sole.peer (h : s.Sole me) (hfile : s.file ≠ some me) (file : Option Nat) :
    ({ s with file } : CacheState).Sole me where
  unique := h.unique
  writer i hi := absurd (h.writer i hi).2 hfile
  lease hl := absurd (h.lease hl) hfile
  quiet := h.quiet
  fresh := h.fresh
  bound := h.bound

/-- A clone of a session somebody holds. -/
theorem alive_clone (hi : s.alive i = true) (j : Nat) : (s.clone i).alive j = s.alive j := by
  by_cases hji : j = i
  · subst hji
    rw [hi]
    simp [alive, CacheState.clone]
  · simp [alive, CacheState.clone, Function.update_of_ne hji]

/-- Whoever was held still is. -/
theorem Sole.of_alive (h : s.Sole me) (hfile : s₁.file = s.file) (hfrozen : s₁.frozen = s.frozen)
    (hwriter : s₁.writer = s.writer) (hnext : s₁.next = s.next) (hf : s₁.flight.Le s.flight)
    (halive : ∀ j, s₁.alive j = s.alive j) : s₁.Sole me :=
  h.handles hfile hfrozen hwriter hnext hf (fun j hj => halive j ▸ hj) fun j hj =>
    halive j ▸ (writes_iff.mp (h.writer j hj).1).1

theorem Sole.clone (h : s.Sole me) (hi : s.alive i = true) : (s.clone i).Sole me :=
  h.of_alive rfl rfl rfl rfl (.refl _) (alive_clone hi)

theorem Sole.quiesce (h : s.Sole me) (i : Nat) : (s.quiesce me i).Sole me := by
  have hwrites : ∀ j, (s.quiesce me i).writes j = true → j ≠ i ∧ s.writes j = true := by
    intro j hj
    obtain ⟨halive, hfrozen⟩ := writes_iff.mp hj
    by_cases hji : j = i
    · subst hji
      simp [CacheState.quiesce] at hfrozen
    · simp only [CacheState.quiesce, Function.update_of_ne hji] at hfrozen
      exact ⟨hji, writes_iff.mpr ⟨halive, hfrozen⟩⟩
  cases hi : s.writer i with
  | true =>
    obtain ⟨hl, hc, hin⟩ := h.not_flying hi
    have hother : ∀ j, s.writes j = true → j = i := fun j hj =>
      h.unique j i hj (h.writer i hi).1
    refine Sole.of_none (fun j => ?_) (fun j => ?_) (fun hl' => ?_) hin h.bound
    · rw [Bool.eq_false_iff]
      intro hj
      obtain ⟨hji, hj⟩ := hwrites j hj
      exact hji (hother j hj)
    · by_cases hji : j = i
      · subst hji
        simp [CacheState.quiesce]
      · rw [Bool.eq_false_iff]
        intro hj
        simp only [CacheState.quiesce, Function.update_of_ne hji] at hj
        exact hji (hother j (h.writer j hj).1)
    · exact absurd hl' (by simp [CacheState.quiesce, hl])
  | false =>
    have hfile : (s.quiesce me i).file = s.file := by simp [CacheState.quiesce, hi]
    have hwriter : (s.quiesce me i).writer = s.writer := by
      simp only [CacheState.quiesce]
      rw [← hi, Function.update_eq_self]
    refine ⟨fun j k hj hk => h.unique j k (hwrites j hj).2 (hwrites k hk).2, fun j hj => ?_,
      fun hl => hfile ▸ h.lease hl, fun hc j => ?_, fun held n w hin => ?_, h.bound⟩
    · rw [hwriter] at hj
      obtain ⟨hw, hme⟩ := h.writer j hj
      obtain ⟨halive, hfrozen⟩ := writes_iff.mp hw
      have hji : j ≠ i := fun heq => by rw [heq, hi] at hj; contradiction
      refine ⟨writes_iff.mpr ⟨halive, ?_⟩, hfile ▸ hme⟩
      simpa [CacheState.quiesce, Function.update_of_ne hji] using hfrozen
    · rw [Bool.eq_false_iff]
      intro hj
      have := (hwrites j hj).2
      simp [h.quiet hc j] at this
    · obtain ⟨hn, hsole⟩ := h.fresh held n w hin
      exact ⟨hwriter ▸ hn, fun j hj => hsole j (hwrites j hj).2⟩

/-- The writer is made, or the lease dropped. -/
theorem Sole.arm (h : s.Sole me) {held : Option Nat} {w : Bool} {f : Flight}
    (hc : s.flight = .claimed held) (hholds : ∀ j, f.holds j = (held == some j))
    (hl : f.leased = w) (hin : ∀ held n w, f ≠ .installed held n w) :
    ({ s with file := armed me s.file w, flight := f } : CacheState).Sole me := by
  have hquiet := h.quiet (by rw [hc]; rfl)
  have halive : ∀ j, CacheState.alive { s with
      file := armed me s.file w, flight := f } j = s.alive j := by
    intro j
    rw [alive, alive, hholds, hc]
    rfl
  refine .of_none (fun j => ?_) (h.no_writer hquiet) (fun hf => ?_) hin fun j hj =>
    h.bound j (halive j ▸ hj)
  · rw [writes, halive j]
    exact hquiet j
  · obtain rfl : w = true := hl ▸ hf
    exact h.lease (by rw [hc]; rfl)

/-- The session is built and put in the slot. -/
theorem Sole.install (h : s.Sole me) {held : Option Nat} {w : Bool}
    (hf : s.flight = .building held w) (hs : s.step me .install = some s₁) : s₁.Sole me := by
  have hquiet := h.quiet (by rw [hf]; rfl)
  have hnone := h.no_writer hquiet
  have hlease : w = true → s.file = some me := fun hw => h.lease (by rw [hf]; exact hw)
  have hold : ∀ j, j ≠ s.next → s.alive j = true → s.frozen j = true := by
    intro j _ halive
    have := hquiet j
    simpa [writes, halive] using this
  have hwriter : ∀ j, Function.update s.writer s.next false j = false := by
    intro j
    by_cases hj : j = s.next
    · rw [hj, Function.update_self]
    · rw [Function.update_of_ne hj, hnone j]
  simp only [CacheState.step, hf, Option.some.injEq] at hs
  rw [collect?_of_no_writer hwriter] at hs
  subst hs
  have hback : ∀ j, j ≠ s.next → CacheState.alive { s with
      resident := some s.next
      flight := .installed held s.next w
      frozen := Function.update s.frozen s.next false
      writer := Function.update s.writer s.next false
      next := s.next + 1 } j = true → s.alive j = true := by
    intro j hj halive
    simp only [alive, hf, Flight.holds, Bool.or_eq_true, beq_iff_eq, decide_eq_true_eq,
      Option.some.injEq, Ne.symm hj, or_false] at halive ⊢
    exact halive.elim (fun h => .inl (.inl h)) .inr
  refine .of_one s.next (fun j hj => ?_) (fun j hj => ?_) hlease rfl (fun held' n w' hin => ?_)
    fun j hj => ?_
  · by_contra hne
    obtain ⟨halive, hfrozen⟩ := writes_iff.mp hj
    simp only [Function.update_of_ne hne] at hfrozen
    simp [hold j hne (hback j hne halive)] at hfrozen
  · simp [hwriter j] at hj
  · cases hin
    exact ⟨rfl, hwriter s.next⟩
  · by_cases hne : j = s.next
    · exact hne ▸ Nat.lt_succ_self _
    · exact Nat.lt_succ_of_lt (h.bound j (hback j hne hj))

/-- The retained session is given its writer back, or thawed. -/
theorem Sole.thaw (h : s.Sole me) {w : Bool} (hf : s.flight = .retaining i w)
    (hs : s.step me .finish = some s₁) : s₁.Sole me := by
  have hquiet := h.quiet (by rw [hf]; rfl)
  have hnone := h.no_writer hquiet
  have hs₁ : s₁ = { s with
      flight := .free
      handles := Function.update s.handles i (s.handles i + 1)
      frozen := Function.update s.frozen i false
      writer := Function.update s.writer i w } := by
    simp only [CacheState.step, hf, Option.some.injEq] at hs
    subst hs
    cases w with
    | true => simp [CacheState.clone, attachWriter, hnone i]
    | false =>
      have hsame : Function.update s.writer i false = s.writer := by
        rw [← hnone i, Function.update_eq_self]
      simp [CacheState.clone, CacheState.thaw, hsame]
  subst hs₁
  have hback : ∀ j, CacheState.alive { s with
      flight := .free
      handles := Function.update s.handles i (s.handles i + 1)
      frozen := Function.update s.frozen i false
      writer := Function.update s.writer i w } j = true → s.alive j = true := by
    intro j hj
    by_cases hji : j = i
    · simp [alive, hf, Flight.holds, hji]
    · simp only [alive, Function.update_of_ne hji, Flight.holds, Bool.or_false] at hj
      simp only [alive, hj, Bool.true_or]
  refine .of_one i (fun j hj => ?_) (fun j hj => ?_) (by simp [Flight.leased]) rfl (by simp)
    fun j hj => h.bound j (hback j hj)
  · by_contra hji
    obtain ⟨hj, hjf⟩ := writes_iff.mp hj
    simp only [Function.update_of_ne hji] at hjf
    have := writes_iff.mpr ⟨hback j hj, hjf⟩
    simp [hquiet j] at this
  · by_cases hji : j = i
    · subst hji
      simp only [Function.update_self] at hj
      exact ⟨by simp [writes, alive], h.lease (by rw [hf]; exact hj)⟩
    · simp [Function.update_of_ne hji, hnone j] at hj

/-- The installed session is given its writer, and the one it replaced is let go. -/
theorem Sole.attach (h : s.Sole me) {held : Option Nat} {w : Bool}
    (hf : s.flight = .installed held i w) (hs : s.step me .finish = some s₁) : s₁.Sole me := by
  obtain ⟨hn, hsole⟩ := h.fresh held i w hf
  have hi : s.alive i = true := by simp [alive, hf, Flight.holds]
  -- the admission with the writer attached, and the old session still in hand
  let s₂ : CacheState := { s with
    flight := .opening held
    handles := Function.update s.handles i (s.handles i + 1)
    frozen := if w then Function.update s.frozen i false else s.frozen
    writer := Function.update s.writer i w }
  have hs₁ : s₁ = CacheState.collect? me { s₂ with flight := .free } held := by
    simp only [CacheState.step, hf, Option.some.injEq] at hs
    subst hs
    cases w with
    | true => simp [CacheState.clone, attachWriter, hn, s₂]
    | false =>
      have hsame : Function.update s.writer i false = s.writer := by
        rw [← hn, Function.update_eq_self]
      simp [CacheState.clone, s₂, hsame]
  have hback : ∀ j, s₂.alive j = true → s.alive j = true := by
    intro j hj
    by_cases hji : j = i
    · exact hji ▸ hi
    · simp only [alive, s₂, Function.update_of_ne hji, Flight.holds] at hj
      simp only [alive, hf, Flight.holds, ← Bool.or_assoc, hj, Bool.true_or]
  have hfrozen : ∀ j, j ≠ i → s₂.frozen j = s.frozen j := by
    intro j hji
    cases w <;> simp [s₂, Function.update_of_ne hji]
  have hsole₂ : s₂.Sole me := by
    refine .of_one i (fun j hj => ?_) (fun j hj => ?_) (by simp [s₂, Flight.leased]) rfl
      (by simp [s₂]) fun j hj => h.bound j (hback j hj)
    · by_contra hji
      obtain ⟨hj, hjf⟩ := writes_iff.mp hj
      exact hji (hsole j (writes_iff.mpr ⟨hback j hj, hfrozen j hji ▸ hjf⟩))
    · by_cases hji : j = i
      · subst hji
        obtain rfl : w = true := by simpa [s₂] using hj
        exact ⟨by simp [s₂, writes, alive], h.lease (by rw [hf]; rfl)⟩
      · simp only [s₂, Function.update_of_ne hji] at hj
        exact absurd (hsole j (h.writer j hj).1) hji
  rw [hs₁]
  refine hsole₂.collect? rfl rfl rfl rfl (.of_idle rfl rfl (by simp)) (fun j hj => ?_)
    fun j hj halive => ?_
  · simp only [alive, Flight.holds, Bool.or_false] at hj
    simp only [alive, hj, Bool.true_or]
  · have hheld : (held == some j) = false := by simpa using hj
    simpa only [alive, s₂, Flight.holds, hheld] using halive

/-- **A clear step keeps the invariant.** -/
theorem Sole.step {act : CacheAct} (h : s.Sole me) (hclear : s.Clear act)
    (hs : s.step me act = some s₁) : s₁.Sole me := by
  cases act <;> simp only [CacheState.step] at hs
  case hit =>
    split at hs
    · next i hr =>
      split at hs
      · contradiction
      · obtain rfl := Option.some.inj hs
        exact h.clone (by simp [alive, hr])
    · contradiction
  case enter =>
    split at hs
    · next hf =>
      obtain rfl := Option.some.inj hs
      refine h.of_alive rfl rfl rfl rfl (.of_idle rfl rfl (by simp)) fun j => ?_
      simp [alive, hf, Flight.holds]
    · contradiction
  case rehit =>
    split at hs
    · next i hf hr =>
      split at hs
      · contradiction
      · obtain rfl := Option.some.inj hs
        have hi : s.alive i = true := by simp [alive, hr]
        refine h.of_alive rfl rfl rfl rfl (.of_idle rfl rfl (by simp)) fun j => ?_
        rw [← alive_clone hi j]
        simp [alive, CacheState.clone, hf, Flight.holds]
    · contradiction
  case miss =>
    split at hs
    · next hf hr =>
      obtain rfl := Option.some.inj hs
      refine h.of_alive rfl rfl rfl rfl (.of_idle rfl rfl (by simp)) fun j => ?_
      simp [alive, hf, Flight.holds]
    · next i hf hr =>
      split at hs
      · obtain rfl := Option.some.inj hs
        refine h.of_alive rfl rfl rfl rfl (.of_idle rfl rfl (by simp)) fun j => ?_
        simp [alive, hf, hr, Flight.holds]
      · contradiction
    · contradiction
  case acquire live =>
    split at hs
    · next held hf =>
      split at hs <;> obtain rfl := Option.some.inj hs
      · -- denied: the frozen resident is let go
        refine h.collect? rfl rfl rfl rfl (.of_idle rfl rfl (by simp)) (fun j hj => ?_)
          fun j hj halive => ?_
        · simp only [alive, Flight.holds, Bool.or_false] at hj
          simp only [alive, hj, Bool.true_or]
        · have hheld : (held == some j) = false := by simpa using hj
          simpa only [alive, hf, Flight.holds, hheld] using halive
      · refine .of_none (fun j => ?_) (h.no_writer hclear) (fun _ => rfl) (by simp) fun j hj =>
          h.bound j ?_
        · simpa [writes, alive, hf, Flight.holds] using hclear j
        · simpa only [alive, hf, Flight.holds] using hj
    · contradiction
  case unusable =>
    split at hs
    · next held hf =>
      have hquiet := h.quiet (by rw [hf]; rfl)
      have hnone := h.no_writer hquiet
      obtain rfl := Option.some.inj hs
      have hback : ∀ j, CacheState.alive { s with
          file := releaseAny me s.file, flight := .free } j = true → s.alive j = true := by
        intro j hj
        simp only [alive, Flight.holds, Bool.or_false] at hj
        simp only [alive, hj, Bool.true_or]
      rw [collect?_of_no_writer (s := { s with
        file := releaseAny me s.file, flight := .free }) hnone]
      refine .of_none (fun j => ?_) hnone (by simp [Flight.leased]) (by simp) fun j hj =>
        h.bound j (hback j hj)
      rw [Bool.eq_false_iff]
      intro hj
      obtain ⟨hj, hjf⟩ := writes_iff.mp hj
      have := writes_iff.mpr ⟨hback j hj, hjf⟩
      simp [hquiet j] at this
    · contradiction
  case retain w =>
    split at hs
    · next i hf =>
      obtain rfl := Option.some.inj hs
      refine h.arm hf (fun j => ?_) rfl (by simp)
      simp [Flight.holds]
    · contradiction
  case own w =>
    split at hs
    · next held hf =>
      obtain rfl := Option.some.inj hs
      exact h.arm hf (fun j => rfl) rfl (by simp)
    · contradiction
  case install =>
    cases hf : s.flight with
    | building held w => exact h.install hf hs
    | _ => simp [hf] at hs
  case finish =>
    cases hf : s.flight with
    | retaining i w => exact h.thaw hf hs
    | installed held i w => exact h.attach hf hs
    | _ => simp [hf] at hs
  case reap =>
    split at hs
    · next i hr =>
      split at hs
      · obtain rfl := Option.some.inj hs
        have hi : s.alive i = true := by simp [alive, hr]
        refine h.of_alive rfl rfl rfl rfl (.refl _) fun j => ?_
        rw [← alive_clone hi j]
        by_cases hji : j = i
        · simp [alive, CacheState.clone, hji]
        · have hij : (i == j) = false := by simpa using Ne.symm hji
          simp [alive, CacheState.clone, hr, hij]
      · contradiction
    · contradiction
  case evict =>
    split at hs
    · next i hr =>
      obtain rfl := Option.some.inj hs
      refine h.collect rfl rfl rfl rfl (.refl _) (fun j hj => ?_) fun j hji hj => ?_
      · have hnone : ((none : Option Nat) == some j) = false := rfl
        simp only [alive, hnone, Bool.or_false, Bool.or_eq_true] at hj ⊢
        exact hj.imp_left .inl
      · have hij : (some i == some j) = false := by simpa using Ne.symm hji
        simpa [alive, hr, hij] using hj
    · contradiction
  case clone i =>
    split at hs
    · next hi =>
      obtain rfl := Option.some.inj hs
      refine h.clone ?_
      obtain hi | hi := hi <;> simp [alive, hi]
    · contradiction
  case quiesce i =>
    split at hs
    · obtain rfl := Option.some.inj hs
      exact h.quiesce i
    · contradiction
  case drop i =>
    split at hs
    · next hi =>
      obtain rfl := Option.some.inj hs
      refine h.collect rfl rfl rfl rfl (.refl _) (fun j hj => ?_) fun j hji hj => ?_
      · by_cases hji : j = i
        · simp [alive, hji, hi]
        · simpa only [alive, Function.update_of_ne hji] using hj
      · simpa only [alive, Function.update_of_ne hji] using hj
    · contradiction
  case peerTake q =>
    split at hs
    · next hq =>
      obtain rfl := Option.some.inj hs
      exact h.peer (by simp [hq.1]) (some q)
    · contradiction
  case peerFree =>
    split at hs
    · next hq =>
      obtain rfl := Option.some.inj hs
      exact h.peer (fun hfile => by simp [hfile] at hq) none
    · contradiction

theorem quiet_cons {act : CacheAct} {acts : List CacheAct} (hc : s.Clear act)
    (hs : s.step me act = some s₁) (h : s₁.Quiet me acts) : s.Quiet me (act :: acts) :=
  ⟨hc, fun _ hs' => Option.some.inj (hs.symm.trans hs') ▸ h⟩

theorem Sole.run {acts : List CacheAct} (h : s.Sole me) (hquiet : s.Quiet me acts)
    (hs : s.run me acts = some s₁) : s₁.Sole me := by
  induction acts generalizing s with
  | nil => exact Option.some.inj hs ▸ h
  | cons act acts ih =>
    obtain ⟨s₂, hstep, hrun⟩ := Option.bind_eq_some_iff.mp hs
    exact ih (h.step hquiet.1 hstep) (hquiet.2 s₂ hstep) hrun

theorem sole_start (me : Nat) (file : Option Nat) : (start file).Sole me :=
  .of_none (fun _ => rfl) (fun _ => rfl) (by simp [start, Flight.leased]) (by simp [start])
    fun i hi => by simp [start, alive, Flight.holds] at hi

/-- **A resident that writes holds the lock.** Whatever the schedule of admissions,
reaping, eviction, removal, release and of the peers: if an admission takes the lock
only while no session of the id writes, a resident with a writer holds the lock and
one session of the id writes at most. -/
theorem residents_hold_lock {file : Option Nat} {acts : List CacheAct}
    (hquiet : (start file).Quiet me acts) (hs : (start file).run me acts = some s) :
    s.Covered me ∧ s.SoleWriter := by
  have h := (sole_start me file).run hquiet hs
  exact ⟨fun i _ hi => (h.writer i hi).2, h.unique⟩

/-- The steps of one admission that builds a session and keeps a handle of it. -/
def admission : List CacheAct := [.enter, .miss, .acquire true, .own true, .install, .finish]

/-- A session is admitted and released; a peer takes the entry and gives it back; and
the frozen resident is admitted once more, its writer with it. -/
theorem residents_hold_lock_readmitted :
    ∃ s, (start none).run 1 (admission ++ [.quiesce 0, .drop 0, .peerTake 2, .peerFree,
        .enter, .miss, .acquire true, .retain true, .finish]) = some s ∧
      s.resident = some 0 ∧ s.writer 0 = true ∧ s.Covered 1 ∧ s.SoleWriter := by
  have hquiet : (start none).Quiet 1 (admission ++ [.quiesce 0, .drop 0, .peerTake 2, .peerFree,
      .enter, .miss, .acquire true, .retain true, .finish]) := by
    refine quiet_cons trivial rfl <| quiet_cons trivial rfl <| quiet_cons (fun i => ?_) rfl <|
      quiet_cons trivial rfl <| quiet_cons trivial rfl <| quiet_cons trivial rfl <|
      quiet_cons trivial rfl <| quiet_cons trivial rfl <| quiet_cons trivial rfl <|
      quiet_cons trivial rfl <| quiet_cons trivial rfl <| quiet_cons trivial rfl <|
      quiet_cons (fun i => ?_) rfl <| quiet_cons trivial rfl <| quiet_cons trivial rfl trivial
    · simp [writes, alive, start, Flight.holds]
    · cases i <;> rfl
  exact ⟨_, rfl, rfl, rfl, residents_hold_lock hquiet rfl⟩

/-- **Two sessions that write.** A request still holds the session when the reaper,
over budget, empties its slot; the next admission finds nothing there, the lock names
its own process, and a second session is opened over the entry. When the request is
done the first session goes, and the lock goes with it, under the second. -/
theorem evicted_still_writing :
    (∃ s, (start none).run 1 (admission ++ [.evict] ++ admission) = some s ∧ ¬s.SoleWriter) ∧
    ∃ s, (start none).run 1 (admission ++ [.evict] ++ admission ++ [.drop 0]) = some s ∧
      ¬s.Covered 1 := by
  refine ⟨⟨_, rfl, fun h => ?_⟩, ⟨_, rfl, fun h => ?_⟩⟩
  · exact absurd (h 0 1 rfl rfl) (by decide)
  · exact absurd (h 1 rfl rfl) (by decide)

end CacheState

end ClaudeReplay.Cache
