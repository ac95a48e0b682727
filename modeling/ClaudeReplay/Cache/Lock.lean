import Mathlib.Logic.Function.Basic

/-!
# ClaudeReplay.Cache.Lock

The single-writer lock of a cache entry: one `LOCK` file that names its holder.
Every call is a few file-system steps, and other processes run between any two of
them, so a call is modelled as the phases a process goes through:

* `acquire` reads the file, probes a holder that is not itself, then writes;
* `publish` reads the file and writes it back with a note;
* `release` reads the file and removes it if the process is named there.

A write opens the file, which empties it, and then fills it; a reader in between
finds nothing it can parse, as if there were no lock. What a probe answers is up to
the environment: the liveness rule is the caller's.

Nothing reads the file again after a write, so two processes that both read before
either writes both own the entry (`racing_owners`). `LockState.Clear` is the
re-check that is missing, as a condition on the state a process opens the file in;
`mutual_exclusion` is what holds of the schedules that meet it.
-/

namespace ClaudeReplay.Cache

variable {N : Type}

/-- Who holds a lock, and what they published about themselves. -/
structure Holder (N : Type) where
  pid : Nat
  dir : String
  note : Option N
  deriving DecidableEq, Repr

/-- The `LOCK` file: not there, opened for writing and still empty, or naming a
holder. -/
inductive LockFile (N : Type)
  | absent
  | torn
  | holder (h : Holder N)
  deriving DecidableEq, Repr

/-- `read`: the holder the file names, if it parses. -/
def LockFile.read : LockFile N → Option (Holder N)
  | .absent | .torn => none
  | .holder h => some h

/-- Where a process is in its calls. -/
inductive Phase (N : Type)
  /-- not running -/
  | away
  /-- running, with no claim on the entry -/
  | idle
  /-- in `acquire`, with a peer's liveness to probe -/
  | probing (h : Holder N)
  /-- in `acquire`, about to write -/
  | taking
  /-- in `acquire`, the file open and its content to come -/
  | writing (h : Holder N)
  /-- `acquire` has returned `Taken::Owned` -/
  | owner
  /-- an owner in `publish`, about to write -/
  | noting (h : Holder N)
  /-- an owner in `publish`, the file open and its content to come -/
  | publishing (h : Holder N)
  /-- an owner in `release`, about to remove the file -/
  | releasing
  deriving DecidableEq, Repr

namespace Phase

/-- The process has been told that the entry is its own. -/
def owns : Phase N → Bool
  | .owner | .noting _ | .publishing _ | .releasing => true
  | _ => false

/-- The process has the file open. -/
def isWriting : Phase N → Bool
  | .writing _ | .publishing _ => true
  | _ => false

/-- The holder the process is about to write, or has half written. -/
def content? : Phase N → Option (Holder N)
  | .writing h | .noting h | .publishing h => some h
  | _ => none

end Phase

/-! ## the calls -/

/-- `acquire`, once it has read the file: a holder that is not us is probed. -/
def acquire (me : Nat) : Option (Holder N) → Phase N
  | some h => if h.pid ≠ me then .probing h else .taking
  | none => .taking

/-- `publish`: what it writes, given what it read. -/
def publish (me : Nat) (dir : String) (seen : Option (Holder N)) (note : N) : Holder N :=
  { seen.getD ⟨me, dir, none⟩ with pid := me, note := some note }

/-- `release`, once it has read the file: only our own lock is removed. -/
def release (me : Nat) : Option (Holder N) → Phase N
  | some h => if h.pid = me then .releasing else .idle
  | none => .idle

/-! ## the file and its processes -/

/-- The file, and where each process is. -/
structure LockState (N : Type) where
  file : LockFile N
  phase : Nat → Phase N

/-- One step of one process. -/
inductive LockAct (N : Type)
  | spawn
  | die
  /-- call `acquire`, up to its read -/
  | acquire
  /-- the probe's answer -/
  | answer (live : Bool)
  /-- call `publish`, up to its read -/
  | publish (note : N)
  /-- call `release`, up to its read -/
  | release
  /-- open the file for writing, which empties it -/
  | openFile
  /-- write its content and close it -/
  | fill
  /-- remove the file -/
  | remove
  deriving DecidableEq, Repr

namespace LockState

/-- Move one process. -/
def goto (s : LockState N) (p : Nat) (x : Phase N) : LockState N :=
  { s with phase := Function.update s.phase p x }

@[simp] theorem goto_file (s : LockState N) (p : Nat) (x : Phase N) : (s.goto p x).file = s.file :=
  rfl

@[simp] theorem goto_phase_self (s : LockState N) (p : Nat) (x : Phase N) :
    (s.goto p x).phase p = x := by
  simp only [goto, Function.update_self]

theorem goto_phase_of_ne (s : LockState N) {p q : Nat} (h : q ≠ p) (x : Phase N) :
    (s.goto p x).phase q = s.phase q := by
  simp only [goto, Function.update_of_ne h]

/-- One step of process `p`, where it can take it. -/
def step (dir : String) (s : LockState N) (p : Nat) (act : LockAct N) : Option (LockState N) :=
  match act, s.phase p with
  | .spawn, .away => some (s.goto p .idle)
  | .die, _ => some (s.goto p .away)
  | .acquire, .idle => some (s.goto p (Cache.acquire p s.file.read))
  | .answer live, .probing _ => some (s.goto p (if live then .idle else .taking))
  | .openFile, .taking => some { s.goto p (.writing ⟨p, dir, none⟩) with file := .torn }
  | .fill, .writing h => some { s.goto p .owner with file := .holder h }
  | .publish note, .owner => some (s.goto p (.noting (Cache.publish p dir s.file.read note)))
  | .openFile, .noting h => some { s.goto p (.publishing h) with file := .torn }
  | .fill, .publishing h => some { s.goto p .owner with file := .holder h }
  | .release, .owner => some (s.goto p (Cache.release p s.file.read))
  | .remove, .releasing => some { s.goto p .idle with file := .absent }
  | _, _ => none

/-- A schedule: which process takes which step, in order. -/
def run (dir : String) (s : LockState N) : List (Nat × LockAct N) → Option (LockState N)
  | [] => some s
  | (p, act) :: acts => (s.step dir p act).bind fun s => s.run dir acts

/-- A free or stale entry: no process has a call under way or a claim, whatever the
file says. -/
def Fresh (s : LockState N) : Prop := ∀ p, s.phase p = .away ∨ s.phase p = .idle

/-- At most one process is an owner. -/
def Exclusive (s : LockState N) : Prop :=
  ∀ p q, (s.phase p).owns = true → (s.phase q).owns = true → p = q

/-- A process about to remove the lock removes no other holder's. -/
def RemovesOwn (s : LockState N) : Prop :=
  ∀ p h, s.phase p = .releasing → s.file = .holder h → h.pid = p

/-! ## the missing check -/

/-- When `acquire` opens the file, it does not name another running process, and no
other process has it open. -/
def Clear (s : LockState N) (p : Nat) (act : LockAct N) : Prop :=
  act = .openFile → s.phase p = .taking →
    (∀ h, s.file = .holder h → h.pid = p ∨ s.phase h.pid = .away) ∧
    ∀ q, q ≠ p → (s.phase q).isWriting = false

/-- A schedule all of whose steps meet the condition. -/
def Quiet (dir : String) (s : LockState N) : List (Nat × LockAct N) → Prop
  | [] => True
  | (p, act) :: acts => s.Clear p act ∧ ∀ s', s.step dir p act = some s' → s'.Quiet dir acts

/-! ## what a step can do -/

/-- The process takes part: it has opened the file in `acquire`, or owns the entry. -/
def Takes (s : LockState N) (p : Nat) : Prop :=
  (s.phase p).owns = true ∨ (s.phase p).isWriting = true

/-- **The lock invariant.** -/
structure Held (s : LockState N) : Prop where
  /-- one process at most takes part -/
  alone : ∀ p q, s.Takes p → s.Takes q → p = q
  /-- an owner that does not have the file open is named there -/
  named : ∀ p, (s.phase p).owns = true → (s.phase p).isWriting = false →
    ∃ h, s.file = .holder h ∧ h.pid = p
  /-- what a process writes names itself -/
  content : ∀ p h, (s.phase p).content? = some h → h.pid = p

theorem Fresh.held {s : LockState N} (h : s.Fresh) : s.Held where
  alone p q hp _ := by
    obtain hx | hx := h p <;> simp [Takes, hx, Phase.owns, Phase.isWriting] at hp
  named p hp _ := by
    obtain hx | hx := h p <;> simp [hx, Phase.owns] at hp
  content p x hx := by
    obtain hy | hy := h p <;> simp [hy, Phase.content?] at hx

/-- A step that leaves the file alone and gives its process no new claim. -/
theorem Held.goto {s : LockState N} (h : s.Held) {p : Nat} {x : Phase N}
    (howns : x.owns = true → (s.phase p).owns = true ∧ (s.phase p).isWriting = false)
    (hwriting : x.isWriting = false) (hcontent : ∀ y, x.content? = some y → y.pid = p) :
    (s.goto p x).Held := by
  have htakes : ∀ q, (s.goto p x).Takes q → s.Takes q := by
    intro q hq
    by_cases hqp : q = p
    · subst hqp
      simp only [Takes, goto_phase_self, hwriting, Bool.false_eq_true, or_false] at hq
      exact .inl (howns hq).1
    · rwa [Takes, goto_phase_of_ne s hqp] at hq
  refine ⟨fun q q' hq hq' => h.alone q q' (htakes q hq) (htakes q' hq'), fun q hq hw => ?_,
    fun q y hy => ?_⟩
  all_goals
    by_cases hqp : q = p
    · subst hqp
      simp only [goto_phase_self] at *
      first
        | exact h.named q (howns hq).1 (howns hq).2
        | exact hcontent y hy
    · simp only [goto_phase_of_ne s hqp] at *
      first
        | exact h.named q hq hw
        | exact h.content q y hy

/-- A process that is alone with the file may write what it likes there, so long as
it is named in it if it is then an owner with the file closed. -/
theorem Held.write {s : LockState N} (h : s.Held) {p : Nat} (halone : ∀ q, s.Takes q → q = p)
    {x : Phase N} {file : LockFile N}
    (hnamed : x.owns = true → x.isWriting = false → ∃ y, file = .holder y ∧ y.pid = p)
    (hcontent : ∀ y, x.content? = some y → y.pid = p) :
    ({ s.goto p x with file } : LockState N).Held := by
  have htakes : ∀ q, ({ s.goto p x with file } : LockState N).Takes q → q = p := by
    intro q hq
    by_contra hqp
    exact hqp (halone q (by rwa [Takes, goto_phase_of_ne s hqp] at hq))
  refine ⟨fun q q' hq hq' => (htakes q hq).trans (htakes q' hq').symm, fun q hq hw => ?_,
    fun q y hy => ?_⟩
  · obtain rfl := htakes q (.inl hq)
    simp only [goto_phase_self] at hq hw
    exact hnamed hq hw
  · by_cases hqp : q = p
    · subst hqp
      simp only [goto_phase_self] at hy
      exact hcontent y hy
    · simp only [goto_phase_of_ne s hqp] at hy
      exact h.content q y hy

/-- **A clear step keeps the invariant.** -/
theorem Held.step {dir : String} {s s' : LockState N} {p : Nat} {act : LockAct N} (h : s.Held)
    (hclear : s.Clear p act) (hs : s.step dir p act = some s') : s'.Held := by
  -- an owner is alone with the file
  have hown : (s.phase p).owns = true → ∀ q, s.Takes q → q = p := fun hp q hq =>
    h.alone q p hq (.inl hp)
  unfold LockState.step at hs
  split at hs <;> cases hs
  · exact h.goto (by simp [Phase.owns]) rfl (by simp [Phase.content?])
  · exact h.goto (by simp [Phase.owns]) rfl (by simp [Phase.content?])
  · have hphase : Cache.acquire p s.file.read = .taking ∨
        ∃ y, Cache.acquire p s.file.read = .probing y := by
      unfold Cache.acquire
      split
      · split
        · exact .inr ⟨_, rfl⟩
        · exact .inl rfl
      · exact .inl rfl
    obtain hx | ⟨y, hx⟩ := hphase
    all_goals
      rw [hx]
      exact h.goto (by simp [Phase.owns]) rfl (by simp [Phase.content?])
  · next live y hp =>
    cases live
    all_goals exact h.goto (by simp [Phase.owns]) rfl (by simp [Phase.content?])
  · next hp =>
    -- the file names no other running process and no other has it open: nobody takes part
    obtain ⟨hfile, hopen⟩ := hclear rfl hp
    refine h.write (fun q hq => ?_) (by simp [Phase.isWriting]) (by simp [Phase.content?])
    by_contra hqp
    have hw := hopen q hqp
    have hq := hq.resolve_right (by simp [hw])
    obtain ⟨y, hy, rfl⟩ := h.named q hq hw
    obtain heq | haway := hfile y hy
    · exact hqp heq
    · simp [haway, Phase.owns] at hq
  · next y hp =>
    have htakes : s.Takes p := .inr (by rw [hp]; rfl)
    have hy : y.pid = p := h.content p y (by rw [hp]; rfl)
    exact h.write (fun q hq => h.alone q p hq htakes) (fun _ _ => ⟨y, rfl, hy⟩)
      (by simp [Phase.content?])
  · next note hp =>
    refine h.goto (fun _ => ?_) rfl fun y hy => ?_
    · rw [hp]
      exact ⟨rfl, rfl⟩
    · obtain rfl := Option.some.inj hy
      rfl
  · next y hp =>
    have hy : y.pid = p := h.content p y (by rw [hp]; rfl)
    refine h.write (hown (by rw [hp]; rfl)) (by simp [Phase.isWriting]) fun z hz => ?_
    obtain rfl := Option.some.inj hz
    exact hy
  · next y hp =>
    have hy : y.pid = p := h.content p y (by rw [hp]; rfl)
    exact h.write (hown (by rw [hp]; rfl)) (fun _ _ => ⟨y, rfl, hy⟩) (by simp [Phase.content?])
  · next hp =>
    have hphase : Cache.release p s.file.read = .releasing ∨
        Cache.release p s.file.read = .idle := by
      unfold Cache.release
      split
      · split
        · exact .inl rfl
        · exact .inr rfl
      · exact .inr rfl
    obtain hx | hx := hphase
    · rw [hx]
      refine h.goto (fun _ => ?_) rfl (by simp [Phase.content?])
      rw [hp]
      exact ⟨rfl, rfl⟩
    · rw [hx]
      exact h.goto (by simp [Phase.owns]) rfl (by simp [Phase.content?])
  · next hp =>
    exact h.write (hown (by rw [hp]; rfl)) (by simp [Phase.owns]) (by simp [Phase.content?])

theorem Held.run {dir : String} {acts : List (Nat × LockAct N)} {s s' : LockState N} (h : s.Held)
    (hquiet : s.Quiet dir acts) (hs : s.run dir acts = some s') : s'.Held := by
  induction acts generalizing s with
  | nil => exact Option.some.inj hs ▸ h
  | cons x acts ih =>
    obtain ⟨p, act⟩ := x
    obtain ⟨s₁, hstep, hrun⟩ := Option.bind_eq_some_iff.mp hs
    exact ih (h.step hquiet.1 hstep) (hquiet.2 s₁ hstep) hrun

/-- **Mutual exclusion.** Whatever the schedule of any number of processes over a
free or stale entry: if no `acquire` opens the file while it names another running
process or another has it open, then at most one process is an owner, and a
process that is about to remove the lock removes no other holder's. -/
theorem mutual_exclusion {dir : String} {acts : List (Nat × LockAct N)} {s s' : LockState N}
    (h : s.Fresh) (hquiet : s.Quiet dir acts) (hs : s.run dir acts = some s') :
    s'.Exclusive ∧ s'.RemovesOwn := by
  have hheld := h.held.run hquiet hs
  refine ⟨fun p q hp hq => hheld.alone p q (.inl hp) (.inl hq), fun p y hp hy => ?_⟩
  obtain ⟨z, hz, hpid⟩ := hheld.named p (by rw [hp]; rfl) (by rw [hp]; rfl)
  obtain rfl := LockFile.holder.inj (hy.symm.trans hz)
  exact hpid

theorem clear_of_ne {s : LockState N} {p : Nat} {act : LockAct N} (h : act ≠ .openFile) :
    s.Clear p act := fun hact => absurd hact h

theorem clear_of_phase {s : LockState N} {p : Nat} {act : LockAct N} (h : s.phase p ≠ .taking) :
    s.Clear p act := fun _ hphase => absurd hphase h

theorem quiet_of_step {dir : String} {s s' : LockState N} {p : Nat} {act : LockAct N}
    {acts : List (Nat × LockAct N)} (hclear : s.Clear p act) (hs : s.step dir p act = some s')
    (hrest : s'.Quiet dir acts) : s.Quiet dir ((p, act) :: acts) := by
  refine ⟨hclear, fun t ht => ?_⟩
  obtain rfl := Option.some.inj (hs.symm.trans ht)
  exact hrest

/-- An entry nobody has taken yet. -/
def free : LockState N := ⟨.absent, fun _ => .idle⟩

theorem fresh_free : (free : LockState N).Fresh := fun _ => .inr rfl

/-- Process 1 owns the entry and publishes a note, 2 is denied, and takes the entry
once 1 has released it. -/
theorem mutual_exclusion_handover :
    let acts := [(1, .acquire), (1, .openFile), (1, .fill), (2, .acquire), (1, .publish "%3"),
      (1, .openFile), (1, .fill), (2, .answer true), (1, .release), (1, .remove), (2, .acquire),
      (2, .openFile), (2, .fill)]
    ∃ s, (free : LockState String).run "entry" acts = some s ∧ s.phase 2 = .owner ∧
      s.file = .holder ⟨2, "entry", none⟩ ∧ s.Exclusive ∧ s.RemovesOwn := by
  intro acts
  have hquiet : (free : LockState String).Quiet "entry" acts := by
    have hfirst : ∀ q, q ≠ 1 → (((free : LockState String).goto 1 .taking).phase q).isWriting =
        false := by
      intro q hq
      rw [goto_phase_of_ne _ hq]
      rfl
    -- only the two `openFile` of an `acquire` ask for anything
    refine quiet_of_step (clear_of_ne nofun) rfl ?_
    refine quiet_of_step (fun _ _ => ⟨nofun, hfirst⟩) rfl ?_
    iterate 3 refine quiet_of_step (clear_of_ne nofun) rfl ?_
    refine quiet_of_step (clear_of_phase nofun) rfl ?_
    iterate 5 refine quiet_of_step (clear_of_ne nofun) rfl ?_
    refine quiet_of_step (fun _ _ => ⟨nofun, fun q hq => ?_⟩) rfl ?_
    · by_cases h : q = 1
      · rw [h]
        rfl
      · simp only [goto_phase_of_ne _ hq, goto_phase_of_ne _ h]
        rfl
    · exact quiet_of_step (clear_of_ne nofun) rfl trivial
  obtain ⟨s, hs, hphase, hfile⟩ : ∃ s, (free : LockState String).run "entry" acts = some s ∧
      s.phase 2 = .owner ∧ s.file = .holder ⟨2, "entry", none⟩ := ⟨_, rfl, rfl, rfl⟩
  exact ⟨s, hs, hphase, hfile, mutual_exclusion fresh_free hquiet hs⟩

/-- **Two owners.** Both processes read a free entry before either writes, and both
are told that it is theirs; and the first, releasing after it has read its own name
and the second has written, removes the second's lock. -/
theorem racing_owners :
    (∃ s, (free : LockState String).run "entry"
        [(1, .acquire), (2, .acquire), (1, .openFile), (1, .fill), (2, .openFile), (2, .fill)] =
          some s ∧ ¬s.Exclusive) ∧
    ∃ s, (free : LockState String).run "entry"
        [(1, .acquire), (2, .acquire), (1, .openFile), (1, .fill), (1, .release), (2, .openFile),
          (2, .fill)] = some s ∧ ¬s.RemovesOwn := by
  refine ⟨⟨_, rfl, fun h => ?_⟩, ⟨_, rfl, fun h => ?_⟩⟩
  · exact absurd (h 1 2 rfl rfl) (by decide)
  · exact absurd (h 1 ⟨2, "entry", none⟩ rfl rfl) (by decide)

end LockState

end ClaudeReplay.Cache
