import ClaudeReplay.Jdi.Backlog
import ClaudeReplay.Lib.Cut
import ClaudeReplay.Text
import Std.Data.String.ToInt

/-!
# ClaudeReplay.Jdi.Supervisor

The retry loop of a supervised session: `run_loop_body`, one turn after the other.

What a turn came to is given by a `TurnResult`: its exit code, what it printed, and what is
read after it, each read where the code makes it. `classify` settles from it what the turn was,
and the loop keeps four counts beside: the attempts, the failures that were alike, the retries
that changed nothing, and the drain cycles. `Loop.step` is one turn, `Supervision.ran` a run of
them.

The queue that `claim` reads, and what may go wrong there, are in `ClaudeReplay.Jdi.Backlog`;
`step_worker` and `stop_worker` say that the loop does with it what the worker there does.
-/

namespace ClaudeReplay.Jdi

open Lib

/-! ## the task queue and the checklist -/

/-- A task of the native queue. -/
structure QueueTask where
  id : String
  status : String
  blockedBy : List String
  source : String
  deriving DecidableEq, Repr

namespace QueueTask

def parked (t : QueueTask) : Bool :=
  t.status = "deferred" || t.status = "paused" || t.status = "parked"

/-- Open, not parked, and not behind a task of its own directory that is not completed. -/
def actionable (t : QueueTask) (all : List QueueTask) : Bool :=
  if t.status = "completed" || t.parked then false
  else !t.blockedBy.any fun b =>
    all.any fun o => o.source = t.source && o.id = b && o.status ≠ "completed"

def actionableCount (ts : List QueueTask) : Nat := (ts.filter fun t => t.actionable ts).length

end QueueTask

/-- `open_checklist_items`, of the file's text. -/
def openChecklistItems (text : List Char) : Nat :=
  (strLines text).countP fun l =>
    let t := l.dropWhile isWhitespace
    ("- [".toList.isPrefixOf t || "* [".toList.isPrefixOf t) &&
      (t.drop 3).head? = some ' ' &&
      ((t.drop 3).dropWhile isWhitespace).head? = some ']'

/-! ## a turn -/

/-- What a turn came back with, and what is read after it. -/
structure TurnResult where
  rc : Int
  capture : List Char
  /-- the session id that Codex assigned, if it can be found -/
  assigned : Option String
  /-- the task queue when the turn is classified -/
  tasks : Option (List QueueTask)
  checklist : Option (List Char)
  /-- the task queue when the fingerprint is taken -/
  tasksAfter : Option (List QueueTask)
  /-- `git rev-parse HEAD` -/
  head : Option String
  /-- `git status --porcelain` -/
  dirty : Option String
  /-- what the backlog's `claim` returns -/
  claimed : List (Nat × String)

/-- `DefaultHasher`, of what is fed to it. -/
structure Hashing where
  tasks : List (String × String × String) → UInt64
  state : Option UInt64 × Option String × Option String → UInt64

def UNRECOVERABLE : List (List Char) :=
  ["\"type\":\"authentication_error\"".toList,
    "\"type\":\"permission_error\"".toList,
    "\"type\":\"invalid_request_error\"".toList,
    "\"type\":\"billing_error\"".toList,
    "\"type\":\"not_found_error\"".toList,
    "invalid_api_key".toList,
    "invalid x-api-key".toList,
    "Credit balance is too low".toList,
    "prompt is too long".toList]

namespace TurnResult

/-- The tasks still open: of the queue, or else of the checklist. -/
def openTasks (r : TurnResult) : Option Nat :=
  (r.tasks.map QueueTask.actionableCount).or (r.checklist.map openChecklistItems)

/-- The result as `Agent.classify` reads it. -/
def ended (r : TurnResult) (goesOn : Bool) : TurnEnd where
  rc := r.rc
  openTasks := r.openTasks
  noConversation := occurs "No conversation found".toList r.capture
  unrecoverable := UNRECOVERABLE.any fun needle => occurs needle r.capture
  goesOn := goesOn

end TurnResult

namespace Agent

def captureSessionId : Agent → TurnResult → Option String
  | .claude, _ => none
  | .codex, r => r.assigned

/-- The fingerprint of the task queue. Codex has none. -/
def tasksFingerprint (hash : Hashing) : Agent → TurnResult → Option UInt64
  | .claude, r => r.tasksAfter.map fun ts => hash.tasks (ts.map fun t => (t.source, t.id, t.status))
  | .codex, _ => none

end Agent

/-- `state_fingerprint`: nothing where nothing can be measured. -/
def stateFingerprint (hash : Hashing) (agent : Agent) (r : TurnResult) : Option UInt64 :=
  let tasksFp := agent.tasksFingerprint hash r
  if tasksFp.isNone && r.head.isNone then none
  else some (hash.state (tasksFp, r.head, r.dirty))

/-- The last of what was printed, without its digits, from the end. -/
def failureTail (capture : List Char) : List Char :=
  ((capture.filter fun c => !c.isDigit).reverse).take 600

/-- `failure_signature`. -/
def failureSignature (rc : Int) (capture : List Char) : List Char :=
  (toString rc).toList ++ ':' :: failureTail capture

/-! ## the loop -/

/-- What the loop reads of `meta` before its first turn, and what it claims then. -/
structure Settings where
  agent : Agent
  sessionId : String
  maxAttempts : Nat
  mode : Mode
  resumed : Bool
  claimed : List (Nat × String)
  maxAttempts_lt : maxAttempts < 2 ^ 32

/-- The two guards of `Retry`, each with what it compares with. -/
structure Guards where
  identicalFailures : Nat
  lastFailure : List Char
  noProgress : Nat
  lastStateFp : Option UInt64
  deriving DecidableEq, Repr

/-- The loop between two turns. -/
structure Loop where
  mode : Mode
  sessionId : String
  sessionCreated : Bool
  fresh : Bool
  attempt : Nat
  backlog : List (Nat × String)
  draining : Bool
  drainCycles : Nat
  guards : Guards
  deriving DecidableEq, Repr

/-- How the loop ends, with the exit code where it writes one. -/
inductive Stop
  /-- the turn could not be run -/
  | broken
  | noSessionId
  | done
  | stopped (code : Int)
  | failed (code : Int)
  | gaveUp (code : Int)
  | idle (code : Int)
  | blocked (code : Int)
  deriving DecidableEq, Repr

namespace Guards

/-- `MAX_IDENTICAL_FAILURES`. -/
def maxIdenticalFailures : Nat := 3

/-- `MAX_NO_PROGRESS`. -/
def maxNoProgress : Nat := 2

/-- The fingerprint after a `Retry` turn is compared with the one before. -/
def measure (g : Guards) (fp : Option UInt64) : Guards :=
  if fp.isSome ∧ fp = g.lastStateFp then { g with noProgress := g.noProgress + 1 }
  else { g with noProgress := 0, lastStateFp := fp }

/-- The signature of a `Retry` turn is compared with the last one. -/
def sign (g : Guards) (sig : List Char) : Guards :=
  if sig = g.lastFailure then { g with identicalFailures := g.identicalFailures + 1 }
  else { g with identicalFailures := 1, lastFailure := sig }

/-- Another remedy is tried, or a mode is through. -/
def forgive (g : Guards) : Guards := { g with identicalFailures := 0 }

end Guards

/-- A turn, as the log of a run has it. Nothing is known of how a turn came out that could not
be run, or whose session has no id. -/
structure Round where
  phase : Nat
  outcome : Option TurnOutcome
  fp : Option UInt64
  sig : List Char
  deriving DecidableEq, Repr

namespace Settings

def draining (s : Settings) : Bool := s.mode = .backlogDump || s.mode = .backlogExecute

/-- `run_loop_body` up to its loop. -/
def started (s : Settings) : Loop where
  mode := s.mode
  sessionId := s.sessionId
  sessionCreated := s.resumed
  fresh := s.mode = .start
  attempt := 0
  backlog := if s.draining then s.claimed else []
  draining := s.draining
  drainCycles := 0
  guards := ⟨0, [], 0, none⟩

end Settings

namespace Loop

/-- The session's id after a fresh turn. -/
def learned (s : Settings) (l : Loop) (r : TurnResult) : Option String :=
  if l.sessionId = "" then s.agent.captureSessionId r else some l.sessionId

/-- One attempt more. The count is a `u32`. -/
def tried (l : Loop) : Loop := { l with attempt := (l.attempt + 1) % 2 ^ 32 }

/-- A turn came back: the loop as the turn is classified in it. -/
def returned (s : Settings) (l : Loop) (r : TurnResult) : Option Loop :=
  if l.fresh then
    (l.learned s r).map fun id =>
      { l.tried with
        sessionId := id, mode := s.agent.continueMode, fresh := false, sessionCreated := true }
  else some { l.tried with sessionCreated := true }

/-- The outcome of a turn. -/
def outcome (s : Settings) (l : Loop) (r : TurnResult) : Option TurnOutcome :=
  (l.returned s r).map fun l => s.agent.classify (r.ended true) l.mode

/-- The arm of `Done`: the next cycle, if there is something to drain. -/
def drain (s : Settings) (l : Loop) (claimed : List (Nat × String)) : Except Stop Loop :=
  if claimed ≠ [] ∧ l.drainCycles < Backlog.maxDrainCycles then
    .ok { l with
      drainCycles := l.drainCycles + 1, backlog := claimed,
      mode := s.agent.initialMode .backlogDrain, draining := true, fresh := false, attempt := 0 }
  else .error .done

/-- The attempts are spent. -/
def Spent (s : Settings) (l : Loop) : Prop := 0 < s.maxAttempts ∧ s.maxAttempts ≤ l.attempt

instance (s : Settings) (l : Loop) : Decidable (l.Spent s) :=
  inferInstanceAs (Decidable (_ ∧ _))

/-- The arm of `Retry`. -/
def retry (s : Settings) (l : Loop) (rc : Int) (fp : Option UInt64) (sig : List Char) :
    Except Stop Loop :=
  if l.Spent s then .error (.gaveUp rc)
  else if Guards.maxNoProgress ≤ (l.guards.measure fp).noProgress then .error (.idle rc)
  else if Guards.maxIdenticalFailures ≤ ((l.guards.measure fp).sign sig).identicalFailures then
    .error (.blocked rc)
  else .ok { l with guards := (l.guards.measure fp).sign sig }

/-- What the loop does on an outcome. It has an arm for `GaveUp` too, which no adapter returns. -/
def follow (s : Settings) (hash : Hashing) (l : Loop) (r : TurnResult) :
    TurnOutcome → Except Stop Loop
  | .done => l.drain s r.claimed
  | .advanceMode next =>
    .ok { l with mode := next, attempt := l.attempt - 1, guards := l.guards.forgive }
  | .recreateSession => .ok { l with sessionCreated := false, guards := l.guards.forgive }
  | .stopped code => .error (.stopped code)
  | .failed code => .error (.failed code)
  | .retry => l.retry s r.rc (stateFingerprint hash s.agent r) (failureSignature r.rc r.capture)

/-- One turn of the loop. `none` is a turn that could not be run. -/
def step (s : Settings) (hash : Hashing) (l : Loop) : Option TurnResult → Except Stop Loop
  | none => .error .broken
  | some r =>
    match l.returned s r with
    | none => .error .noSessionId
    | some l => l.follow s hash r (s.agent.classify (r.ended true) l.mode)

/-- The turn, for the log. -/
def round (s : Settings) (hash : Hashing) (l : Loop) : Option TurnResult → Round
  | none => ⟨l.drainCycles, none, none, []⟩
  | some r =>
    ⟨l.drainCycles, l.outcome s r, stateFingerprint hash s.agent r, failureSignature r.rc r.capture⟩

end Loop

/-! ## what a turn does -/

namespace Mode

/-- The modes whose turns only plan. -/
def plans : Mode → Bool
  | .resumeDump | .backlogDump => true
  | .start | .execute | .resumeExecute | .backlogExecute => false

end Mode

/-- Only a turn that plans advances, and to one that does not. -/
theorem Agent.plans_of_classify {agent : Agent} {e : TurnEnd} {mode next : Mode}
    (h : agent.classify e mode = .advanceMode next) : mode.plans = true ∧ next.plans = false := by
  cases agent with
  | codex => grind [Agent.classify]
  | claude => cases mode <;> grind [Agent.classify, Mode.plans]

namespace Loop

variable {s : Settings} {hash : Hashing} {l u l' : Loop} {r : TurnResult} {x : Option TurnResult}

/-- The mode a turn is classified in. -/
def turnMode (s : Settings) (l : Loop) : Mode := if l.fresh then s.agent.continueMode else l.mode

theorem returned_eq_some (h : l.returned s r = some u) :
    ∃ id, u = { l.tried with
      sessionId := id, mode := l.turnMode s, fresh := false, sessionCreated := true } := by
  unfold returned at h
  split at h
  · next hfresh =>
    obtain ⟨id, -, rfl⟩ := Option.map_eq_some_iff.mp h
    exact ⟨id, by simp [turnMode, hfresh]⟩
  · next hfresh =>
    obtain rfl := Option.some.inj h
    exact ⟨l.sessionId, by simp [turnMode, tried, hfresh]⟩

/-- A turn that is classified, with the loop it is classified in. -/
theorem step_of_outcome {o : TurnOutcome} (h : (l.round s hash x).outcome = some o) :
    ∃ r id, x = some r ∧ s.agent.classify (r.ended true) (l.turnMode s) = o ∧
      l.step s hash x = follow s hash { l.tried with
        sessionId := id, mode := l.turnMode s, fresh := false, sessionCreated := true } r o := by
  cases x with
  | none => simp [round] at h
  | some r =>
    obtain ⟨u, hu, ho⟩ := Option.map_eq_some_iff.mp h
    obtain ⟨id, rfl⟩ := returned_eq_some hu
    exact ⟨r, id, rfl, ho, by simp only [step, hu, ho]⟩

/-- A turn without an outcome ends the loop. -/
theorem step_of_no_outcome (h : (l.round s hash x).outcome = none) :
    l.step s hash x = .error .broken ∨ l.step s hash x = .error .noSessionId := by
  cases x with
  | none => exact .inl rfl
  | some r =>
    have hr : l.returned s r = none := Option.map_eq_none_iff.mp h
    exact .inr (by simp only [step, hr])

/-- What goes on, and from where: the four outcomes after which there is another turn. -/
inductive Onward (s : Settings) (l : Loop) (t : Round) (l' : Loop) : Prop
  | drained (outcome : t.outcome = some .done) (phase : l'.drainCycles = l.drainCycles + 1)
      (attempt : l'.attempt = 0) (guards : l'.guards = l.guards)
  | advanced (next : Mode) (outcome : t.outcome = some (.advanceMode next))
      (phase : l'.drainCycles = l.drainCycles) (attempt : l'.attempt = l.tried.attempt - 1)
      (guards : l'.guards = l.guards.forgive) (planned : (l.turnMode s).plans = true)
      (mode : (l'.turnMode s).plans = false)
  | recreated (outcome : t.outcome = some .recreateSession)
      (phase : l'.drainCycles = l.drainCycles) (attempt : l'.attempt = l.tried.attempt)
      (guards : l'.guards = l.guards.forgive) (mode : l'.turnMode s = l.turnMode s)
  | retried (outcome : t.outcome = some .retry) (phase : l'.drainCycles = l.drainCycles)
      (attempt : l'.attempt = l.tried.attempt) (unspent : ¬ l.tried.Spent s)
      (guards : l'.guards = (l.guards.measure t.fp).sign t.sig)
      (progress : (l.guards.measure t.fp).noProgress < Guards.maxNoProgress)
      (failures : l'.guards.identicalFailures < Guards.maxIdenticalFailures)
      (mode : l'.turnMode s = l.turnMode s)

theorem step_ok (h : l.step s hash x = .ok l') : Onward s l (l.round s hash x) l' := by
  cases ho : (l.round s hash x).outcome with
  | none =>
    obtain hb | hb := step_of_no_outcome ho <;> rw [hb] at h <;> contradiction
  | some o =>
    obtain ⟨r, id, rfl, hclass, hstep⟩ := step_of_outcome ho
    rw [hstep] at h
    cases o with
    | done =>
      simp only [follow, drain] at h
      split at h
      · obtain rfl := Except.ok.inj h
        exact .drained ho rfl rfl rfl
      · contradiction
    | advanceMode next =>
      obtain rfl := Except.ok.inj h
      obtain ⟨hplanned, hnext⟩ := Agent.plans_of_classify hclass
      exact .advanced next ho rfl rfl rfl hplanned hnext
    | recreateSession =>
      obtain rfl := Except.ok.inj h
      exact .recreated ho rfl rfl rfl rfl
    | stopped code => contradiction
    | failed code => contradiction
    | retry =>
      simp only [follow, retry] at h
      split at h
      · contradiction
      · next hspent =>
        split at h
        · contradiction
        · next hprogress =>
          split at h
          · contradiction
          · next hfailures =>
            obtain rfl := Except.ok.inj h
            exact .retried ho rfl rfl hspent rfl (Nat.lt_of_not_le hprogress)
              (Nat.lt_of_not_le hfailures) rfl

theorem retry_idle_iff {code : Int} {fp : Option UInt64} {sig : List Char} :
    (∃ c, l.retry s code fp sig = .error (.idle c)) ↔
      ¬ l.Spent s ∧ Guards.maxNoProgress ≤ (l.guards.measure fp).noProgress := by
  unfold retry
  split_ifs with hspent hprogress hfailures <;> simp [hspent] <;> omega

theorem retry_blocked_iff {code : Int} {fp : Option UInt64} {sig : List Char} :
    (∃ c, l.retry s code fp sig = .error (.blocked c)) ↔
      ¬ l.Spent s ∧ (l.guards.measure fp).noProgress < Guards.maxNoProgress ∧
        Guards.maxIdenticalFailures ≤ ((l.guards.measure fp).sign sig).identicalFailures := by
  unfold retry
  split_ifs with hspent hprogress hfailures <;> simp [hspent] <;> omega

/-- A `Retry` turn comes to the guards, as they were before it. -/
theorem step_of_retry (h : (l.round s hash x).outcome = some .retry) :
    ∃ code, ∃ u : Loop, u.attempt = l.tried.attempt ∧ u.guards = l.guards ∧ l.step s hash x =
      u.retry s code (l.round s hash x).fp (l.round s hash x).sig := by
  obtain ⟨r, id, rfl, -, hstep⟩ := step_of_outcome h
  refine ⟨r.rc, _, ?_, ?_, hstep⟩
  · rfl
  · rfl

/-- Only they stop the loop as idle or blocked. -/
theorem retry_of_step {e : Stop} (h : l.step s hash x = .error e)
    (he : ∃ code, e = .idle code ∨ e = .blocked code) :
    (l.round s hash x).outcome = some .retry := by
  obtain ⟨code, he⟩ := he
  cases ho : (l.round s hash x).outcome with
  | none => obtain hb | hb := step_of_no_outcome ho <;> grind
  | some o =>
    obtain ⟨r, id, rfl, -, hstep⟩ := step_of_outcome ho
    rw [hstep] at h
    cases o with
    | retry => rfl
    | done =>
      simp only [follow, drain] at h
      split at h <;> grind
    | _ => simp only [follow] at h; grind

theorem step_idle_iff : (∃ code, l.step s hash x = .error (.idle code)) ↔
    (l.round s hash x).outcome = some .retry ∧ ¬ l.tried.Spent s ∧
      Guards.maxNoProgress ≤ (l.guards.measure (l.round s hash x).fp).noProgress := by
  by_cases ho : (l.round s hash x).outcome = some .retry
  · obtain ⟨code, u, hattempt, hguards, hstep⟩ := step_of_retry ho
    have hspent : u.Spent s ↔ l.tried.Spent s := by simp only [Spent, hattempt]
    rw [hstep, retry_idle_iff, hspent, hguards]
    simp [ho]
  · have hne : ¬ ∃ code, l.step s hash x = .error (.idle code) := by
      rintro ⟨code, h⟩
      exact ho (retry_of_step h ⟨code, .inl rfl⟩)
    simp [hne, ho]

theorem step_blocked_iff : (∃ code, l.step s hash x = .error (.blocked code)) ↔
    (l.round s hash x).outcome = some .retry ∧ ¬ l.tried.Spent s ∧
      (l.guards.measure (l.round s hash x).fp).noProgress < Guards.maxNoProgress ∧
      Guards.maxIdenticalFailures ≤ ((l.guards.measure (l.round s hash x).fp).sign
        (l.round s hash x).sig).identicalFailures := by
  by_cases ho : (l.round s hash x).outcome = some .retry
  · obtain ⟨code, u, hattempt, hguards, hstep⟩ := step_of_retry ho
    have hspent : u.Spent s ↔ l.tried.Spent s := by simp only [Spent, hattempt]
    rw [hstep, retry_blocked_iff, hspent, hguards]
    simp [ho]
  · have hne : ¬ ∃ code, l.step s hash x = .error (.blocked code) := by
      rintro ⟨code, h⟩
      exact ho (retry_of_step h ⟨code, .inr rfl⟩)
    simp [hne, ho]

/-! ## the worker of the queue -/

/-- The loop as the backlog's processes see it. -/
def worker (s : Settings) (l : Loop) : Worker where
  agent := s.agent
  mode := l.mode
  fresh := l.fresh
  draining := l.draining
  cycles := l.drainCycles
  backlog := l.backlog
  place := .ready

/-- A turn after which the loop goes on is the worker's turn, and behind a `Done` its next claim. -/
theorem step_worker (h : l.step s hash (some r) = .ok l') :
    ∃ w, (l.worker s).turned (r.ended true) = some w ∧
      (w.place = .ready ∧ w = l'.worker s ∨
        w.place ≠ .ready ∧ w.resumed false r.claimed = some (l'.worker s)) := by
  cases ho : (l.round s hash (some r)).outcome with
  | none =>
    obtain hb | hb := step_of_no_outcome ho <;> rw [hb] at h <;> contradiction
  | some o =>
    obtain ⟨_, id, ⟨⟩, hclass, hstep⟩ := step_of_outcome ho
    rw [hstep] at h
    have hturn : (l.worker s).agent.classify (r.ended true) (l.worker s).turnMode = o := hclass
    simp only [Worker.turned, hturn]
    cases o with
    | done =>
      simp only [follow, drain] at h
      split at h
      · next hmore =>
        obtain rfl := Except.ok.inj h
        exact ⟨_, rfl, .inr ⟨by dsimp only; split <;> simp, if_pos hmore⟩⟩
      · contradiction
    | advanceMode | recreateSession =>
      obtain rfl := Except.ok.inj h
      exact ⟨_, rfl, .inl ⟨rfl, rfl⟩⟩
    | stopped | failed => contradiction
    | retry =>
      simp only [follow, retry] at h
      split_ifs at h
      obtain rfl := Except.ok.inj h
      exact ⟨_, rfl, .inl ⟨rfl, rfl⟩⟩

/-- A classified turn that ends the loop ends the worker, or leaves it nothing to claim. -/
theorem stop_worker {e : Stop} (h : l.step s hash (some r) = .error e) (he : e ≠ .noSessionId) :
    (l.worker s).turned (r.ended false) = none ∨
      ∃ w, (l.worker s).turned (r.ended false) = some w ∧ w.place ≠ .ready ∧
        w.resumed false r.claimed = none := by
  cases ho : (l.round s hash (some r)).outcome with
  | none =>
    have hr : l.returned s r = none := Option.map_eq_none_iff.mp ho
    simp only [step, hr] at h
    grind
  | some o =>
    obtain ⟨_, id, ⟨⟩, hclass, hstep⟩ := step_of_outcome ho
    rw [hstep] at h
    have hturn : (l.worker s).agent.classify (r.ended false) (l.worker s).turnMode = o := hclass
    simp only [Worker.turned, hturn]
    cases o with
    | done =>
      simp only [follow, drain] at h
      split at h
      · contradiction
      · next hmore => exact .inr ⟨_, rfl, by dsimp only; split <;> simp, if_neg hmore⟩
    | advanceMode | recreateSession => contradiction
    | stopped | failed | retry => exact .inl rfl

end Loop

/-! ## runs -/

/-- A run so far: its turns, newest first, and where it is or how it ended. -/
structure Supervision where
  turns : List Round
  loop : Except Stop Loop

namespace Supervision

/-- One turn, unless the loop has ended. -/
def next (s : Settings) (hash : Hashing) (v : Supervision) (r : Option TurnResult) :
    Supervision :=
  match v.loop with
  | .ok l => ⟨l.round s hash r :: v.turns, l.step s hash r⟩
  | .error x => ⟨v.turns, .error x⟩

/-- The run after `k` turns, if there are so many. -/
def ran (s : Settings) (hash : Hashing) (rs : Nat → Option TurnResult) : Nat → Supervision
  | 0 => ⟨[], .ok s.started⟩
  | k + 1 => (ran s hash rs k).next s hash (rs k)

end Supervision

end ClaudeReplay.Jdi
