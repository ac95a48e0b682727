import ClaudeReplay.Lib.Table

/-!
# ClaudeReplay.Linking.Procs

The two tables that the monitor's index compares: the agent processes of the machine, and
the sessions whose transcripts it has found.

A process says which session it runs in three ways: by its own verified record, by its
argv, and by the transcript it holds open. `owners` collects the sessions it names so.
The other ways of linking a session to a process are guesses, which start from where the
process runs (`growthCandidates`) and which directories several agents share
(`matchingScope`).

Of a process's argv and environment only the answers of the pure functions that read them
are kept, and of a row the fields that a link depends on.
-/

namespace ClaudeReplay.Linking

open Lib

inductive Agent
  | claude | codex | qoderwork | qoder | qwenwork | antigravity
  deriving DecidableEq

/-- A session's id, the stem of its transcript. -/
abbrev Sid := String

abbrev Pid := Nat

/-- A directory, and a transcript's path. -/
abbrev Dir := String

abbrev Path := String

/-! ## what a process says -/

/-- `claude_registry::Identity`: the session that a process's own record names, once the
record is verified against its pid and start. -/
inductive Identity
  | missing
  | verified (session : Sid)
  /-- A parked record, and where its conversation went on. -/
  | continued (source session : Sid)
  deriving DecidableEq

namespace Identity

def session : Identity → Option Sid
  | verified session | continued _ session => some session
  | missing => none

/-- The verified file's identity, before any continuation. -/
def recordedSession : Identity → Option Sid
  | verified session => some session
  | continued source _ => some source
  | missing => none

/-- Whether this process may be the one writing `sid`: anything without a record may. -/
def permits (i : Identity) (sid : Sid) : Bool := i.session.all (· == sid)

end Identity

/-- A session as an argv names it: whole, or by its first characters. -/
inductive SessionRef
  | exact (id : Sid)
  | headed (start : String)
  deriving DecidableEq

/-- The record's word that the conversation was parked in a background job. -/
structure Parked where
  session : Sid
  job : String
  deriving DecidableEq

/-- One process. `birth` is the moment it really started, which the monitor never reads:
it tells two processes apart that had one pid. -/
structure Proc where
  pid : Pid
  birth : Nat
  native : Identity
  /-- `argv_session_ref`. -/
  argvRef : Option SessionRef
  /-- `proc_agent`: the agent its executable is, if that is known. -/
  agent : Option Agent
  /-- `is_agent_exe`. -/
  agentExe : Bool
  /-- `is_helper`. -/
  helper : Bool
  /-- `argv_says_one_shot`. -/
  argvOneShot : Bool
  /-- `codex_headless`. -/
  codexHeadless : Bool
  /-- Its own record says it is an interactive launch. -/
  cliLaunch : Bool
  attachClient : Bool
  cwd : Option Dir
  openJsonl : List Path
  tty : Bool
  /-- How `Terminal::of` says it is hosted: 2 in a multiplexer, 1 on a tty, 0 detached. -/
  rank : Nat
  started : Option Nat
  parked : Option Parked
  deriving DecidableEq

namespace Proc

/-- `session_ref`: the session its verified record names, else the one its argv names. -/
def sessionRef (p : Proc) : Option SessionRef := (p.native.session.map .exact).or p.argvRef

/-- Whether the process can be driving a session of `agent`. -/
def serves (p : Proc) (agent : Agent) : Bool := p.agent.all (· == agent)

def oneShot (p : Proc) : Bool :=
  match p.agent with
  | some .codex => p.codexHeadless
  | _ => !p.cliLaunch && p.argvOneShot

/-- The process is of no agent the monitor knows: it may be driving anybody's session. -/
def unclassified (p : Proc) : Bool := p.agent.isNone && !p.helper && !p.oneShot

theorem serves_iff {p : Proc} {agent : Agent} :
    p.serves agent = true ↔ ∀ a, p.agent = some a → a = agent := by
  cases h : p.agent <;> simp [serves, h]

/-- A process that serves two agents is of none that is known. -/
theorem agent_of_serves {p : Proc} {a b : Agent} (ha : p.serves a = true)
    (hb : p.serves b = true) (hab : a ≠ b) : p.agent = none := by
  cases h : p.agent with
  | none => rfl
  | some c => exact absurd ((serves_iff.mp ha c h).symm.trans (serves_iff.mp hb c h)) hab

/-- A process that runs `agent` in `/w`, without a record, a terminal or an open transcript. -/
def plain (pid : Pid) (agent : Agent) : Proc where
  pid := pid
  birth := 1
  native := .missing
  argvRef := none
  agent := some agent
  agentExe := true
  helper := false
  argvOneShot := false
  codexHeadless := false
  cliLaunch := false
  attachClient := false
  cwd := some "/w"
  openJsonl := []
  tty := false
  rank := 0
  started := none
  parked := none

end Proc

/-- The processes of one scan, each under its own pid. -/
structure ProcTable where
  procs : List Proc
  distinct : (procs.map (·.pid)).Nodup

namespace ProcTable

def byPid (t : ProcTable) (pid : Pid) : Option Proc := t.procs.find? (·.pid = pid)

/-- Whether some process's verified record names `sid`. -/
def recorded (t : ProcTable) (sid : Sid) : Bool := t.procs.any (·.native.session = some sid)

theorem byPid_eq_some {t : ProcTable} {pid : Pid} {p : Proc} :
    t.byPid pid = some p ↔ p ∈ t.procs ∧ p.pid = pid := by
  obtain ⟨procs, distinct⟩ := t
  simp only [byPid]
  induction procs with
  | nil => simp
  | cons q procs ih =>
    simp only [List.map_cons, List.nodup_cons] at distinct
    rw [List.find?_cons]
    by_cases hq : q.pid = pid
    · have : ∀ x ∈ procs, x.pid ≠ pid := by
        intro x hx heq
        exact distinct.1 (List.mem_map.mpr ⟨x, hx, heq.trans hq.symm⟩)
      grind
    · rw [decide_eq_false hq, ih distinct.2]
      grind

/-- One process has a pid. -/
theorem eq_of_pid {t : ProcTable} {p q : Proc} (hp : p ∈ t.procs) (hq : q ∈ t.procs)
    (h : p.pid = q.pid) : p = q := by
  have hp := byPid_eq_some.mpr ⟨hp, h⟩
  have hq := byPid_eq_some.mpr ⟨hq, rfl⟩
  exact Option.some.inj (hp.symm.trans hq)

end ProcTable

/-! ## the sessions -/

/-- Where a transcript says its conversation went on, and when. -/
structure Continuation where
  session : Sid
  movedAt : Nat
  deriving DecidableEq

/-- What the index keeps of a session between scans. -/
structure Row where
  path : Path
  agent : Agent
  cwd : Option Dir
  treeMtime : Option Nat
  firstEvent : Option Nat
  startProbed : Bool
  /-- The transcript's head says that a one-shot run wrote it. -/
  oneShot : Bool
  /-- The process this session was matched to by growth, and its directory at the time. -/
  provedPid : Option (Pid × Dir)
  continuedIn : Option Continuation
  /-- When growth was last observed. -/
  grewAt : Option Nat
  /-- The observation that was disqualified for attribution. -/
  invalidatedGrowth : Option Nat
  deriving DecidableEq

abbrev Rows := Table Sid Row

namespace Rows

/-- The sessions that have the characters `start` at their head. -/
def headed (rows : Rows) (start : String) : List Sid :=
  (rows.rows.map Prod.fst).filter fun sid => start.toList.isPrefixOf sid.toList

/-- `prefix_unique`. -/
def soleHeaded (rows : Rows) (start : String) : Bool := (rows.headed start).length = 1

/-- `resolve_session_ref`: the row a reference names, by its id or by a head only one has. -/
def resolve (rows : Rows) : SessionRef → Option Sid
  | .exact id => (rows.find? id).map fun _ => id
  | .headed start =>
    match rows.headed start with
    | [sid] => some sid
    | _ => none

/-- `process_names_session`: the process names `sid` by its record or its argv. -/
def names (rows : Rows) (p : Proc) (sid : Sid) : Bool :=
  match p.sessionRef with
  | some (.exact id) => id = sid
  | some (.headed start) => start.toList.isPrefixOf sid.toList && rows.soleHeaded start
  | none => false

/-- The rows whose transcript the process holds open and may be writing. -/
def heldBy (rows : Rows) (p : Proc) : List Sid :=
  (rows.rows.filter fun row => row.2.path ∈ p.openJsonl ∧ p.native.permits row.1).map Prod.fst

/-- `explicit_process_owners`, at one process. -/
def owners (rows : Rows) (p : Proc) : List Sid :=
  if p.agentExe then (p.sessionRef.bind rows.resolve).toList ++ rows.heldBy p else []

theorem mem_headed {rows : Rows} {start : String} {sid : Sid} :
    sid ∈ rows.headed start ↔
      (rows.find? sid).isSome = true ∧ start.toList.isPrefixOf sid.toList = true := by
  rw [headed, List.mem_filter]
  apply and_congr_left'
  rw [Option.isSome_iff_ne_none, ne_eq, Table.find?_eq_none_iff, not_not]

theorem mem_heldBy {rows : Rows} {p : Proc} {sid : Sid} :
    sid ∈ rows.heldBy p ↔
      ∃ row, rows.find? sid = some row ∧ row.path ∈ p.openJsonl ∧
        p.native.permits sid = true := by
  simp only [heldBy, List.mem_map, List.mem_filter, decide_eq_true_eq]
  constructor
  · rintro ⟨⟨sid, row⟩, ⟨hmem, hopen⟩, rfl⟩
    exact ⟨row, Table.mem_iff.mp hmem, hopen⟩
  · rintro ⟨row, hfind, hopen⟩
    exact ⟨(sid, row), ⟨Table.mem_iff.mpr hfind, hopen⟩, rfl⟩

/-- A process names a row exactly when its reference resolves to it. -/
theorem names_iff {rows : Rows} {p : Proc} {sid : Sid} (hrow : (rows.find? sid).isSome = true) :
    rows.names p sid = true ↔ p.sessionRef.bind rows.resolve = some sid := by
  cases href : p.sessionRef with
  | none => simp [names, href]
  | some ref =>
    cases ref with
    | exact id =>
      simp only [names, href, decide_eq_true_eq, Option.bind_some, resolve]
      constructor
      · rintro rfl
        simp [Option.isSome_iff_exists.mp hrow]
      · intro h
        obtain ⟨_, _, hid⟩ := Option.map_eq_some_iff.mp h
        exact hid
    | headed start =>
      simp only [names, href, Option.bind_some, resolve, Bool.and_eq_true, soleHeaded,
        decide_eq_true_eq]
      constructor
      · rintro ⟨hstart, hone⟩
        obtain ⟨only, honly⟩ := List.length_eq_one_iff.mp hone
        have hmem := mem_headed.mpr ⟨hrow, hstart⟩
        rw [honly, List.mem_singleton] at hmem
        rw [honly, hmem]
      · intro h
        split at h
        · next only honly =>
          cases h
          have hmem : sid ∈ rows.headed start := by simp [honly]
          exact ⟨(mem_headed.mp hmem).2, by simp [honly]⟩
        · cases h

end Rows

/-! ## where a session may run -/

/-- `growth_candidates`: the processes that could have written a growing session of `agent`
in `cwd`. -/
def growthCandidates (procs : List Proc) (agent : Agent) (cwd : Dir) : List Proc :=
  procs.filter fun p => p.agentExe && p.serves agent && !p.helper && !p.oneShot && p.cwd = some cwd

/-- `unclassified_agent_cwds`: a process of unknown kind runs in `cwd`. -/
def sharedCwd (procs : List Proc) (cwd : Dir) : Bool :=
  procs.any fun p => p.unclassified && p.cwd = some cwd

/-- `matching_scope`: the sessions that compete for the processes of a directory. -/
def matchingScope (procs : List Proc) (agent : Agent) (cwd : Dir) : Option Agent × Dir :=
  (if sharedCwd procs cwd then none else some agent, cwd)

theorem mem_growthCandidates {procs : List Proc} {agent : Agent} {cwd : Dir} {p : Proc} :
    p ∈ growthCandidates procs agent cwd ↔
      p ∈ procs ∧ p.agentExe = true ∧ p.serves agent = true ∧ p.helper = false ∧
        p.oneShot = false ∧ p.cwd = some cwd := by
  simp [growthCandidates, and_assoc]

/-- Two agents that one interactive process of a directory serves share the directory. -/
theorem matchingScope_eq_of_serves {procs : List Proc} {a b : Agent} {cwd : Dir} {p : Proc}
    (hp : p ∈ procs) (hhelper : p.helper = false) (hshot : p.oneShot = false)
    (hcwd : p.cwd = some cwd) (ha : p.serves a = true) (hb : p.serves b = true) :
    matchingScope procs a cwd = matchingScope procs b cwd := by
  by_cases hab : a = b
  · rw [hab]
  · have hshared : sharedCwd procs cwd = true := by
      simp only [sharedCwd, List.any_eq_true]
      exact ⟨p, hp, by simp [Proc.unclassified, Proc.agent_of_serves ha hb hab, hhelper, hshot, hcwd]⟩
    simp [matchingScope, hshared]

end ClaudeReplay.Linking
