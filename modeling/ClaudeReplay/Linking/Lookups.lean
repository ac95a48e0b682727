import ClaudeReplay.Lib.Groups
import ClaudeReplay.Linking.Links

/-!
# ClaudeReplay.Linking.Lookups

The tables that one scan looks its links up in.

`ProcLookups` reads each process once: who names which session, and who holds which
transcript open. `explicitProcessOwners` collects, under each pid, the sessions that the
process owns, with the rows looked up by their paths. Both answer as a pass over every
process and every row would (`mem_naming`, `mem_holding`, `mem_explicitProcessOwners`),
and so does the link chosen from them (`ProcLookups.linkIn_eq`): a process that a session
is linked to because it names the session, or holds it open, is in the owners' map with
that session.

A set is the list of what was put into it. Two paths are one when they are equal as `Path`s.
-/

namespace ClaudeReplay.Linking

open Lib

/-! ## what is asked of each process -/

/-- `process_names_session`, for a given answer to which heads only one session has. -/
def Proc.namesSession (p : Proc) (unique : String → Bool) (sid : Sid) : Bool :=
  match p.sessionRef with
  | some (.exact id) => id = sid
  | some (.headed start) => start.toList.isPrefixOf sid.toList && unique start
  | none => false

/-- `holds_transcript`. -/
def Proc.holdsTranscript (p : Proc) (transcript : Path) : Bool := transcript ∈ p.openJsonl

/-! ## the tables -/

/-- `ProcTable`: each process's session, read once per scan. -/
structure ProcLookups where
  byPid : Table Pid Proc
  /-- Processes by the session their verified record names. -/
  recorded : Table Sid (List Proc)
  /-- Processes with a verified record, whatever it names. -/
  verified : List Proc
  /-- Agent processes by the session they name exactly. -/
  exact : Table Sid (List Proc)
  /-- Agent processes naming a session by its first characters only. -/
  headed : List (String × Proc)
  /-- Agent processes by each transcript they hold open. -/
  holding : Table Path (List Proc)

namespace ProcLookups

def empty : ProcLookups := ⟨.empty, .empty, [], .empty, [], .empty⟩

/-- The record of one more process. -/
def addRecord (t : ProcLookups) (p : Proc) : ProcLookups :=
  match p.native.session with
  | some sid => { t with recorded := t.recorded.push sid p, verified := t.verified ++ [p] }
  | none => t

/-- The session that one more agent process names. -/
def addRef (t : ProcLookups) (p : Proc) : ProcLookups :=
  match p.sessionRef with
  | some (.exact sid) => { t with exact := t.exact.push sid p }
  | some (.headed start) => { t with headed := t.headed ++ [(start, p)] }
  | none => t

/-- The transcripts that one more agent process holds open. -/
def addOpen (t : ProcLookups) (p : Proc) : ProcLookups :=
  { t with holding := p.openJsonl.foldl (fun holding path => holding.push path p) t.holding }

/-- The body of the loop of `ProcTable::new`. -/
def add (t : ProcLookups) (p : Proc) : ProcLookups :=
  let t := { t with byPid := t.byPid.put p.pid p }.addRecord p
  if p.agentExe then (t.addRef p).addOpen p else t

/-- `ProcTable::new`. -/
def new (procs : List Proc) : ProcLookups := procs.foldl add empty

/-- `ProcTable::naming`. -/
def naming (t : ProcLookups) (sid : Sid) (unique : String → Bool) : List Proc :=
  t.exact.group sid ++
    (t.headed.filter fun entry => entry.1.toList.isPrefixOf sid.toList && unique entry.1).map
      Prod.snd

/-- `link_in` over the tables of the processes, and whether the link is confirmed. -/
def linkIn (t : ProcLookups) (procs : List Proc) (unique : String → Bool) (sid : Sid) (row : Row)
    (dm : DirectoryMatch) : Option (Proc × Bool) :=
  let candidates := (t.naming sid unique).filter fun p =>
    p.serves row.agent && p.native.permits sid
  let recorded (p : Proc) : Bool := p.native.session = some sid
  let nativeHelper := candidates.any fun p => recorded p && p.helper
  let named := (bestHosted (candidates.filter fun p => recorded p && !p.helper)).or
    (bestHosted (candidates.filter fun p => !nativeHelper || recorded p || p.attachClient))
  let holding := (t.holding.group row.path).find? fun p =>
    p.serves row.agent && p.native.permits sid
  let directory := match row.cwd, dm with
    | some cwd, .unclaimed claimed =>
      let here := procs.filter fun p =>
        p.agentExe && p.serves row.agent && !p.helper && !p.oneShot && p.cwd = some cwd &&
          p.sessionRef.isNone && p.pid ∉ claimed
      (bestHosted here).map fun p => (p, here.length = 1)
    | _, _ => none
  (named.map (·, true)).or ((holding.map (·, true)).or directory)

end ProcLookups

/-- The rows by the paths of their transcripts. -/
def byTranscript (rows : Rows) : Table Path (List Sid) :=
  groupBy (fun row => some (row.2.path, row.1)) rows.rows

/-- The sessions that `explicit_process_owners` finds at one agent process. -/
def ownedSessions (rows : Rows) (p : Proc) : List Sid :=
  (p.sessionRef.bind rows.resolve).toList ++
    (p.openJsonl.flatMap (byTranscript rows).group).filter p.native.permits

/-- `explicit_process_owners`. -/
def explicitProcessOwners (procs : List Proc) (rows : Rows) : Table Pid (List Sid) :=
  (procs.filter (·.agentExe)).foldl (fun owners p =>
    (ownedSessions rows p).foldl (fun owners sid => owners.push p.pid sid) owners) .empty

/-! ## what the tables hold -/

/-- The groups of entries that are pushed some at a time. -/
theorem foldl_push_eq {α κ ν : Type} [DecidableEq κ] (entries : α → List (κ × ν)) (xs : List α) :
    xs.foldl (fun t x => (entries x).foldl (fun t e => t.push e.1 e.2) t) Table.empty =
      groupBy some (xs.flatMap entries) := by
  rw [groupBy, List.foldl_flatMap]
  rfl

namespace ProcLookups

variable {procs : List Proc} {t : ProcLookups} {p : Proc} {sid : Sid}

/-- The session that an agent process names exactly. -/
def exactEntry (p : Proc) : Option (Sid × Proc) :=
  match p.sessionRef with
  | some (.exact sid) => if p.agentExe then some (sid, p) else none
  | _ => none

/-- The first characters that an agent process names a session by. -/
def headedEntry (p : Proc) : Option (String × Proc) :=
  match p.sessionRef with
  | some (.headed start) => if p.agentExe then some (start, p) else none
  | _ => none

theorem addRecord_eq (t : ProcLookups) (p : Proc) :
    (t.addRecord p).exact = t.exact ∧ (t.addRecord p).headed = t.headed ∧
      (t.addRecord p).holding = t.holding := by
  cases h : p.native.session <;> simp [addRecord, h]

/-- What one process adds to the tables that are looked up in. -/
theorem add_eq (t : ProcLookups) (p : Proc) :
    (t.add p).exact = (exactEntry p).elim t.exact (fun e => t.exact.push e.1 e.2) ∧
      (t.add p).headed = t.headed ++ (headedEntry p).toList ∧
      (t.add p).holding = (if p.agentExe then p.openJsonl else []).foldl
        (fun holding path => holding.push path p) t.holding := by
  obtain ⟨hexact, hheaded, hholding⟩ := addRecord_eq { t with byPid := t.byPid.put p.pid p } p
  by_cases hexe : p.agentExe = true
  · cases href : p.sessionRef with
    | none =>
      simp [add, addOpen, addRef, exactEntry, headedEntry, hexe, href, hexact, hheaded, hholding]
    | some ref =>
      cases ref <;>
        simp [add, addOpen, addRef, exactEntry, headedEntry, hexe, href, hexact, hheaded, hholding]
  · cases href : p.sessionRef with
    | none => simp [add, exactEntry, headedEntry, hexe, href, hexact, hheaded, hholding]
    | some ref =>
      cases ref <;> simp [add, exactEntry, headedEntry, hexe, href, hexact, hheaded, hholding]

theorem new_exact (procs : List Proc) : (new procs).exact = groupBy exactEntry procs :=
  (List.foldl_hom exact fun t p => (add_eq t p).1.symm).symm

theorem new_headed (procs : List Proc) : (new procs).headed = procs.filterMap headedEntry := by
  suffices h : ∀ (procs : List Proc) (t : ProcLookups),
      (procs.foldl add t).headed = t.headed ++ procs.filterMap headedEntry by
    simpa [new, empty] using h procs empty
  intro procs
  induction procs with
  | nil => simp
  | cons p procs ih =>
    intro t
    rw [List.foldl_cons, ih, (add_eq t p).2.1, List.filterMap_cons]
    cases headedEntry p <;> simp

/-- The transcripts that a process is entered under. -/
def openEntries (p : Proc) : List (Path × Proc) :=
  if p.agentExe then p.openJsonl.map fun path => (path, p) else []

theorem new_holding (procs : List Proc) :
    (new procs).holding = groupBy some (procs.flatMap openEntries) := by
  rw [← foldl_push_eq]
  refine (List.foldl_hom holding fun t p => ?_).symm
  rw [(add_eq t p).2.2, openEntries]
  split <;> simp [List.foldl_map]

theorem exactEntry_eq_some {q : Proc} : exactEntry p = some (sid, q) ↔
    p = q ∧ p.agentExe = true ∧ p.sessionRef = some (.exact sid) := by
  cases href : p.sessionRef with
  | none => simp [exactEntry, href]
  | some ref =>
    cases ref <;> simp only [exactEntry, href]
    all_goals grind

theorem headedEntry_eq_some {start : String} {q : Proc} : headedEntry p = some (start, q) ↔
    p = q ∧ p.agentExe = true ∧ p.sessionRef = some (.headed start) := by
  cases href : p.sessionRef with
  | none => simp [headedEntry, href]
  | some ref =>
    cases ref <;> simp only [headedEntry, href]
    all_goals grind

/-- **`naming` finds** the agent processes that name the session. -/
theorem mem_naming {unique : String → Bool} : p ∈ (new procs).naming sid unique ↔
    p ∈ procs ∧ p.agentExe = true ∧ p.namesSession unique sid = true := by
  rw [naming, new_exact, new_headed, List.mem_append, mem_group_groupBy]
  simp only [exactEntry_eq_some, List.mem_map, List.mem_filter, List.mem_filterMap, Prod.exists]
  constructor
  · rintro (⟨q, hq, rfl, hexe, href⟩ | ⟨start, q, ⟨⟨r, hr, hentry⟩, hnames⟩, rfl⟩)
    · exact ⟨hq, hexe, by simp [Proc.namesSession, href]⟩
    · obtain ⟨rfl, hexe, href⟩ := headedEntry_eq_some.mp hentry
      exact ⟨hr, hexe, by simpa [Proc.namesSession, href] using hnames⟩
  · rintro ⟨hp, hexe, hnames⟩
    cases href : p.sessionRef with
    | none => simp [Proc.namesSession, href] at hnames
    | some ref =>
      cases ref with
      | exact id =>
        obtain rfl : id = sid := by simpa [Proc.namesSession, href] using hnames
        exact .inl ⟨p, hp, rfl, hexe, href⟩
      | headed start =>
        refine .inr ⟨start, p, ⟨⟨p, hp, headedEntry_eq_some.mpr ⟨rfl, hexe, href⟩⟩, ?_⟩, rfl⟩
        simpa [Proc.namesSession, href] using hnames

/-- **`holding` finds** the agent processes that hold the transcript open. -/
theorem mem_holding {path : Path} : p ∈ (new procs).holding.group path ↔
    p ∈ procs ∧ p.agentExe = true ∧ p.holdsTranscript path = true := by
  rw [new_holding, mem_group_groupBy]
  simp only [List.mem_flatMap, openEntries, Option.some.injEq, Proc.holdsTranscript,
    decide_eq_true_eq]
  constructor
  · rintro ⟨_, ⟨q, hq, hmem⟩, rfl⟩
    by_cases hexe : q.agentExe = true
    · rw [if_pos hexe] at hmem
      obtain ⟨_, hopen, ⟨⟩⟩ := List.mem_map.mp hmem
      exact ⟨hq, hexe, hopen⟩
    · simp [hexe] at hmem
  · rintro ⟨hp, hexe, hopen⟩
    exact ⟨(path, p), ⟨p, hp, by simpa [hexe] using hopen⟩, rfl⟩

/-- The first process under a transcript that passes a test is the first of all. -/
theorem find?_holding (path : Path) (test : Proc → Bool) :
    ((new procs).holding.group path).find? test =
      procs.find? fun p => p.agentExe && p.holdsTranscript path && test p := by
  rw [new_holding, group_groupBy]
  induction procs with
  | nil => rfl
  | cons p procs ih =>
    rw [List.flatMap_cons, List.filterMap_append, List.find?_append, ih, List.find?_cons]
    by_cases hexe : p.agentExe = true
    · have hhere : ((openEntries p).filterMap fun x => (some x).bind fun e =>
          if e.1 = path then some e.2 else none).find? test =
            if p.holdsTranscript path && test p then some p else none := by
        rw [openEntries, if_pos hexe, List.filterMap_map, Proc.holdsTranscript]
        induction p.openJsonl with
        | nil => rfl
        | cons q qs ihq =>
          by_cases hq : q = path
          · by_cases htest : test p = true <;> simp [hq, htest]
            simpa [htest] using ihq
          · simpa [hq, Ne.symm hq] using ihq
      rw [hhere, hexe, Bool.true_and]
      cases p.holdsTranscript path && test p <;> simp
    · simp [openEntries, hexe]

end ProcLookups

/-! ## the link -/

section Best

variable {procs : ProcTable} {ps qs : List Proc} {p q : Proc}

/-- `p` is hosted better than `q`. -/
def Proc.better (p q : Proc) : Prop :=
  q.hostRank < p.hostRank ∨ p.hostRank = q.hostRank ∧ p.pid < q.pid

theorem bestHosted_eq_none : bestHosted ps = none ↔ ps = [] := by
  cases ps with
  | nil => simp [bestHosted]
  | cons p ps =>
    cases h : bestHosted ps with
    | none => simp [bestHosted, h]
    | some q =>
      simp only [bestHosted, h]
      split <;> simp

theorem Proc.better_irrefl (p : Proc) : ¬p.better p := by simp [better]

theorem Proc.better_trans {p q r : Proc} (h : p.better q) (h' : q.better r) : p.better r := by
  simp only [better] at h h' ⊢
  grind

/-- Of two processes with two pids one is hosted better. -/
theorem Proc.pid_eq_of_not_better {p q : Proc} (h : ¬p.better q) (h' : ¬q.better p) :
    p.pid = q.pid := by
  simp only [better, not_or, not_and] at h h'
  have hrank : p.hostRank = q.hostRank := by omega
  exact Nat.le_antisymm (Nat.not_lt.mp (h'.2 hrank.symm)) (Nat.not_lt.mp (h.2 hrank))

/-- None is hosted better than the best. -/
theorem bestHosted_best (h : bestHosted ps = some p) : ∀ q ∈ ps, ¬q.better p := by
  induction ps generalizing p with
  | nil => cases h
  | cons r ps ih =>
    intro q hq
    cases hrest : bestHosted ps with
    | none =>
      obtain rfl := bestHosted_eq_none.mp hrest
      simp only [bestHosted, Option.some.injEq] at h
      simp only [List.mem_singleton] at hq
      subst h hq
      exact q.better_irrefl
    | some best =>
      have hbest := ih hrest
      simp only [bestHosted, hrest] at h
      split at h
      · next hbetter =>
        cases h
        rcases List.mem_cons.mp hq with rfl | hq
        · exact q.better_irrefl
        · exact fun hqr => hbest q hq (Proc.better_trans hqr hbetter)
      · next hworse =>
        cases h
        rcases List.mem_cons.mp hq with rfl | hq
        · exact hworse
        · exact hbest q hq

/-- The best hosted depends on who is asked, and not on the order. -/
theorem bestHosted_congr (hprocs : ∀ p ∈ ps, p ∈ procs.procs) (h : ∀ p, p ∈ ps ↔ p ∈ qs) :
    bestHosted ps = bestHosted qs := by
  cases hp : bestHosted ps with
  | none =>
    obtain rfl := bestHosted_eq_none.mp hp
    obtain rfl : qs = [] := by
      rw [List.eq_nil_iff_forall_not_mem]
      exact fun q hq => by simpa using (h q).mpr hq
    rfl
  | some p =>
    cases hq : bestHosted qs with
    | none =>
      obtain rfl := bestHosted_eq_none.mp hq
      exact absurd ((h p).mp (bestHosted_mem hp)) List.not_mem_nil
    | some q =>
      have hqs := (h q).mpr (bestHosted_mem hq)
      have hpq := bestHosted_best hp q hqs
      have hqp := bestHosted_best hq p ((h p).mp (bestHosted_mem hp))
      rw [ProcTable.eq_of_pid (hprocs p (bestHosted_mem hp)) (hprocs q hqs)
        (Proc.pid_eq_of_not_better hqp hpq)]

end Best

variable {rows : Rows} {procs : ProcTable} {sid : Sid} {row : Row} {dm : DirectoryMatch} {p : Proc}

theorem names_eq (rows : Rows) (p : Proc) (sid : Sid) :
    rows.names p sid = p.namesSession rows.soleHeaded sid := rfl

/-- The tables of the processes give the candidates of the link. -/
theorem bestHosted_naming (test : Proc → Bool) :
    bestHosted (((ProcLookups.new procs.procs).naming sid rows.soleHeaded).filter test) =
      bestHosted (procs.procs.filter fun p => p.agentExe && rows.names p sid && test p) := by
  apply bestHosted_congr
  · intro p hp
    exact (ProcLookups.mem_naming.mp (List.mem_filter.mp hp).1).1
  · intro p
    simp only [List.mem_filter, ProcLookups.mem_naming, names_eq, Bool.and_eq_true, and_assoc]

theorem any_naming (test : Proc → Bool) :
    ((ProcLookups.new procs.procs).naming sid rows.soleHeaded).any test =
      procs.procs.any fun p => p.agentExe && rows.names p sid && test p := by
  rw [Bool.eq_iff_iff]
  simp only [List.any_eq_true, ProcLookups.mem_naming, names_eq, Bool.and_eq_true, and_assoc]

/-- **The link over the tables** is the link that asks every process. -/
theorem ProcLookups.linkIn_eq (procs : ProcTable) (rows : Rows) (sid : Sid) (row : Row)
    (dm : DirectoryMatch) :
    ((ProcLookups.new procs.procs).linkIn procs.procs rows.soleHeaded sid row dm).map Prod.fst =
      Linking.linkIn rows procs sid row dm := by
  have hfilter : ∀ (ps : List Proc) (first test : Proc → Bool),
      (ps.filter first).filter test = ps.filter fun p => first p && test p := by
    simp [List.filter_filter, Bool.and_comm]
  have hconfirmed : ∀ o : Option Proc, o.map (Prod.fst ∘ fun p => (p, true)) = o := by
    intro o
    cases o <;> rfl
  simp only [linkIn, Linking.linkIn, hfilter, List.any_filter, bestHosted_naming, any_naming,
    find?_holding, Option.map_or, Option.map_map, hconfirmed, Proc.holdsTranscript, Bool.and_assoc]
  cases row.cwd with
  | none => rfl
  | some cwd =>
    cases dm with
    | disabled => rfl
    | unclaimed claimed => simp [Function.comp_def]

/-! ## the owners -/

/-- A reference resolves to a row. -/
theorem isSome_of_resolve {ref : SessionRef} (h : rows.resolve ref = some sid) :
    (rows.find? sid).isSome = true := by
  cases ref with
  | exact id =>
    obtain ⟨_, hfind, rfl⟩ := Option.map_eq_some_iff.mp h
    simp [hfind]
  | headed start =>
    simp only [Rows.resolve] at h
    split at h
    · next only honly =>
      cases h
      have hmem : sid ∈ rows.headed start := by simp [honly]
      exact (Rows.mem_headed.mp hmem).1
    · cases h

/-- What is found at one agent process is what it names, and what it holds open and may be
writing. -/
theorem mem_ownedSessions : sid ∈ ownedSessions rows p ↔
    (rows.find? sid).isSome = true ∧ (rows.names p sid = true ∨
      ∃ row, rows.find? sid = some row ∧ p.holdsTranscript row.path = true ∧
        p.native.permits sid = true) := by
  simp only [ownedSessions, List.mem_append, List.mem_filter, List.mem_flatMap, byTranscript,
    mem_group_groupBy, Option.mem_toList, Prod.exists, Option.some.injEq, Prod.mk.injEq,
    Proc.holdsTranscript, decide_eq_true_eq]
  constructor
  · rintro (hnamed | ⟨⟨path, hopen, _, row, hrow, rfl, rfl⟩, hpermits⟩)
    · obtain ⟨ref, _, hresolve⟩ := Option.bind_eq_some_iff.mp hnamed
      have hrow := isSome_of_resolve hresolve
      exact ⟨hrow, .inl ((Rows.names_iff hrow).mpr hnamed)⟩
    · have hfind := Table.mem_iff.mp hrow
      exact ⟨by simp [hfind], .inr ⟨row, hfind, hopen, hpermits⟩⟩
  · rintro ⟨hrow, hnames | ⟨row, hfind, hopen, hpermits⟩⟩
    · exact .inl ((Rows.names_iff hrow).mp hnames)
    · exact .inr ⟨⟨row.path, hopen, sid, row, Table.mem_iff.mpr hfind, rfl, rfl⟩, hpermits⟩

theorem mem_explicitProcessOwners {pid : Pid} :
    sid ∈ (explicitProcessOwners procs.procs rows).group pid ↔
      ∃ p ∈ procs.procs, p.agentExe = true ∧ p.pid = pid ∧ sid ∈ ownedSessions rows p := by
  have hentries := foldl_push_eq (fun p => (ownedSessions rows p).map fun sid => (p.pid, sid))
    (procs.procs.filter (·.agentExe))
  simp only [List.foldl_map] at hentries
  rw [explicitProcessOwners, hentries, mem_group_groupBy]
  simp only [List.mem_flatMap, List.mem_filter, List.mem_map, Option.some.injEq]
  constructor
  · rintro ⟨_, ⟨p, ⟨hp, hexe⟩, owned, howned, rfl⟩, heq⟩
    cases heq
    exact ⟨p, hp, hexe, rfl, howned⟩
  · rintro ⟨p, hp, hexe, rfl, howned⟩
    exact ⟨_, ⟨p, ⟨hp, hexe⟩, sid, howned, rfl⟩, rfl⟩

/-- **The owners' map** has, under the pid of an agent process, the sessions that the process
names or holds open, and under that of another process none. -/
theorem mem_explicitProcessOwners_pid (hp : p ∈ procs.procs) :
    sid ∈ (explicitProcessOwners procs.procs rows).group p.pid ↔
      p.agentExe = true ∧ sid ∈ ownedSessions rows p := by
  rw [mem_explicitProcessOwners]
  constructor
  · rintro ⟨q, hq, hexe, hpid, howned⟩
    obtain rfl := ProcTable.eq_of_pid hq hp hpid
    exact ⟨hexe, howned⟩
  · rintro ⟨hexe, howned⟩
    exact ⟨p, hp, hexe, rfl, howned⟩

/-- The process of a link that names the session, or holds it open, is in the owners' map with
that session. -/
theorem owner_of_linkIn {confirmed : Bool} (hrow : rows.find? sid = some row)
    (h : (ProcLookups.new procs.procs).linkIn procs.procs rows.soleHeaded sid row .disabled =
      some (p, confirmed)) :
    p ∈ procs.procs ∧ sid ∈ (explicitProcessOwners procs.procs rows).group p.pid := by
  have hlink := ProcLookups.linkIn_eq procs rows sid row .disabled
  rw [h] at hlink
  obtain ⟨hp, howner⟩ := linkIn_disabled hrow hlink.symm
  refine ⟨hp, (mem_explicitProcessOwners_pid hp).mpr ?_⟩
  have hsome : (rows.find? sid).isSome = true := by simp [hrow]
  rw [Rows.owners] at howner
  split at howner
  · next hexe =>
    refine ⟨hexe, mem_ownedSessions.mpr ⟨hsome, ?_⟩⟩
    rcases List.mem_append.mp howner with hnamed | hheld
    · exact .inl ((Rows.names_iff hsome).mpr (by simpa using hnamed))
    · obtain ⟨held, hfind, hopen, hpermits⟩ := Rows.mem_heldBy.mp hheld
      exact .inr ⟨held, hfind, by simpa [Proc.holdsTranscript] using hopen, hpermits⟩
  · cases howner

/-- A process that the directory gives is claimed by no session. -/
theorem unclaimed_of_linkIn {claimed : List Pid} {confirmed : Bool}
    (hclaimed : ∀ pid, (explicitProcessOwners procs.procs rows).group pid ≠ [] → pid ∈ claimed)
    (hnone : (ProcLookups.new procs.procs).linkIn procs.procs rows.soleHeaded sid row .disabled =
      none)
    (h : (ProcLookups.new procs.procs).linkIn procs.procs rows.soleHeaded sid row
      (.unclaimed claimed) = some (p, confirmed)) :
    (explicitProcessOwners procs.procs rows).group p.pid = [] := by
  have hexplicit := ProcLookups.linkIn_eq procs rows sid row .disabled
  have hlink := ProcLookups.linkIn_eq procs rows sid row (.unclaimed claimed)
  rw [hnone] at hexplicit
  rw [h] at hlink
  obtain ⟨_, _, _, _, _, _, _, _, hfree⟩ := linkIn_unclaimed hexplicit.symm hlink.symm
  by_contra hgroup
  exact hfree (hclaimed p.pid hgroup)

/-- **The scan's lookups answer as a pass over every process would.** The owners' map has for
each agent process the rows that it names or that it holds open and may be writing; `naming`
and `holding` find the agent processes that a pass finds; and the process of an explicit link
is in the owners' map with its session, so that no other session's growth proves a link to
it, and no directory gives it away. -/
theorem lookups_answer_as_passes (procs : ProcTable) (rows : Rows) :
    (∀ p ∈ procs.procs, ∀ sid, sid ∈ (explicitProcessOwners procs.procs rows).group p.pid ↔
      p.agentExe = true ∧ (rows.find? sid).isSome = true ∧
        (p.namesSession rows.soleHeaded sid = true ∨ ∃ row, rows.find? sid = some row ∧
          p.holdsTranscript row.path = true ∧ p.native.permits sid = true)) ∧
    (∀ unique sid p, p ∈ (ProcLookups.new procs.procs).naming sid unique ↔
      p ∈ procs.procs ∧ p.agentExe = true ∧ p.namesSession unique sid = true) ∧
    (∀ path p, p ∈ (ProcLookups.new procs.procs).holding.group path ↔
      p ∈ procs.procs ∧ p.agentExe = true ∧ p.holdsTranscript path = true) ∧
    (∀ sid row p confirmed, rows.find? sid = some row →
      (ProcLookups.new procs.procs).linkIn procs.procs rows.soleHeaded sid row .disabled =
        some (p, confirmed) →
      sid ∈ (explicitProcessOwners procs.procs rows).group p.pid ∧
      (∀ other, rows.freeFor p other = true → other = sid) ∧
      ∀ claimed, (∀ pid, (explicitProcessOwners procs.procs rows).group pid ≠ [] →
          pid ∈ claimed) →
        ∀ other row' q confirmed',
          (ProcLookups.new procs.procs).linkIn procs.procs rows.soleHeaded other row' .disabled =
            none →
          (ProcLookups.new procs.procs).linkIn procs.procs rows.soleHeaded other row'
            (.unclaimed claimed) = some (q, confirmed') → q.pid ≠ p.pid) := by
  refine ⟨?_, fun _ _ _ => ProcLookups.mem_naming, fun _ _ => ProcLookups.mem_holding, ?_⟩
  · intro p hp sid
    rw [mem_explicitProcessOwners_pid hp, mem_ownedSessions, names_eq]
  · intro sid row p confirmed hrow hlink
    obtain ⟨hp, howner⟩ := owner_of_linkIn hrow hlink
    refine ⟨howner, ?_, ?_⟩
    · intro other hfree
      have hplain := ProcLookups.linkIn_eq procs rows sid row .disabled
      rw [hlink] at hplain
      have howns := (linkIn_disabled hrow hplain.symm).2
      simp only [Rows.freeFor, Bool.and_eq_true, List.all_eq_true, decide_eq_true_eq] at hfree
      exact (hfree.2 sid howns).symm
    · intro claimed hclaimed other row' q confirmed' hnone hguess hpid
      have hempty := unclaimed_of_linkIn hclaimed hnone hguess
      rw [hpid] at hempty
      rw [hempty] at howner
      cases howner

end ClaudeReplay.Linking
