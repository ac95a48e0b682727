import ClaudeReplay.Linking.Procs
import ClaudeReplay.Lib.Run
import Mathlib.Data.List.Dedup
import Mathlib.Algebra.Group.Nat.Defs

/-!
# ClaudeReplay.Linking.Growth

One scan of the index: what discovery makes of the rows, and the links that growth proves.

A transcript advances only because its own agent wrote to it. So when one session of a
directory grows and one process there can have written it, the pair is banked on the row,
and outlives the growth that proved it. `Row.retire` is what ends a proof and sets its
write aside, `bankOf` what a directory's writes prove, and `proveByGrowth` the pass over
every directory, in whatever order a hash map gives them.
-/

namespace ClaudeReplay.Linking

open Lib

/-! ## discovery -/

/-- What discovery reads of a transcript in one scan. `touched` says that its mtime or
length moved, and `grew` the moment at which its content was seen to have advanced. -/
structure Sighting where
  path : Path
  agent : Agent
  cwd : Option Dir
  treeMtime : Option Nat
  touched : Bool
  continuedIn : Option Continuation
  oneShot : Bool
  firstEvent : Option Nat
  grew : Option Nat

/-- One scan: its moment, the process table it reads, the transcripts it finds, which
transcripts' background jobs are confirmed, and the order in which it takes the groups of
writes. -/
structure Scan where
  now : Nat
  procs : ProcTable
  seen : Table Sid Sighting
  jobHosts : Path → Sid → Bool
  order : List (Option Agent × Dir)

/-- The index between scans. -/
structure Index where
  now : Nat
  procs : ProcTable
  rows : Rows

def Index.empty : Index := ⟨0, ⟨[], List.nodup_nil⟩, Table.empty⟩

namespace Row

/-- A row at its first sighting. -/
def first (g : Sighting) : Row where
  path := g.path
  agent := g.agent
  cwd := g.cwd
  treeMtime := none
  firstEvent := none
  startProbed := false
  oneShot := false
  provedPid := none
  continuedIn := none
  grewAt := none
  invalidatedGrowth := none

/-- What a change of the transcript has re-read: its continuation, and its start once. -/
def touch (row : Row) (g : Sighting) : Row :=
  if g.touched then
    { row with
      continuedIn := g.continuedIn
      startProbed := true
      oneShot := if row.startProbed then row.oneShot else g.oneShot
      firstEvent := if row.startProbed then row.firstEvent else g.firstEvent }
  else row

/-- The row after a sighting. The first one sets the baseline and claims no growth. -/
def sight (old : Option Row) (g : Sighting) : Row :=
  match old with
  | none => { (first g).touch g with treeMtime := g.treeMtime }
  | some row =>
    { row.touch g with
      path := g.path
      cwd := row.cwd.or g.cwd
      treeMtime := g.treeMtime
      grewAt := if g.touched then g.grew.or row.grewAt else row.grewAt }

end Row

/-! ## moves -/

/-- `Moves::of`, at one session: where it went on, when, and whether the job is confirmed. -/
def moveOf (rows : Rows) (jobHosts : Path → Sid → Bool) (sid : Sid) : Option (Sid × Nat × Bool) := do
  let row ← rows.find? sid
  let c ← row.continuedIn
  let target ← rows.find? c.session
  if c.session ≠ sid ∧ target.agent = row.agent then
    some (c.session, c.movedAt, jobHosts target.path c.session)
  else
    none

/-- The loop of `Moves::chain`: the sessions walked through, and how many of them to keep. -/
def walk (moves : Sid → Option (Sid × Nat × Bool)) (started : Nat) (job : String) :
    Nat → List Sid → Nat → Sid → List Sid × Nat
  | 0, path, keep, _ => (path, keep)
  | fuel + 1, path, keep, cur =>
    match moves cur with
    | none => (path, keep)
    | some (next, movedAt, hosted) =>
      if movedAt < started ∨ next ∈ path then
        (path, keep)
      else
        let path := path ++ [next]
        let keep := if hosted && job.toList.isPrefixOf next.toList then path.length else keep
        walk moves started job fuel path keep next

/-- `Moves::chain`: the sessions a process's recorded source went through, of which no two
are one, so that as many steps as there are rows are enough. -/
def chain (rows : Rows) (jobHosts : Path → Sid → Bool) (p : Proc) (named : Sid) : List Sid :=
  match p.parked, p.started with
  | some parked, some started =>
    if parked.session ≠ named then
      [named]
    else
      let (path, keep) :=
        walk (moveOf rows jobHosts) started parked.job (rows.count + 1) [named] 1 named
      path.take keep
  | _, _ => [named]

/-- The session a verified parked record stands for, derived again on every pass. -/
def Proc.resolveNative (rows : Rows) (jobHosts : Path → Sid → Bool) (p : Proc) : Proc :=
  let p := { p with native := p.native.recordedSession.elim .missing .verified }
  match p.parked with
  | none => p
  | some parked =>
    if p.native.session = some parked.session ∧ p.serves .claude ∧ ¬p.helper ∧ ¬p.oneShot ∧ p.tty then
      match (chain rows jobHosts p parked.session).getLast? with
      | some target =>
        if target ≠ parked.session then
          { p with native := .continued parked.session target }
        else p
      | none => p
    else p

theorem Proc.resolveNative_pid (rows : Rows) (jobHosts : Path → Sid → Bool) (p : Proc) :
    (p.resolveNative rows jobHosts).pid = p.pid := by
  grind [Proc.resolveNative]

/-- The table with every record resolved. -/
def ProcTable.resolve (rows : Rows) (jobHosts : Path → Sid → Bool) (t : ProcTable) : ProcTable where
  procs := t.procs.map (Proc.resolveNative rows jobHosts)
  distinct := by
    have h : (·.pid) ∘ Proc.resolveNative rows jobHosts = (·.pid) := by
      funext p
      exact p.resolveNative_pid rows jobHosts
    rw [List.map_map, h]
    exact t.distinct

/-! ## what ends a proof -/

/-- Some process's own record says that it runs this session. -/
def nativeOwner (procs : ProcTable) (sid : Sid) (row : Row) : Bool :=
  row.agent = .claude && procs.recorded sid

/-- A record contradicts the session's growth: a process that may be in its directory is
known to run another session. -/
def contradicted (procs : ProcTable) (sid : Sid) (row : Row) : Bool :=
  row.agent = .claude && row.cwd.any fun cwd =>
    procs.procs.any fun p =>
      p.native.session.isSome && p.cwd.all (· = cwd) && !p.native.permits sid

/-- The growth observed belongs to a recorded process, or is refuted by one. -/
def nativeObservation (procs : ProcTable) (sid : Sid) (row : Row) : Bool :=
  row.grewAt.isSome && (nativeOwner procs sid row || contradicted procs sid row)

/-- The process of a proof is still there, in its directory, and no record gives it to
another session. -/
def stillThere (procs : ProcTable) (sid : Sid) (proof : Pid × Dir) : Bool :=
  (procs.byPid proof.1).any fun p => p.cwd = some proof.2 && p.native.permits sid

namespace Row

/-- The growth observed so far proves no link again. -/
def setAside (row : Row) : Row := { row with invalidatedGrowth := row.grewAt }

def dropProof (row : Row) : Row := { row with provedPid := none }

/-- What a scan's records and processes leave of a row's proof. -/
def retire (procs : ProcTable) (moved : Bool) (sid : Sid) (row : Row) : Row :=
  let row := if moved then row.dropProof.setAside else row
  let row := if nativeOwner procs sid row then row.dropProof else row
  let row := if nativeObservation procs sid row then row.setAside else row
  match row.provedPid with
  | none => row
  | some proof => if stillThere procs sid proof then row else row.dropProof.setAside

/-- A fresh proof of `pid` for the row `grower`: one process writes one session at a time,
so it takes the process from any other row. -/
def bank (grower : Sid) (pid : Pid) (cwd : Dir) (sid : Sid) (row : Row) : Row :=
  if sid = grower then { row with provedPid := some (pid, cwd) }
  else if row.provedPid = some (pid, cwd) then row.dropProof.setAside
  else row

end Row

/-! ## the pass -/

/-- `GROW_LINGER`, in nanoseconds. -/
def growLinger : Nat := 60 * 10 ^ 9

/-- The row's growth is recent at `now`. -/
def Row.lingers (row : Row) (now : Nat) : Bool := row.grewAt.any fun t => now - t < growLinger

/-- The row's last write may still prove a link. -/
def Row.usable (row : Row) : Bool := row.invalidatedGrowth ≠ row.grewAt

/-- The process names no other session than `sid`, by record, argv or open transcript. -/
def Rows.freeFor (rows : Rows) (p : Proc) (sid : Sid) : Bool :=
  (p.sessionRef.isNone || rows.names p sid) && (rows.owners p).all (· = sid)

namespace Index

variable (s : Index) (e : Scan)

/-- The rows that discovery leaves. -/
def found : Rows := e.seen.image fun sid g => Row.sight (s.rows.find? sid) g

/-- The process table, its records resolved. -/
def table : ProcTable := e.procs.resolve (s.found e) e.jobHosts

/-- The session's conversation went on in another one. -/
def moved (sid : Sid) : Bool := (moveOf (s.found e) e.jobHosts sid).isSome

/-- The rows once the proofs that ended are dropped. -/
def retired : Rows := (s.found e).mapRows fun sid row => row.retire (s.table e) (s.moved e sid) sid

/-- The row's recent write is one that a proof may start from, or be held up by. -/
def grows (sid : Sid) (row : Row) : Bool := !s.moved e sid && !row.oneShot && row.lingers e.now

/-- The group that a row's write is in. -/
def groupOf (sid : Sid) (row : Row) : Option (Option Agent × Dir) :=
  if s.grows e sid row then row.cwd.map fun cwd => matchingScope (s.table e).procs row.agent cwd
  else none

/-- The groups that have a recent write. -/
def groups : List (Option Agent × Dir) :=
  ((s.retired e).rows.filterMap fun row => s.groupOf e row.1 row.2).dedup

/-- The usable writes of a group. -/
def writes (key : Option Agent × Dir) : List (Sid × Row) :=
  (s.retired e).rows.filter fun row => s.groupOf e row.1 row.2 = some key ∧ row.2.usable

/-- The link that the writes of a group prove: its only usable grower's, with the only
candidate process that no other session owns. -/
def bankOf (key : Option Agent × Dir) : Option (Sid × Pid) :=
  match s.writes e key with
  | [(grower, row)] =>
    match (growthCandidates (s.table e).procs row.agent key.2).filter fun p =>
        (s.retired e).freeFor p grower with
    | [p] => if p.native.permits grower then some (grower, p.pid) else none
    | _ => none
  | _ => none

/-- What a group's proof, if it has one, makes of a row. -/
def bankGroup (sid : Sid) (row : Row) (key : Option Agent × Dir) : Row :=
  match s.bankOf e key with
  | some (grower, pid) => row.bank grower pid key.2 sid
  | none => row

/-- `prove_by_growth`. -/
def proveByGrowth : Rows := (s.retired e).mapRows fun sid row => e.order.foldl (s.bankGroup e sid) row

/-- `scan`. -/
def scan : Index := ⟨e.now, s.table e, s.proveByGrowth e⟩

/-- A scan comes after the one before it, sees growth in between, and takes every group of
writes once. -/
structure Follows : Prop where
  later : s.now < e.now
  growth : ∀ row ∈ e.seen.rows, ∀ t ∈ row.2.grew, s.now < t ∧ t ≤ e.now
  order : e.order.Perm (s.groups e)

instance : Decidable (s.Follows e) :=
  decidable_of_iff (s.now < e.now ∧
      (∀ row ∈ e.seen.rows, ∀ t ∈ row.2.grew, s.now < t ∧ t ≤ e.now) ∧ e.order.Perm (s.groups e))
    ⟨fun h => ⟨h.1, h.2.1, h.2.2⟩, fun h => ⟨h.1, h.2, h.3⟩⟩

/-- One scan cycle. -/
def Step (t : Index) : Prop := s.Follows e ∧ s.scan e = t

end Index

/-! ## what one row goes through -/

namespace Row

/-- The two rows differ in nothing but their proof and the write set aside. -/
structure SameBut (row row' : Row) : Prop where
  path : row'.path = row.path
  agent : row'.agent = row.agent
  cwd : row'.cwd = row.cwd
  firstEvent : row'.firstEvent = row.firstEvent
  oneShot : row'.oneShot = row.oneShot
  grewAt : row'.grewAt = row.grewAt
  aside : row'.invalidatedGrowth = row.invalidatedGrowth ∨ row'.invalidatedGrowth = row.grewAt

theorem SameBut.refl (row : Row) : SameBut row row := ⟨rfl, rfl, rfl, rfl, rfl, rfl, .inl rfl⟩

theorem SameBut.trans {row row' row'' : Row} (h : SameBut row row') (h' : SameBut row' row'') :
    SameBut row row'' where
  path := h'.path.trans h.path
  agent := h'.agent.trans h.agent
  cwd := h'.cwd.trans h.cwd
  firstEvent := h'.firstEvent.trans h.firstEvent
  oneShot := h'.oneShot.trans h.oneShot
  grewAt := h'.grewAt.trans h.grewAt
  aside := by
    have := h.aside
    have := h'.aside
    have := h.grewAt
    grind

variable {procs : ProcTable} {moved : Bool} {sid : Sid} {row : Row} {proof : Pid × Dir}

theorem retire_sameBut : SameBut row (row.retire procs moved sid) := by
  constructor <;> grind [retire, dropProof, setAside]

/-- A proof that passes a scan's checks was there before, of a session that has not moved
and that no record names, and its process is still where it was. -/
theorem retire_provedPid (h : (row.retire procs moved sid).provedPid = some proof) :
    row.provedPid = some proof ∧ moved = false ∧ nativeOwner procs sid row = false ∧
      stillThere procs sid proof = true := by
  have howner : nativeOwner procs sid row.dropProof.setAside = nativeOwner procs sid row := rfl
  grind [retire, dropProof, setAside]

/-- Growth that a record owns or refutes, or whose session moved, is set aside. -/
theorem retire_aside (h : moved = true ∨ nativeObservation procs sid row = true) :
    (row.retire procs moved sid).invalidatedGrowth = row.grewAt := by
  have hobs : nativeObservation procs sid row.dropProof.setAside =
      nativeObservation procs sid row := rfl
  have hobs' : nativeObservation procs sid row.dropProof.setAside.dropProof =
      nativeObservation procs sid row := rfl
  have hobs'' : nativeObservation procs sid row.dropProof = nativeObservation procs sid row := rfl
  grind [retire, dropProof, setAside]

variable {grower : Sid} {pid : Pid} {cwd : Dir}

theorem bank_sameBut : SameBut row (row.bank grower pid cwd sid) := by
  constructor <;> grind [bank, dropProof, setAside]

/-- The proof a row has after a fresh one is the fresh one, or its own as it was, which is
not of that process. -/
theorem bank_provedPid (h : (row.bank grower pid cwd sid).provedPid = some proof) :
    sid = grower ∧ proof = (pid, cwd) ∨
      sid ≠ grower ∧ row.provedPid = some proof ∧ proof ≠ (pid, cwd) := by
  grind [bank, dropProof, setAside]

end Row

namespace Index

variable {s : Index} {e : Scan} {sid other : Sid} {row : Row} {pid : Pid} {cwd : Dir}
  {key : Option Agent × Dir} {keys : List (Option Agent × Dir)} {proof : Pid × Dir}

theorem bankGroup_sameBut : Row.SameBut row (s.bankGroup e sid row key) := by
  unfold bankGroup
  split
  · exact Row.bank_sameBut
  · exact Row.SameBut.refl row

/-- A group's proof for another row leaves a row that has none of its process. -/
theorem bankGroup_eq (hown : ∀ pid, s.bankOf e key ≠ some (sid, pid))
    (hother : ∀ grower pid, s.bankOf e key = some (grower, pid) →
      row.provedPid ≠ some (pid, key.2)) : s.bankGroup e sid row key = row := by
  unfold bankGroup
  split
  · next grower pid hbank =>
    have hne : sid ≠ grower := by
      rintro rfl
      exact hown pid hbank
    exact (if_neg hne).trans (if_neg (hother grower pid hbank))
  · rfl

theorem groups_sameBut : Row.SameBut row (keys.foldl (s.bankGroup e sid) row) := by
  induction keys generalizing row with
  | nil => exact Row.SameBut.refl row
  | cons key keys ih => exact bankGroup_sameBut.trans ih

/-- A row's proof after the groups is one that a group banked, or the row's own as it was,
when no group banks one for the row, nor takes its process. -/
theorem groups_provedPid (h : (keys.foldl (s.bankGroup e sid) row).provedPid = some proof) :
    (∃ key ∈ keys, s.bankOf e key = some (sid, proof.1) ∧ key.2 = proof.2) ∨
      row.provedPid = some proof ∧
        ∀ key ∈ keys, ∀ grower pid, s.bankOf e key = some (grower, pid) →
          grower ≠ sid ∧ (pid, key.2) ≠ proof := by
  induction keys using List.reverseRecOn with
  | nil => exact .inr ⟨h, by simp⟩
  | append_singleton keys key ih =>
    rw [List.foldl_append, List.foldl_cons, List.foldl_nil, bankGroup] at h
    obtain hbank | ⟨hrow, hlast⟩ : s.bankOf e key = some (sid, proof.1) ∧ key.2 = proof.2 ∨
        (keys.foldl (s.bankGroup e sid) row).provedPid = some proof ∧
          ∀ grower pid, s.bankOf e key = some (grower, pid) →
            grower ≠ sid ∧ (pid, key.2) ≠ proof := by
      split at h
      · next grower pid hbank =>
        rcases Row.bank_provedPid h with ⟨rfl, rfl⟩ | ⟨hsid, hrow, hproof⟩
        · exact .inl ⟨hbank, rfl⟩
        · refine .inr ⟨hrow, fun grower' pid' hbank' => ?_⟩
          obtain ⟨rfl, rfl⟩ := Prod.mk.inj (Option.some.inj (hbank.symm.trans hbank'))
          exact ⟨Ne.symm hsid, Ne.symm hproof⟩
      · next hnone => exact .inr ⟨h, by simp [hnone]⟩
    · exact .inl ⟨key, by simp, hbank⟩
    · rcases ih hrow with ⟨key', hmem, hfresh⟩ | ⟨hkept, hothers⟩
      · exact .inl ⟨key', by simp [hmem], hfresh⟩
      · refine .inr ⟨hkept, fun key' hmem => ?_⟩
        rcases List.mem_append.mp hmem with hmem | hmem
        · exact hothers key' hmem
        · exact List.mem_singleton.mp hmem ▸ hlast

/-- A row whose process another row's proof takes, and that no group proves a link of, has
its write set aside. -/
theorem groups_aside (hproof : row.provedPid = some (pid, cwd))
    (hown : ∀ key ∈ keys, ∀ pid, s.bankOf e key ≠ some (sid, pid))
    (htaken : ∃ key ∈ keys, ∃ grower, s.bankOf e key = some (grower, pid) ∧ key.2 = cwd) :
    (keys.foldl (s.bankGroup e sid) row).invalidatedGrowth = row.grewAt := by
  induction keys with
  | nil =>
    obtain ⟨key, hmem, -⟩ := htaken
    cases hmem
  | cons key keys ih =>
    have hown' : ∀ key ∈ keys, ∀ pid, s.bankOf e key ≠ some (sid, pid) := by
      intro key' hmem
      exact hown key' (List.mem_cons_of_mem _ hmem)
    rw [List.foldl_cons]
    by_cases hhere : ∃ grower, s.bankOf e key = some (grower, pid) ∧ key.2 = cwd
    · obtain ⟨grower, hbank, rfl⟩ := hhere
      have hne : sid ≠ grower := by
        rintro rfl
        exact hown key List.mem_cons_self pid hbank
      have hgone : s.bankGroup e sid row key = row.dropProof.setAside := by
        rw [bankGroup, hbank]
        exact (if_neg hne).trans (if_pos hproof)
      -- Whatever the later groups do, they set aside no other write than the last.
      rw [hgone]
      have hsame : Row.SameBut row.dropProof.setAside
          (keys.foldl (s.bankGroup e sid) row.dropProof.setAside) := groups_sameBut
      simpa [Row.setAside, Row.dropProof] using hsame.aside
    · have hrest : ∃ key ∈ keys, ∃ grower, s.bankOf e key = some (grower, pid) ∧ key.2 = cwd := by
        obtain ⟨key', hmem, hbank⟩ := htaken
        rcases List.mem_cons.mp hmem with rfl | hmem
        · exact absurd hbank hhere
        · exact ⟨key', hmem, hbank⟩
      have hstays : s.bankGroup e sid row key = row := by
        apply bankGroup_eq (hown key List.mem_cons_self)
        intro grower q hbank heq
        cases hproof.symm.trans heq
        exact hhere ⟨grower, hbank, rfl⟩
      rw [hstays]
      exact ih hown' hrest

theorem find?_found : (s.found e).find? sid =
    (e.seen.find? sid).map (Row.sight (s.rows.find? sid)) := Table.find?_image ..

theorem find?_retired : (s.retired e).find? sid =
    ((s.found e).find? sid).map (Row.retire (s.table e) (s.moved e sid) sid) :=
  Table.find?_mapRows ..

theorem find?_proveByGrowth : (s.proveByGrowth e).find? sid =
    ((s.retired e).find? sid).map (e.order.foldl (s.bankGroup e sid)) := Table.find?_mapRows ..

/-! ## what a group proves -/

/-- What one scan takes for the proof that `p` runs the session `sid` in `cwd`: the row is
the only one of its directory whose recent write counts, among its agent's rows, or among
all when a process of unknown kind runs there, and `p` the only candidate process there
that no other session owns. -/
structure Proves (s : Index) (e : Scan) (sid : Sid) (row : Row) (p : Proc) (cwd : Dir) : Prop where
  isRow : (s.retired e).find? sid = some row
  isDir : row.cwd = some cwd
  grows : s.grows e sid row = true
  usable : row.usable = true
  sole : ∀ other row', (s.retired e).find? other = some row' → row'.cwd = some cwd →
    s.grows e other row' = true → row'.usable = true →
    row'.agent = row.agent ∨ sharedCwd (s.table e).procs cwd = true → other = sid
  candidate : p ∈ growthCandidates (s.table e).procs row.agent cwd
  free : (s.retired e).freeFor p sid = true
  only : ∀ q ∈ growthCandidates (s.table e).procs row.agent cwd,
    (s.retired e).freeFor q sid = true → q = p
  permits : p.native.permits sid = true

theorem mem_writes : (sid, row) ∈ s.writes e key ↔
    (s.retired e).find? sid = some row ∧ s.grows e sid row = true ∧ row.usable = true ∧
      row.cwd = some key.2 ∧ matchingScope (s.table e).procs row.agent key.2 = key := by
  obtain ⟨scope, dir⟩ := key
  rw [writes, List.mem_filter, Table.mem_iff, decide_eq_true_eq, groupOf]
  by_cases hgrows : s.grows e sid row = true
  · cases hcwd : row.cwd with
    | none => simp [hgrows]
    | some cwd =>
      simp only [hgrows, if_true, Option.map_some, Option.some.injEq, true_and]
      have : (matchingScope (s.table e).procs row.agent cwd).2 = cwd := rfl
      grind
  · simp [hgrows]

theorem bankOf_eq_some (h : s.bankOf e key = some (sid, pid)) :
    ∃ row p, s.Proves e sid row p key.2 ∧ p.pid = pid ∧
      matchingScope (s.table e).procs row.agent key.2 = key := by
  unfold bankOf at h
  split at h
  · next grower row hwrites =>
    split at h
    · next p hcands =>
      split at h
      · next hpermits =>
        obtain ⟨rfl, rfl⟩ := Prod.mk.inj (Option.some.inj h)
        have hmem : (grower, row) ∈ s.writes e key := by simp [hwrites]
        obtain ⟨hrow, hgrows, husable, hcwd, hscope⟩ := mem_writes.mp hmem
        have hp := List.mem_filter.mp (hcands.symm ▸ List.mem_singleton_self p)
        refine ⟨row, p, ?_, rfl, hscope⟩
        constructor
        · exact hrow
        · exact hcwd
        · exact hgrows
        · exact husable
        · intro other row' hrow' hcwd' hgrows' husable' hagent
          have hscope' : matchingScope (s.table e).procs row'.agent key.2 = key := by
            rcases hagent with hagent | hshared
            · rw [hagent, hscope]
            · rw [← hscope]
              simp [matchingScope, hshared]
          have hmem' := mem_writes.mpr ⟨hrow', hgrows', husable', hcwd', hscope'⟩
          rw [hwrites, List.mem_singleton] at hmem'
          exact congrArg Prod.fst hmem'
        · exact hp.1
        · exact hp.2
        · intro q hq hfree
          have hmem' : q ∈ (growthCandidates (s.table e).procs row.agent key.2).filter
              fun p => (s.retired e).freeFor p grower := List.mem_filter.mpr ⟨hq, hfree⟩
          rw [hcands, List.mem_singleton] at hmem'
          exact hmem'
        · exact hpermits
      · cases h
    · cases h
  · cases h

/-- Two groups prove no link to one process. -/
theorem bankOf_inj {key key' : Option Agent × Dir} (h : s.bankOf e key = some (sid, pid))
    (h' : s.bankOf e key' = some (other, pid)) : key = key' := by
  obtain ⟨row, p, hproves, rfl, hkey⟩ := bankOf_eq_some h
  obtain ⟨row', q, hproves', hpid, hkey'⟩ := bankOf_eq_some h'
  obtain ⟨hp, -, hserves, hhelper, hshot, hcwd⟩ := mem_growthCandidates.mp hproves.candidate
  obtain ⟨hq, -, hserves', -, -, hcwd'⟩ := mem_growthCandidates.mp hproves'.candidate
  obtain rfl := ProcTable.eq_of_pid hq hp hpid
  have hdir : key'.2 = key.2 := Option.some.inj (hcwd'.symm.trans hcwd)
  calc
    key = matchingScope (s.table e).procs row.agent key.2 := hkey.symm
    _ = matchingScope (s.table e).procs row'.agent key.2 :=
      matchingScope_eq_of_serves hp hhelper hshot hcwd hserves hserves'
    _ = key' := by rw [← hdir, hkey']

/-- A proof of the scan is banked, by a group that the scan takes. -/
theorem Proves.banks {p : Proc} (hfollows : s.Follows e) (h : s.Proves e sid row p cwd) :
    ∃ key ∈ e.order, s.bankOf e key = some (sid, p.pid) ∧ key.2 = cwd := by
  have hmem : (sid, row) ∈ s.writes e (matchingScope (s.table e).procs row.agent cwd) :=
    mem_writes.mpr ⟨h.isRow, h.grows, h.usable, h.isDir, rfl⟩
  have hwrites : s.writes e (matchingScope (s.table e).procs row.agent cwd) = [(sid, row)] := by
    apply eq_singleton_of_nodup
    · exact (List.Nodup.of_map Prod.fst (s.retired e).unique).filter _
    · exact hmem
    · rintro ⟨other, row'⟩ hother
      obtain ⟨hrow', hgrows', husable', hcwd', hscope'⟩ := mem_writes.mp hother
      have hagent : row'.agent = row.agent ∨ sharedCwd (s.table e).procs cwd = true := by
        simp only [matchingScope] at hscope'
        grind
      obtain rfl := h.sole other row' hrow' hcwd' hgrows' husable' hagent
      rw [Option.some.inj (hrow'.symm.trans h.isRow)]
  have hcands : ((growthCandidates (s.table e).procs row.agent cwd).filter fun p =>
      (s.retired e).freeFor p sid) = [p] := by
    apply eq_singleton_of_nodup
    · exact ((List.Nodup.of_map _ (s.table e).distinct).filter _).filter _
    · exact List.mem_filter.mpr ⟨h.candidate, h.free⟩
    · intro q hq
      exact h.only q (List.mem_filter.mp hq).1 (List.mem_filter.mp hq).2
  refine ⟨matchingScope (s.table e).procs row.agent cwd, ?_, ?_, rfl⟩
  · rw [hfollows.order.mem_iff, groups, List.mem_dedup, List.mem_filterMap]
    exact ⟨(sid, row), Table.mem_iff.mpr h.isRow, by simp [groupOf, h.grows, h.isDir]⟩
  · unfold bankOf
    rw [hwrites]
    show (match (growthCandidates (s.table e).procs row.agent cwd).filter
        fun p => (s.retired e).freeFor p sid with
      | [p] => if p.native.permits sid then some (sid, p.pid) else none
      | _ => none) = _
    rw [hcands]
    exact if_pos h.permits

/-- A session has links proved by one group, its own. -/
theorem key_of_bankOf {key key' : Option Agent × Dir} {pid' : Pid}
    (h : s.bankOf e key = some (sid, pid)) (h' : s.bankOf e key' = some (sid, pid')) :
    key = key' := by
  obtain ⟨row, p, hproves, -, hkey⟩ := bankOf_eq_some h
  obtain ⟨row', p', hproves', -, hkey'⟩ := bankOf_eq_some h'
  obtain rfl := Option.some.inj (hproves.isRow.symm.trans hproves'.isRow)
  rw [← hkey, ← hkey', Option.some.inj (hproves.isDir.symm.trans hproves'.isDir)]

/-! ## the proofs after a scan -/

/-- A link that a group proves is the row's after all of them. -/
theorem groups_fresh (hmem : key ∈ keys) (hbank : s.bankOf e key = some (sid, pid)) :
    (keys.foldl (s.bankGroup e sid) row).provedPid = some (pid, key.2) := by
  induction keys using List.reverseRecOn with
  | nil => cases hmem
  | append_singleton keys last ih =>
    rw [List.foldl_append, List.foldl_cons, List.foldl_nil]
    by_cases hlast : last = key
    · rw [hlast, bankGroup, hbank]
      exact congrArg Row.provedPid (if_pos rfl)
    · have hbefore := ih (by simpa [Ne.symm hlast] using hmem)
      rw [bankGroup_eq, hbefore]
      · intro q hq
        exact hlast (key_of_bankOf hq hbank)
      · intro grower q hq heq
        obtain ⟨rfl, -⟩ := Prod.mk.inj (Option.some.inj (hbefore.symm.trans heq))
        exact hlast (bankOf_inj hq hbank)

/-- A proof that no group touches stays. -/
theorem groups_kept (hproof : row.provedPid = some proof)
    (hothers : ∀ key ∈ keys, ∀ grower pid, s.bankOf e key = some (grower, pid) →
      grower ≠ sid ∧ pid ≠ proof.1) :
    (keys.foldl (s.bankGroup e sid) row).provedPid = some proof := by
  induction keys using List.reverseRecOn with
  | nil => exact hproof
  | append_singleton keys last ih =>
    have hbefore := ih fun key hkey => hothers key (List.mem_append_left _ hkey)
    have hlast := hothers last (by simp)
    rw [List.foldl_append, List.foldl_cons, List.foldl_nil, bankGroup_eq, hbefore]
    · intro pid hbank
      exact (hlast sid pid hbank).1 rfl
    · intro grower pid hbank heq
      have hpid := Option.some.inj (hbefore.symm.trans heq)
      exact (hlast grower pid hbank).2 (congrArg Prod.fst hpid).symm

/-- Every proof a scan leaves is one it has just made, or one that has passed its checks,
when the scan makes none for the row, nor of its process. -/
theorem proof_cases (hrow : (s.scan e).rows.find? sid = some row)
    (hproof : row.provedPid = some proof) :
    (∃ key ∈ e.order, s.bankOf e key = some (sid, proof.1) ∧ key.2 = proof.2) ∨
      ∃ old, (s.retired e).find? sid = some old ∧ old.provedPid = some proof ∧
        ∀ key ∈ e.order, ∀ grower pid, s.bankOf e key = some (grower, pid) →
          grower ≠ sid ∧ (pid, key.2) ≠ proof := by
  rw [scan, find?_proveByGrowth] at hrow
  obtain ⟨old, hold, rfl⟩ := Option.map_eq_some_iff.mp hrow
  rcases groups_provedPid hproof with hfresh | ⟨hkept, hothers⟩
  · exact .inl hfresh
  · exact .inr ⟨old, hold, hkept, hothers⟩

/-- A proof that passes the checks of a scan: the row has it, and its process is in the
directory and may be running the session. -/
theorem retired_proof (hrow : (s.retired e).find? sid = some row)
    (hproof : row.provedPid = some proof) :
    (∃ old, s.rows.find? sid = some old ∧ old.provedPid = some proof) ∧
      s.moved e sid = false ∧
      ∃ p, (s.table e).byPid proof.1 = some p ∧ p.cwd = some proof.2 ∧
        p.native.permits sid = true := by
  rw [find?_retired] at hrow
  obtain ⟨found, hfound, rfl⟩ := Option.map_eq_some_iff.mp hrow
  obtain ⟨hproof, hmoved, -, hstill⟩ := Row.retire_provedPid hproof
  constructor
  · rw [find?_found] at hfound
    obtain ⟨g, -, rfl⟩ := Option.map_eq_some_iff.mp hfound
    cases hold : s.rows.find? sid with
    | none => simp [hold, Row.sight, Row.touch, Row.first, apply_ite] at hproof
    | some old =>
      refine ⟨old, rfl, ?_⟩
      rw [hold] at hproof
      simpa [Row.sight, Row.touch, apply_ite] using hproof
  · refine ⟨hmoved, ?_⟩
    simpa [stillThere, Option.any_eq_true] using hstill

/-- The process that a proof names is in the table, in the directory of the proof, and may
be running the session. -/
theorem proof_placed (hrow : (s.scan e).rows.find? sid = some row)
    (hproof : row.provedPid = some proof) :
    ∃ p, (s.table e).byPid proof.1 = some p ∧ p.cwd = some proof.2 ∧
      p.native.permits sid = true := by
  rcases proof_cases hrow hproof with ⟨key, -, hbank, hdir⟩ | ⟨old, hold, hkept, -⟩
  · obtain ⟨row', p, hproves, hpid, -⟩ := bankOf_eq_some hbank
    obtain ⟨hp, -, -, -, -, hcwd⟩ := mem_growthCandidates.mp hproves.candidate
    exact ⟨p, ProcTable.byPid_eq_some.mpr ⟨hp, hpid⟩, hdir ▸ hcwd, hproves.permits⟩
  · exact (retired_proof hold hkept).2.2

/-- No two rows bank a proof on one process. -/
def OneEach (s : Index) : Prop :=
  ∀ sid sid' row row' proof proof', s.rows.find? sid = some row →
    s.rows.find? sid' = some row' → row.provedPid = some proof → row'.provedPid = some proof' →
    proof.1 = proof'.1 → sid = sid'

theorem OneEach.scan (h : s.OneEach) (e : Scan) : (s.scan e).OneEach := by
  intro sid sid' row row' proof proof' hrow hrow' hproof hproof' hpid
  obtain ⟨p, hp, hdir, -⟩ := proof_placed hrow hproof
  obtain ⟨q, hq, hdir', -⟩ := proof_placed hrow' hproof'
  have hcwd : proof.2 = proof'.2 := by
    rw [hpid, hq] at hp
    obtain rfl := Option.some.inj hp
    exact Option.some.inj (hdir.symm.trans hdir')
  rcases proof_cases hrow hproof with ⟨key, hkey, hbank, hat⟩ | ⟨old, hold, hkept, hothers⟩
  · rcases proof_cases hrow' hproof' with ⟨key', -, hbank', -⟩ | ⟨old', -, -, hothers'⟩
    · rw [← hpid] at hbank'
      obtain rfl := bankOf_inj hbank hbank'
      exact congrArg Prod.fst (Option.some.inj (hbank.symm.trans hbank'))
    · have hother := (hothers' key hkey sid proof.1 hbank).2
      exact (hother (Prod.ext hpid (hat.trans hcwd))).elim
  · rcases proof_cases hrow' hproof' with ⟨key', hkey', hbank', hat'⟩ | ⟨old', hold', hkept', -⟩
    · have hother := (hothers key' hkey' sid' proof'.1 hbank').2
      exact (hother (Prod.ext hpid.symm (hat'.trans hcwd.symm))).elim
    · obtain ⟨first, hfirst, hfirstProof⟩ := (retired_proof hold hkept).1
      obtain ⟨first', hfirst', hfirstProof'⟩ := (retired_proof hold' hkept').1
      exact h sid sid' first first' proof proof' hfirst hfirst' hfirstProof hfirstProof' hpid

/-- In every run of scans, no two rows bank a proof on one process. -/
theorem run_oneEach {es : List Scan} {t : Index} (h : Run Step empty es t) : t.OneEach := by
  apply h.kept (P := OneEach) (Q := fun _ => True)
  · rintro s e t - ⟨-, rfl⟩ hs
    exact hs.scan e
  · simp
  · intro sid _ row _ _ _ hrow
    cases hrow

/-- Every scan makes one index of another. -/
theorem run_eq {es : List Scan} {t : Index} (h : Run Step s es t) : t = es.foldl scan s := by
  induction h with
  | nil s => rfl
  | cons hstep _ ih => rw [ih, ← hstep.2, List.foldl_cons]

end Index

end ClaudeReplay.Linking
