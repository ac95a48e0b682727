import ClaudeReplay.Linking.OneShots

/-!
# ClaudeReplay.Linking.Links

The links of a snapshot, and what they share.

`assemble` links a session to a process in one of five ways, in an order that depends on
the row: by what the process names or holds open (`linkIn`), by the growth banked on the
row, by the times at which a one-shot and its session began (`paired`), and last by the
directory, where the newest session takes a process that nothing else claims. `Kind` is
the way a link was made.

The processes that are named and those that a proof is banked on are reserved before the
directory is asked. Nothing asks whether a proof that an earlier scan banked, or a pairing
by time, has met a process that another row is linked to since: `Apart` says of one scan
that none has. In every run, no two rows bank a proof on one process, and in a scan that
is `Apart` no row shares the process that a guess gives it. `two_rows_one_process` has a
run with a scan that is not.

Whether a link is confirmed, and its terminal, are left out.
-/

namespace ClaudeReplay.Linking

open Lib OneShots

/-! ## one-shots -/

/-- `pair_one_shots`, for the session `sid`. -/
def paired (rows : Rows) (procs : List Proc) (sid : Sid) : Option OneShotPair :=
  (pairOneShots procs (oneShotSessions rows)).find? sid

/-! ## what a process names -/

/-- How well a process is hosted: a helper or a one-shot is where another one was. -/
def Proc.hostRank (p : Proc) : Nat := if p.helper || p.oneShot then 0 else p.rank

/-- The best hosted of some processes, and the lowest pid of these. -/
def bestHosted : List Proc → Option Proc
  | [] => none
  | p :: ps =>
    match bestHosted ps with
    | none => some p
    | some q => if q.hostRank < p.hostRank ∨ p.hostRank = q.hostRank ∧ p.pid < q.pid then some p else some q

/-- Directory matching is for the session selected, and for the processes nobody claims. -/
inductive DirectoryMatch
  | disabled
  | unclaimed (claimed : List Pid)

/-- `link_in`. -/
def linkIn (rows : Rows) (procs : ProcTable) (sid : Sid) (row : Row) (dm : DirectoryMatch) : Option Proc :=
  let candidates := procs.procs.filter fun p =>
    p.agentExe && rows.names p sid && p.serves row.agent && p.native.permits sid
  let recorded (p : Proc) : Bool := p.native.session = some sid
  let nativeHelper := candidates.any fun p => recorded p && p.helper
  let named := (bestHosted (candidates.filter fun p => recorded p && !p.helper)).or
    (bestHosted (candidates.filter fun p => !nativeHelper || recorded p || p.attachClient))
  let holding := procs.procs.find? fun p =>
    p.agentExe && row.path ∈ p.openJsonl && p.serves row.agent && p.native.permits sid
  let directory := match row.cwd, dm with
    | some cwd, .unclaimed claimed =>
      bestHosted (procs.procs.filter fun p =>
        p.agentExe && p.serves row.agent && !p.helper && !p.oneShot && p.cwd = some cwd &&
          p.sessionRef.isNone && p.pid ∉ claimed)
    | _, _ => none
  named.or (holding.or directory)

/-! ## the snapshot -/

/-- The way a link was made. -/
inductive Kind
  /-- The process's record, its argv or its open transcript. -/
  | named
  | growth
  | paired (evidence : OneShotEvidence)
  | directory
  deriving DecidableEq

/-- The link is a guess about which session the process runs. -/
def Kind.inferred : Kind → Bool
  | named | paired .registered => false
  | growth | paired (.timed _) | directory => true

/-- `newest_by_cwd`, over the rows that compete. -/
def newestByCwd (rows : Rows) (procs : List Proc) (competes : Sid → Row → Bool)
    (key : Option Agent × Dir) : Option (Sid × Nat) :=
  rows.rows.foldl (fun best row =>
    match row.2.cwd, row.2.treeMtime with
    | some cwd, some mtime =>
      if competes row.1 row.2 ∧ matchingScope procs row.2.agent cwd = key then
        match best with
        | none => some (row.1, mtime)
        | some (sid, m) => if m < mtime then some (row.1, mtime) else some (sid, m)
      else best
    | _, _ => best) none

namespace Index

variable (s : Index) (e : Scan)

/-- The process that a banked proof links a row to. -/
def provedLink (sid : Sid) (row : Row) : Option Pid :=
  if s.moved e sid then none
  else (row.provedPid.filter (stillThere (s.table e) sid)).map Prod.fst

/-- The link to a process that names the session, or holds its transcript. -/
def explicitLink (sid : Sid) (row : Row) : Option Proc :=
  linkIn (s.scan e).rows (s.table e) sid row .disabled

/-- The processes that the directory may not take: those that own a session, and those a
proof is banked on. -/
def claimedPids : List Pid :=
  ((s.table e).procs.filter fun p => (s.scan e).rows.owners p ≠ []).map (·.pid) ++
    (s.scan e).rows.rows.filterMap fun row => s.provedLink e row.1 row.2

/-- The rows that compete for the processes of a directory. -/
def competes (sid : Sid) (row : Row) : Bool :=
  (paired (s.scan e).rows (s.table e).procs sid).isNone && (s.explicitLink e sid row).isNone &&
    (s.provedLink e sid row).isNone && !s.moved e sid

def newest (key : Option Agent × Dir) : Option (Sid × Nat) :=
  newestByCwd (s.scan e).rows (s.table e).procs (s.competes e) key

/-- `heuristic_ok`: the row is the newest of its directory. -/
def heuristicOk (sid : Sid) (row : Row) : Bool :=
  row.cwd.any fun cwd =>
    (s.newest e (matchingScope (s.table e).procs row.agent cwd)).any fun best => best.1 = sid

/-- The link that `assemble` gives a row. -/
def rowLink (sid : Sid) (row : Row) : Option (Pid × Kind) :=
  let explicit := (s.explicitLink e sid row).map fun p => (p.pid, Kind.named)
  let owned := if nativeOwner (s.table e) sid row then explicit else none
  let proved := (s.provedLink e sid row).map fun pid => (pid, Kind.growth)
  let pair := (paired (s.scan e).rows (s.table e).procs sid).bind fun pair =>
    ((s.table e).byPid pair.pid).map fun p => (p.pid, Kind.paired pair.evidence)
  let directory :=
    if s.heuristicOk e sid row then
      (linkIn (s.scan e).rows (s.table e) sid row (.unclaimed (s.claimedPids e))).map fun p =>
        (p.pid, Kind.directory)
    else none
  owned.or (proved.or (pair.or (explicit.or directory)))

/-- The link of a session in the snapshot that the scan assembles. -/
def link (sid : Sid) : Option (Pid × Kind) :=
  ((s.scan e).rows.find? sid).bind (s.rowLink e sid)

end Index

/-! ## what each link says of its process -/

theorem bestHosted_mem {ps : List Proc} {p : Proc} (h : bestHosted ps = some p) : p ∈ ps := by
  induction ps generalizing p with
  | nil => cases h
  | cons q ps ih => grind [bestHosted]

variable {rows : Rows} {procs : ProcTable} {sid : Sid} {row : Row} {p : Proc}

/-- What a process names, or holds open, is a session it owns. -/
theorem linkIn_disabled (hrow : rows.find? sid = some row)
    (h : linkIn rows procs sid row .disabled = some p) :
    p ∈ procs.procs ∧ sid ∈ rows.owners p := by
  have hsome : (rows.find? sid).isSome = true := by rw [hrow]; rfl
  simp only [linkIn] at h
  rcases Option.or_eq_some_iff.mp h with hnamed | ⟨-, hrest⟩
  · have hmem : p ∈ procs.procs.filter fun p =>
        p.agentExe && rows.names p sid && p.serves row.agent && p.native.permits sid := by
      rcases Option.or_eq_some_iff.mp hnamed with hbest | ⟨-, hbest⟩
      · exact (List.mem_filter.mp (bestHosted_mem hbest)).1
      · exact (List.mem_filter.mp (bestHosted_mem hbest)).1
    simp only [List.mem_filter, Bool.and_eq_true] at hmem
    obtain ⟨hp, ⟨⟨hexe, hnames⟩, -⟩, -⟩ := hmem
    refine ⟨hp, ?_⟩
    rw [Rows.owners, if_pos hexe]
    simp [(Rows.names_iff hsome).mp hnames]
  · rcases Option.or_eq_some_iff.mp hrest with hholding | ⟨-, hdirectory⟩
    · have hp := List.mem_of_find?_eq_some hholding
      have hholds := List.find?_some hholding
      simp only [Bool.and_eq_true, decide_eq_true_eq] at hholds
      obtain ⟨⟨⟨hexe, hopen⟩, -⟩, hpermits⟩ := hholds
      refine ⟨hp, ?_⟩
      rw [Rows.owners, if_pos hexe]
      exact List.mem_append_right _ (Rows.mem_heldBy.mpr ⟨row, hrow, hopen, hpermits⟩)
    · cases hcwd : row.cwd <;> simp [hcwd] at hdirectory

/-- What the directory gives, when nothing names the session, is an interactive process of
that directory that names no session and that nothing claims. -/
theorem linkIn_unclaimed {claimed : List Pid}
    (hnone : linkIn rows procs sid row .disabled = none)
    (h : linkIn rows procs sid row (.unclaimed claimed) = some p) :
    ∃ cwd, row.cwd = some cwd ∧ p ∈ procs.procs ∧ p.serves row.agent = true ∧ p.helper = false ∧
      p.oneShot = false ∧ p.cwd = some cwd ∧ p.sessionRef = none ∧ p.pid ∉ claimed := by
  simp only [linkIn, Option.or_eq_none_iff] at hnone h
  obtain ⟨⟨hfirst, hsecond⟩, hholding, -⟩ := hnone
  rw [hfirst, hsecond, hholding, Option.none_or, Option.none_or, Option.none_or] at h
  cases hcwd : row.cwd with
  | none => simp [hcwd] at h
  | some cwd =>
    rw [hcwd] at h
    have hmem := bestHosted_mem h
    simp only [List.mem_filter, Bool.and_eq_true, Bool.not_eq_true', decide_eq_true_eq,
      Option.isNone_iff_eq_none] at hmem
    obtain ⟨hp, ⟨⟨⟨⟨⟨-, hserves⟩, hhelper⟩, hshot⟩, hdir⟩, href⟩, hfree⟩ := hmem
    exact ⟨cwd, rfl, hp, hserves, hhelper, hshot, hdir, href, hfree⟩

theorem paired_eq {procs : List Proc} :
    paired rows procs sid = (pairOneShots procs (indexed rows).sessions).find? sid := rfl

/-- A pair is with a one-shot. -/
theorem paired_worker {pair : OneShotPair} (h : paired rows procs.procs sid = some pair) :
    ∃ p ∈ procs.procs, p.pid = pair.pid ∧ p.worker = true := by
  rw [paired_eq] at h
  obtain ⟨p, hp, hpid, hworker, -⟩ := proc_of_pair h
  exact ⟨p, hp, hpid, hworker⟩

/-! ## rows that differ in nothing a link reads -/

theorem headed_mapRows (f : Sid → Row → Row) (start : String) :
    Rows.headed (rows.mapRows f) start = rows.headed start := by
  simp [Rows.headed, Table.mapRows, Function.comp_def]

/-- What a process names depends on which sessions there are. -/
theorem linkIn_mapRows (f : Sid → Row → Row) (dm : DirectoryMatch) :
    linkIn (rows.mapRows f) procs sid row dm = linkIn rows procs sid row dm := by
  have hnames : ∀ p, Rows.names (rows.mapRows f) p sid = rows.names p sid := by
    intro p
    simp [Rows.names, Rows.soleHeaded, headed_mapRows]
  simp only [linkIn, hnames]

theorem owners_mapRows (f : Sid → Row → Row) (hpath : ∀ sid row, (f sid row).path = row.path) :
    Rows.owners (rows.mapRows f) p = rows.owners p := by
  have hresolve : Rows.resolve (rows.mapRows f) = rows.resolve := by
    funext ref
    cases ref with
    | exact id => cases h : rows.find? id <;> simp [Rows.resolve, Table.find?_mapRows, h]
    | headed start => simp [Rows.resolve, headed_mapRows]
  have hheld : Rows.heldBy (rows.mapRows f) p = rows.heldBy p := by
    simp [Rows.heldBy, Table.mapRows, List.filter_map, Function.comp_def, hpath]
  rw [Rows.owners, Rows.owners, hresolve, hheld]

/-- What a row takes by name depends on its path, its agent and its directory. -/
theorem linkIn_sameBut {row' : Row} (h : Row.SameBut row row') (dm : DirectoryMatch) :
    linkIn rows procs sid row' dm = linkIn rows procs sid row dm := by
  simp only [linkIn, h.path, h.agent, h.cwd]

theorem paired_mapRows (f : Sid → Row → Row) (hcwd : ∀ sid row, (f sid row).cwd = row.cwd)
    (hshot : ∀ sid row, (f sid row).oneShot = row.oneShot)
    (hfirst : ∀ sid row, (f sid row).firstEvent = row.firstEvent) :
    paired (rows.mapRows f) procs.procs sid = paired rows procs.procs sid := by
  have hsessions : oneShotSessions (rows.mapRows f) = oneShotSessions rows := by
    simp only [oneShotSessions, Table.mapRows, List.filterMap_map, Function.comp_def, hcwd, hshot,
      hfirst]
  rw [paired, hsessions, paired]

namespace Index

variable {s : Index} {e : Scan} {sid sid' : Sid} {row : Row} {pid : Pid} {kind kind' : Kind}

/-! ## what a guess may meet -/

/-- The process that a group of the scan proves the session's. -/
def freshPid (s : Index) (e : Scan) (sid : Sid) : Option Pid :=
  e.order.findSome? fun key => (s.bankOf e key).bind fun link =>
    if link.1 = sid then some link.2 else none

/-- The process of a proof that an earlier scan banked, when it passes the checks of this
one, and this one proves no link of the session nor of the process. -/
def keptPid (s : Index) (e : Scan) (sid : Sid) : Option Pid :=
  ((s.retired e).find? sid).bind fun row => row.provedPid.bind fun proof =>
    if s.freshPid e sid = none ∧ ∀ key ∈ e.order, ∀ link ∈ s.bankOf e key, link.2 ≠ proof.1 then
      some proof.1
    else none

/-- The process that names the session, or holds its transcript. -/
def ownerPid (s : Index) (e : Scan) (sid : Sid) : Option Pid :=
  ((s.found e).find? sid).bind fun row =>
    (linkIn (s.found e) (s.table e) sid row .disabled).map (·.pid)

/-- The one-shot that is paired with the session. -/
def pairOf (s : Index) (e : Scan) (sid : Sid) : Option OneShotPair :=
  paired (s.found e) (s.table e).procs sid

/-- The process that the session takes by what the process says, or by a pairing. A record
that names the session goes first, and growth before the rest. -/
def takes (s : Index) (e : Scan) (sid : Sid) : Option Pid :=
  if ((s.found e).find? sid).any (nativeOwner (s.table e) sid) ∧ (s.ownerPid e sid).isSome then
    s.ownerPid e sid
  else if (s.freshPid e sid).isSome ∨ (s.keptPid e sid).isSome then none
  else ((s.pairOf e sid).map (·.pid)).or (s.ownerPid e sid)

/-- The process that an older proof or the times guess for the session. -/
def guess (s : Index) (e : Scan) (sid : Sid) : Option Pid :=
  (s.keptPid e sid).or <| (s.pairOf e sid).bind fun pair =>
    if pair.evidence.isTimed ∧ s.takes e sid = some pair.pid then some pair.pid else none

/-- No process that an older proof, or the times, give one row is taken by another. -/
def Apart (s : Index) (e : Scan) : Prop :=
  ∀ r ∈ (s.found e).rows, ∀ r' ∈ (s.found e).rows, r.1 ≠ r'.1 →
    ∀ pid ∈ s.guess e r.1, s.takes e r'.1 ≠ some pid

theorem freshPid_eq_some :
    s.freshPid e sid = some pid → ∃ key ∈ e.order, s.bankOf e key = some (sid, pid) := by
  intro h
  obtain ⟨key, hkey, hlink⟩ := List.exists_of_findSome?_eq_some h
  obtain ⟨⟨grower, q⟩, hbank, hif⟩ := Option.bind_eq_some_iff.mp hlink
  split at hif
  · next heq => exact ⟨key, hkey, by grind⟩
  · cases hif

theorem freshPid_eq_none (h : s.freshPid e sid = none) {key : Option Agent × Dir}
    (hkey : key ∈ e.order) : s.bankOf e key ≠ some (sid, pid) := by
  intro hbank
  have := List.findSome?_eq_none_iff.mp h key hkey
  simp [hbank] at this

/-- A row has a proof after a scan exactly when the scan made it, or kept it. -/
theorem proved_iff (hrow : (s.scan e).rows.find? sid = some row) :
    row.provedPid.map Prod.fst = (s.freshPid e sid).or (s.keptPid e sid) := by
  have hrow' := hrow
  rw [scan, find?_proveByGrowth] at hrow'
  obtain ⟨mid, hmid, rfl⟩ := Option.map_eq_some_iff.mp hrow'
  cases hfresh : s.freshPid e sid with
  | some pid =>
    obtain ⟨key, hkey, hbank⟩ := freshPid_eq_some hfresh
    rw [groups_fresh hkey hbank]
    rfl
  | none =>
    rw [Option.none_or]
    cases hproof : (e.order.foldl (s.bankGroup e sid) mid).provedPid with
    | some proof =>
      rcases proof_cases hrow hproof with ⟨key, hkey, hbank, -⟩ | ⟨old, hold, hkept, hothers⟩
      · exact absurd hbank (freshPid_eq_none hfresh hkey)
      · obtain ⟨p, hp, hdir, -⟩ := proof_placed hrow hproof
        have hfree : ∀ key ∈ e.order, ∀ link ∈ s.bankOf e key, link.2 ≠ proof.1 := by
          rintro key hkey ⟨grower, pid⟩ hbank rfl
          obtain ⟨row', q, hproves, hpid, -⟩ := bankOf_eq_some hbank
          obtain ⟨hq, -, -, -, -, hcwd⟩ := mem_growthCandidates.mp hproves.candidate
          obtain ⟨hp', hpid'⟩ := ProcTable.byPid_eq_some.mp hp
          obtain rfl := ProcTable.eq_of_pid hq hp' (hpid.trans hpid'.symm)
          have hat : key.2 = proof.2 := Option.some.inj (hcwd.symm.trans hdir)
          exact (hothers key hkey grower proof.1 hbank).2 (by rw [hat])
        rw [keptPid, hold, Option.bind_some, hkept, Option.bind_some, if_pos ⟨hfresh, hfree⟩]
        rfl
    | none =>
      symm
      rw [Option.map_none, keptPid, hmid, Option.bind_some, Option.bind_eq_none_iff]
      intro proof hkept
      rw [if_neg]
      rintro ⟨-, hfree⟩
      have hothers : ∀ key ∈ e.order, ∀ grower pid, s.bankOf e key = some (grower, pid) →
          grower ≠ sid ∧ pid ≠ proof.1 := by
        intro key hkey grower pid hbank
        constructor
        · rintro rfl
          exact freshPid_eq_none hfresh hkey hbank
        · exact hfree key hkey (grower, pid) hbank
      rw [groups_kept hkept hothers] at hproof
      cases hproof

/-! ## the ways of linking, one by one -/

/-- The rows after a scan are the rows found, with other proofs and marks. -/
theorem scan_rows (s : Index) (e : Scan) :
    ∃ f : Sid → Row → Row, (s.scan e).rows = (s.found e).mapRows f ∧
      ∀ sid row, Row.SameBut row (f sid row) := by
  refine ⟨fun sid row => e.order.foldl (s.bankGroup e sid)
    (row.retire (s.table e) (s.moved e sid) sid), ?_, ?_⟩
  · simp [scan, proveByGrowth, retired, Table.mapRows, Function.comp_def]
  · intro sid row
    exact Row.retire_sameBut.trans groups_sameBut

theorem explicitLink_eq (hrow : (s.scan e).rows.find? sid = some row) :
    (s.explicitLink e sid row).map (·.pid) = s.ownerPid e sid := by
  obtain ⟨f, hrows, hsame⟩ := scan_rows s e
  rw [hrows, Table.find?_mapRows] at hrow
  obtain ⟨found, hfound, rfl⟩ := Option.map_eq_some_iff.mp hrow
  rw [explicitLink, hrows, linkIn_mapRows, linkIn_sameBut (hsame sid found), ownerPid, hfound,
    Option.bind_some]

theorem pairOf_eq : paired (s.scan e).rows (s.table e).procs sid = s.pairOf e sid := by
  obtain ⟨f, hrows, hsame⟩ := scan_rows s e
  rw [hrows, pairOf]
  apply paired_mapRows
  · exact fun sid row => (hsame sid row).cwd
  · exact fun sid row => (hsame sid row).oneShot
  · exact fun sid row => (hsame sid row).firstEvent

theorem nativeOwner_eq (hrow : (s.scan e).rows.find? sid = some row) :
    ((s.found e).find? sid).any (nativeOwner (s.table e) sid) = nativeOwner (s.table e) sid row := by
  obtain ⟨f, hrows, hsame⟩ := scan_rows s e
  rw [hrows, Table.find?_mapRows] at hrow
  obtain ⟨found, hfound, rfl⟩ := Option.map_eq_some_iff.mp hrow
  rw [hfound, Option.any_some, nativeOwner, nativeOwner, (hsame sid found).agent]

theorem provedLink_eq (hrow : (s.scan e).rows.find? sid = some row) :
    s.provedLink e sid row = (s.freshPid e sid).or (s.keptPid e sid) := by
  rw [← proved_iff hrow]
  cases hproof : row.provedPid with
  | none => simp [provedLink, hproof]
  | some proof =>
    have hmoved : s.moved e sid = false := by
      rcases proof_cases hrow hproof with ⟨key, -, hbank, -⟩ | ⟨old, hold, hkept, -⟩
      · obtain ⟨row', p, hproves, -⟩ := bankOf_eq_some hbank
        have hgrows := hproves.grows
        simp only [grows, Bool.and_eq_true, Bool.not_eq_true'] at hgrows
        exact hgrows.1.1
      · exact (retired_proof hold hkept).2.1
    obtain ⟨p, hp, hdir, hpermits⟩ := proof_placed hrow hproof
    simp [provedLink, hmoved, hproof, stillThere, hp, hdir, hpermits]

/-- The four ways in which a row has its link. -/
theorem link_cases (h : s.link e sid = some (pid, kind)) :
    kind = .named ∧ s.takes e sid = some pid ∧
        (∃ p ∈ (s.table e).procs, p.pid = pid ∧ sid ∈ (s.found e).owners p) ∨
      kind = .growth ∧ (s.freshPid e sid).or (s.keptPid e sid) = some pid ∨
      (∃ evidence, kind = .paired evidence ∧ s.takes e sid = some pid ∧
        s.pairOf e sid = some ⟨pid, evidence⟩ ∧ s.keptPid e sid = none) ∨
      kind = .directory ∧ ∃ row, (s.scan e).rows.find? sid = some row ∧
        s.heuristicOk e sid row = true ∧ ∃ cwd p, row.cwd = some cwd ∧ p ∈ (s.table e).procs ∧
          p.pid = pid ∧ p.serves row.agent = true ∧ p.helper = false ∧ p.oneShot = false ∧
            p.cwd = some cwd ∧ p.pid ∉ s.claimedPids e := by
  obtain ⟨row, hrow, hlink⟩ := Option.bind_eq_some_iff.mp h
  have hexplicit := explicitLink_eq hrow
  have hproved := provedLink_eq hrow
  have hnative := nativeOwner_eq hrow
  have howner {p : Proc} (hp : s.explicitLink e sid row = some p) :
      p ∈ (s.table e).procs ∧ sid ∈ (s.found e).owners p := by
    obtain ⟨f, hrows, hsame⟩ := scan_rows s e
    have := linkIn_disabled hrow hp
    rwa [hrows, owners_mapRows f fun sid row => (hsame sid row).path] at this
  simp only [rowLink, pairOf_eq] at hlink
  rcases Option.or_eq_some_iff.mp hlink with howned | ⟨hunowned, hlink⟩
  · split at howned
    · next hnat =>
      obtain ⟨p, hp, hpid⟩ := Option.map_eq_some_iff.mp howned
      obtain ⟨rfl, rfl⟩ := Prod.mk.inj hpid
      left
      refine ⟨rfl, ?_, p, (howner hp).1, rfl, (howner hp).2⟩
      rw [takes, ← hexplicit, hp, if_pos ⟨hnative.trans hnat, rfl⟩, Option.map_some]
    · cases howned
  have htakes : ¬(((s.found e).find? sid).any (nativeOwner (s.table e) sid) = true ∧
      (s.ownerPid e sid).isSome = true) := by
    rintro ⟨hnat, hsome⟩
    rw [← hexplicit, Option.isSome_map, Option.isSome_iff_exists] at hsome
    obtain ⟨p, hp⟩ := hsome
    rw [hnative] at hnat
    simp [hnat, hp] at hunowned
  rcases Option.or_eq_some_iff.mp hlink with hgrowth | ⟨hunproved, hlink⟩
  · obtain ⟨q, hq, hpid⟩ := Option.map_eq_some_iff.mp hgrowth
    obtain ⟨rfl, rfl⟩ := Prod.mk.inj hpid
    exact .inr (.inl ⟨rfl, hproved.symm.trans hq⟩)
  rw [Option.map_eq_none_iff, hproved, Option.or_eq_none_iff] at hunproved
  have htakes' : s.takes e sid = ((s.pairOf e sid).map (·.pid)).or (s.ownerPid e sid) := by
    rw [takes, if_neg htakes, if_neg (by simp [hunproved])]
  rcases Option.or_eq_some_iff.mp hlink with hpaired | ⟨hunpaired, hlink⟩
  · obtain ⟨pair, hpair, hmap⟩ := Option.bind_eq_some_iff.mp hpaired
    obtain ⟨p, hp, hpid⟩ := Option.map_eq_some_iff.mp hmap
    obtain ⟨rfl, rfl⟩ := Prod.mk.inj hpid
    have hpid := (ProcTable.byPid_eq_some.mp hp).2
    refine .inr (.inr (.inl ⟨pair.evidence, rfl, ?_, ?_, hunproved.2⟩))
    · rw [htakes', hpair, hpid]
      rfl
    · rw [hpair, hpid]
  have hnopair : s.pairOf e sid = none := by
    rw [Option.eq_none_iff_forall_ne_some]
    intro pair hpair
    obtain ⟨p, hp, hpid, -⟩ := paired_worker (pairOf_eq.trans hpair)
    rw [hpair, Option.bind_some, ProcTable.byPid_eq_some.mpr ⟨hp, hpid⟩] at hunpaired
    cases hunpaired
  rcases Option.or_eq_some_iff.mp hlink with hnamed | ⟨hunnamed, hlink⟩
  · obtain ⟨p, hp, hpid⟩ := Option.map_eq_some_iff.mp hnamed
    obtain ⟨rfl, rfl⟩ := Prod.mk.inj hpid
    left
    refine ⟨rfl, ?_, p, (howner hp).1, rfl, (howner hp).2⟩
    rw [htakes', hnopair, ← hexplicit, hp]
    rfl
  · split at hlink
    · next hok =>
      obtain ⟨p, hp, hpid⟩ := Option.map_eq_some_iff.mp hlink
      obtain ⟨rfl, rfl⟩ := Prod.mk.inj hpid
      obtain ⟨cwd, hcwd, hmem, hserves, hhelper, hshot, hdir, -, hfree⟩ :=
        linkIn_unclaimed (Option.map_eq_none_iff.mp hunnamed) hp
      exact .inr (.inr (.inr ⟨rfl, row, hrow, hok, cwd, p, hcwd, hmem, rfl, hserves, hhelper, hshot,
        hdir, hfree⟩))
    · cases hlink

/-! ## one process, one session -/

variable {p : Proc}

/-- A process that some row of the scan owns, or has a proof of, is claimed. -/
theorem mem_claimedPids (hp : p ∈ (s.table e).procs)
    (h : (∃ sid, sid ∈ (s.found e).owners p) ∨
      ∃ sid row, (s.scan e).rows.find? sid = some row ∧ s.provedLink e sid row = some p.pid) :
    p.pid ∈ s.claimedPids e := by
  rcases h with ⟨sid, howner⟩ | ⟨sid, row, hrow, hproved⟩
  · obtain ⟨f, hrows, hsame⟩ := scan_rows s e
    apply List.mem_append_left
    refine List.mem_map.mpr ⟨p, List.mem_filter.mpr ⟨hp, ?_⟩, rfl⟩
    rw [hrows, owners_mapRows f fun sid row => (hsame sid row).path]
    exact decide_eq_true (List.ne_nil_of_mem howner)
  · apply List.mem_append_right
    exact List.mem_filterMap.mpr ⟨(sid, row), Table.mem_iff.mpr hrow, hproved⟩

/-- The process of a fresh proof is interactive, and no other session owns it. -/
theorem fresh_process (h : s.freshPid e sid = some pid) :
    ∃ p ∈ (s.table e).procs, p.pid = pid ∧ p.oneShot = false ∧
      ∀ other ∈ (s.found e).owners p, other = sid := by
  obtain ⟨key, -, hbank⟩ := freshPid_eq_some h
  obtain ⟨row, p, hproves, hpid, -⟩ := bankOf_eq_some hbank
  obtain ⟨hp, -, -, -, hshot, -⟩ := mem_growthCandidates.mp hproves.candidate
  refine ⟨p, hp, hpid, hshot, ?_⟩
  have hfree := hproves.free
  simp only [Rows.freeFor, Bool.and_eq_true, List.all_eq_true, decide_eq_true_eq] at hfree
  rw [retired, owners_mapRows _ fun sid row => Row.retire_sameBut.path] at hfree
  exact hfree.2

/-- A row linked by growth has a proof of its process. -/
theorem growth_row (h : s.link e sid = some (pid, .growth)) :
    ∃ row cwd, (s.scan e).rows.find? sid = some row ∧ row.provedPid = some (pid, cwd) ∧
      s.provedLink e sid row = some pid := by
  obtain ⟨row, hrow, -⟩ := Option.bind_eq_some_iff.mp h
  rcases link_cases h with ⟨hk, -⟩ | ⟨-, hpid⟩ | ⟨_, hk, -⟩ | ⟨hk, -⟩
  · cases hk
  · have hproved := (proved_iff hrow).trans hpid
    obtain ⟨⟨q, cwd⟩, hproof, rfl⟩ := Option.map_eq_some_iff.mp hproved
    exact ⟨row, cwd, hrow, hproof, (provedLink_eq hrow).trans hpid⟩
  · cases hk
  · cases hk

theorem linked_row (h : s.link e sid = some (pid, kind)) :
    ∃ row, (s.found e).find? sid = some row := by
  obtain ⟨row, hrow, -⟩ := Option.bind_eq_some_iff.mp h
  obtain ⟨f, hrows, -⟩ := scan_rows s e
  rw [hrows, Table.find?_mapRows] at hrow
  obtain ⟨found, hfound, -⟩ := Option.map_eq_some_iff.mp hrow
  exact ⟨found, hfound⟩

/-- What a guess gives one linked row, no other linked row takes. -/
theorem Apart.eq (hapart : s.Apart e) (h : s.link e sid = some (pid, kind))
    (h' : s.link e sid' = some (pid, kind')) (hguess : s.guess e sid = some pid)
    (htakes : s.takes e sid' = some pid) : sid = sid' := by
  obtain ⟨row, hrow⟩ := linked_row h
  obtain ⟨row', hrow'⟩ := linked_row h'
  by_contra hne
  exact hapart (sid, row) (Table.mem_iff.mpr hrow) (sid', row') (Table.mem_iff.mpr hrow') hne pid
    hguess htakes

theorem oneShot_of_worker (h : p.worker = true) : p.oneShot = true := by
  simp only [Proc.worker, Bool.and_eq_true] at h
  exact h.1.2

/-- A row linked by growth shares its process with no other. -/
theorem growth_alone (hone : (s.scan e).OneEach) (hapart : s.Apart e)
    (h : s.link e sid = some (pid, .growth)) (h' : s.link e sid' = some (pid, kind')) :
    sid = sid' := by
  obtain ⟨row, cwd, hrow, hproof, hproved⟩ := growth_row h
  have hfrom := hproved.symm.trans (provedLink_eq hrow)
  -- A fresh proof is of a process that is free; an older one is a guess.
  rcases Option.or_eq_some_iff.mp hfrom.symm with hfresh | ⟨-, hkept⟩
  · obtain ⟨p, hp, hpid, hshot, hfree⟩ := fresh_process hfresh
    rcases link_cases h' with ⟨-, -, q, hq, hqid, howner⟩ | ⟨hk, -⟩ | ⟨evidence, -, -, hpair, -⟩ |
        ⟨-, _, -, -, _, q, -, hq, hqid, -, -, -, -, hunclaimed⟩
    · obtain rfl := ProcTable.eq_of_pid hp hq (hpid.trans hqid.symm)
      exact (hfree sid' howner).symm
    · subst hk
      obtain ⟨row', cwd', hrow', hproof', -⟩ := growth_row h'
      exact hone sid sid' row row' (pid, cwd) (pid, cwd') hrow hrow' hproof hproof' rfl
    · obtain ⟨q, hq, hqid, hworker⟩ := paired_worker hpair
      obtain rfl := ProcTable.eq_of_pid hp hq (hpid.trans hqid.symm)
      rw [oneShot_of_worker hworker] at hshot
      cases hshot
    · exact absurd (mem_claimedPids hq (.inr ⟨sid, row, hrow, hqid ▸ hproved⟩)) hunclaimed
  · have hguess : s.guess e sid = some pid := by rw [guess, hkept, Option.some_or]
    rcases link_cases h' with ⟨-, htakes, -⟩ | ⟨hk, -⟩ | ⟨evidence, -, htakes, -⟩ |
        ⟨-, _, -, -, _, q, -, hq, hqid, -, -, -, -, hunclaimed⟩
    · exact hapart.eq h h' hguess htakes
    · subst hk
      obtain ⟨row', cwd', hrow', hproof', -⟩ := growth_row h'
      exact hone sid sid' row row' (pid, cwd) (pid, cwd') hrow hrow' hproof hproof' rfl
    · exact hapart.eq h h' hguess htakes
    · exact absurd (mem_claimedPids hq (.inr ⟨sid, row, hrow, hqid ▸ hproved⟩)) hunclaimed

/-- A row paired by time shares its process with no other. -/
theorem timed_alone {n : Nat} (hone : (s.scan e).OneEach) (hapart : s.Apart e)
    (h : s.link e sid = some (pid, .paired (.timed n))) (h' : s.link e sid' = some (pid, kind')) :
    sid = sid' := by
  rcases link_cases h with ⟨hk, -⟩ | ⟨hk, -⟩ | ⟨evidence, hk, htakes, hpair, hkept⟩ | ⟨hk, -⟩
  · cases hk
  · cases hk
  · obtain rfl : evidence = .timed n := by
      cases hk
      rfl
    obtain ⟨p, hp, hpid, hworker⟩ := paired_worker hpair
    have hshot := oneShot_of_worker hworker
    have hguess : s.guess e sid = some pid := by
      rw [guess, hkept, Option.none_or, hpair, Option.bind_some, if_pos ⟨rfl, htakes⟩]
    rcases link_cases h' with ⟨-, htakes', -⟩ | ⟨hk', -⟩ | ⟨evidence', -, -, hpair', -⟩ |
        ⟨-, _, -, -, _, q, -, hq, hqid, -, -, hq', -⟩
    · exact hapart.eq h h' hguess htakes'
    · subst hk'
      exact (growth_alone hone hapart h' h).symm
    · rw [pairOf, paired_eq] at hpair hpair'
      exact pid_inj hpair hpair' rfl
    · obtain rfl := ProcTable.eq_of_pid hp hq (hpid.trans hqid.symm)
      rw [hshot] at hq'
      cases hq'
  · cases hk

/-- A row linked by its directory shares its process with no other. -/
theorem directory_alone (h : s.link e sid = some (pid, .directory))
    (h' : s.link e sid' = some (pid, kind')) : sid = sid' := by
  rcases link_cases h with ⟨hk, -⟩ | ⟨hk, -⟩ | ⟨evidence, hk, -⟩ |
      ⟨-, row, hrow, hok, cwd, p, hcwd, hp, hpid, hserves, hhelper, hshot, hdir, hunclaimed⟩
  · cases hk
  · cases hk
  · cases hk
  rcases link_cases h' with ⟨-, -, q, hq, hqid, howner⟩ | ⟨hk', -⟩ | ⟨evidence, -, -, hpair, -⟩ |
      ⟨-, row', hrow', hok', cwd', q, hcwd', hq, hqid, hserves', -, -, hdir', -⟩
  · obtain rfl := ProcTable.eq_of_pid hp hq (hpid.trans hqid.symm)
    exact absurd (mem_claimedPids hp (.inl ⟨sid', howner⟩)) hunclaimed
  · subst hk'
    obtain ⟨row', _, hrow', -, hproved⟩ := growth_row h'
    exact absurd (mem_claimedPids hp (.inr ⟨sid', row', hrow', hpid ▸ hproved⟩)) hunclaimed
  · obtain ⟨q, hq, hqid, hworker⟩ := paired_worker hpair
    obtain rfl := ProcTable.eq_of_pid hp hq (hpid.trans hqid.symm)
    rw [oneShot_of_worker hworker] at hshot
    cases hshot
  · obtain rfl := ProcTable.eq_of_pid hp hq (hpid.trans hqid.symm)
    obtain rfl := Option.some.inj (hdir.symm.trans hdir')
    -- Both are the newest of the one scope that the process serves.
    have hscope := matchingScope_eq_of_serves hp hhelper hshot hdir hserves hserves'
    simp only [heuristicOk, hcwd, hcwd', Option.any_some, ← hscope, Option.any_eq_true,
      decide_eq_true_eq] at hok hok'
    obtain ⟨best, hbest, rfl⟩ := hok
    obtain ⟨best', hbest', rfl⟩ := hok'
    rw [Option.some.inj (hbest.symm.trans hbest')]

/-- **One process, one session.** In every run, no two rows bank a proof on one process.
And in the snapshot of every scan that finds each process, which an older proof or the
times give one row, taken by no other row, a process that one row is linked to by a guess
is linked to no other. -/
theorem one_process_one_session {es : List Scan} (h : Run Step empty es s) :
    s.OneEach ∧
    (s.Apart e → ∀ sid sid' pid kind kind', s.link e sid = some (pid, kind) →
      kind.inferred = true → s.link e sid' = some (pid, kind') → sid = sid') := by
  have hone := run_oneEach h
  refine ⟨hone, ?_⟩
  intro hapart sid sid' pid kind kind' hlink hinferred hlink'
  match kind, hinferred with
  | .growth, _ => exact growth_alone (hone.scan e) hapart hlink hlink'
  | .paired (.timed _), _ => exact timed_alone (hone.scan e) hapart hlink hlink'
  | .directory, _ => exact directory_alone hlink hlink'

instance : Decidable (s.Apart e) := by
  unfold Apart
  infer_instance

/-- A Codex that runs in `/w` and holds some transcripts open. -/
def codexHolding (openJsonl : List Path) : Proc :=
  { Proc.plain 7 .codex with openJsonl, tty := true, rank := 1 }

/-- A rollout of `/w`, in one scan. -/
def rollout (path : Path) (grew : Option Nat) : Sighting :=
  ⟨path, .codex, some "/w", some 1, true, none, false, some 1, grew⟩

/-- The session `a` grows in `/w`, written by a process that is gone when the table is read,
so that the idle Codex there is taken for its writer; then `b` begins. -/
def growsThenBegins (openJsonl : List Path) : List Scan :=
  [⟨1, ⟨[codexHolding []], by simp⟩, ⟨[("a", rollout "/a" none)], by simp⟩, fun _ _ => false, []⟩,
    ⟨2, ⟨[codexHolding []], by simp⟩, ⟨[("a", rollout "/a" (some 2))], by simp⟩, fun _ _ => false,
      [(some .codex, "/w")]⟩,
    ⟨3, ⟨[codexHolding openJsonl], by simp⟩,
      ⟨[("a", rollout "/a" none), ("b", rollout "/b" none)], by simp⟩, fun _ _ => false,
      [(some .codex, "/w")]⟩]

theorem one_process_one_session_unopened :
    (((growsThenBegins []).take 2).foldl scan empty).link
        ((growsThenBegins []).getLast (by simp [growsThenBegins])) "a" = some (7, .growth) ∧
      ∀ sid kind, ((((growsThenBegins []).take 2).foldl scan empty).link
        ((growsThenBegins []).getLast (by simp [growsThenBegins])) sid = some (7, kind)) →
          "a" = sid := by
  have hrun : Run Step empty ((growsThenBegins []).take 2)
      (((growsThenBegins []).take 2).foldl scan empty) := by
    apply Run.cons ⟨by decide +kernel, rfl⟩
    apply Run.cons ⟨by decide +kernel, rfl⟩
    exact .nil _
  have hlink : (((growsThenBegins []).take 2).foldl scan empty).link
      ((growsThenBegins []).getLast (by simp [growsThenBegins])) "a" = some (7, .growth) := by
    decide +kernel
  refine ⟨hlink, fun sid kind => ?_⟩
  exact (one_process_one_session hrun).2 (by decide +kernel) "a" sid 7 .growth kind hlink rfl

/-- The Codex is given its first prompt and opens `b`. It is linked to `b` by the transcript
it holds, and still to `a` by the growth it was credited with. -/
theorem two_rows_one_process :
    ∃ es s e, Run Step empty es s ∧ s.Follows e ∧ ∃ sid sid' pid kind kind', sid ≠ sid' ∧
      s.link e sid = some (pid, kind) ∧ kind.inferred = true ∧
        s.link e sid' = some (pid, kind') := by
  refine ⟨(growsThenBegins ["/b"]).take 2, ((growsThenBegins ["/b"]).take 2).foldl scan empty,
    (growsThenBegins ["/b"]).getLast (by simp [growsThenBegins]), ?_, by decide +kernel, "a", "b", 7,
    .growth, .named, by decide, by decide +kernel, rfl, by decide +kernel⟩
  apply Run.cons ⟨by decide +kernel, rfl⟩
  apply Run.cons ⟨by decide +kernel, rfl⟩
  exact .nil _

end Index

end ClaudeReplay.Linking
