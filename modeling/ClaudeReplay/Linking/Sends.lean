import ClaudeReplay.Lib.Groups
import ClaudeReplay.Linking.Panes

/-!
# ClaudeReplay.Linking.Sends

The sends that the page offers, and those that the monitor allows.

`State.assemble` marks a row as injectable from the link it has just made, with the live
sessions of each directory gathered beforehand. `State.paneSendTarget` decides the same
on request, from the links that the last `assemble` banked, and reads them all. In a state
whose banked links are its own (`State.Banked`) the two agree on each session, and on the
process and the pane (`offered_iff_allowed`). A session that may be typed at is live, so
it is never one to resume.

The grants of a row, and what else it shows, are left out.
-/

namespace ClaudeReplay.Linking

open Lib

/-! ## the state -/

/-- How a live process is linked to a row, and what hosts it. -/
structure AgentLink where
  pid : Pid
  confirmed : Bool
  /-- The process names the session by a flag. -/
  named : Bool
  terminal : Terminal
  deriving DecidableEq

/-- The link of a session, as the scan banks it for the send routes. -/
structure SendLink where
  pid : Option Pid
  pane : Option PaneAddr
  confirmed : Bool
  named : Bool
  deriving DecidableEq

/-- `SendLink::default`. -/
def SendLink.none : SendLink := ⟨Option.none, Option.none, false, false⟩

/-- Which sessions the host leaves to the monitor. A shared Codex runtime keeps its own. -/
inductive LegacySendPolicy
  | standalone
  | sharedCodexRuntime (owns : Sid → Bool)

/-- `allow_session`. -/
def LegacySendPolicy.allowSession (policy : LegacySendPolicy) (agent : Agent) (sid : Sid) :
    Except SendRefusal Unit :=
  match policy, agent with
  | sharedCodexRuntime owns, .codex => if owns sid then .error .sessionIsLive else .ok ()
  | _, _ => .ok ()

/-- What the sends and the page read of the index. -/
structure State where
  policy : LegacySendPolicy
  rows : Rows
  /-- The session in whose scratch a session runs. -/
  spawnedBy : Sid → Option Sid
  procs : SeenTable
  sendLinks : Table Sid SendLink
  growthConflicts : List (Pid × Sid)
  startedByEdges : Table Sid Sid
  moves : Table Sid (Sid × Nat × Bool)

namespace State

variable (st : State) (sid : Sid) (row : Row)

/-- The session that started `sid` as a headless worker, if it is a row. -/
def startedBy : Option Sid :=
  (st.rows.find? sid).bind fun row =>
    ((st.startedByEdges.find? sid).or (if row.oneShot then st.spawnedBy sid else none)).filter
      fun parent => parent ≠ sid && (st.rows.find? parent).isSome

/-! ## the link of a row -/

/-- The process that growth has proved. -/
def provedProc : Option SeenProc :=
  if (st.moves.find? sid).isSome then none
  else
    row.provedPid.bind fun proof =>
      (st.procs.byPid proof.1).filter fun p => p.cwd = some proof.2 && p.native.permits sid

/-- The process that names the session or holds its transcript open. -/
def explicitProc : Option Proc := linkIn st.rows st.procs.table sid row .disabled

/-- The pair of a one-shot session. -/
def pairOf : Option OneShots.OneShotPair := paired st.rows st.procs.table.procs sid

def claimedPids : List Pid :=
  (st.procs.table.procs.filter fun p => st.rows.owners p ≠ []).map (·.pid) ++
    st.rows.rows.filterMap fun row => (st.provedProc row.1 row.2).map (·.pid)

/-- The rows that compete for the processes of a directory. -/
def competes : Bool :=
  (st.pairOf sid).isNone && (st.explicitProc sid row).isNone && (st.provedProc sid row).isNone &&
    (st.moves.find? sid).isNone

def newest (key : Option Agent × Dir) : Option (Sid × Nat) :=
  newestByCwd st.rows st.procs.table.procs st.competes key

def heuristicOk : Bool :=
  row.cwd.any fun cwd =>
    (st.newest (matchingScope st.procs.table.procs row.agent cwd)).any fun best => best.1 = sid

/-- The processes of a row's directory that nothing claims. -/
def unclaimed : List Proc :=
  st.procs.table.procs.filter fun p =>
    p.agentExe && p.serves row.agent && !p.helper && !p.oneShot && row.cwd.isSome &&
      p.cwd = row.cwd && p.sessionRef.isNone && p.pid ∉ st.claimedPids

/-- The link to a process, which a helper or a one-shot has without its inherited pane. -/
def mkLink (p : Proc) (confirmed : Bool) : Option AgentLink :=
  (st.procs.byPid p.pid).map fun p =>
    { pid := p.pid
      confirmed
      named := p.flagged = some sid
      terminal := if p.helper || p.oneShot then .detached else p.host.terminalOf }

/-- `link_in`, where it names the process. -/
def explicitLink : Option AgentLink := (st.explicitProc sid row).bind fun p => st.mkLink sid p true

/-- `link_in`, where the directory picks the process. It is confirmed when it is alone. -/
def directoryLink : Option AgentLink :=
  (bestHosted (st.unclaimed row)).bind fun p =>
    st.mkLink sid p (decide ((st.unclaimed row).length = 1))

def provedLink : Option AgentLink :=
  (st.provedProc sid row).map fun p => ⟨p.pid, true, p.flagged = some sid, p.host.terminalOf⟩

/-- The link of a one-shot, which reads no pane. -/
def pairedLink : Option AgentLink :=
  (st.pairOf sid).bind fun pair =>
    (st.procs.byPid pair.pid).map fun p =>
      ⟨p.pid, pair.evidence.confirmed, p.flagged = some sid, .detached⟩

/-- A link that the growth of another session contradicts, unless a record confirms it. -/
def fence (link : AgentLink) : AgentLink :=
  if (link.pid, sid) ∈ st.growthConflicts ∧ st.procs.records link.pid sid = false then
    { link with confirmed := false, named := false }
  else link

/-- The link that `assemble` makes for a row. -/
def linkOf : Option AgentLink :=
  let owned := if nativeOwner st.procs.table sid row then st.explicitLink sid row else none
  let guess := if st.heuristicOk sid row then st.directoryLink sid row else none
  (owned.or ((st.provedLink sid row).or
    ((st.pairedLink sid).or ((st.explicitLink sid row).or guess)))).map (st.fence sid)

/-! ## the page -/

/-- `unresolved_registry_cwds`: where a process's record names a session that no row links to. -/
def unresolvedRegistryCwds : List Dir :=
  (st.procs.procs.filter fun p =>
    !p.helper && p.native.session.any fun sid =>
      ((st.sendLinks.find? sid).bind (·.pid)).isNone).filterMap (·.cwd)

/-- A live session, under its agent and its directory. -/
def liveEntry (link : Sid × SendLink) : Option ((Agent × Dir) × Sid) :=
  if link.2.pid.isSome then
    (st.rows.find? link.1).bind fun row => row.cwd.map fun cwd => ((row.agent, cwd), link.1)
  else none

/-- `live_sids_by_cwd`: the live sessions of each agent in each directory. -/
def liveSidsByCwd : Table (Agent × Dir) (List Sid) := groupBy st.liveEntry st.sendLinks.rows

/-- `proj_has_other_live`. -/
def projHasOtherLive : Bool :=
  row.cwd.any fun cwd =>
    (st.liveSidsByCwd.group (row.agent, cwd)).any fun other =>
      other ≠ sid && st.startedBy other ≠ some sid

/-- `proj_active`: another live session of the project may be the one that writes. -/
def projActive : Bool :=
  st.projHasOtherLive sid row ||
    (row.agent = .claude && row.cwd.any fun cwd => cwd ∈ st.unresolvedRegistryCwds)

/-- The pane that a row offers to type into. -/
def offer (link : AgentLink) : Option PaneAddr :=
  let pane := link.terminal.paneAddr.filter fun addr => !addr.isHerdr || row.agent = .claude
  pane.filter fun addr =>
    link.confirmed && (row.agent = .claude || row.agent = .codex) &&
      !paneShared st.procs.procs link.pid addr &&
      (tmuxPaneRefusal st.procs.procs link.pid addr).isNone &&
      !pidParked st.procs.procs link.pid &&
      (!st.projActive sid row || paneSendBesideSiblings st.procs.procs link.pid sid addr)

end State

/-- A row of the page, as far as its process goes. -/
structure RowView where
  pid : Option Pid
  /-- `pidSource`: the process's record names the session. -/
  registered : Bool
  term : Option String
  sock : Option String
  herdrSession : Option String
  target : Option String
  projActive : Bool
  injectable : Bool
  sendsImages : Bool
  deriving DecidableEq

/-- The socket that a row shows: that of a tmux server with a name. -/
def Terminal.sock : Terminal → Option String
  | tmux _ sock => sock
  | _ => none

/-- The herdr session that a row shows. -/
def Terminal.session : Terminal → Option String
  | herdr _ socket => herdrSession socket
  | _ => none

/-- The row shows the pane: its host, its id, and the server. -/
def RowView.Shows (view : RowView) (addr : PaneAddr) : Prop :=
  view.term = some addr.terminal.kind ∧ view.target = some addr.pane ∧
    view.sock = addr.terminal.sock ∧ view.herdrSession = addr.terminal.session

instance (view : RowView) (addr : PaneAddr) : Decidable (view.Shows addr) :=
  inferInstanceAs (Decidable (_ ∧ _))

namespace State

variable (st : State) (sid : Sid) (row : Row)

/-- A row of the page. -/
def view : RowView :=
  let link := st.linkOf sid row
  let offered := link.bind fun l => st.offer sid row l
  { pid := link.map (·.pid)
    registered := link.any fun l => st.procs.records l.pid sid
    term := link.map (·.terminal.kind)
    sock := link.bind (·.terminal.sock)
    herdrSession := link.bind (·.terminal.session)
    target := link.bind (·.terminal.target)
    projActive := st.projActive sid row
    injectable := offered.isSome
    sendsImages := offered.any (·.isHerdr) }

/-- The rows of the page, each under its session. -/
def assemble : Table Sid RowView := st.rows.image st.view

/-- The fact of a row that the send routes are given. -/
def bankedLink : SendLink :=
  (st.linkOf sid row).elim .none fun l => ⟨some l.pid, l.terminal.paneAddr, l.confirmed, l.named⟩

/-- The links that `assemble` banks. -/
def bank : Table Sid SendLink := st.rows.image st.bankedLink

/-- The links of the state are those that its own `assemble` banks. -/
def Banked : Prop := ∀ sid, st.sendLinks.find? sid = st.bank.find? sid

/-! ## the sends -/

/-- `pane_target_from`: the process and the pane of a link, in the order of the refusals. -/
def paneTargetFrom (agent : Agent) (link : SendLink) : Except SendRefusal (Pid × PaneAddr) :=
  if agent ≠ .claude ∧ agent ≠ .codex then .error .unsupportedAgent
  else
    match link.pid with
    | none => .error .sessionNotLive
    | some pid =>
      if link.confirmed = false then .error .unprovenLink
      else
        match link.pane with
        | none => .error .notInTmux
        | some addr =>
          if addr.isHerdr ∧ agent ≠ .claude then .error .herdrClaudeOnly else .ok (pid, addr)

/-- `unresolved_registry_writer`. -/
def unresolvedRegistryWriter (agent : Agent) (cwd : Option Dir) : Bool :=
  cwd.any fun cwd => agent = .claude && decide (cwd ∈ st.unresolvedRegistryCwds)

/-- `project_has_other_live`, of the links of the state. -/
def projectHasOtherLive (cwd : Option Dir) (cwdOf : Sid → Option Dir) : Bool :=
  cwd.any fun cwd =>
    st.sendLinks.rows.any fun other =>
      other.1 ≠ sid && other.2.pid.isSome && cwdOf other.1 = some cwd &&
        st.startedBy other.1 ≠ some sid

/-- The directory of a session, if it is of the same agent. -/
def cwdOf (agent : Agent) (other : Sid) : Option Dir :=
  ((st.rows.find? other).filter fun r => r.agent = agent).bind (·.cwd)

def linkTo : SendLink := (st.sendLinks.find? sid).getD .none

/-- `pane_send_target`: the process and the pane that a send may type into. -/
def paneSendTarget : Except SendRefusal (Pid × PaneAddr) :=
  match st.rows.find? sid with
  | none => .error .noSuchSession
  | some row => do
    st.policy.allowSession row.agent sid
    let (pid, addr) ← paneTargetFrom row.agent (st.linkTo sid)
    if pidParked st.procs.procs pid then .error .paneParked
    else if paneShared st.procs.procs pid addr then .error .paneShared
    else
      match tmuxPaneRefusal st.procs.procs pid addr with
      | some refusal => .error refusal
      | none =>
        if !paneSendBesideSiblings st.procs.procs pid sid addr &&
            (st.unresolvedRegistryWriter row.agent row.cwd ||
              st.projectHasOtherLive sid row.cwd (st.cwdOf row.agent)) then
          .error .projectHasActiveSession
        else .ok (pid, addr)

/-- `moved_on`: where the session's own transcript says it went on. -/
def movedOn : Option Sid :=
  (st.rows.find? sid).bind fun row =>
    row.continuedIn.bind fun c =>
      if c.session ≠ sid ∧ (st.rows.find? c.session).all fun target => target.agent = row.agent then
        some c.session
      else none

/-- `resume_not_moved`. -/
def resumeNotMoved : Except SendRefusal Unit :=
  if (st.linkTo sid).pid.isNone && (st.movedOn sid).isSome then .error .continuedElsewhere
  else .ok ()

/-- `send_liveness_ok`: the session is not live, and its project is quiet. -/
def sendLivenessOk (agent : Agent) (cwd : Option Dir) : Except SendRefusal Unit :=
  if (st.linkTo sid).pid.isSome then .error .sessionIsLive
  else if st.unresolvedRegistryWriter agent cwd ||
      st.projectHasOtherLive sid cwd (st.cwdOf agent) then
    .error .projectHasActiveSession
  else .ok ()

/-- `resume_target`: the session to resume, its agent and its directory. -/
def resumeTarget : Except SendRefusal (Sid × Agent × Option Dir) :=
  match st.rows.find? sid with
  | none => .error .noSuchSession
  | some row => do
    st.policy.allowSession row.agent sid
    if row.agent ≠ .claude ∧ row.agent ≠ .codex then .error .unsupportedAgent
    else
      st.resumeNotMoved sid
      st.sendLivenessOk sid row.agent row.cwd
      .ok (sid, row.agent, row.cwd)

end State

/-! ## the two readings of the state -/

namespace State

variable {st : State} {sid : Sid} {row : Row}

theorem mem_liveSidsByCwd {agent : Agent} {cwd : Dir} {other : Sid} :
    other ∈ st.liveSidsByCwd.group (agent, cwd) ↔
      ∃ link, (other, link) ∈ st.sendLinks.rows ∧ link.pid.isSome = true ∧
        st.cwdOf agent other = some cwd := by
  rw [liveSidsByCwd, mem_group_groupBy]
  constructor
  · rintro ⟨⟨sid, link⟩, hmem, hentry⟩
    simp only [liveEntry] at hentry
    split at hentry
    · next hlive =>
      obtain ⟨row, hrow, hcwd⟩ := Option.bind_eq_some_iff.mp hentry
      obtain ⟨cwd', hcwd', ⟨⟩⟩ := Option.map_eq_some_iff.mp hcwd
      exact ⟨link, hmem, hlive, by simp [cwdOf, hrow, Option.filter_some, hcwd']⟩
    · cases hentry
  · rintro ⟨link, hmem, hlive, hcwd⟩
    refine ⟨(other, link), hmem, ?_⟩
    obtain ⟨row, hrow, hcwd⟩ := Option.bind_eq_some_iff.mp hcwd
    obtain ⟨hrow, hagent⟩ := Option.filter_eq_some_iff.mp hrow
    simp only [decide_eq_true_eq] at hagent
    simp [liveEntry, hlive, hrow, hcwd, hagent]

/-- The map of the live sessions and the scan of the links find the same. -/
theorem projHasOtherLive_eq (st : State) (sid : Sid) (row : Row) :
    st.projHasOtherLive sid row =
      st.projectHasOtherLive sid row.cwd (st.cwdOf row.agent) := by
  cases hcwd : row.cwd with
  | none => simp [projHasOtherLive, projectHasOtherLive, hcwd]
  | some cwd =>
    rw [Bool.eq_iff_iff]
    simp only [projHasOtherLive, projectHasOtherLive, hcwd, Option.any_some, List.any_eq_true,
      Bool.and_eq_true, decide_eq_true_eq]
    constructor
    · rintro ⟨other, hmem, hother, hstarted⟩
      obtain ⟨link, hlink, hlive, hdir⟩ := mem_liveSidsByCwd.mp hmem
      exact ⟨(other, link), hlink, ⟨⟨hother, hlive⟩, hdir⟩, hstarted⟩
    · rintro ⟨⟨other, link⟩, hlink, ⟨⟨hother, hlive⟩, hdir⟩, hstarted⟩
      exact ⟨other, mem_liveSidsByCwd.mpr ⟨link, hlink, hlive, hdir⟩, hother, hstarted⟩

theorem projActive_eq (st : State) (sid : Sid) (row : Row) :
    st.projActive sid row = (st.unresolvedRegistryWriter row.agent row.cwd ||
      st.projectHasOtherLive sid row.cwd (st.cwdOf row.agent)) := by
  rw [projActive, projHasOtherLive_eq, Bool.or_comm]
  congr 1
  cases row.cwd <;> simp [unresolvedRegistryWriter]

/-! ## the two decisions -/

theorem paneTargetFrom_eq_ok {agent : Agent} {link : SendLink} {pid : Pid} {addr : PaneAddr} :
    paneTargetFrom agent link = .ok (pid, addr) ↔
      (agent = .claude ∨ agent = .codex) ∧ link.pid = some pid ∧ link.confirmed = true ∧
        link.pane = some addr ∧ (addr.isHerdr = true → agent = .claude) := by
  obtain ⟨linkPid, pane, confirmed, named⟩ := link
  simp only [paneTargetFrom]
  split
  · grind
  · cases linkPid with
    | none => simp
    | some pid' =>
      cases confirmed with
      | false => simp
      | true =>
        cases pane with
        | none => simp
        | some addr' =>
          simp only [Bool.true_eq_false, if_false]
          split <;> grind

/-- The conditions of a send, as one request checks them. -/
theorem paneSendTarget_eq_ok {pid : Pid} {addr : PaneAddr} (hrow : st.rows.find? sid = some row)
    (hadmits : st.policy.allowSession row.agent sid = .ok ()) :
    st.paneSendTarget sid = .ok (pid, addr) ↔
      paneTargetFrom row.agent (st.linkTo sid) = .ok (pid, addr) ∧
        pidParked st.procs.procs pid = false ∧ paneShared st.procs.procs pid addr = false ∧
        tmuxPaneRefusal st.procs.procs pid addr = none ∧
        (paneSendBesideSiblings st.procs.procs pid sid addr = true ∨
          st.projActive sid row = false) := by
  simp only [paneSendTarget, hrow, hadmits, projActive_eq]
  cases htarget : paneTargetFrom row.agent (st.linkTo sid) with
  | error refusal => simp [bind, Except.bind]
  | ok target =>
    obtain ⟨pid', addr'⟩ := target
    simp only [bind, Except.bind, Except.ok.injEq, Prod.mk.injEq]
    cases hrefusal : tmuxPaneRefusal st.procs.procs pid' addr' <;> grind

/-- The conditions of an offer, as the page checks them. -/
theorem offer_eq_some {link : AgentLink} {addr : PaneAddr} :
    st.offer sid row link = some addr ↔
      link.terminal.paneAddr = some addr ∧ (addr.isHerdr = true → row.agent = .claude) ∧
        link.confirmed = true ∧ (row.agent = .claude ∨ row.agent = .codex) ∧
        paneShared st.procs.procs link.pid addr = false ∧
        tmuxPaneRefusal st.procs.procs link.pid addr = none ∧
        pidParked st.procs.procs link.pid = false ∧
        (paneSendBesideSiblings st.procs.procs link.pid sid addr = true ∨
          st.projActive sid row = false) := by
  simp only [offer, Option.filter_eq_some_iff, Bool.and_eq_true, Bool.or_eq_true,
    Bool.not_eq_true', decide_eq_true_eq, Option.isNone_iff_eq_none]
  grind

/-- In a banked state the send reads the link that the row shows. -/
theorem Banked.linkTo (h : st.Banked) (hrow : st.rows.find? sid = some row) :
    st.linkTo sid = st.bankedLink sid row := by
  simp [State.linkTo, h sid, bank, Table.find?_image, hrow]

/-- A send types at the pane that the row offers. -/
theorem paneSendTarget_iff_offer (h : st.Banked) (hrow : st.rows.find? sid = some row)
    (hadmits : st.policy.allowSession row.agent sid = .ok ()) {pid : Pid} {addr : PaneAddr} :
    st.paneSendTarget sid = .ok (pid, addr) ↔
      ∃ link, st.linkOf sid row = some link ∧ link.pid = pid ∧
        st.offer sid row link = some addr := by
  rw [paneSendTarget_eq_ok hrow hadmits, paneTargetFrom_eq_ok, h.linkTo hrow, bankedLink]
  cases hlink : st.linkOf sid row with
  | none => simp [SendLink.none]
  | some link =>
    simp only [Option.elim_some, Option.some.injEq, exists_eq_left', offer_eq_some]
    grind

/-- Banking the links of a state makes it one whose links are its own. -/
theorem banked_bank (st : State) : ({ st with sendLinks := st.bank } : State).Banked :=
  fun _ => rfl

/-- A session that may be typed at is live. -/
theorem paneSendTarget_live {target : Pid × PaneAddr} (h : st.paneSendTarget sid = .ok target) :
    (st.linkTo sid).pid = some target.1 := by
  unfold paneSendTarget at h
  cases hrow : st.rows.find? sid with
  | none => simp [hrow] at h
  | some row =>
    simp only [hrow] at h
    cases hadmits : st.policy.allowSession row.agent sid with
    | error refusal => simp [hadmits, bind, Except.bind] at h
    | ok =>
      have hok : st.paneSendTarget sid = .ok (target.1, target.2) := by
        simpa only [paneSendTarget, hrow] using h
      exact (paneTargetFrom_eq_ok.mp ((paneSendTarget_eq_ok hrow hadmits).mp hok).1).2.1

/-- A session that may be resumed is not live. -/
theorem resumeTarget_idle {target : Sid × Agent × Option Dir}
    (h : st.resumeTarget sid = .ok target) : (st.linkTo sid).pid = none := by
  unfold resumeTarget at h
  cases hpid : (st.linkTo sid).pid with
  | none => rfl
  | some pid =>
    exfalso
    cases hrow : st.rows.find? sid with
    | none => simp [hrow] at h
    | some row =>
      simp only [hrow, sendLivenessOk, resumeNotMoved, hpid] at h
      cases hadmits : st.policy.allowSession row.agent sid <;>
        simp [hadmits, bind, Except.bind] at h
      split at h <;> cases h

/-- **The page offers exactly what the send allows**, and no session is both typed at and
resumed. -/
theorem offered_iff_allowed (st : State) (sid : Sid) (h : st.Banked)
    (hadmits : ∀ row, st.rows.find? sid = some row →
      st.policy.allowSession row.agent sid = .ok ()) :
    ((∃ view, st.assemble.find? sid = some view ∧ view.injectable = true) ↔
      ∃ target, st.paneSendTarget sid = .ok target) ∧
    (∀ pid addr, st.paneSendTarget sid = .ok (pid, addr) →
      ∃ view, st.assemble.find? sid = some view ∧ view.pid = some pid ∧ view.Shows addr) ∧
    ∀ (st : State) (sid : Sid) target resumed, st.paneSendTarget sid = .ok target →
      st.resumeTarget sid ≠ .ok resumed := by
  refine ⟨?_, ?_, ?_⟩
  · cases hrow : st.rows.find? sid with
    | none => simp [assemble, Table.find?_image, hrow, paneSendTarget]
    | some row =>
      simp only [assemble, Table.find?_image, hrow, Option.map_some, Option.some.injEq,
        exists_eq_left', view, Option.isSome_iff_exists, Option.bind_eq_some_iff]
      constructor
      · rintro ⟨addr, link, hlink, hoffer⟩
        exact ⟨(link.pid, addr),
          (paneSendTarget_iff_offer h hrow (hadmits row hrow)).mpr ⟨link, hlink, rfl, hoffer⟩⟩
      · rintro ⟨⟨pid, addr⟩, hok⟩
        obtain ⟨link, hlink, -, hoffer⟩ :=
          (paneSendTarget_iff_offer h hrow (hadmits row hrow)).mp hok
        exact ⟨addr, link, hlink, hoffer⟩
  · intro pid addr hok
    cases hrow : st.rows.find? sid with
    | none => simp [paneSendTarget, hrow] at hok
    | some row =>
      obtain ⟨link, hlink, hpid, hoffer⟩ :=
        (paneSendTarget_iff_offer h hrow (hadmits row hrow)).mp hok
      have hterm := Terminal.paneAddr_eq_some.mp (offer_eq_some.mp hoffer).1
      refine ⟨st.view sid row, by simp [assemble, Table.find?_image, hrow], ?_, ?_⟩
      · simp [view, hlink, hpid]
      · cases addr <;>
          simp [RowView.Shows, view, hlink, hterm, PaneAddr.terminal, Terminal.target,
            PaneAddr.pane]
  · intro st sid target resumed hsend hresume
    have hlive := paneSendTarget_live hsend
    rw [resumeTarget_idle hresume] at hlive
    cases hlive

/-- A `claude` of `/w` whose record names a session. -/
def recordedProc (pid : Pid) (sid : Sid) (host : Host) : SeenProc where
  toProc := { Proc.plain pid .claude with
    native := .verified sid, tty := host.tty.isSome, rank := host.terminalOf.rank }
  host := host
  flagged := none
  onTty := rfl
  ranked := rfl

/-- A session of `/w`. -/
def claudeRow (path : Path) : Row :=
  { Row.first ⟨path, .claude, some "/w", none, true, none, false, none, none⟩ with
    startProbed := true }

/-- The session `a` in a herdr pane and `b` in a tmux pane, of one directory. -/
def twoPanes : State where
  policy := .standalone
  rows := ⟨[("a", claudeRow "/a"), ("b", claudeRow "/b")], by simp⟩
  spawnedBy := fun _ => none
  procs :=
    { procs :=
        [recordedProc 7 "a"
            ⟨some "s1", none, none, none, none, none, some "w1:p2", some "/h/herdr.sock",
              some .herdr, false⟩,
          recordedProc 8 "b"
            ⟨some "s2", some "S+", some "s2", some "%3", none, none, none, none, some .tmux, false⟩]
      distinct := by simp [recordedProc, Proc.plain] }
  sendLinks := .empty
  growthConflicts := []
  startedByEdges := .empty
  moves := .empty

/-- The herdr pane takes a send beside the other session, and the tmux pane does not. -/
theorem offered_iff_allowed_beside :
    (∃ target, ({ twoPanes with sendLinks := twoPanes.bank } : State).paneSendTarget "a" =
        .ok target) ∧
      ¬∃ target, ({ twoPanes with sendLinks := twoPanes.bank } : State).paneSendTarget "b" =
        .ok target := by
  constructor
  · apply (offered_iff_allowed _ "a" (banked_bank twoPanes) fun _ _ => rfl).1.mp
    exact ⟨_, rfl, by decide +kernel⟩
  · rw [← (offered_iff_allowed _ "b" (banked_bank twoPanes) fun _ _ => rfl).1]
    have hview : (({ twoPanes with sendLinks := twoPanes.bank } : State).assemble.find? "b").all
        fun view => !view.injectable := by
      decide +kernel
    rintro ⟨view, hfind, hinjectable⟩
    simp [hfind, hinjectable] at hview

end State

end ClaudeReplay.Linking
