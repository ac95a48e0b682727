import ClaudeReplay.Linking.Links

/-!
# ClaudeReplay.Linking.Panes

What hosts a process, and which panes the monitor types into.

`terminalOf` reads a process's environment and its chain of parents. Only a tmux or a
herdr pane has an address that a send can type at (`Terminal.paneAddr`), and three things
take a pane away: another agent may read it (`paneShared`), its process does not hold it
(`tmuxPaneRefusal`), or it shows background sessions (`pidParked`). A herdr pane whose
process's own record names the session is typed into beside other live sessions of its
project (`paneSendBesideSiblings`).
-/

namespace ClaudeReplay.Linking

open Lib

/-! ## the hosts -/

/-- The nearest terminal multiplexer above a process. -/
inductive Mux
  | tmux | herdr | other
  deriving DecidableEq

inductive Terminal
  | tmux (pane : String) (sock : Option String)
  | herdr (pane : String) (socket : Option String)
  | screen (name : String)
  | tty
  | detached
  deriving DecidableEq

/-- A pane that a send can type at, and the server it is of. -/
inductive PaneAddr
  | tmux (sock : Option String) (pane : String)
  | herdr (socket : Option String) (pane : String)
  deriving DecidableEq

/-- What the scan reads of a process's terminal and environment. -/
structure Host where
  tty : Option String
  stat : Option String
  /-- The tty of the tmux pane's shell. -/
  paneTty : Option String
  /-- `TMUX_PANE`. -/
  pane : Option String
  tmuxSock : Option String
  /-- `STY`. -/
  screen : Option String
  herdrPane : Option String
  herdrSocket : Option String
  innerMux : Option Mux
  /-- Another agent process sits between it and its multiplexer. -/
  underAgent : Bool
  deriving DecidableEq

namespace Host

variable (h : Host)

/-- A process that no multiplexer hosts. -/
def bare : Terminal := if h.tty.isSome then .tty else .detached

/-- The last component of a path. -/
def baseName (path : String) : String :=
  String.ofList (path.toList.reverse.takeWhile (· ≠ '/')).reverse

/-- The socket's name, unless it is the default server's. -/
def sockName : Option String :=
  (h.tmuxSock.map baseName).filter fun base => base ≠ "default"

/-- `Terminal::of`, where herdr is not the nearest multiplexer. -/
def unnested : Terminal :=
  match h.pane, h.screen, h.innerMux with
  | some pane, _, some .tmux => .tmux pane h.sockName
  | some _, some sty, some .other => .screen sty
  | some _, _, _ => h.bare
  | none, some sty, _ => .screen sty
  | none, none, _ => h.bare

/-- `Terminal::of`. A marker is believed only of the nearest multiplexer. -/
def terminalOf : Terminal :=
  match h.herdrPane with
  | none => h.unnested
  | some pane =>
    match h.innerMux, h.herdrSocket with
    | some .herdr, some socket => .herdr pane (some socket)
    | some .tmux, _ => if h.pane.isSome then h.unnested else h.bare
    | some .other, _ => (h.screen.map Terminal.screen).getD h.bare
    | _, _ => h.bare

end Host

namespace Terminal

def kind : Terminal → String
  | tmux _ _ => "tmux"
  | herdr _ _ => "herdr"
  | screen _ => "screen"
  | tty => "tty"
  | detached => "detached"

/-- What can be controlled: a pane, or a screen's name. -/
def target : Terminal → Option String
  | tmux pane _ | herdr pane _ => some pane
  | screen name => some name
  | tty | detached => none

def paneAddr : Terminal → Option PaneAddr
  | tmux pane sock => some (.tmux sock pane)
  | herdr pane socket => some (.herdr socket pane)
  | screen _ | tty | detached => none

/-- How well it hosts a session. -/
def rank : Terminal → Nat
  | tmux _ _ | herdr _ _ | screen _ => 2
  | tty => 1
  | detached => 0

end Terminal

namespace PaneAddr

def pane : PaneAddr → String
  | tmux _ pane | herdr _ pane => pane

def isHerdr : PaneAddr → Bool
  | tmux _ _ => false
  | herdr _ _ => true

/-- The terminal whose pane it is. -/
def terminal : PaneAddr → Terminal
  | tmux sock pane => .tmux pane sock
  | herdr socket pane => .herdr pane socket

end PaneAddr

/-- A terminal has the address of its pane, and of no other. -/
theorem Terminal.paneAddr_eq_some {t : Terminal} {addr : PaneAddr} :
    t.paneAddr = some addr ↔ t = addr.terminal := by
  cases t <;> cases addr <;> simp [Terminal.paneAddr, PaneAddr.terminal, and_comm]

/-- `herdr_session`: the named session of a socket `…/sessions/<name>/herdr.sock`. -/
def herdrSession (socket : Option String) : Option String :=
  socket.bind fun socket =>
    let path := socket.toList
    let tail := "/herdr.sock".toList
    if tail.isSuffixOf path then
      let rest := path.take (path.length - tail.length)
      let name := (rest.reverse.takeWhile (· ≠ '/')).reverse
      let dir := rest.take (rest.length - name.length - 1)
      if '/' ∈ rest ∧ "/sessions".toList.isSuffixOf dir ∧ name ≠ [] then some (String.ofList name)
      else none
    else none

/-! ## the processes of a scan -/

/-- A process with what hosts it. -/
structure SeenProc extends Proc where
  host : Host
  /-- The session its argv names by a flag (`names_exactly`). -/
  flagged : Option Sid
  onTty : tty = host.tty.isSome
  ranked : rank = host.terminalOf.rank

/-- The processes of a scan, each under its own pid. -/
structure SeenTable where
  procs : List SeenProc
  distinct : (procs.map (·.pid)).Nodup

namespace SeenTable

variable (t : SeenTable)

/-- The processes as the links read them. -/
def table : ProcTable where
  procs := t.procs.map SeenProc.toProc
  distinct := by
    rw [List.map_map]
    exact t.distinct

def byPid (pid : Pid) : Option SeenProc := t.procs.find? (·.pid = pid)

/-- `ProcTable::records`: the verified record of `pid` names `sid`. -/
def records (pid : Pid) (sid : Sid) : Bool := (t.byPid pid).any (·.native.session = some sid)

end SeenTable

/-! ## why a pane takes no send -/

/-- `SendRefusal`: why a send is refused. -/
inductive SendRefusal
  | noSuchSession | sessionIsLive | projectHasActiveSession | unsupportedAgent | sessionNotLive
  | unprovenLink | notInTmux | herdrClaudeOnly | paneShared | paneNotForeground
  | paneOtherTerminal | continuedElsewhere | paneParked
  deriving DecidableEq

section Panes

variable (procs : List SeenProc) (pid : Pid) (sid : Sid) (addr : PaneAddr)

/-- `pid_parked`: its record says that its conversation went on in a background job. -/
def pidParked : Bool := procs.any fun p => p.pid = pid && p.parked.isSome

/-- `registry_identifies`: the verified record of `pid` names `sid`. -/
def registryIdentifies : Bool := procs.any fun p => p.pid = pid && p.native.session = some sid

def paneSendBesideSiblings : Bool := addr.isHerdr && registryIdentifies procs pid sid

/-- `pane_shared`: another agent may be reading the pane. -/
def paneShared : Bool :=
  procs.any fun p =>
    if p.pid = pid then p.host.underAgent
    else p.agentExe && (!p.host.underAgent || addr.isHerdr && p.serves .claude) && !p.helper &&
      !(p.host.underAgent && p.oneShot) && p.host.terminalOf.paneAddr = some addr

/-- `holds_foreground`. -/
def holdsForeground (stat : String) : Bool := '+' ∈ stat.toList && 'T' ∉ stat.toList

/-- `tmux_pane_refusal`: the process does not hold its tmux pane, or is on another tty. -/
def tmuxPaneRefusal : Option SendRefusal :=
  if addr.isHerdr then none
  else
    (procs.find? (·.pid = pid)).bind fun p =>
      if p.host.stat.any fun stat => !holdsForeground stat then some .paneNotForeground
      else
        match p.host.tty, p.host.paneTty with
        | some tty, some pane => if tty ≠ pane then some .paneOtherTerminal else none
        | _, _ => none

end Panes

end ClaudeReplay.Linking
