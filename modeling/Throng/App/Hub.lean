import Std.Data.ExtTreeSet
import Throng.App.TerminalView
import Throng.Daemon.Client

/-!
# Terminal panels and daemon sessions

A terminal panel's session id is its panel id, so opening a panel always tries to
reattach first; only when the daemon has no such session is a new shell started.
The hub keeps three records of requests in flight (the pending map, each view's
pending id, the one listing id) and the set of panels whose terminal the user
interface killed.

Each function takes the hub and the client it is given, if any, and says what it
leaves of both and which events it raises.
-/

namespace Throng

open Daemon (Client ClientEvent)

/-- What a panel's terminal is started with when there is nothing to reattach to. -/
structure SpawnPlan where
  project : ProjectId
  label : String
  root : PathBuf
  config : TerminalPanelConfig
deriving DecidableEq, Repr

inductive Pending
  | attach
  | spawn
deriving DecidableEq, Repr

/-- Something the rest of the app must act on. -/
inductive HubEvent
  /-- Ended cleanly or by the user: the panel goes back to the type picker. -/
  | ended (panel : PanelId) (config : TerminalPanelConfig)
  /-- Ended with a failure: the panel keeps its last screen and shows the exit. -/
  | failed (panel : PanelId) (status : ExitStatus)
  | titleChanged (panel : PanelId)
  | clipboard (text : String)
  | directory (panel : PanelId) (dir : PathBuf)
  | observed (panel : PanelId) (running : Option String)
  | captured (panel : PanelId)
deriving DecidableEq, Repr

/-- How often the shells' working directories are read, in milliseconds. -/
def directoryPoll : Nat := 1500

/-- Every terminal view. -/
structure TerminalHub (E : Type) where
  views : Std.ExtTreeMap PanelId (TerminalView E)
  plans : Std.ExtTreeMap PanelId SpawnPlan
  pending : Std.ExtTreeMap Nat (PanelId × Pending)
  shells : List ShellInfo
  defaultShell : Option String
  scrollback : Nat
  rememberDirectory : Bool
  /-- A `List` in flight for the working directories, and when the last one went. -/
  listing : Option Nat
  listedAt : Option Nat
  /-- The app is quitting: no terminal is attached or started any more. -/
  closing : Bool
  /-- Panels whose terminal starts only when reloaded. -/
  dormant : Std.ExtTreeSet PanelId
  /-- Events raised outside a daemon event, for the app's next look. -/
  queued : List HubEvent
  /-- Panels whose terminal the user interface killed, until the daemon reports that end. -/
  killed : Std.ExtTreeSet PanelId

namespace TerminalHub

variable {E : Type}

def new (shells : List ShellInfo) (defaultShell : Option String) (scrollback : Nat) :
    TerminalHub E :=
  { views := ∅
    plans := ∅
    pending := ∅
    shells
    defaultShell
    scrollback
    rememberDirectory := false
    listing := none
    listedAt := none
    closing := false
    dormant := ∅
    queued := []
    killed := ∅ }

section calls

variable (platform : Platform E) (hub : TerminalHub E) (panel : PanelId)

def setView (view : TerminalView E) : TerminalHub E :=
  { hub with views := hub.views.insert panel view }

/-- Make sure `panel` has a view, remembering how to start its shell. -/
def prepare (plan : SpawnPlan) : TerminalHub E :=
  let view := hub.views[panel]?.getD (.new platform panel hub.scrollback)
  { hub with
    plans := hub.plans.insert panel plan
    views := hub.views.insert panel { view with label := plan.label } }

/-- Send a request about a panel whose reply is to be matched with it. -/
def ask (view : TerminalView E) (kind : Pending) (request : Request) (client : Client) :
    TerminalHub E × Client :=
  let (id, client) := client.send request
  ({ hub.setView panel { view with pending := some id } with
      pending := hub.pending.insert id (panel, kind) },
    client)

/-- The request that attaches `panel`'s view at the size it has. -/
def attachRequest (view : TerminalView E) : Request :=
  .attach panel.toTerminal view.size.1 view.size.2

/-- Once the view has been laid out, make sure a session request is in flight. -/
def connect (client : Option Client) : TerminalHub E × Option Client :=
  if hub.closing then (hub, client)
  else
    match hub.views[panel]?, client with
    | some view, some connection =>
        if view.status = .connecting ∧ view.pending = none then
          let (hub, connection) := hub.ask panel view .attach (attachRequest panel view) connection
          (hub, some connection)
        else (hub, client)
    | _, _ => (hub, client)

/-- The connection came back: every view re-attaches from a fresh snapshot. -/
def reconnected : TerminalHub E :=
  { hub with
    pending := ∅
    views := hub.views.map fun _ view =>
      { view with
        pending := none
        status :=
          match view.status with
          | .running | .connecting | .failed _ => .connecting
          | status => status } }

/-- The connection dropped: requests in flight will never be answered. -/
def disconnected : TerminalHub E :=
  { hub with
    pending := ∅
    views := hub.views.map fun _ view => { view with pending := none } }

/-- Stop showing a panel's terminal without ending it. -/
def forgetView (client : Option Client) : TerminalHub E × Option Client :=
  let shown := panel ∈ hub.views
  ({ hub with views := hub.views.erase panel, plans := hub.plans.erase panel },
    if shown then client.map fun connection => connection.post (.detach panel.toTerminal)
    else client)

/-- These panels' terminals start only when reloaded. -/
def keepDormant (panels : List PanelId) : TerminalHub E :=
  { hub with dormant := hub.dormant.insertMany panels }

/-- End a panel's terminal at the user's request. -/
def kill (client : Option Client) : TerminalHub E × Option Client :=
  ({ hub with
      killed := hub.killed.insert panel
      views := hub.views.erase panel
      plans := hub.plans.erase panel },
    client.map fun connection => connection.post (.kill panel.toTerminal))

/-- How `panel`'s shell is started: its plan in the shell that was chosen. -/
def spawnSpec (plan : SpawnPlan) (shell : ShellInfo) (view : TerminalView E) : SpawnSpec :=
  { terminal := panel.toTerminal
    project := plan.project
    label := plan.label
    program := shell.program
    args := shell.args ++ plan.config.args
    cwd :=
      startDirectory plan.config plan.root hub.rememberDirectory platform.isWithin platform.isDir
    env := platform.vars.filter fun var => !isPrivateEnvVar var.1
    cols := view.size.1
    rows := view.size.2
    startupCommand := plan.config.startupCommand
    admin := plan.config.runAsAdmin }

/-- A cold start of `panel`'s shell, from its plan. -/
def spawn (client : Client) : TerminalHub E × Client :=
  if hub.closing then (hub, client)
  else
    match hub.plans[panel]? with
    | none => (hub, client)
    | some plan =>
        let (config, captured) := plan.config.capture
        let plan := { plan with config }
        let hub :=
          { hub with
            plans := hub.plans.insert panel plan
            queued := if captured then hub.queued ++ [.captured panel] else hub.queued }
        match hub.views[panel]? with
        | none => (hub, client)
        | some view =>
            match choose hub.shells (plan.config.shell.or hub.defaultShell) with
            | none =>
                (hub.setView panel
                    { view with status := .failed "No shell was found on this system." },
                  client)
            | some shell =>
                hub.ask panel { view with status := .connecting } .spawn
                  (.spawn (hub.spawnSpec platform panel plan shell view)) client

/-- `panel` waits for a fresh shell. -/
def awaitShell : TerminalHub E :=
  let hub := { hub with dormant := hub.dormant.erase panel }
  match hub.views[panel]? with
  | some view => hub.setView panel { view with status := .connecting, pending := none }
  | none => hub

/-- Start a fresh shell in a panel whose terminal failed, exited or is dormant. -/
def restart (client : Option Client) : TerminalHub E × Option Client :=
  match client with
  | some connection =>
      let (hub, connection) :=
        (hub.awaitShell panel).spawn platform panel (connection.post (.forget panel.toTerminal))
      (hub, some connection)
  | none => (hub.awaitShell panel, none)

/-- Some terminal runs. -/
def running : Bool := hub.views.toList.any fun (_, view) => view.status == .running

/-- It is time to read the directories again. -/
def due (now : Nat) : Bool := hub.listedAt.all fun «at» => directoryPoll ≤ now - «at»

/-- Read the running shells' working directories now and then, one `List` at a time. -/
def pollDirectories (now : Nat) (client : Option Client) :
    TerminalHub E × Option Client × Option Nat :=
  match client.filter fun _ => hub.running with
  | none => (hub, client, none)
  | some connection =>
      if hub.listing = none ∧ hub.due now then
        let (id, connection) := connection.send .list
        ({ hub with listing := some id, listedAt := some now }, some connection, some directoryPoll)
      else (hub, client, some directoryPoll)

def takeQueued : TerminalHub E × List HubEvent := ({ hub with queued := [] }, hub.queued)

end calls

/-! ## Daemon events -/

section events

variable (platform : Platform E)

/-- One thing the emulator produced: answers go to the shell, titles and clipboard
writes to the app. -/
def emulatorEvent (view : TerminalView E) (client : Option Client) :
    TermEvent → TerminalView E × Option Client × List HubEvent
  | .reply text => (view, answer text, [])
  | .title title => ({ view with title := some title }, client, [.titleChanged view.panel])
  | .resetTitle => ({ view with title := none }, client, [.titleChanged view.panel])
  | .clipboard text => (view, client, [.clipboard text])
  | .bell => ({ view with bell := true }, client, [])
  | .colorQuery index word => (view, answer (word (platform.queriedColour view.term index)), [])
  | .sizeQuery word =>
      (view, answer (word ⟨view.size.1, view.size.2, view.cellPx.1, view.cellPx.2⟩), [])
where
  answer (text : String) : Option Client :=
    client.map fun connection => connection.write view.panel.toTerminal text.toUTF8.toList

/-- Forward what the emulator produced since the last call. -/
def emulatorEvents (view : TerminalView E) (client : Option Client) :
    TerminalView E × Option Client × List HubEvent :=
  view.events.foldl
    (fun (view, client, out) event =>
      let (view, client, raised) := emulatorEvent platform view client event
      (view, client, out ++ raised))
    ({ view with events := [] }, client, [])

variable (hub : TerminalHub E)

/-- What the hub leaves, what it leaves of the client, and the events it raises. -/
abbrev Outcome (E : Type) := TerminalHub E × Option Client × List HubEvent

def onOutput (panel : PanelId) (offset : Nat) (data : Bytes) (client : Option Client) : Outcome E :=
  match hub.views[panel]? with
  | none => (hub, client, [])
  | some view =>
      let (view, client, out) := emulatorEvents platform (view.feed platform offset data) client
      let (view, dir) := view.settleDirectory
      (hub.setView panel view, client, out ++ (dir.map (.directory panel)).toList)

/-- Show that `panel`'s terminal has ended. -/
def exited (panel : PanelId) (status : ExitStatus) (client : Option Client) : Outcome E :=
  if panel ∉ hub.views ∧ panel ∉ hub.plans then
    -- the user interface ended this terminal already, and its panel has moved on
    (hub, client, [])
  else
    let observed := hub.plans[panel]?.any fun plan => plan.config.runningCommand.isSome
    let plans := hub.plans.modify panel fun plan =>
      { plan with config := { plan.config with runningCommand := none } }
    let raised := if observed then [HubEvent.observed panel none] else []
    if shouldSurfaceExit status then
      ({ hub with
          plans
          views := hub.views.modify panel fun view => { view with status := .exited status } },
        client, raised ++ [.failed panel status])
    else
      let config := (plans[panel]?.map SpawnPlan.config).getD {}
      ({ hub with plans := plans.erase panel, views := hub.views.erase panel },
        client.map fun connection => connection.post (.forget panel.toTerminal),
        raised ++ [.ended panel config])

def onExited (panel : PanelId) (status : ExitStatus) (client : Option Client) : Outcome E :=
  if status.userKilled ∧ panel ∈ hub.killed then
    ({ hub with killed := hub.killed.erase panel }, client, [])
  else hub.exited panel status client

def onResync (panel : PanelId) (client : Option Client) : Outcome E :=
  match hub.views[panel]?, client with
  | some view, some connection =>
      let (hub, connection) := hub.ask panel view .attach (attachRequest panel view) connection
      (hub, some connection, [])
  | _, _ => (hub, client, [])

/-- What one listed session says about its panel. -/
def onInfo (remembering : Bool) (info : TerminalInfo) : TerminalHub E × List HubEvent :=
  let panel := info.terminal.toPanel
  match hub.views[panel]? with
  | none => (hub, [])
  | some view =>
      let shellPid := info.pid.filter fun _ => info.exited.isNone
      let (view, dir) :=
        { view with
          shellPid, processCwd := shellPid.bind platform.workingDirectory }.settleDirectory
      let observed :=
        match shellPid, hub.plans[panel]? with
        | some pid, some plan =>
            let running := platform.runningCommand pid
            if remembering ∧ plan.config.rememberCommand ∧ plan.config.runningCommand ≠ running then
              [HubEvent.observed panel running]
            else []
        | _, _ => []
      (hub.setView panel view, (dir.map (.directory panel)).toList ++ observed)

def onList (list : List TerminalInfo) : TerminalHub E × List HubEvent :=
  let remembering := hub.plans.toList.any fun (_, plan) => plan.config.rememberCommand
  list.foldl
    (fun (hub, out) info =>
      let (hub, raised) := onInfo platform hub remembering info
      (hub, out ++ raised))
    (hub, [])

/-- Apply the reply to a request sent for `panel` to its view. -/
def applyReply (panel : PanelId) (view : TerminalView E) (kind : Pending)
    (result : Except String Reply) (client : Option Client) : Outcome E :=
  let view := { view with pending := none }
  let hub := hub.setView panel view
  match kind, result with
  | _, .ok (.snapshot snapshot) =>
      let hub := hub.setView panel (view.applySnapshot platform snapshot)
      match snapshot.exited with
      | some status => hub.exited panel status client
      | none => (hub, client, [])
  | kind, .error message =>
      if kind = .attach ∧ message = noSuchTerminal then
        if panel ∈ hub.dormant then
          (hub.setView panel { view with status := .dormant }, client, [])
        else
          match client with
          | some connection =>
              let (hub, connection) := hub.spawn platform panel connection
              (hub, some connection, [])
          | none => (hub, none, [])
      else (hub.setView panel { view with status := .failed message }, client, [])
  | _, .ok _ => (hub, client, [])

/-- Raise what was queued meanwhile, too. -/
def flush : Outcome E → Outcome E
  | (hub, client, out) => ({ hub with queued := [] }, client, out ++ hub.queued)

def onReply (id : Nat) (result : Except String Reply) (client : Option Client) : Outcome E :=
  if hub.listing = some id then
    let hub := { hub with listing := none }
    match result with
    | .ok (.terminals list) =>
        let (hub, out) := hub.onList platform list
        flush (hub, client, out)
    | _ => flush (hub, client, [])
  else
    match hub.pending[id]? with
    | none => (hub, client, [])
    | some (panel, kind) =>
        let hub := { hub with pending := hub.pending.erase id }
        match hub.views[panel]? with
        | none => (hub, client, [])
        | some view => flush (hub.applyReply platform panel view kind result client)

/-- Apply one daemon event. -/
def onDaemonEvent (event : ClientEvent) (client : Option Client) : Outcome E :=
  match event with
  | .output terminal offset data =>
      flush (hub.onOutput platform terminal.toPanel offset data client)
  | .exited terminal status => flush (hub.onExited terminal.toPanel status client)
  | .resync terminal => flush (hub.onResync terminal.toPanel client)
  | .reply id result => hub.onReply platform id result client
  | .disconnected _ => flush (hub, client, [])

end events

end TerminalHub

end Throng
