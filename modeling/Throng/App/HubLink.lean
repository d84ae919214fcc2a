import Throng.App.HubTalk
import Throng.Daemon.Session
import Throng.Lib.Machine

/-!
# The hub, its connection and the daemon

The machine below runs the hub against the daemon's sessions over a connection that
comes and goes. Requests and messages each travel in order; a lost connection takes
what is under way with it. The daemon handles a whole request in one step here (the
interleavings inside a request are the daemon's own machine), and may besides send
at any time what no request asked for. Other clients' requests come in between.

Each message under way remembers what it is about: a reply the request it answers,
an end whether a `Kill` of the hub caused it.
-/

namespace Throng

open Daemon (Client ClientEvent ClientId Session)

/-- A message on its way from the daemon. -/
inductive Arriving
  | reply (id : Nat) (request : Request) (result : Except String Reply)
  | exited (terminal : TerminalId) (status : ExitStatus) (byHub : Bool)
  | output (terminal : TerminalId) (offset : Nat) (data : Bytes)
  | resync (terminal : TerminalId)

namespace Arriving

def message : Arriving → ServerMsg
  | .reply id _ result => .reply id result
  | .exited terminal status _ => .exited terminal status
  | .output terminal offset data => .output terminal offset data
  | .resync terminal => .resync terminal

/-- The numbered request a message answers. -/
def answers : Arriving → Option (Nat × Request)
  | .reply id request _ => if id = noReply then none else some (id, request)
  | _ => none

/-- The terminal whose session the hub's `Kill` ended. -/
def endedByHub : Arriving → Option TerminalId
  | .exited terminal _ true => some terminal
  | _ => none

/-- A message the daemon sends, while it handles the hub's request `own` or on some
other occasion. -/
def of (own : Option (Nat × Request)) : ServerMsg → Option Arriving
  | .reply id result => own.map fun own => .reply id own.2 result
  | .exited terminal status =>
      some (.exited terminal status (own.any fun own => own.1 = noReply ∧ own.2.kills.isSome))
  | .output terminal offset data => some (.output terminal offset data)
  | .resync terminal => some (.resync terminal)
  | .welcome _ _ _ => none

end Arriving

/-- The terminal a posted request ends: the hub's `Kill`s need no answer. -/
def hubKill (message : Nat × Request) : Option TerminalId :=
  if message.1 = noReply then message.2.kills else none

namespace HubLink

variable {E : Type}

structure Sys (E : Type) where
  hub : TerminalHub E
  client : Option Client
  /-- The daemon's name for the connection. -/
  number : ClientId
  sessions : Std.ExtTreeMap TerminalId Session
  arriving : List Arriving

/-- What happens. A call or a delivery is `live` when the client is handed to the hub,
which it is not once the connection is known to be gone. The daemon's `answer` says
what it finds out on its own: whether a shell starts, what it lists, what is idle. -/
inductive Act
  | prepare (panel : PanelId) (plan : SpawnPlan)
  | keepDormant (panels : List PanelId)
  | takeQueued
  | quit
  | connect (panel : PanelId) (live : Bool)
  | forgetView (panel : PanelId) (live : Bool)
  | kill (panel : PanelId) (live : Bool)
  | restart (panel : PanelId) (live : Bool)
  | pollDirectories (now : Nat) (live : Bool)
  /-- The app sends a request and waits for its answer. -/
  | await (request : Request)
  | giveUp (id : Nat)
  /-- The daemon handles the request that left first. -/
  | handle (answer : Except String Reply) (elevated : Bool)
  /-- The daemon handles another client's request. -/
  | other (client : ClientId) (id : Nat) (request : Request) (answer : Except String Reply)
      (elevated : Bool)
  | finish (terminal : TerminalId) (code : Option Int)
  /-- The daemon forgets a session that has ended by the user. -/
  | sessionEnded (terminal : TerminalId)
  /-- The daemon sends output, a resync, or the end of a session that is no longer
  found under its id. -/
  | send (message : ServerMsg)
  | deliver (live : Bool)
  | connected
  | lost

/-- A reply, unless none is wanted. -/
def replyTo (client : ClientId) (id : Nat) (result : Except String Reply) : Session.Sends :=
  if id = noReply then [] else [(client, .reply id result)]

/-- The sessions a `CloseIdle` ends, of those the daemon finds idle. -/
def closedIdle (sessions : Std.ExtTreeMap TerminalId Session) (terminals : List TerminalId)
    (answer : Except String Reply) : List TerminalId :=
  match answer with
  | .ok (.closed idle) =>
      terminals.filter fun terminal =>
        idle.contains terminal && sessions[terminal]?.any fun session => !session.isExited
  | _ => []

/-- The daemon handles one request. -/
def handle (tailBytes : Nat) (sessions : Std.ExtTreeMap TerminalId Session) (client : ClientId)
    (id : Nat) (request : Request) (answer : Except String Reply) (elevated : Bool) :
    Std.ExtTreeMap TerminalId Session × Session.Sends :=
  let reply := replyTo client id
  match request with
  | .spawn spec =>
      if sessions[spec.terminal]?.any fun session => !session.isExited then
        (sessions, reply (.error "A terminal with this id is already running."))
      else
        match answer with
        | .error message => (sessions, reply (.error message))
        | .ok _ =>
            let (session, _, sends) :=
              (Session.spawn spec tailBytes elevated).attach client id spec.cols spec.rows
            (sessions.insert spec.terminal session, sends)
  | .attach terminal cols rows =>
      match sessions[terminal]? with
      | some session =>
          let (session, _, sends) := session.attach client id cols rows
          (sessions.insert terminal session, sends)
      | none => (sessions, reply (.error noSuchTerminal))
  | .detach terminal =>
      (sessions.modify terminal fun session => session.detach client, reply (.ok .ok))
  | .write terminal _ =>
      (sessions, reply (if terminal ∈ sessions then answer else .error noSuchTerminal))
  | .resize terminal cols rows =>
      (sessions.modify terminal fun session => session.resize client cols rows, reply (.ok .ok))
  | .kill terminal =>
      match sessions[terminal]? with
      | some session => (sessions.erase terminal, session.endViews.2 ++ reply (.ok .ok))
      | none => (sessions, reply (.ok .ok))
  | .forget terminal =>
      (if sessions[terminal]?.any Session.isExited then sessions.erase terminal else sessions,
        reply (.ok .ok))
  | .list => (sessions, reply answer)
  | .closeIdle terminals =>
      let closed := closedIdle sessions terminals answer
      (sessions.map fun terminal session =>
          if closed.contains terminal then session.kill else session,
        reply (.ok (.closed closed)))
  | .shutdown _ => (sessions, reply answer)
  | .ping => (sessions, reply (.ok .pong))

/-- What of the daemon's messages goes to connection `number`. -/
def heard (number : ClientId) (own : Option (Nat × Request)) (sends : Session.Sends) :
    List Arriving :=
  sends.filterMap fun (client, message) => if client = number then Arriving.of own message else none

namespace Sys

variable (s : Sys E)

/-- The client a call is handed. -/
def link (live : Bool) : Option Client := if live then s.client else none

/-- After a call: what the hub is, and what it left of the client it was handed. -/
def put (live : Bool) (hub : TerminalHub E) (client : Option Client) : Sys E :=
  { s with hub, client := if live then client else s.client }

/-- The daemon's messages set out, those to a connection that is gone to nowhere. -/
def hear (own : Option (Nat × Request)) (sends : Session.Sends) : Sys E :=
  if s.client.isSome then { s with arriving := s.arriving ++ heard s.number own sends } else s

end Sys

variable (platform : Platform E) (tailBytes : Nat)

/-- The message `first` reaches the client, and the hub unless somebody waits for it. -/
def arrive (s : Sys E) (client : Client) (first : Arriving) (rest : List Arriving) (live : Bool) :
    Sys E :=
  let (client, event) := client.receive first.message
  let s := { s with client := some client, arriving := rest }
  match event with
  | some event =>
      let (hub, client, _) := s.hub.onDaemonEvent platform event (s.link live)
      s.put live hub client
  | none => s

def step (s : Sys E) : Act → Option (Sys E)
  | .prepare panel plan => some { s with hub := s.hub.prepare platform panel plan }
  | .keepDormant panels => some { s with hub := s.hub.keepDormant panels }
  | .takeQueued => some { s with hub := s.hub.takeQueued.1 }
  | .quit => some { s with hub := { s.hub with closing := true } }
  | .connect panel live =>
      let (hub, client) := s.hub.connect panel (s.link live)
      some (s.put live hub client)
  | .forgetView panel live =>
      let (hub, client) := s.hub.forgetView panel (s.link live)
      some (s.put live hub client)
  | .kill panel live =>
      let (hub, client) := s.hub.kill panel (s.link live)
      some (s.put live hub client)
  | .restart panel live =>
      let (hub, client) := s.hub.restart platform panel (s.link live)
      some (s.put live hub client)
  | .pollDirectories now live =>
      let (hub, client, _) := s.hub.pollDirectories now (s.link live)
      some (s.put live hub client)
  | .await request =>
      match s.client with
      | some client =>
          if request.asks.isSome then none else some
            { s with client := some (client.request request) }
      | none => none
  | .giveUp id => some { s with client := s.client.map fun client => client.giveUp id }
  | .handle answer elevated =>
      match s.client with
      | some client =>
          match client.outgoing with
          | [] => none
          | (id, request) :: outgoing =>
              let (sessions, sends) :=
                handle tailBytes s.sessions s.number id request answer elevated
              some ({ s with sessions, client := some { client with outgoing } }.hear
                (some (id, request)) sends)
      | none => none
  | .other client id request answer elevated =>
      if client = s.number then none
      else
        let (sessions, sends) := handle tailBytes s.sessions client id request answer elevated
        some ({ s with sessions }.hear none sends)
  | .finish terminal code =>
      match s.sessions[terminal]? with
      | some session =>
          if session.isExited then none
          else
            let (session, sends) := session.finish code
            some ({ s with sessions := s.sessions.insert terminal session }.hear none sends)
      | none => none
  | .sessionEnded terminal =>
      if s.sessions[terminal]?.any fun session => session.isExited && session.state.userKilled then
        some { s with sessions := s.sessions.erase terminal }
      else none
  | .send message => some (s.hear none [(s.number, message)])
  | .deliver live =>
      match s.client, s.arriving with
      | some client, first :: rest => some (arrive platform s client first rest live)
      | _, _ => none
  | .connected =>
      if s.client.isSome then none
      else
        some { s with
          hub := s.hub.reconnected
          client := some .connected
          number := s.number + 1
          arriving := [] }
  | .lost =>
      if s.client.isNone then none
      else some { s with hub := s.hub.disconnected, client := none, arriving := [] }

/-- The app has started: it shows no terminal yet and has no connection, while the
daemon may hold sessions already. -/
def machine : Machine (Sys E) Act where
  init s :=
    (∃ shells defaultShell scrollback, s.hub = .new shells defaultShell scrollback) ∧
      s.client = none ∧ s.arriving = [] ∧
      ∀ (terminal : TerminalId) session, s.sessions[terminal]? = some session →
        session.id = terminal
  step := step platform tailBytes

/-! ## What is under way -/

/-- Requests that left and were not taken by the daemon yet. -/
def outgoing (client : Option Client) : List (Nat × Request) := (client.map Client.outgoing).getD []

/-- The number the next request gets. -/
def nextId (client : Option Client) : Nat := (client.map Client.nextId).getD 1

/-- The numbered requests of this connection that are unanswered, in the order they
were made. -/
def asked (client : Option Client) (arriving : List Arriving) : List (Nat × Request) :=
  arriving.filterMap Arriving.answers ++ (outgoing client).filter fun message =>
    message.1 != noReply

/-- The terminals whose end by a `Kill` of the hub is still to arrive, in the order of
the `Kill`s. -/
def ending (client : Option Client) (arriving : List Arriving) : List TerminalId :=
  arriving.filterMap Arriving.endedByHub ++ (outgoing client).filterMap hubKill

/-- A connection that is there is not gone. -/
theorem online {client : Client} {p : Prop} (h : some client = none) : p :=
  absurd h (Option.some_ne_none client)

section underWay

variable (client : Client) (arriving : List Arriving) (number : ClientId)

theorem mem_asked_pos {client : Option Client} {arriving : List Arriving} {message : Nat × Request}
    (h : message ∈ asked client arriving) : 0 < message.1 := by
  rw [asked, List.mem_append, List.mem_filterMap, List.mem_filter] at h
  rcases h with ⟨a, -, ha⟩ | ⟨-, h⟩
  · cases a with
    | reply id request result =>
        simp only [Arriving.answers, Option.ite_none_left_eq_some, Option.some.injEq] at ha
        obtain ⟨hne, rfl⟩ := ha
        exact Nat.pos_of_ne_zero hne
    | exited | output | resync => cases ha
  · exact Nat.pos_of_ne_zero (by simpa [noReply] using h)

theorem asked_post (request : Request) :
    asked (some (client.post request)) arriving = asked (some client) arriving := by
  simp [asked, outgoing, Client.post]

theorem asked_send (request : Request) (hpos : 0 < client.nextId) :
    asked (some (client.send request).2) arriving =
      asked (some client) arriving ++ [(client.nextId, request)] := by
  simp [asked, outgoing, Client.send, noReply, Nat.ne_of_gt hpos]

theorem asked_request (request : Request) (hpos : 0 < client.nextId) :
    asked (some (client.request request)) arriving =
      asked (some client) arriving ++ [(client.nextId, request)] := by
  simp [asked, outgoing, Client.request, noReply, Nat.ne_of_gt hpos]

theorem ending_post (request : Request) :
    ending (some (client.post request)) arriving =
      ending (some client) arriving ++ request.kills.toList := by
  cases h : request.kills <;> simp [ending, outgoing, Client.post, hubKill, h]

theorem ending_numbered {client client' : Client} {id : Nat} (request : Request) (hpos : 0 < id)
    (hout : client'.outgoing = client.outgoing ++ [(id, request)]) :
    ending (some client') arriving = ending (some client) arriving := by
  simp [ending, outgoing, hout, hubKill, noReply, Nat.ne_of_gt hpos]

/-- What no request of the hub's asked for answers none and ends none by the hub. -/
theorem heard_none (sends : Session.Sends) :
    (heard number none sends).filterMap Arriving.answers = [] ∧
      (heard number none sends).filterMap Arriving.endedByHub = [] := by
  have hnone : ∀ a ∈ heard number none sends, a.answers = none ∧ a.endedByHub = none := by
    intro a ha
    rw [heard, List.mem_filterMap] at ha
    obtain ⟨⟨client, message⟩, -, ha⟩ := ha
    rw [Option.ite_none_right_eq_some] at ha
    cases message with
    | reply | welcome => cases ha.2
    | exited | output | resync =>
        cases ha.2
        exact ⟨rfl, rfl⟩
  rw [List.filterMap_eq_nil_iff, List.filterMap_eq_nil_iff]
  exact ⟨fun a ha => (hnone a ha).1, fun a ha => (hnone a ha).2⟩

/-- An end that is told to every view is told to this connection once, if its view is
attached. -/
theorem heard_exitedTo (own : Option (Nat × Request)) (session : Session) (status : ExitStatus) :
    heard number own (session.exitedTo status) =
      if number ∈ session.state.views then
        (Arriving.of own (.exited session.id status)).toList
      else [] := by
  have hkeys : heard number own (session.exitedTo status) =
      (session.state.views.keys.filter fun client => client = number).flatMap fun _ =>
        (Arriving.of own (.exited session.id status)).toList := by
    unfold heard Session.exitedTo
    generalize session.state.views.keys = keys
    induction keys with
    | nil => rfl
    | cons client keys ih =>
        by_cases h : client = number
        · cases hof : Arriving.of own (.exited session.id status) <;> simp_all
        · simp_all
  have hnodup : session.state.views.keys.Nodup := Std.ExtTreeMap.nodup_keys
  have hmem : number ∈ session.state.views.keys ↔ number ∈ session.state.views :=
    Std.ExtTreeMap.mem_keys
  rw [hkeys]
  by_cases h : number ∈ session.state.views
  · have hone : (session.state.views.keys.filter fun client => client = number) = [number] := by
      rw [List.filter_eq, List.count_eq_one_of_mem hnodup (hmem.mpr h)]
      rfl
    rw [hone, if_pos h]
    simp
  · have hzero : (session.state.views.keys.filter fun client => client = number) = [] := by
      rw [List.filter_eq_nil_iff]
      intro client hclient
      have hne : client ≠ number := fun heq => h (hmem.mp (heq ▸ hclient))
      simpa using hne
    rw [hzero, if_neg h]
    rfl

theorem heard_append (own : Option (Nat × Request)) (sends sends' : Session.Sends) :
    heard number own (sends ++ sends') = heard number own sends ++ heard number own sends' :=
  List.filterMap_append

/-- The reply to the hub's own request. -/
theorem heard_replyTo (id : Nat) (request : Request) (result : Except String Reply) :
    heard number (some (id, request)) (replyTo number id result) =
      if id = noReply then [] else [.reply id request result] := by
  unfold replyTo
  by_cases h : id = noReply
  · rw [if_pos h, if_pos h]
    rfl
  · rw [if_neg h, if_neg h]
    simp [heard, Arriving.of]

end underWay

/-! ## An app for runs on fixed inputs -/

/-- An emulator that shows nothing, on a system without processes. -/
def blank : Platform Unit where
  newTerm _ _ := ()
  advance _ _ := ((), [])
  queriedColour _ _ := ⟨0, 0, 0⟩
  localDirectory _ := none
  workingDirectory _ := none
  runningCommand _ := none
  isWithin _ _ := false
  isDir _ := false
  vars := []

/-- A plan with nothing configured. -/
def plainPlan : SpawnPlan := ⟨⟨1⟩, "panel", "/", {}⟩

end HubLink

end Throng
