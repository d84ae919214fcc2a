import Throng.App.HubLink

/-!
# A closing hub

Once the app is quitting, the frames a closing window still draws and the messages that
still arrive must start nothing. `connect` and `spawn` look at the hub's `closing`; the
answer to a resync does not.
-/

namespace Throng

open Daemon (Client ClientEvent)

/-- The request attaches a terminal or starts one. -/
def Request.opens : Request → Bool
  | .attach _ _ _ | .spawn _ => true
  | _ => false

namespace TerminalHub

variable {E : Type}

/-! ## Calls -/

/-- What is done to a hub. -/
inductive Call (E : Type)
  | prepare (panel : PanelId) (plan : SpawnPlan)
  | keepDormant (panels : List PanelId)
  | takeQueued
  | reconnected
  | disconnected
  | connect (panel : PanelId)
  | forgetView (panel : PanelId)
  | kill (panel : PanelId)
  | restart (panel : PanelId)
  | pollDirectories (now : Nat)
  | event (event : ClientEvent)
  /-- The app changes views or preferences, on its way or for good. -/
  | adjust (change : TerminalHub E → TerminalHub E)

/-- The hub after a call, and the client it was given. -/
def call (platform : Platform E) (hub : TerminalHub E) (client : Option Client) :
    Call E → TerminalHub E × Option Client
  | .prepare panel plan => (hub.prepare platform panel plan, client)
  | .keepDormant panels => (hub.keepDormant panels, client)
  | .takeQueued => (hub.takeQueued.1, client)
  | .reconnected => (hub.reconnected, client)
  | .disconnected => (hub.disconnected, client)
  | .connect panel => hub.connect panel client
  | .forgetView panel => hub.forgetView panel client
  | .kill panel => hub.kill panel client
  | .restart panel => hub.restart platform panel client
  | .pollDirectories now =>
      ((hub.pollDirectories now client).1, (hub.pollDirectories now client).2.1)
  | .event event =>
      ((hub.onDaemonEvent platform event client).1, (hub.onDaemonEvent platform event client).2.1)
  | .adjust change => ({ change hub with closing := hub.closing }, client)

/-- What has left or is to leave over a connection, if there is one. -/
def outgoing (client : Option Client) : List (Nat × Request) := client.elim [] Client.outgoing

/-- The requests sent in a number of calls, each given some client or none. -/
def sent (platform : Platform E) (hub : TerminalHub E) :
    List (Call E × Option Client) → List (Nat × Request)
  | [] => []
  | (call, client) :: calls =>
      let next := hub.call platform client call
      (outgoing next.2).drop (outgoing client).length ++ sent platform next.1 calls

/-- The call is a resync that reaches a view, with a connection at hand. -/
def Resyncs (hub : TerminalHub E) : Call E → Option Client → Prop
  | .event (.resync terminal), some _ => terminal.toPanel ∈ hub.views
  | _, _ => False

/-- None of the calls is such a resync. -/
def Undisturbed (platform : Platform E) (hub : TerminalHub E) :
    List (Call E × Option Client) → Prop
  | [] => True
  | (call, client) :: calls =>
      ¬ hub.Resyncs call client ∧ Undisturbed platform (hub.call platform client call).1 calls

/-! ## Requests that open nothing -/

/-- What is added to a connection opens no terminal. -/
def Quiet (client client' : Option Client) : Prop :=
  ∃ requests, outgoing client' = outgoing client ++ requests ∧
    ∀ request ∈ requests, request.2.opens = false

namespace Quiet

variable {client client' client'' : Option Client} {connection : Client} {request : Request}

theorem refl (client : Option Client) : Quiet client client :=
  ⟨[], (List.append_nil _).symm, fun _ h => nomatch h⟩

theorem trans (h : Quiet client client') (h' : Quiet client' client'') : Quiet client client'' := by
  obtain ⟨requests, heq, hquiet⟩ := h
  obtain ⟨requests', heq', hquiet'⟩ := h'
  refine ⟨requests ++ requests', ?_, fun request hrequest => ?_⟩
  · rw [heq', heq, List.append_assoc]
  · rcases List.mem_append.mp hrequest with hmem | hmem
    · exact hquiet request hmem
    · exact hquiet' request hmem

theorem post (h : request.opens = false) :
    Quiet (some connection) (some (connection.post request)) :=
  ⟨[(noReply, request)], rfl, fun _ hmem => by rw [List.mem_singleton.mp hmem, h]⟩

theorem send (h : request.opens = false) :
    Quiet (some connection) (some (connection.send request).2) :=
  ⟨[(connection.nextId, request)], rfl, fun _ hmem => by rw [List.mem_singleton.mp hmem, h]⟩

theorem map_post (client : Option Client) (h : request.opens = false) :
    Quiet client (client.map fun connection => connection.post request) := by
  cases client with
  | none => exact refl none
  | some connection => exact post h

theorem write (connection : Client) (terminal : TerminalId) (data : Bytes) :
    Quiet (some connection) (some (connection.write terminal data)) := by
  unfold Client.write
  generalize data.toChunks Client.writeChunk = chunks
  induction chunks generalizing connection with
  | nil => exact refl _
  | cons chunk chunks ih => exact (post rfl).trans (ih _)

end Quiet

/-- A closing hub stays closing, and opens nothing. -/
structure Still (client : Option Client) (outcome : TerminalHub E × Option Client) : Prop where
  closing : outcome.1.closing = true
  quiet : Quiet client outcome.2

/-! ## What a closing hub does -/

section calls

variable {platform : Platform E} {hub : TerminalHub E} {panel : PanelId} {client : Option Client}

theorem still_of_quiet (h : hub.closing = true) : Still client (hub, client) :=
  ⟨h, .refl client⟩

theorem still_connect (h : hub.closing = true) : Still client (hub.connect panel client) := by
  rw [connect.eq_def, if_pos h]
  exact still_of_quiet h

theorem spawn_closing (h : hub.closing = true) (connection : Client) :
    hub.spawn platform panel connection = (hub, connection) := by
  rw [spawn, if_pos h]

theorem still_spawn (h : hub.closing = true) (connection : Client) :
    Still (some connection) ((hub.spawn platform panel connection).1,
      some (hub.spawn platform panel connection).2) := by
  rw [spawn_closing h]
  exact still_of_quiet h

theorem still_forgetView (h : hub.closing = true) :
    Still client (hub.forgetView panel client) := by
  refine ⟨h, ?_⟩
  rw [forgetView]
  dsimp only
  split
  · exact .map_post client rfl
  · exact .refl client

theorem still_kill (h : hub.closing = true) : Still client (hub.kill panel client) :=
  ⟨h, .map_post client rfl⟩

theorem closing_awaitShell : (hub.awaitShell panel).closing = hub.closing := by
  rw [awaitShell]
  dsimp only
  split <;> rfl

theorem still_restart (h : hub.closing = true) :
    Still client (hub.restart platform panel client) := by
  have hawait : (hub.awaitShell panel).closing = true := closing_awaitShell.trans h
  rw [restart.eq_def]
  cases client with
  | none => exact ⟨hawait, .refl none⟩
  | some connection =>
      dsimp only
      rw [spawn_closing hawait]
      exact ⟨hawait, .post rfl⟩

theorem still_pollDirectories (h : hub.closing = true) (now : Nat) :
    Still client ((hub.pollDirectories now client).1, (hub.pollDirectories now client).2.1) := by
  rw [pollDirectories]
  cases hclient : client.filter fun _ => hub.running with
  | none => exact still_of_quiet h
  | some connection =>
      obtain rfl := (Option.filter_eq_some_iff.mp hclient).1
      dsimp only
      split_ifs
      · exact ⟨h, .send rfl⟩
      · exact still_of_quiet h

end calls

section events

variable (platform : Platform E) {hub : TerminalHub E} {panel : PanelId} {client : Option Client}

theorem quiet_emulatorEvent (view : TerminalView E) (client : Option Client) (event : TermEvent) :
    Quiet client (emulatorEvent platform view client event).2.1 := by
  have hanswer : ∀ text, Quiet client (emulatorEvent.answer view client text) := by
    intro text
    cases client with
    | none => exact .refl none
    | some connection => exact .write connection _ _
  cases event with
  | reply | colorQuery | sizeQuery => exact hanswer _
  | title | resetTitle | clipboard | bell => exact .refl client

theorem quiet_emulatorEvents (view : TerminalView E) (client : Option Client) :
    Quiet client (emulatorEvents platform view client).2.1 := by
  unfold emulatorEvents
  generalize ({ view with events := [] } : TerminalView E) = shown
  generalize ([] : List HubEvent) = out
  induction view.events generalizing shown client out with
  | nil => exact .refl client
  | cons event events ih =>
      exact (quiet_emulatorEvent platform shown client event).trans (ih _ _ _)

/-- The hub and the client of an outcome, without the events it raises. -/
def Outcome.left (outcome : Outcome E) : TerminalHub E × Option Client := (outcome.1, outcome.2.1)

theorem still_flush {outcome : Outcome E} (h : Still client (Outcome.left outcome)) :
    Still client (Outcome.left (flush outcome)) := ⟨h.closing, h.quiet⟩

theorem still_onOutput (h : hub.closing = true) (offset : Nat) (data : Bytes) :
    Still client (Outcome.left (hub.onOutput platform panel offset data client)) := by
  rw [onOutput]
  split
  · exact still_of_quiet h
  · exact ⟨h, quiet_emulatorEvents platform _ client⟩

theorem still_exited (h : hub.closing = true) (status : ExitStatus) :
    Still client (Outcome.left (hub.exited panel status client)) := by
  rw [exited]
  split
  · exact still_of_quiet h
  · dsimp only
    split
    · exact ⟨h, .refl client⟩
    · exact ⟨h, .map_post client rfl⟩

theorem still_onExited (h : hub.closing = true) (status : ExitStatus) :
    Still client (Outcome.left (hub.onExited panel status client)) := by
  rw [onExited]
  split
  · exact ⟨h, .refl client⟩
  · exact still_exited h status

theorem closing_onInfo (remembering : Bool) (info : TerminalInfo) :
    (hub.onInfo platform remembering info).1.closing = hub.closing := by
  rw [onInfo]
  dsimp only
  split <;> rfl

theorem closing_onList (list : List TerminalInfo) :
    (hub.onList platform list).1.closing = hub.closing := by
  rw [onList]
  dsimp only
  generalize hub.plans.toList.any _ = remembering
  generalize ([] : List HubEvent) = out
  induction list generalizing hub out with
  | nil => rfl
  | cons info list ih => rw [List.foldl_cons, ih, closing_onInfo]

theorem still_applyReply (h : hub.closing = true) (view : TerminalView E) (kind : Pending)
    (result : Except String Reply) :
    Still client (Outcome.left (hub.applyReply platform panel view kind result client)) := by
  rw [applyReply.eq_def]
  dsimp only
  split
  · split
    · refine still_exited ?_ _
      exact h
    · exact ⟨h, .refl client⟩
  · split
    · split
      · exact ⟨h, .refl client⟩
      · split
        · refine still_spawn ?_ _
          exact h
        · exact ⟨h, .refl none⟩
    · exact ⟨h, .refl client⟩
  · exact ⟨h, .refl client⟩

theorem still_onReply (h : hub.closing = true) (id : Nat) (result : Except String Reply) :
    Still client (Outcome.left (hub.onReply platform id result client)) := by
  rw [onReply]
  split
  · split
    · refine ⟨?_, .refl client⟩
      exact (closing_onList platform _).trans h
    · exact ⟨h, .refl client⟩
  · split
    · exact still_of_quiet h
    · dsimp only
      split
      · exact ⟨h, .refl client⟩
      · refine still_flush (still_applyReply platform ?_ _ _ _)
        exact h

/-- A resync that reaches a view attaches it again, closing or not. -/
theorem onResync_attaches {view : TerminalView E} (hview : hub.views[panel]? = some view)
    (connection : Client) :
    outgoing (hub.onResync panel (some connection)).2.1 =
      connection.outgoing ++ [(connection.nextId, attachRequest panel view)] := by
  rw [onResync.eq_def, hview]
  rfl

theorem closing_onResync : (hub.onResync panel client).1.closing = hub.closing := by
  rw [onResync.eq_def]
  split <;> rfl

theorem onResync_nothing (h : client = none ∨ panel ∉ hub.views) :
    hub.onResync panel client = (hub, client, []) := by
  rw [onResync.eq_def]
  split
  next view connection hview =>
    rcases h with hnone | hnone
    · cases hnone
    · refine absurd (Std.ExtTreeMap.mem_iff_isSome_getElem?.mpr ?_) hnone
      rw [hview]
      rfl
  · rfl

end events

variable {platform : Platform E} {hub : TerminalHub E} {client : Option Client}

/-- Without a resync that reaches a view a closing hub opens nothing. -/
theorem still_call (h : hub.closing = true) {c : Call E} (hresync : ¬ hub.Resyncs c client) :
    Still client (hub.call platform client c) := by
  cases c with
  | prepare panel plan => exact ⟨h, .refl client⟩
  | keepDormant panels => exact ⟨h, .refl client⟩
  | takeQueued => exact ⟨h, .refl client⟩
  | reconnected => exact ⟨h, .refl client⟩
  | disconnected => exact ⟨h, .refl client⟩
  | connect panel => exact still_connect h
  | forgetView panel => exact still_forgetView h
  | kill panel => exact still_kill h
  | restart panel => exact still_restart h
  | pollDirectories now => exact still_pollDirectories h now
  | adjust change => exact ⟨h, .refl client⟩
  | event event =>
      cases event with
      | output terminal offset data => exact still_flush (still_onOutput platform h offset data)
      | exited terminal status => exact still_flush (still_onExited h status)
      | reply id result => exact still_onReply platform h id result
      | disconnected reason => exact still_flush (still_of_quiet h)
      | resync terminal =>
          have hnothing : client = none ∨ terminal.toPanel ∉ hub.views := by
            cases client with
            | none => exact .inl rfl
            | some connection => exact .inr hresync
          have hflush : Still client (Outcome.left (flush (hub, client, []))) :=
            still_flush (still_of_quiet h)
          rw [← onResync_nothing hnothing] at hflush
          exact hflush

theorem closing_call (h : hub.closing = true) (c : Call E) :
    (hub.call platform client c).1.closing = true := by
  by_cases hresync : hub.Resyncs c client
  · rw [Resyncs.eq_def] at hresync
    split at hresync
    · exact closing_onResync.trans h
    · exact hresync.elim
  · exact (still_call h hresync).closing

/-- A resync that reaches a view opens its terminal. -/
theorem opens_of_resyncs {c : Call E} (hresync : hub.Resyncs c client) :
    ∃ request ∈ (outgoing (hub.call platform client c).2).drop (outgoing client).length,
      request.2.opens = true := by
  rw [Resyncs.eq_def] at hresync
  split at hresync
  next terminal connection =>
    obtain ⟨view, hview⟩ :=
      Option.isSome_iff_exists.mp (Std.ExtTreeMap.mem_iff_isSome_getElem?.mp hresync)
    refine ⟨(connection.nextId, attachRequest terminal.toPanel view), ?_, rfl⟩
    show _ ∈ (outgoing (hub.onResync terminal.toPanel (some connection)).2.1).drop _
    rw [onResync_attaches hview]
    show _ ∈ (connection.outgoing ++ _).drop connection.outgoing.length
    rw [List.drop_left]
    exact List.mem_singleton_self _
  · exact hresync.elim

/-- A closing hub, whatever is done to it and whatever arrives, opens no terminal if and only
if no resync reaches a view. -/
theorem opensNothing_iff (platform : Platform E) (hub : TerminalHub E)
    (calls : List (Call E × Option Client)) (h : hub.closing = true) :
    (∀ request ∈ hub.sent platform calls, request.2.opens = false) ↔
      hub.Undisturbed platform calls := by
  induction calls generalizing hub with
  | nil => exact iff_of_true (fun _ hmem => nomatch hmem) trivial
  | cons step calls ih =>
      obtain ⟨c, client⟩ := step
      rw [sent, Undisturbed, List.forall_mem_append, ih _ (closing_call h c)]
      refine and_congr_left' ?_
      by_cases hresync : hub.Resyncs c client
      · refine iff_of_false (fun hquiet => ?_) (not_not_intro hresync)
        obtain ⟨request, hmem, hopens⟩ := opens_of_resyncs hresync
        rw [hquiet request hmem] at hopens
        cases hopens
      · refine iff_of_true ?_ hresync
        obtain ⟨requests, heq, hquiet⟩ := (still_call h hresync).quiet
        rw [heq, List.drop_left]
        exact hquiet

/-- A hub with one running terminal, closing. -/
def closingHub : TerminalHub Unit :=
  { (TerminalHub.new [] none 1000 : TerminalHub Unit).prepare HubLink.blank ⟨7⟩
    HubLink.plainPlan with
    closing := true }

/-- A restart and the answer that the terminal is gone. -/
def lateCalls : List (Call Unit × Option Client) :=
  [(.restart ⟨7⟩, some .connected), (.connect ⟨7⟩, some .connected),
    (.event (.reply 1 (.error noSuchTerminal)), some .connected)]

theorem opensNothing_restarted :
    ((closingHub.sent HubLink.blank lateCalls).all fun request => !request.2.opens) = true := by
  have hundisturbed : closingHub.Undisturbed HubLink.blank lateCalls :=
    ⟨not_false, not_false, not_false, trivial⟩
  refine List.all_eq_true.mpr fun request hrequest => ?_
  rw [(opensNothing_iff HubLink.blank closingHub lateCalls rfl).mpr hundisturbed request hrequest]
  rfl

/-- A view is behind, and the daemon asks for a resync while the app is quitting. -/
theorem not_opensNothing :
    ¬ ∀ (platform : Platform Unit) (hub : TerminalHub Unit)
        (calls : List (Call Unit × Option Client)), hub.closing = true →
      ∀ request ∈ hub.sent platform calls, request.2.opens = false := by
  intro h
  have hattach := h HubLink.blank closingHub [(.event (.resync ⟨7⟩), some .connected)] rfl
    (1, .attach ⟨7⟩ 80 24) (by decide +kernel)
  exact absurd hattach (by decide)

end TerminalHub

end Throng
