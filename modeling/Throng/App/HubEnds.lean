import Throng.App.HubLink

/-!
# Ends that are swallowed and ends that are shown

The hub is to swallow the end of a terminal it killed itself, for a newer terminal
may have started in the panel meanwhile, and to show every other end. It keeps a set
of panels for this: `kill` enters the panel, and the next end of the panel that is
marked user-killed takes it out and is swallowed.

The set agrees with the ends that are still to arrive as long as these come in turn:
each `Kill` of the hub reaches a running session whose end will be told here, the end
arrives before the hub kills in that panel again and before the connection is lost,
and nobody else's kill of that panel is reported meanwhile. Each of these can fail,
and the set then swallows a later end or misses one.
-/

namespace Throng.HubLink

open Daemon (Client ClientEvent ClientId Session)
open TerminalHub

variable {E : Type} (platform : Platform E) (tailBytes : Nat)

/-- An end is shown: the panel keeps its view with the exit, or goes back to the
picker; one whose panel shows no terminal is nobody's. -/
structure EndShown (hub hub' : TerminalHub E) (out : List HubEvent) (panel : PanelId)
    (status : ExitStatus) : Prop where
  failed : panel ∈ hub.views ∨ panel ∈ hub.plans → shouldSurfaceExit status →
    HubEvent.failed panel status ∈ out ∧
      ∀ view, hub.views[panel]? = some view →
        hub'.views[panel]? = some { view with status := .exited status }
  ended : panel ∈ hub.views ∨ panel ∈ hub.plans → ¬ shouldSurfaceExit status →
    (∃ config, HubEvent.ended panel config ∈ out) ∧ panel ∉ hub'.views ∧ panel ∉ hub'.plans

/-- The events the hub raises when the end of `terminal` is delivered. -/
def raised (s : Sys E) (terminal : TerminalId) (status : ExitStatus) (live : Bool) :
    List HubEvent :=
  (s.hub.onDaemonEvent platform (.exited terminal status) (s.link live)).2.2

/-- A step that delivers an end shows it if no `Kill` of the hub ended that session, and
changes nothing that is shown if one did. -/
structure EndsMatch (s : Sys E) (a : Act) (s' : Sys E) : Prop where
  shown : ∀ terminal status rest live, a = .deliver live →
    s.arriving = .exited terminal status false :: rest →
    EndShown s.hub s'.hub (raised platform s terminal status live) terminal.toPanel status
  swallowed : ∀ terminal status rest live, a = .deliver live →
    s.arriving = .exited terminal status true :: rest →
    s'.hub.views = s.hub.views ∧ s'.hub.plans = s.hub.plans ∧
      raised platform s terminal status live = s.hub.queued

/-- The terminal's session runs and its view is attached to connection `number`. -/
def attached (number : ClientId) (sessions : Std.ExtTreeMap TerminalId Session)
    (terminal : TerminalId) : Bool :=
  sessions[terminal]?.any fun session =>
    !session.isExited && session.state.views.contains number

/-- Ends come in turn. -/
def inTurn (s : Sys E) : Act → Bool
  | .kill panel live =>
      (s.link live).isSome && !(ending s.client s.arriving).contains panel.toTerminal
  | .handle _ _ => ((outgoing s.client).head?.bind hubKill).all (attached s.number s.sessions)
  | .deliver _ =>
      match s.arriving with
      | .exited terminal status false :: _ =>
          !(status.userKilled && (ending s.client s.arriving).contains terminal)
      | _ => true
  | .lost => (ending s.client s.arriving).isEmpty
  | _ => true

/-! ## An end that is shown -/

theorem endShown_exited (hub : TerminalHub E) (panel : PanelId) (status : ExitStatus)
    (client : Option Client) :
    EndShown hub (hub.exited panel status client).1 (hub.exited panel status client).2.2 panel
      status := by
  constructor
  · intro hshown hsurface
    unfold exited
    rw [if_neg (by tauto)]
    dsimp only
    rw [if_pos hsurface]
    refine ⟨by simp, ?_⟩
    intro view hview
    simp [hview]
  · intro hshown hsurface
    unfold exited
    rw [if_neg (by tauto)]
    dsimp only
    rw [if_neg hsurface]
    exact ⟨⟨_, List.mem_append_right _ (List.mem_singleton_self _)⟩, by simp, by simp⟩

theorem EndShown.flush {hub : TerminalHub E} {outcome : Outcome E} {panel : PanelId}
    {status : ExitStatus} (h : EndShown hub outcome.1 outcome.2.2 panel status) :
    EndShown hub (TerminalHub.flush outcome).1 (TerminalHub.flush outcome).2.2 panel status := by
  constructor
  · intro hshown hsurface
    obtain ⟨hraised, hview⟩ := h.failed hshown hsurface
    exact ⟨List.mem_append_left _ hraised, hview⟩
  · intro hshown hsurface
    obtain ⟨⟨config, hraised⟩, hgone⟩ := h.ended hshown hsurface
    exact ⟨⟨config, List.mem_append_left _ hraised⟩, hgone⟩

/-! ## The daemon's part -/

section daemon

variable (number : ClientId) (sessions : Std.ExtTreeMap TerminalId Session) (id : Nat)
  (request : Request) (answer : Except String Reply) (elevated : Bool)

/-- Every session is the one its id names. -/
def Named (sessions : Std.ExtTreeMap TerminalId Session) : Prop :=
  ∀ (terminal : TerminalId) session, sessions[terminal]? = some session → session.id = terminal

namespace Named

variable {sessions : Std.ExtTreeMap TerminalId Session}

theorem insert (h : Named sessions) {terminal : TerminalId} {session : Session}
    (hid : session.id = terminal) : Named (sessions.insert terminal session) := by
  intro terminal' session' hsession
  rw [Std.ExtTreeMap.getElem?_insert] at hsession
  split at hsession
  · next heq =>
      rw [Std.LawfulEqCmp.compare_eq_iff_eq] at heq
      cases hsession
      exact hid.trans heq
  · exact h _ _ hsession

theorem erase (h : Named sessions) (terminal : TerminalId) : Named (sessions.erase terminal) := by
  intro terminal' session hsession
  rw [Std.ExtTreeMap.getElem?_erase] at hsession
  split at hsession
  · cases hsession
  · exact h _ _ hsession

theorem modify (h : Named sessions) (terminal : TerminalId) {f : Session → Session}
    (hf : ∀ session, (f session).id = session.id) : Named (sessions.modify terminal f) := by
  intro terminal' session hsession
  rw [Std.ExtTreeMap.getElem?_modify] at hsession
  split at hsession
  · next heq =>
      rw [Std.LawfulEqCmp.compare_eq_iff_eq] at heq
      obtain ⟨before, hbefore, rfl⟩ := Option.map_eq_some_iff.mp hsession
      rw [hf, h _ _ hbefore, heq]
  · exact h _ _ hsession

theorem handle (h : Named sessions) (client : ClientId) (id : Nat) (request : Request)
    (answer : Except String Reply) (elevated : Bool) :
    Named (HubLink.handle tailBytes sessions client id request answer elevated).1 := by
  unfold HubLink.handle
  cases request with
  | spawn spec =>
      dsimp only
      split
      · exact h
      · split
        · exact h
        · exact h.insert (Session.attach_id _ _ _ _ _)
  | attach terminal cols rows =>
      dsimp only
      split
      · next session hsession =>
          exact h.insert ((Session.attach_id _ _ _ _ _).trans (h _ _ hsession))
      · exact h
  | detach terminal => exact h.modify terminal fun session => session.detach_id client
  | resize terminal cols rows =>
      exact h.modify terminal fun session => session.resize_id client cols rows
  | kill terminal =>
      dsimp only
      split
      · exact h.erase terminal
      · exact h
  | forget terminal =>
      dsimp only
      split
      · exact h.erase terminal
      · exact h
  | closeIdle terminals =>
      intro terminal session hsession
      simp only [Std.ExtTreeMap.getElem?_map, Option.map_eq_some_iff] at hsession
      obtain ⟨before, hbefore, rfl⟩ := hsession
      split
      · rw [Session.kill_id, h _ _ hbefore]
      · exact h _ _ hbefore
  | write | list | shutdown | ping => exact h

end Named

theorem ended_replyTo (result : Except String Reply) :
    (heard number (some (id, request)) (replyTo number id result)).filterMap
      Arriving.endedByHub = [] := by
  rw [heard_replyTo]
  split <;> rfl

theorem ended_attach (session : Session) (cols rows : Nat) :
    (heard number (some (id, request)) (session.attach number id cols rows).2.2).filterMap
      Arriving.endedByHub = [] := by
  simp [heard, Session.attach, Arriving.of, Arriving.endedByHub]

/-- The end of a running session whose view is attached is told once. -/
theorem heard_endViews (own : Option (Nat × Request)) (session : Session) :
    heard number own session.endViews.2 =
      if session.isExited = false ∧ number ∈ session.state.views then
        [.exited session.id ⟨none, true⟩ (own.any fun own => own.1 = noReply ∧ own.2.kills.isSome)]
      else [] := by
  unfold Session.endViews Session.isExited
  cases hexited : session.state.exited with
  | none =>
      simp only [Option.isNone_none, if_true, heard_exitedTo, Option.isSome_none, true_and]
      rfl
  | some status => simp [heard]

/-- Only a `Kill` the hub posted ends a session by the hub, and then it is told here if
the view is attached. -/
theorem ended_handle (hnamed : Named sessions) :
    (heard number (some (id, request))
        (handle tailBytes sessions number id request answer elevated).2).filterMap
      Arriving.endedByHub =
      ((hubKill (id, request)).filter (attached number sessions)).toList := by
  unfold handle
  cases request with
  | kill terminal =>
      dsimp only
      cases hsession : sessions[terminal]? with
      | none =>
          rw [ended_replyTo]
          by_cases hid : id = noReply <;> simp [hubKill, hid, Request.kills, attached, hsession]
      | some session =>
          rw [heard_append, List.filterMap_append, ended_replyTo, List.append_nil, heard_endViews]
          have hterminal := hnamed _ _ hsession
          by_cases hid : id = noReply
          · have hkill : hubKill (id, Request.kill terminal) = some terminal := by
              simp [hubKill, hid, Request.kills]
            have hwhen : attached number sessions terminal =
                decide (session.isExited = false ∧ number ∈ session.state.views) := by
              rw [attached, hsession, Option.any_some, Bool.eq_iff_iff]
              simp
            rw [hkill, Option.filter_some, hwhen]
            by_cases htold : session.isExited = false ∧ number ∈ session.state.views
            · rw [if_pos htold, if_pos (decide_eq_true htold)]
              simp [hid, Request.kills, Arriving.endedByHub, hterminal]
            · rw [if_neg htold, if_neg (by simpa using htold)]
              rfl
          · split <;> simp [hubKill, hid, Arriving.endedByHub]
  | spawn spec =>
      have hkill : hubKill (id, Request.spawn spec) = none := by simp [hubKill, Request.kills]
      rw [hkill]
      dsimp only
      split
      · exact ended_replyTo _ _ _ _
      · split
        · exact ended_replyTo _ _ _ _
        · exact ended_attach _ _ _ _ spec.cols spec.rows
  | attach terminal cols rows =>
      have hkill : hubKill (id, Request.attach terminal cols rows) = none := by
        simp [hubKill, Request.kills]
      rw [hkill]
      dsimp only
      split
      · exact ended_attach _ _ _ _ cols rows
      · exact ended_replyTo _ _ _ _
  | detach | write | resize | forget | list | closeIdle | shutdown | ping =>
      rw [ended_replyTo]
      simp [hubKill, Request.kills]

/-- An end the daemon tells while it handles the hub's request is marked user-killed. -/
theorem userKilled_handle {terminal : TerminalId} {status : ExitStatus} {byHub : Bool}
    (h : .exited terminal status byHub ∈ heard number (some (id, request))
      (handle tailBytes sessions number id request answer elevated).2) :
    status.userKilled = true := by
  have hreply : ∀ result, .exited terminal status byHub ∉
      heard number (some (id, request)) (replyTo number id result) := by
    intro result
    rw [heard_replyTo]
    split <;> simp
  have hattach : ∀ (session : Session) cols rows, .exited terminal status byHub ∉
      heard number (some (id, request)) (session.attach number id cols rows).2.2 := by
    intro session cols rows
    simp [heard, Session.attach, Arriving.of]
  unfold handle at h
  cases request with
  | kill killed =>
      dsimp only at h
      split at h
      · rw [heard_append, List.mem_append, heard_endViews] at h
        rcases h with h | h
        · split at h
          · rw [List.mem_singleton] at h
            cases h
            rfl
          · cases h
        · exact absurd h (hreply _)
      · exact absurd h (hreply _)
  | spawn spec =>
      dsimp only at h
      split at h
      · exact absurd h (hreply _)
      · split at h
        · exact absurd h (hreply _)
        · exact absurd h (hattach _ spec.cols spec.rows)
  | attach attached cols rows =>
      dsimp only at h
      split at h
      · exact absurd h (hattach _ cols rows)
      · exact absurd h (hreply _)
  | detach | write | resize | forget | list | closeIdle | shutdown | ping =>
      exact absurd h (hreply _)

end daemon

/-! ## The invariant -/

/-- A conversation ends no terminal. -/
theorem ending_talk {b b' : Books} {client client' : Option Client} (arriving : List Arriving)
    (t : Talk b client b' client') (hpos : 0 < nextId client) :
    0 < nextId client' ∧ ending client' arriving = ending client arriving := by
  induction t with
  | silent => exact ⟨hpos, rfl⟩
  | @post _ c request _ _ hkills ih =>
      refine ⟨ih.1, ?_⟩
      rw [ending_post, hkills, Option.toList_none, List.append_nil]
      exact ih.2
  | @ask _ c request _ _ _ _ ih =>
      refine ⟨Nat.succ_pos _, ?_⟩
      exact (ending_numbered arriving request ih.1 rfl).trans ih.2

/-- The killed panels are the ones whose end by the hub is still to arrive, once each. -/
structure Marked (killed : Std.ExtTreeSet PanelId) (client : Option Client)
    (arriving : List Arriving) : Prop where
  offline : client = none → arriving = []
  positive : 0 < nextId client
  nodup : (ending client arriving).Nodup
  marks : ∀ panel : PanelId, panel ∈ killed ↔ panel.toTerminal ∈ ending client arriving
  userKilled : ∀ terminal status, .exited terminal status true ∈ arriving → status.userKilled

namespace Marked

variable {killed : Std.ExtTreeSet PanelId} {client : Option Client} {c : Client}
  {arriving : List Arriving} {s s' : Sys E}

theorem talk (h : Marked killed client arriving) {b b' : Books} {client' : Option Client}
    (t : Talk b client b' client') : Marked killed client' arriving := by
  obtain ⟨hpos, hending⟩ := ending_talk arriving t h.positive
  refine ⟨?_, hpos, hending ▸ h.nodup, hending ▸ h.marks, h.userKilled⟩
  intro hnone
  apply h.offline
  induction t with
  | silent => exact hnone
  | post | ask => cases hnone

theorem put (h : Marked s.hub.killed s.client s.arriving) {b : Books} {live : Bool}
    {hub : TerminalHub E} {client : Option Client} (hb : b.killed = s.hub.killed)
    (t : Talk b (s.link live) hub.books client) :
    Marked (s.put live hub client).hub.killed (s.put live hub client).client
      (s.put live hub client).arriving := by
  have hkilled : hub.killed = s.hub.killed := t.keeps.2.trans hb
  show Marked hub.killed _ s.arriving
  rw [hkilled]
  cases live with
  | false => exact h
  | true => exact h.talk t

/-- The next message is no end by the hub. -/
theorem tail {first : Arriving} {rest : List Arriving} (h : Marked killed (some c) (first :: rest))
    (hfirst : first.endedByHub = none) : Marked killed (some c) rest := by
  have hending : ending (some c) (first :: rest) = ending (some c) rest := by
    simp [ending, hfirst]
  refine ⟨online, h.positive, hending ▸ h.nodup, hending ▸ h.marks, ?_⟩
  exact fun terminal status hmem => h.userKilled terminal status (.tail _ hmem)

/-- The end of a terminal the hub killed arrives, and its panel is taken out. -/
theorem ended {terminal : TerminalId} {status : ExitStatus} {rest : List Arriving}
    (h : Marked killed (some c) (.exited terminal status true :: rest)) :
    terminal.toPanel ∈ killed ∧ Marked (killed.erase terminal.toPanel) (some c) rest := by
  have hending : ending (some c) (.exited terminal status true :: rest) =
      terminal :: ending (some c) rest := rfl
  have hnodup := h.nodup
  have hmarks := h.marks
  rw [hending] at hnodup hmarks
  obtain ⟨hnotMem, hnodup⟩ := List.nodup_cons.mp hnodup
  refine ⟨(hmarks _).mpr (.head _), online, h.positive, hnodup, ?_, ?_⟩
  · intro panel
    rw [Std.ExtTreeSet.mem_erase, hmarks, List.mem_cons]
    by_cases heq : panel = terminal.toPanel
    · subst heq
      simpa using hnotMem
    · have hne : panel.toTerminal ≠ terminal := by
        rintro rfl
        exact heq rfl
      simp [hne, Ne.symm heq]
  · exact fun terminal status hmem => h.userKilled terminal status (.tail _ hmem)

/-- What the daemon sends on its own is no end by the hub. -/
theorem hear (h : Marked s.hub.killed s.client s.arriving) (sends : Session.Sends) :
    Marked (s.hear none sends).hub.killed (s.hear none sends).client
      (s.hear none sends).arriving := by
  unfold Sys.hear
  split
  · next hsome =>
      have hheard := (heard_none s.number sends).2
      have hending : ending s.client (s.arriving ++ heard s.number none sends) =
          ending s.client s.arriving := by
        unfold ending
        rw [List.filterMap_append, hheard, List.append_nil]
      refine ⟨fun hnone => ?_, h.positive, ?_, ?_, ?_⟩
      · rw [show s.client = none from hnone] at hsome
        cases hsome
      · exact hending ▸ h.nodup
      · exact hending ▸ h.marks
      · intro terminal status hmem
        rcases List.mem_append.mp hmem with hmem | hmem
        · exact h.userKilled terminal status hmem
        · rw [List.filterMap_eq_nil_iff] at hheard
          cases hheard _ hmem
  · exact h

/-- A kill enters the panel, and its end is to arrive. -/
theorem kill (h : Marked s.hub.killed s.client s.arriving) {panel : PanelId} {live : Bool}
    (hok : inTurn s (.kill panel live)) :
    Marked (s.hub.kill panel (s.link live)).1.killed
      (s.put live (s.hub.kill panel (s.link live)).1 (s.hub.kill panel (s.link live)).2).client
      s.arriving := by
  cases live with
  | false => cases hok
  | true =>
      simp only [inTurn, Sys.link, if_true, Bool.and_eq_true, Bool.not_eq_true',
        List.contains_eq_mem, decide_eq_false_iff_not] at hok
      obtain ⟨hsome, hnotMem⟩ := hok
      obtain ⟨c, hclient⟩ := Option.isSome_iff_exists.mp hsome
      rw [hclient] at h hnotMem
      show Marked (s.hub.killed.insert panel) (s.client.map _) s.arriving
      rw [hclient]
      have hending : ending (some (c.post (.kill panel.toTerminal))) s.arriving =
          ending (some c) s.arriving ++ [panel.toTerminal] :=
        ending_post c s.arriving (.kill panel.toTerminal)
      refine ⟨online, h.positive, ?_, ?_, h.userKilled⟩
      · rw [Option.map_some, hending]
        exact h.nodup.append (List.nodup_singleton _) (by simpa using hnotMem)
      · intro other
        rw [Option.map_some, hending, List.mem_append, List.mem_singleton,
          Std.ExtTreeSet.mem_insert, h.marks]
        have hinj : compare panel other = .eq ↔ other.toTerminal = panel.toTerminal := by
          rw [Std.LawfulEqCmp.compare_eq_iff_eq]
          constructor
          · rintro rfl
            rfl
          · intro heq
            cases panel
            cases other
            cases heq
            rfl
        rw [hinj]
        exact Or.comm

/-- A numbered request ends nothing by the hub. -/
theorem numbered (h : Marked killed (some c) arriving) {c' : Client} (request : Request)
    (hnext : c'.nextId = c.nextId + 1)
    (hout : c'.outgoing = c.outgoing ++ [(c.nextId, request)]) :
    Marked killed (some c') arriving := by
  have hending := ending_numbered arriving request h.positive hout
  refine ⟨online, ?_, hending ▸ h.nodup, hending ▸ h.marks, h.userKilled⟩
  show 0 < c'.nextId
  rw [hnext]
  exact Nat.succ_pos _

theorem poll (h : Marked s.hub.killed s.client s.arriving) (now : Nat) (live : Bool) :
    Marked (s.hub.pollDirectories now (s.link live)).1.killed
      (s.put live (s.hub.pollDirectories now (s.link live)).1
        (s.hub.pollDirectories now (s.link live)).2.1).client s.arriving := by
  rcases pollDirectories_cases s.hub now (s.link live) with
    ⟨c, hc, -, hbooks, hclient⟩ | ⟨hbooks, hclient⟩
  · rw [show (s.hub.pollDirectories now (s.link live)).1.killed = s.hub.killed from
      congrArg Books.killed hbooks]
    cases live with
    | false => cases hc
    | true =>
        have hs : s.client = some c := hc
        rw [hs] at h
        show Marked _ (s.hub.pollDirectories now (s.link true)).2.1 _
        rw [hclient]
        exact h.numbered .list rfl rfl
  · rw [show (s.hub.pollDirectories now (s.link live)).1.killed = s.hub.killed from
      congrArg Books.killed hbooks]
    have hsame : (s.put live (s.hub.pollDirectories now (s.link live)).1
        (s.hub.pollDirectories now (s.link live)).2.1).client = s.client := by
      rw [hclient]
      cases live <;> rfl
    rw [hsame]
    exact h

/-- A connection comes or goes while no end by the hub is to arrive. -/
theorem renewed (h : Marked killed client arriving) (hquiet : ending client arriving = [])
    (client' : Option Client) (hoffline : client' = none → ([] : List Arriving) = [])
    (hpos : 0 < nextId client') (hout : outgoing client' = []) : Marked killed client' [] := by
  have hending : ending client' [] = [] := by
    unfold ending
    rw [hout]
    rfl
  refine ⟨hoffline, hpos, hending ▸ .nil, ?_, fun _ _ h => absurd h List.not_mem_nil⟩
  intro panel
  rw [h.marks, hquiet, hending]

/-- A request the daemon takes: if it is a kill of the hub, the end is told at once. -/
theorem handle (h : Marked killed (some c) arriving) {number : ClientId} {id : Nat}
    {request : Request} {outgoing : List (Nat × Request)}
    {sessions : Std.ExtTreeMap TerminalId Session} (hnamed : Named sessions)
    (hout : c.outgoing = (id, request) :: outgoing)
    (htold : ∀ terminal, hubKill (id, request) = some terminal → attached number sessions terminal)
    (answer : Except String Reply) (elevated : Bool) :
    Marked killed (some { c with outgoing })
      (arriving ++ heard number (some (id, request))
        (HubLink.handle tailBytes sessions number id request answer elevated).2) := by
  have hended := ended_handle tailBytes number sessions id request answer elevated hnamed
  have hkept : (hubKill (id, request)).filter (attached number sessions) =
      hubKill (id, request) := by
    cases hkill : hubKill (id, request) with
    | none => rfl
    | some terminal => exact Option.filter_some_pos (htold terminal hkill)
  have hending : ending (some { c with outgoing })
      (arriving ++ heard number (some (id, request))
        (HubLink.handle tailBytes sessions number id request answer elevated).2) =
      ending (some c) arriving := by
    unfold ending
    rw [List.filterMap_append, hended, hkept, List.append_assoc]
    congr 1
    cases hkill : hubKill (id, request) <;> simp [HubLink.outgoing, hout, hkill]
  refine ⟨online, h.positive, hending ▸ h.nodup, hending ▸ h.marks, ?_⟩
  intro terminal status hmem
  rcases List.mem_append.mp hmem with hmem | hmem
  · exact h.userKilled terminal status hmem
  · exact userKilled_handle tailBytes _ _ _ _ _ _ hmem

/-- An end arrives: one by the hub is swallowed, any other is not. -/
theorem onExited {hub : TerminalHub E} {terminal : TerminalId} {status : ExitStatus}
    {byHub : Bool} {rest : List Arriving}
    (h : Marked hub.killed (some c) (.exited terminal status byHub :: rest))
    (hok : byHub = false → status.userKilled = true →
      terminal ∉ ending (some c) (.exited terminal status byHub :: rest)) :
    (status.userKilled = true ∧ terminal.toPanel ∈ hub.killed) ↔ byHub = true := by
  cases byHub with
  | false =>
      constructor
      · rintro ⟨huser, hmem⟩
        exact absurd ((h.marks _).mp hmem) (hok rfl huser)
      · exact fun h => absurd h Bool.false_ne_true
  | true => exact ⟨fun _ => rfl, fun _ => ⟨h.userKilled _ _ (.head _), h.ended.1⟩⟩

/-- A message is delivered. -/
theorem arrive {first : Arriving} {rest : List Arriving}
    (h : Marked s.hub.killed (some c) (first :: rest)) (live : Bool)
    (hok : ∀ terminal status, first = .exited terminal status false → status.userKilled = true →
      terminal ∉ ending (some c) (first :: rest)) :
    Marked (HubLink.arrive platform s c first rest live).hub.killed
      (HubLink.arrive platform s c first rest live).client
      (HubLink.arrive platform s c first rest live).arriving := by
  -- what the hub is once it has talked about the message
  have htalk : first.endedByHub = none → ∀ (b : Books) (hub : TerminalHub E) client,
      b.killed = s.hub.killed → Talk b (if live then some c else none) hub.books client →
      Marked hub.killed (if live then client else some c) rest := by
    intro hnone b hub client hb t
    exact put (s := { s with client := some c, arriving := rest }) (h.tail hnone) hb t
  cases first with
  | reply id request result =>
      unfold HubLink.arrive
      simp only [Arriving.message, Client.receive]
      by_cases hmem : id ∈ c.waiters
      · rw [if_pos hmem]
        have hrest : Marked s.hub.killed (some c) rest := h.tail rfl
        exact ⟨online, hrest.positive, hrest.nodup, hrest.marks, hrest.userKilled⟩
      · rw [if_neg hmem]
        rcases onReply_cases platform s.hub id result (if live then some c else none) with
          ⟨-, hbooks, hclient⟩ | ⟨-, t⟩
        · apply htalk rfl { s.hub.books with listing := none } (s.hub.onReply platform id result
            (if live then some c else none)).1 _ rfl
          rw [hbooks]
          show Talk _ _ _ (s.hub.onReply platform id result (if live then some c else none)).2.1
          rw [hclient]
          exact .silent
        · exact htalk rfl _ _ _ rfl t
  | exited terminal status byHub =>
      have hswallow := h.onExited fun hby huser => hok terminal status (by rw [hby]) huser
      show Marked (s.hub.onExited terminal.toPanel status (if live then some c else none)).1.killed
        (if live then (s.hub.onExited terminal.toPanel status (if live then some c else none)).2.1
          else some c) rest
      unfold TerminalHub.onExited
      cases byHub with
      | true =>
          rw [if_pos (hswallow.mpr rfl)]
          have hrest := h.ended.2
          cases live <;> exact hrest
      | false =>
          rw [if_neg (mt hswallow.mp Bool.false_ne_true)]
          exact htalk rfl _ _ _ rfl (talk_exited s.hub _ rfl _ _)
  | output terminal offset data =>
      exact htalk rfl _ _ _ rfl (talk_onOutput platform s.hub _ _ _ _)
  | resync terminal => exact htalk rfl _ _ _ rfl (talk_onResync s.hub _ _)

/-- What one step preserves. -/
theorem step {a : Act} (h : Marked s.hub.killed s.client s.arriving) (hnamed : Named s.sessions)
    (hok : inTurn s a) (hs : HubLink.step platform tailBytes s a = some s') :
    Marked s'.hub.killed s'.client s'.arriving := by
  cases a with
  | prepare | keepDormant | takeQueued | quit =>
      cases hs
      exact h
  | connect panel live =>
      cases hs
      exact h.put rfl (talk_connect _ _ _)
  | forgetView panel live =>
      cases hs
      exact h.put rfl (talk_forgetView _ _ _)
  | kill panel live =>
      cases hs
      exact h.kill hok
  | restart panel live =>
      cases hs
      exact h.put rfl (talk_restart _ _ _ _)
  | pollDirectories now live =>
      cases hs
      exact h.poll now live
  | await request =>
      simp only [HubLink.step] at hs
      split at hs
      · next c hclient =>
          rw [Option.ite_none_left_eq_some, Option.some.injEq] at hs
          obtain ⟨-, rfl⟩ := hs
          rw [hclient] at h
          exact h.numbered request rfl rfl
      · cases hs
  | giveUp id =>
      cases hs
      show Marked _ (s.client.map _) _
      cases hclient : s.client with
      | none =>
          rw [hclient] at h
          exact h
      | some c =>
          rw [hclient] at h
          exact ⟨online, h.positive, h.nodup, h.marks, h.userKilled⟩
  | handle answer elevated =>
      simp only [HubLink.step] at hs
      split at hs
      · next c hclient =>
          split at hs
          · cases hs
          · next id request outgoing hout =>
              cases hs
              have htold : ∀ terminal, hubKill (id, request) = some terminal →
                  attached s.number s.sessions terminal := by
                intro terminal hkill
                simpa [inTurn, HubLink.outgoing, hclient, hout, hkill] using hok
              rw [hclient] at h
              exact h.handle tailBytes hnamed hout htold answer elevated
      · cases hs
  | other client id request answer elevated =>
      simp only [HubLink.step, Option.ite_none_left_eq_some, Option.some.injEq] at hs
      obtain ⟨-, rfl⟩ := hs
      apply hear
      exact h
  | finish terminal code =>
      simp only [HubLink.step] at hs
      split at hs
      · rw [Option.ite_none_left_eq_some, Option.some.injEq] at hs
        obtain ⟨-, rfl⟩ := hs
        apply hear
        exact h
      · cases hs
  | sessionEnded terminal =>
      simp only [HubLink.step, Option.ite_none_right_eq_some, Option.some.injEq] at hs
      obtain ⟨-, rfl⟩ := hs
      exact h
  | send message =>
      cases hs
      exact h.hear _
  | deliver live =>
      simp only [HubLink.step] at hs
      split at hs
      · next c first rest hclient harriving =>
          rw [hclient, harriving] at h
          cases hs
          apply h.arrive platform live
          rintro terminal status rfl huser
          simpa [inTurn, hclient, harriving, huser] using hok
      · cases hs
  | connected =>
      simp only [HubLink.step, Option.ite_none_left_eq_some, Option.some.injEq] at hs
      obtain ⟨hsome, rfl⟩ := hs
      rw [Option.not_isSome_iff_eq_none] at hsome
      have hquiet : ending s.client s.arriving = [] := by
        rw [h.offline hsome, hsome]
        rfl
      exact h.renewed hquiet (some .connected) online Nat.one_pos rfl
  | lost =>
      simp only [HubLink.step, Option.ite_none_left_eq_some, Option.some.injEq] at hs
      obtain ⟨-, rfl⟩ := hs
      have hquiet : ending s.client s.arriving = [] := List.isEmpty_iff.mp hok
      exact h.renewed hquiet none (fun _ => rfl) Nat.one_pos rfl

end Marked

theorem Named.step {s s' : Sys E} {a : Act} (h : Named s.sessions)
    (hs : HubLink.step platform tailBytes s a = some s') : Named s'.sessions := by
  have hput : ∀ live (hub : TerminalHub E) client, (s.put live hub client).sessions = s.sessions :=
    fun _ _ _ => rfl
  have hhear : ∀ (s : Sys E) own sends, (s.hear own sends).sessions = s.sessions := by
    intro s own sends
    unfold Sys.hear
    split <;> rfl
  have harrive : ∀ c first rest live,
      (arrive platform s c first rest live).sessions = s.sessions := by
    intro c first rest live
    unfold arrive
    dsimp only
    split <;> rfl
  cases a with
  | handle answer elevated =>
      simp only [HubLink.step] at hs
      split at hs
      · split at hs
        · cases hs
        · cases hs
          rw [hhear]
          exact h.handle tailBytes _ _ _ _ _
      · cases hs
  | other client id request answer elevated =>
      simp only [HubLink.step, Option.ite_none_left_eq_some, Option.some.injEq] at hs
      obtain ⟨-, rfl⟩ := hs
      rw [hhear]
      exact h.handle tailBytes _ _ _ _ _
  | finish terminal code =>
      simp only [HubLink.step] at hs
      split at hs
      · next session hsession =>
          rw [Option.ite_none_left_eq_some, Option.some.injEq] at hs
          obtain ⟨-, rfl⟩ := hs
          rw [hhear]
          have hid : (session.finish code).1.id = session.id := rfl
          exact h.insert (hid.trans (h _ _ hsession))
      · cases hs
  | sessionEnded terminal =>
      simp only [HubLink.step, Option.ite_none_right_eq_some, Option.some.injEq] at hs
      obtain ⟨-, rfl⟩ := hs
      exact h.erase terminal
  | send message =>
      cases hs
      rw [hhear]
      exact h
  | deliver live =>
      simp only [HubLink.step] at hs
      split at hs
      · cases hs
        rw [harrive]
        exact h
      · cases hs
  | await request =>
      simp only [HubLink.step] at hs
      split at hs
      · rw [Option.ite_none_left_eq_some, Option.some.injEq] at hs
        obtain ⟨-, rfl⟩ := hs
        exact h
      · cases hs
  | connected | lost =>
      simp only [HubLink.step, Option.ite_none_left_eq_some, Option.some.injEq] at hs
      obtain ⟨-, rfl⟩ := hs
      exact h
  | prepare | keepDormant | takeQueued | quit | connect | forgetView | kill | restart
  | pollDirectories | giveUp =>
      cases hs
      exact h

/-- What the runs in which ends come in turn preserve. -/
theorem marked_of_reach {s : Sys E}
    (h : (machine platform tailBytes).Reach (fun s a => inTurn s a) s) :
    Marked s.hub.killed s.client s.arriving ∧ Named s.sessions := by
  apply h.invariant
  · rintro s ⟨⟨shells, defaultShell, scrollback, hhub⟩, hclient, harriving, hnamed⟩
    refine ⟨?_, hnamed⟩
    rw [hclient, harriving, hhub]
    exact ⟨fun _ => rfl, Nat.one_pos, .nil, by simp [TerminalHub.new, ending, outgoing],
      fun _ _ h => absurd h List.not_mem_nil⟩
  · rintro s a s' ⟨hmarked, hnamed⟩ hok hs
    exact ⟨hmarked.step platform tailBytes hnamed hok hs, hnamed.step platform tailBytes hs⟩

/-- In every run in which ends come in turn, the hub swallows an end exactly when it is
that of a session it killed itself. -/
theorem endsMatch_of_taken {s s' : Sys E} {a : Act}
    (h : (machine platform tailBytes).Taken (fun s a => inTurn s a) s a s') :
    EndsMatch platform s a s' := by
  have hmarked := (marked_of_reach platform tailBytes h.reach).1
  have hstep : ∀ terminal status byHub rest live, a = .deliver live →
      s.arriving = .exited terminal status byHub :: rest →
      ((status.userKilled = true ∧ terminal.toPanel ∈ s.hub.killed) ↔ byHub = true) ∧
        s'.hub = (s.hub.onDaemonEvent platform (.exited terminal status) (s.link live)).1 := by
    rintro terminal status byHub rest live rfl harriving
    have hs := h.step
    have hok := h.ok
    simp only [machine, step] at hs
    split at hs
    · next c first rest' hclient harriving' =>
        rw [harriving, List.cons.injEq] at harriving'
        obtain ⟨rfl, rfl⟩ := harriving'
        rw [hclient, harriving] at hmarked
        refine ⟨hmarked.onExited ?_, ?_⟩
        · rintro rfl huser
          simpa [inTurn, hclient, harriving, huser] using hok
        · rw [Option.some.injEq] at hs
          rw [← hs, Sys.link, hclient]
          rfl
    · cases hs
  constructor
  · intro terminal status rest live ha harriving
    obtain ⟨hswallow, hhub⟩ := hstep terminal status false rest live ha harriving
    rw [hhub]
    unfold raised onDaemonEvent
    dsimp only
    apply EndShown.flush
    unfold TerminalHub.onExited
    rw [if_neg (mt hswallow.mp Bool.false_ne_true)]
    exact endShown_exited _ _ _ _
  · intro terminal status rest live ha harriving
    obtain ⟨hswallow, hhub⟩ := hstep terminal status true rest live ha harriving
    rw [hhub]
    unfold raised onDaemonEvent
    dsimp only
    unfold TerminalHub.onExited
    rw [if_pos (hswallow.mpr rfl)]
    exact ⟨rfl, rfl, rfl⟩

/-- The app has started with a shell to offer, and the daemon holds no terminal. -/
def offering : Sys Unit :=
  { hub := .new [⟨"sh", "sh", "/bin/sh", []⟩] none 1000
    client := none
    number := 0
    sessions := ∅
    arriving := [] }

theorem offering_init : (machine blank 4096).init offering := by
  refine ⟨⟨_, none, 1000, rfl⟩, rfl, rfl, ?_⟩
  intro terminal session hsession
  simp [offering] at hsession

/-- A shell is started in panel 1, and the daemon starts it. -/
def startShell : List Act :=
  [.prepare ⟨1⟩ plainPlan, .restart ⟨1⟩ true, .handle (.ok .ok) false, .handle (.ok .ok) false]

/-- The panel of terminal 1 shows a terminal. -/
def shows (s : Sys Unit) : Bool := s.hub.views.contains ⟨1⟩

/-- The panel gets a newer terminal before the end of the killed one arrives. -/
theorem endsMatch_newer :
    ∃ s s', EndsMatch blank s (.deliver true) s' ∧ shows s = true ∧ shows s' = true ∧
      s.hub.killed.size = 1 ∧ s'.hub.killed.size = 0 := by
  have hinit : (machine blank 4096).Reach (fun s a => inTurn s a) offering := .init offering_init
  obtain ⟨s, s', htaken, hs⟩ := Machine.Taken.exists_of_exec hinit
    ([.connected] ++ startShell ++
      [.deliver true, .kill ⟨1⟩ true, .prepare ⟨1⟩ plainPlan, .handle (.ok .ok) false])
    (.deliver true)
    (fun s s' => shows s && shows s' && s.hub.killed.size == 1 && s'.hub.killed.size == 0)
    (by decide)
  simp only [Bool.and_eq_true, beq_iff_eq] at hs
  obtain ⟨⟨⟨hs, hs'⟩, hone⟩, hzero⟩ := hs
  exact ⟨s, s', endsMatch_of_taken blank 4096 htaken, hs, hs', hone, hzero⟩

/-- Two kills in one panel before the first end arrives leave one mark: the second end
takes the newer terminal with it. -/
theorem not_endsMatch :
    ¬ ∀ s a s', (machine blank 4096).Taken Machine.anyStep s a s' → EndsMatch blank s a s' := by
  intro h
  have hinit : (machine blank 4096).Reach Machine.anyStep offering := .init offering_init
  obtain ⟨s, s', htaken, hs⟩ := Machine.Taken.exists_of_exec hinit
    ([.connected] ++ startShell ++ [.kill ⟨1⟩ true, .handle (.ok .ok) false] ++ startShell ++
      [.kill ⟨1⟩ true, .handle (.ok .ok) false, .prepare ⟨1⟩ plainPlan,
        .deliver true, .deliver true, .deliver true])
    (.deliver true)
    (fun s s' =>
      s.arriving.head?.any (fun first => first.endedByHub.isSome) && shows s && !shows s')
    (by decide)
  simp only [Bool.and_eq_true, Bool.not_eq_true'] at hs
  obtain ⟨⟨hfirst, hshows⟩, hgone⟩ := hs
  cases harriving : s.arriving with
  | nil => simp [harriving] at hfirst
  | cons first rest =>
      rw [harriving] at hfirst
      cases first with
      | exited terminal status byHub =>
          cases byHub with
          | true =>
              have hviews := ((h _ _ _ htaken).swallowed terminal status rest true rfl harriving).1
              unfold shows at hshows hgone
              rw [hviews, hshows] at hgone
              cases hgone
          | false => cases hfirst
      | reply | output | resync => cases hfirst

end Throng.HubLink
