import Mathlib.Data.List.Nodup
import Throng.Daemon.Registry
import Throng.Lib.Machine

/-!
# Exits are told once

A session's views, its output and its end are ordered by its lock. What becomes of an attachment
is read off the clients' queues: each step is noted with the messages that stand in them behind
those that stood there before. So an attachment is told of the exit once and hears nothing after
that, unless its client leaves before.
-/

namespace Throng.Daemon.Exits

/-- What happens to the views of a session, in the order of its lock. -/
inductive Event
  /-- An attach of the client's is handled. -/
  | asked (client : ClientId)
  /-- A snapshot stands in the client's queue. -/
  | attached (client : ClientId) (snapshot : Snapshot)
  | detached (client : ClientId)
  /-- The client's connection has ended. -/
  | gone (client : ClientId)
  /-- Output stands in the client's queue. -/
  | output (client : ClientId) (offset : Nat)
  /-- An exit stands in the client's queue. -/
  | exited (client : ClientId) (status : ExitStatus)
  | finished (status : ExitStatus)
deriving DecidableEq

/-- A message of the session's in a client's queue. -/
def Event.told (client : ClientId) : ServerMsg → Option Event
  | .reply _ (.ok (.snapshot snapshot)) => some (.attached client snapshot)
  | .output _ offset _ => some (.output client offset)
  | .exited _ status => some (.exited client status)
  | _ => none

structure Sys where
  session : Session
  registry : Registry
  log : List Event

inductive Act
  | connect
  | remove (client : ClientId)
  | attach (client : ClientId) (replyId cols rows : Nat)
  | detach (client : ClientId)
  | resize (client : ClientId) (cols rows : Nat)
  | endViews
  | kill
  | pump (chunk : Bytes)
  | finish (code : Option Int)
  | write (client : ClientId)
  | takeResyncs (client : ClientId)
deriving DecidableEq

/-- What stands in a client's queue. -/
def queued (registry : Registry) (client : ClientId) : List ServerMsg :=
  (registry.clients[client]?.map ClientQueue.rx).getD []

/-- What has come into the queues, behind what stood there. -/
def news (before after : Registry) : List Event :=
  before.clients.keys.flatMap fun client =>
    ((queued after client).drop (queued before client).length).filterMap (Event.told client)

/-- What a step leaves, noted with what has come into the queues. -/
def Sys.note (s : Sys) (first : List Event) (session : Session) (registry : Registry) : Sys :=
  { session, registry, log := s.log ++ first ++ news s.registry registry }

/-- One critical section of the session, or a step of a client's threads. -/
def step (s : Sys) : Act → Option Sys
  | .connect => some (s.note [] s.session s.registry.add.2)
  | .remove client =>
      if client ∈ s.registry.clients then
        some (s.note [.gone client] s.session (s.registry.remove client))
      else none
  | .attach client replyId cols rows =>
      if client ∈ s.registry.clients then
        let attached := s.session.attach client replyId cols rows
        some (s.note [.asked client] attached.1 (s.registry.sendAll attached.2.2))
      else none
  | .detach client => some (s.note [.detached client] (s.session.detach client) s.registry)
  | .resize client cols rows =>
      some (s.note [] (s.session.resize client cols rows) s.registry)
  | .endViews =>
      let ended := s.session.endViews
      some (s.note [] ended.1 (s.registry.sendAll ended.2))
  | .kill => some (s.note [] s.session.kill s.registry)
  | .pump chunk =>
      some (s.note [] (s.session.pumpOutput chunk)
        (s.session.state.views.keys.foldl (fun registry client =>
          registry.sendOutput client s.session.id s.session.state.endOffset chunk) s.registry))
  | .finish code =>
      if s.session.isExited then none
      else
        let finished := s.session.finish code
        let told := s.note [] finished.1 (s.registry.sendAll finished.2)
        some { told with log := told.log ++ [.finished ⟨code, s.session.state.userKilled⟩] }
  | .write client =>
      (s.registry.clients[client]?.bind ClientQueue.receive).map fun received =>
        s.note [] s.session
          (s.registry.modify client fun _ => received.2.written received.1)
  | .takeResyncs client =>
      some (s.note [] s.session (s.registry.modify client fun queue => queue.takeResyncs.2))

/-- A session that has just been started. -/
def machine (spec : SpawnSpec) (tailBytes : Nat) (elevated : Bool) : Machine Sys Act where
  init s := ∃ registry : Registry, (∀ client ∈ registry.clients, client ≤ registry.next) ∧
    s = ⟨Session.spawn spec tailBytes elevated, registry, []⟩
  step := step

/-! ## What is to hold -/

/-- The event ends the client's attachment. -/
def Event.ends (client : ClientId) : Event → Bool
  | .detached c | .gone c | .exited c _ => c = client
  | _ => false

/-- The client attaches. -/
def Event.attaches (client : ClientId) : Event → Bool
  | .attached c _ => c = client
  | _ => false

/-- The event tells the client something of the session. -/
def Event.tells (client : ClientId) : Event → Bool
  | .output c _ | .exited c _ => c = client
  | _ => false

/-- Every attach puts a snapshot into the client's queue. Every attachment to a session that runs
is ended once, by an exit in that queue or by its client, and nothing of the session is queued for
it after that until the client attaches anew; only while the session runs may it not have ended
yet. The snapshot of a session that has finished tells its exit, and nothing is queued after it. -/
structure Delivered (log : List Event) : Prop where
  answered : ∀ before client after, log = before ++ .asked client :: after →
    ∃ snapshot rest, after = .attached client snapshot :: rest
  running : ∀ before client snapshot after,
    log = before ++ .attached client snapshot :: after → snapshot.exited = none →
      (∃ during ending rest, after = during ++ ending :: rest ∧
        (∀ event ∈ during, event.ends client = false) ∧ ending.ends client = true ∧
        ∀ event ∈ rest.takeWhile fun event => !event.attaches client,
          event.tells client = false) ∨
      (∀ event ∈ after, event.ends client = false) ∧ ∀ status, .finished status ∉ log
  finished : ∀ before client snapshot after status,
    log = before ++ .attached client snapshot :: after → .finished status ∈ before →
      snapshot.exited = some status ∧ ∀ event ∈ after, event.tells client = false

/-! ## One client's view of the log -/

/-- What the log so far says: whether the client is attached, and how the session finished. -/
structure Watch where
  viewing : Bool
  exited : Option ExitStatus

/-- Read one event; an event out of turn has no reading. -/
def Watch.read (client : ClientId) (w : Watch) : Event → Option Watch
  | .asked _ => some w
  | .attached c snapshot =>
      if snapshot.exited = w.exited then
        some (if c = client then { w with viewing := w.exited.isNone } else w)
      else none
  | .detached c => some (if c = client then { w with viewing := false } else w)
  | .gone c => some (if c = client then { w with viewing := false } else w)
  | .output c _ => if c = client ∧ w.viewing = false then none else some w
  | .exited c _ =>
      if c = client then (if w.viewing then some { w with viewing := false } else none) else some w
  | .finished status =>
      if w.viewing = false ∧ w.exited = none then some { w with exited := some status } else none

/-- The log as the client has it. -/
def Watch.of (client : ClientId) (log : List Event) : Option Watch :=
  log.foldlM (Watch.read client) ⟨false, none⟩

namespace Watch

variable {client : ClientId} {w w' : Watch} {log : List Event}

/-- Once the session has finished the client is told nothing. -/
theorem quiet_of_finished {status : ExitStatus} (hw : w = ⟨false, some status⟩)
    (h : log.foldlM (Watch.read client) w = some w') :
    w' = ⟨false, some status⟩ ∧ ∀ event ∈ log, event.tells client = false := by
  induction log generalizing w with
  | nil =>
      cases h
      exact ⟨hw, nofun⟩
  | cons event log ih =>
      rw [List.foldlM_cons, Option.bind_eq_bind, Option.bind_eq_some_iff] at h
      obtain ⟨middle, hread, hrest⟩ := h
      have hsame : middle = ⟨false, some status⟩ ∧ event.tells client = false := by
        subst hw
        cases event with
        | asked c =>
            cases hread
            exact ⟨rfl, rfl⟩
        | attached c snapshot =>
            rw [Watch.read] at hread
            split at hread
            · cases hread
              refine ⟨?_, rfl⟩
              split <;> rfl
            · cases hread
        | detached c =>
            cases hread
            refine ⟨?_, rfl⟩
            split <;> rfl
        | gone c =>
            cases hread
            refine ⟨?_, rfl⟩
            split <;> rfl
        | output c offset =>
            rw [Watch.read] at hread
            split at hread
            · cases hread
            · next hother =>
                cases hread
                exact ⟨rfl, decide_eq_false fun hc => hother ⟨hc, rfl⟩⟩
        | exited c told =>
            rw [Watch.read] at hread
            split at hread
            · cases hread
            · next hother =>
                cases hread
                exact ⟨rfl, decide_eq_false hother⟩
        | finished told =>
            rw [Watch.read, if_neg fun h => Option.some_ne_none _ h.2] at hread
            cases hread
      obtain ⟨hend, hquiet⟩ := ih hsame.1 hrest
      refine ⟨hend, fun e he => ?_⟩
      rcases List.mem_cons.1 he with rfl | he
      · exact hsame.2
      · exact hquiet e he

/-- The log says how the session finished. -/
theorem exited_of_mem {status : ExitStatus} (h : Watch.of client log = some w)
    (hmem : .finished status ∈ log) : w.exited = some status := by
  obtain ⟨before, after, rfl⟩ := List.append_of_mem hmem
  rw [Watch.of, List.foldlM_append, Option.bind_eq_bind, Option.bind_eq_some_iff] at h
  obtain ⟨middle, -, hafter⟩ := h
  rw [List.foldlM_cons, Option.bind_eq_bind, Option.bind_eq_some_iff] at hafter
  obtain ⟨finished, hread, hafter⟩ := hafter
  rw [Watch.read] at hread
  split at hread
  · next haway =>
      cases hread
      have hend := (quiet_of_finished (by rw [haway.1]) hafter).1
      rw [hend]
  · cases hread

/-- A client that is not attached is told nothing until it attaches. -/
theorem quiet_of_away (hw : w.viewing = false)
    (h : log.foldlM (Watch.read client) w = some w') :
    ∀ event ∈ log.takeWhile fun event => !event.attaches client, event.tells client = false := by
  induction log generalizing w with
  | nil => nofun
  | cons event log ih =>
      rw [List.foldlM_cons, Option.bind_eq_bind, Option.bind_eq_some_iff] at h
      obtain ⟨middle, hread, hrest⟩ := h
      intro e he
      rw [List.takeWhile_cons] at he
      split at he
      · next hother =>
          have hsame : middle.viewing = false ∧ event.tells client = false := by
            cases event with
            | asked c =>
                cases hread
                exact ⟨hw, rfl⟩
            | attached c snapshot =>
                have hne : c ≠ client := by simpa [Event.attaches] using hother
                rw [Watch.read, if_neg hne] at hread
                split at hread
                · cases hread
                  exact ⟨hw, rfl⟩
                · cases hread
            | detached c =>
                cases hread
                refine ⟨?_, rfl⟩
                split
                · rfl
                · exact hw
            | gone c =>
                cases hread
                refine ⟨?_, rfl⟩
                split
                · rfl
                · exact hw
            | output c offset =>
                rw [Watch.read] at hread
                split at hread
                · cases hread
                · next hother =>
                    cases hread
                    exact ⟨hw, decide_eq_false fun hc => hother ⟨hc, hw⟩⟩
            | exited c told =>
                rw [Watch.read] at hread
                split at hread
                · rw [hw] at hread
                  cases hread
                · next hother =>
                    cases hread
                    exact ⟨hw, decide_eq_false hother⟩
            | finished told =>
                rw [Watch.read] at hread
                split at hread
                · cases hread
                  exact ⟨hw, rfl⟩
                · cases hread
          rcases List.mem_cons.1 he with rfl | he
          · exact hsame.2
          · exact ih hsame.1 hrest e he
      · cases he

/-- A client that is attached either stays so, in a session that does not finish, or its
attachment ends once. -/
theorem ends_of_viewing (hw : w = ⟨true, none⟩)
    (h : log.foldlM (Watch.read client) w = some w') :
    (∃ during ending rest, log = during ++ ending :: rest ∧
      (∀ event ∈ during, event.ends client = false) ∧ ending.ends client = true ∧
      ∀ event ∈ rest.takeWhile fun event => !event.attaches client,
        event.tells client = false) ∨
    (∀ event ∈ log, event.ends client = false) ∧ ∀ status, .finished status ∉ log := by
  induction log generalizing w with
  | nil => exact .inr ⟨nofun, nofun⟩
  | cons event log ih =>
      rw [List.foldlM_cons, Option.bind_eq_bind, Option.bind_eq_some_iff] at h
      obtain ⟨middle, hread, hrest⟩ := h
      cases hends : event.ends client with
      | true =>
          refine .inl ⟨[], event, log, rfl, nofun, hends, quiet_of_away (w := middle) ?_ hrest⟩
          cases event with
          | asked c => cases hends
          | attached c snapshot => cases hends
          | detached c =>
              rw [Watch.read, if_pos (of_decide_eq_true hends)] at hread
              cases hread
              rfl
          | gone c =>
              rw [Watch.read, if_pos (of_decide_eq_true hends)] at hread
              cases hread
              rfl
          | output c offset => cases hends
          | exited c told =>
              rw [Watch.read, if_pos (of_decide_eq_true hends), if_pos (hw ▸ rfl)] at hread
              cases hread
              rfl
          | finished told => cases hends
      | false =>
          have hsame : middle = ⟨true, none⟩ ∧ ∀ status, event ≠ .finished status := by
            subst hw
            cases event with
            | asked c =>
                cases hread
                exact ⟨rfl, nofun⟩
            | attached c snapshot =>
                rw [Watch.read] at hread
                split at hread
                · cases hread
                  refine ⟨?_, nofun⟩
                  split <;> rfl
                · cases hread
            | detached c =>
                rw [Watch.read, if_neg (of_decide_eq_false hends)] at hread
                cases hread
                exact ⟨rfl, nofun⟩
            | gone c =>
                rw [Watch.read, if_neg (of_decide_eq_false hends)] at hread
                cases hread
                exact ⟨rfl, nofun⟩
            | output c offset =>
                rw [Watch.read, if_neg fun h => Bool.noConfusion h.2] at hread
                cases hread
                exact ⟨rfl, nofun⟩
            | exited c told =>
                rw [Watch.read, if_neg (of_decide_eq_false hends)] at hread
                cases hread
                exact ⟨rfl, nofun⟩
            | finished told =>
                rw [Watch.read, if_neg fun h => Bool.noConfusion h.1] at hread
                cases hread
          rcases ih hsame.1 hrest with ⟨during, ending, rest, rfl, hduring, hending, hquiet⟩ |
            ⟨hnone, hfinished⟩
          · refine .inl ⟨event :: during, ending, rest, rfl, fun e he => ?_, hending, hquiet⟩
            rcases List.mem_cons.1 he with rfl | he
            · exact hends
            · exact hduring e he
          · refine .inr ⟨fun e he => ?_, fun status hmem => ?_⟩
            · rcases List.mem_cons.1 he with rfl | he
              · exact hends
              · exact hnone e he
            · rcases List.mem_cons.1 hmem with heq | hmem
              · exact hsame.2 status heq.symm
              · exact hfinished status hmem

end Watch

/-! ## What one step sends -/

namespace Watch

variable {client : ClientId} {w : Watch}

theorem foldlM_other (f : ClientId → Event) (l : List ClientId)
    (h : ∀ c ∈ l, Watch.read client w (f c) = some w) :
    (l.map f).foldlM (Watch.read client) w = some w := by
  induction l with
  | nil => rfl
  | cons c l ih =>
      rw [List.map_cons, List.foldlM_cons, h c List.mem_cons_self]
      exact ih fun c hc => h c (List.mem_cons_of_mem _ hc)

/-- Output reaches only those who are attached. -/
theorem foldlM_outputs (offset : Nat) {l : List ClientId} (h : client ∈ l → w.viewing = true) :
    (l.map fun c => Event.output c offset).foldlM (Watch.read client) w = some w := by
  refine foldlM_other _ l fun c hc => if_neg ?_
  rintro ⟨rfl, haway⟩
  rw [h hc] at haway
  cases haway

/-- Each of them is told of an exit once. -/
theorem foldlM_exits (status : ExitStatus) (exited : Option ExitStatus) {l : List ClientId}
    (hnodup : l.Nodup) :
    (l.map fun c => Event.exited c status).foldlM (Watch.read client)
      ⟨decide (client ∈ l), exited⟩ = some ⟨false, exited⟩ := by
  induction l with
  | nil => rfl
  | cons c l ih =>
      obtain ⟨hc, hnodup⟩ := List.nodup_cons.1 hnodup
      rw [List.map_cons, List.foldlM_cons, Watch.read]
      by_cases heq : c = client
      · subst heq
        rw [if_pos rfl, if_pos (decide_eq_true List.mem_cons_self)]
        refine foldlM_other _ l fun d hd => if_neg ?_
        rintro rfl
        exact hc hd
      · rw [if_neg heq]
        have hmem : (client ∈ c :: l) ↔ client ∈ l := by
          rw [List.mem_cons, or_iff_right (Ne.symm heq)]
        rw [decide_eq_decide.2 hmem]
        exact ih hnodup

theorem of_append (log events : List Event) :
    Watch.of client (log ++ events) =
      (Watch.of client log).bind fun w => events.foldlM (Watch.read client) w := by
  rw [Watch.of, List.foldlM_append]
  rfl

end Watch

section

variable {registry : Registry} {client c : ClientId}

theorem mem_modify {f : ClientQueue → ClientQueue} :
    client ∈ (registry.modify c f).clients ↔ client ∈ registry.clients :=
  Std.ExtTreeMap.mem_modify

/-- Sending leaves the connected clients as they are. -/
theorem mem_sendAll (sends : Session.Sends) :
    (client ∈ (registry.sendAll sends).clients ↔ client ∈ registry.clients) ∧
      (registry.sendAll sends).next = registry.next := by
  induction sends generalizing registry with
  | nil => exact ⟨Iff.rfl, rfl⟩
  | cons send sends ih =>
      obtain ⟨hmem, hnext⟩ := @ih (registry.send send.1 send.2)
      exact ⟨hmem.trans mem_modify, hnext⟩

theorem mem_sendOutputs (terminal : TerminalId) (offset : Nat) (chunk : Bytes)
    (views : List ClientId) :
    (client ∈ (views.foldl (fun registry c => registry.sendOutput c terminal offset chunk)
        registry).clients ↔ client ∈ registry.clients) ∧
      (views.foldl (fun registry c => registry.sendOutput c terminal offset chunk)
        registry).next = registry.next := by
  induction views generalizing registry with
  | nil => exact ⟨Iff.rfl, rfl⟩
  | cons c views ih =>
      obtain ⟨hmem, hnext⟩ := @ih (registry.sendOutput c terminal offset chunk)
      exact ⟨hmem.trans mem_modify, hnext⟩

end

/-! ## What comes into the queues -/

section

variable {before after registry : Registry} {client c : ClientId}

/-- The messages that a step puts behind what stands in the queues are what is noted. -/
theorem news_eq {messages : ClientId → List ServerMsg}
    (h : ∀ c ∈ before.clients, queued after c = queued before c ++ messages c) :
    news before after =
      before.clients.keys.flatMap fun c => (messages c).filterMap (Event.told c) := by
  refine List.flatMap_congr fun c hc => ?_
  rw [h c (Std.ExtTreeMap.mem_keys.1 hc), List.drop_left]

/-- Where nothing is put into a queue nothing is noted. -/
theorem news_nil (h : ∀ c ∈ before.clients, (queued after c).length ≤ (queued before c).length) :
    news before after = [] := by
  rw [news, List.flatMap_eq_nil_iff]
  intro c hc
  rw [List.drop_eq_nil_of_le (h c (Std.ExtTreeMap.mem_keys.1 hc)), List.filterMap_nil]

theorem queued_modify {f : ClientQueue → ClientQueue} :
    queued (registry.modify c f) client =
      if c = client then ((registry.clients[c]?.map f).map ClientQueue.rx).getD []
      else queued registry client := by
  rw [queued, Registry.modify]
  dsimp only
  rw [Std.ExtTreeMap.getElem?_modify]
  by_cases h : c = client
  · rw [if_pos (Std.LawfulEqCmp.compare_eq_iff_eq.2 h), if_pos h]
  · rw [if_neg (fun heq => h (Std.LawfulEqCmp.compare_eq_iff_eq.1 heq)), if_neg h, queued]

/-- Nothing comes into a queue that is made no longer. -/
theorem news_modify {f : ClientQueue → ClientQueue}
    (hf : ∀ queue ∈ registry.clients[client]?, (f queue).rx.length ≤ queue.rx.length) :
    news registry (registry.modify client f) = [] := by
  refine news_nil fun c _ => ?_
  rw [queued_modify]
  split_ifs with h
  · subst h
    rw [queued]
    cases hqueue : registry.clients[client]? with
    | none => exact Nat.zero_le _
    | some queue => exact hf queue hqueue
  · exact Nat.le_refl _

/-- A client's queue takes the messages that are for it, in their order. -/
theorem queued_sendAll (sends : Session.Sends) (hclient : client ∈ registry.clients) :
    queued (registry.sendAll sends) client = queued registry client ++
      sends.filterMap fun send => if send.1 = client then some send.2 else none := by
  induction sends generalizing registry with
  | nil => exact (List.append_nil _).symm
  | cons send sends ih =>
      have hsend : queued (registry.send send.1 send.2) client = queued registry client ++
          if send.1 = client then [send.2] else [] := by
        rw [Registry.send, queued_modify]
        split_ifs with h
        · subst h
          rw [queued]
          obtain ⟨queue, hqueue⟩ :=
            Option.isSome_iff_exists.1 (Std.ExtTreeMap.mem_iff_isSome_getElem?.1 hclient)
          rw [hqueue]
          rfl
        · exact (List.append_nil _).symm
      have hmem : client ∈ (registry.send send.1 send.2).clients := mem_modify.2 hclient
      rw [Registry.sendAll, List.foldl_cons, ← Registry.sendAll, ih hmem, hsend, List.append_assoc,
        List.filterMap_cons]
      split_ifs with h <;> rfl

/-- Doing the same to some queues does it to each of them once. -/
theorem getElem?_modifyAll {f : ClientQueue → ClientQueue} {l : List ClientId} (hnodup : l.Nodup) :
    (l.foldl (fun registry c => registry.modify c f) registry).clients[client]? =
      if client ∈ l then registry.clients[client]?.map f else registry.clients[client]? := by
  induction l generalizing registry with
  | nil => rfl
  | cons c l ih =>
      obtain ⟨hc, hnodup⟩ := List.nodup_cons.1 hnodup
      rw [List.foldl_cons, ih hnodup, Registry.modify]
      dsimp only
      rw [Std.ExtTreeMap.getElem?_modify]
      by_cases heq : c = client
      · subst heq
        rw [if_neg hc, if_pos List.mem_cons_self, Std.compare_self, if_pos rfl]
      · rw [if_neg (fun h => heq (Std.LawfulEqCmp.compare_eq_iff_eq.1 h))]
        simp only [List.mem_cons, Ne.symm heq, false_or]

/-- The output is not too much for the client, who is connected. -/
def hears (registry : Registry) (terminal : TerminalId) (chunk : Bytes) (client : ClientId) :
    Bool :=
  registry.clients[client]?.any fun queue => !queue.behind terminal chunk

theorem queued_sendOutputs {terminal : TerminalId} {offset : Nat} {chunk : Bytes}
    {views : List ClientId} (hnodup : views.Nodup) :
    queued (views.foldl (fun registry c => registry.sendOutput c terminal offset chunk) registry)
        client =
      queued registry client ++
        if client ∈ views ∧ hears registry terminal chunk client = true then
          [.output terminal offset chunk]
        else [] := by
  have hget : (views.foldl (fun registry c => registry.sendOutput c terminal offset chunk)
      registry).clients[client]? = if client ∈ views then
        registry.clients[client]?.map fun queue => queue.sendOutput terminal offset chunk
      else registry.clients[client]? := getElem?_modifyAll hnodup
  rw [queued, queued, hears, hget]
  by_cases hview : client ∈ views
  · cases registry.clients[client]? with
    | none => simp [hview]
    | some queue =>
        by_cases hbehind : queue.behind terminal chunk = true
        · simp [hview, hbehind, ClientQueue.sendOutput, ClientQueue.owe]
        · simp [hview, hbehind, ClientQueue.sendOutput, ClientQueue.send, ClientQueue.push,
            ClientQueue.count]
  · simp [hview]

end

theorem flatMap_ite {α β : Type} (l : List α) (p : α → Prop) [DecidablePred p] (f : α → β) :
    (l.flatMap fun a => if p a then [f a] else []) = (l.filter fun a => p a).map f := by
  induction l with
  | nil => rfl
  | cons a l ih =>
      rw [List.flatMap_cons, ih, List.filter_cons]
      by_cases h : p a <;> simp [h]

/-- Of messages to one another each, a client gets its own. -/
theorem filterMap_own {l : List ClientId} (hnodup : l.Nodup) (message : ServerMsg)
    (client : ClientId) :
    ((l.map fun c => (c, message)).filterMap fun send =>
      if send.1 = client then some send.2 else none) = if client ∈ l then [message] else [] := by
  induction l with
  | nil => rfl
  | cons c l ih =>
      obtain ⟨hc, hnodup⟩ := List.nodup_cons.1 hnodup
      rw [List.map_cons, List.filterMap_cons, ih hnodup]
      by_cases heq : c = client
      · subst heq
        simp [hc]
      · simp [heq, Ne.symm heq]

variable {registry : Registry} {session : Session} {status : ExitStatus} {client : ClientId}

/-- The exit comes into the queues of the views that are connected. -/
theorem news_exitedTo : news registry (registry.sendAll (session.exitedTo status)) =
    (registry.clients.keys.filter fun c => c ∈ session.state.views).map
      fun c => .exited c status := by
  have hmessages : ∀ c ∈ registry.clients,
      queued (registry.sendAll (session.exitedTo status)) c = queued registry c ++
        if c ∈ session.state.views then [.exited session.id status] else [] := by
    intro c hc
    rw [queued_sendAll _ hc, Session.exitedTo, filterMap_own Std.ExtTreeMap.nodup_keys]
    simp only [Std.ExtTreeMap.mem_keys]
  rw [news_eq hmessages, ← flatMap_ite]
  refine List.flatMap_congr fun c _ => ?_
  split_ifs <;> rfl

/-- The snapshot comes into the queue of the client that attaches. -/
theorem news_snapshot (hclient : client ∈ registry.clients) (replyId : Nat) (snapshot : Snapshot) :
    news registry (registry.sendAll [(client, .reply replyId (.ok (.snapshot snapshot)))]) =
      [.attached client snapshot] := by
  have hmessages : ∀ c ∈ registry.clients,
      queued (registry.sendAll [(client, .reply replyId (.ok (.snapshot snapshot)))]) c =
        queued registry c ++
          if c = client then [.reply replyId (.ok (.snapshot snapshot))] else [] := by
    intro c hc
    have hone : [client].Nodup := List.nodup_cons.2 ⟨List.not_mem_nil, List.nodup_nil⟩
    have hown := filterMap_own hone (.reply replyId (.ok (.snapshot snapshot))) c
    simp only [List.mem_singleton] at hown
    rw [queued_sendAll _ hc, ← hown]
    rfl
  rw [news_eq hmessages]
  have hsplit : (registry.clients.keys.flatMap fun c =>
      (if c = client then [ServerMsg.reply replyId (.ok (.snapshot snapshot))] else []).filterMap
        (Event.told c)) =
      registry.clients.keys.flatMap fun c =>
        if c = client then [Event.attached c snapshot] else [] := by
    refine List.flatMap_congr fun c _ => ?_
    split_ifs <;> rfl
  have hcount : registry.clients.keys.count client = 1 :=
    List.count_eq_one_of_mem Std.ExtTreeMap.nodup_keys (Std.ExtTreeMap.mem_keys.2 hclient)
  rw [hsplit, flatMap_ite, List.filter_eq, hcount]
  rfl

/-- Output comes into the queues of the views that hear it. -/
theorem news_sendOutputs {terminal : TerminalId} {offset : Nat} {chunk : Bytes}
    {views : List ClientId} (hnodup : views.Nodup) :
    news registry (views.foldl (fun registry c => registry.sendOutput c terminal offset chunk)
        registry) =
      (registry.clients.keys.filter fun c =>
        c ∈ views ∧ hears registry terminal chunk c = true).map fun c => .output c offset := by
  rw [news_eq fun c _ => queued_sendOutputs hnodup, ← flatMap_ite]
  refine List.flatMap_congr fun c _ => ?_
  split_ifs <;> rfl

/-! ## Runs -/

/-- The log gives for each client whether it is attached now, and how the session finished. -/
structure Inv (s : Sys) : Prop where
  reads : ∀ client, Watch.of client s.log =
    some ⟨decide (client ∈ s.session.state.views ∧ client ∈ s.registry.clients),
      s.session.state.exited⟩
  known : ∀ client, client ∈ s.session.state.views ∨ client ∈ s.registry.clients →
    client ≤ s.registry.next
  alone : s.session.state.exited ≠ none → ∀ client, client ∉ s.session.state.views

/-- A step that sends nothing and changes neither who is attached nor who is connected. -/
theorem Inv.congr {s s' : Sys} (h : Inv s)
    (hviews : ∀ client, client ∈ s'.session.state.views ↔ client ∈ s.session.state.views)
    (hexited : s'.session.state.exited = s.session.state.exited)
    (hclients : ∀ client, client ∈ s'.registry.clients ↔ client ∈ s.registry.clients)
    (hnext : s'.registry.next = s.registry.next) (hlog : s'.log = s.log) : Inv s' := by
  refine ⟨fun client => ?_, fun client hclient => ?_, fun hne client hmem => ?_⟩
  · rw [hlog, h.reads, hexited, decide_eq_decide.2 (and_congr (hviews client) (hclients client))]
  · rw [hnext]
    exact h.known client (hclient.imp (hviews client).1 (hclients client).1)
  · exact h.alone (hexited ▸ hne) client ((hviews client).1 hmem)

/-- A step by which nothing comes into the queues. -/
theorem note_of_nil {s : Sys} {session : Session} {registry : Registry} (first : List Event)
    (hnews : news s.registry registry = []) :
    s.note first session registry = { session, registry, log := s.log ++ first } := by
  rw [Sys.note, hnews, List.append_nil]

/-- Nothing has come into queues that are as they were. -/
theorem news_refl (registry : Registry) : news registry registry = [] :=
  news_nil fun _ _ => Nat.le_refl _

/-- All views are told of the exit. -/
theorem Inv.reads_told {s : Sys} (h : Inv s) (status : ExitStatus) (client : ClientId) :
    Watch.of client (s.log ++ news s.registry (s.registry.sendAll (s.session.exitedTo status))) =
      some ⟨false, s.session.state.exited⟩ := by
  have hmem : (client ∈ s.session.state.views ∧ client ∈ s.registry.clients) ↔
      client ∈ s.registry.clients.keys.filter fun c => c ∈ s.session.state.views := by
    rw [List.mem_filter, Std.ExtTreeMap.mem_keys, decide_eq_true_eq, and_comm]
  rw [Watch.of_append, h.reads, Option.bind_some, news_exitedTo, decide_eq_decide.2 hmem]
  exact Watch.foldlM_exits status _ (Std.ExtTreeMap.nodup_keys.filter _)

section

variable {s : Sys} (h : Inv s)
include h

theorem Inv.connect : Inv (s.note [] s.session s.registry.add.2) := by
  have hnews : news s.registry s.registry.add.2 = [] := by
    refine news_nil fun c hc => ?_
    have hne : ¬ compare (s.registry.next + 1) c = .eq := by
      rw [Nat.compare_eq_eq]
      exact Nat.ne_of_gt (Nat.lt_succ_of_le (h.known c (.inr hc)))
    refine Nat.le_of_eq ?_
    rw [queued, queued, Registry.add]
    dsimp only
    rw [Std.ExtTreeMap.getElem?_insert, if_neg hne]
  rw [note_of_nil [] hnews, List.append_nil]
  have hnew : ∀ client, client ∈ s.registry.add.2.clients ↔
      client = s.registry.next + 1 ∨ client ∈ s.registry.clients := by
    intro client
    rw [Registry.add, Std.ExtTreeMap.mem_insert, Nat.compare_eq_eq, eq_comm]
  refine ⟨fun client => ?_, fun client hclient => ?_, h.alone⟩
  · rw [h.reads]
    refine congrArg (fun b => some (Watch.mk b _)) (decide_eq_decide.2 (and_congr_right ?_))
    intro hview
    have hle := h.known client (.inl hview)
    rw [hnew]
    exact (or_iff_right (Nat.ne_of_lt (Nat.lt_succ_of_le hle))).symm
  · show client ≤ s.registry.next + 1
    rw [hnew, or_left_comm] at hclient
    rcases hclient with rfl | hclient
    · exact Nat.le_refl _
    · exact Nat.le_succ_of_le (h.known client hclient)

theorem Inv.remove (client : ClientId) :
    Inv (s.note [.gone client] s.session (s.registry.remove client)) := by
  have hnews : news s.registry (s.registry.remove client) = [] := by
    refine news_nil fun c _ => ?_
    rw [queued, queued, Registry.remove]
    dsimp only
    rw [Std.ExtTreeMap.getElem?_erase]
    split
    · exact Nat.zero_le _
    · exact Nat.le_refl _
  rw [note_of_nil _ hnews]
  have hmem : ∀ c, c ∈ (s.registry.remove client).clients ↔
      client ≠ c ∧ c ∈ s.registry.clients := by
    intro c
    rw [Registry.remove, Std.ExtTreeMap.mem_erase, Ne, Nat.compare_eq_eq]
  refine ⟨fun c => ?_, fun c hc => ?_, h.alone⟩
  · rw [Watch.of_append, h.reads, Option.bind_some, List.foldlM_cons, Watch.read]
    by_cases heq : client = c
    · rw [if_pos heq]
      refine congrArg (fun b => some (Watch.mk b _)) (decide_eq_false fun h => ?_).symm
      exact ((hmem c).1 h.2).1 heq
    · rw [if_neg heq]
      refine congrArg (fun b => some (Watch.mk b _)) (decide_eq_decide.2 (and_congr_right ?_))
      exact fun _ => ((hmem c).trans (and_iff_right heq)).symm
  · exact h.known c (hc.imp_right fun hc => ((hmem c).1 hc).2)

theorem Inv.attach {client : ClientId} (hclient : client ∈ s.registry.clients)
    (replyId cols rows : Nat) :
    Inv (s.note [.asked client] (s.session.attach client replyId cols rows).1
      (s.registry.sendAll (s.session.attach client replyId cols rows).2.2)) := by
  have hnews : news s.registry
      (s.registry.sendAll (s.session.attach client replyId cols rows).2.2) =
        [.attached client s.session.snapshot] := news_snapshot hclient replyId _
  have hviews := fun c => @Session.mem_attach s.session c client replyId cols rows
  have hexited := (@Session.attach_keeps s.session client replyId cols rows).1
  have hmem := fun c => (@mem_sendAll s.registry c
    (s.session.attach client replyId cols rows).2.2).1
  have hnext := (@mem_sendAll s.registry client
    (s.session.attach client replyId cols rows).2.2).2
  have hshown : s.session.snapshot.exited = s.session.state.exited := rfl
  rw [Sys.note, hnews]
  refine ⟨fun c => ?_, fun c hc => ?_, fun hne c hc => ?_⟩
  · rw [List.append_assoc, Watch.of_append, h.reads, Option.bind_some, List.cons_append,
      List.foldlM_cons, Watch.read, Option.bind_eq_bind, Option.bind_some, List.nil_append,
      List.foldlM_cons, Watch.read]
    have hview : decide (c ∈ (s.session.attach client replyId cols rows).1.state.views ∧
        c ∈ (s.registry.sendAll (s.session.attach client replyId cols rows).2.2).clients) =
          decide ((c ∈ s.session.state.views ∨ c = client ∧ s.session.state.exited = none) ∧
            c ∈ s.registry.clients) := decide_eq_decide.2 (and_congr (hviews c) (hmem c))
    dsimp only
    rw [if_pos hshown, hexited, hview]
    by_cases heq : client = c
    · subst heq
      rw [if_pos rfl]
      refine congrArg (fun b => some (Watch.mk b _)) ?_
      refine Bool.eq_iff_iff.2
        (Option.isNone_iff_eq_none.trans (Iff.trans ?_ decide_eq_true_iff.symm))
      refine ⟨fun hnone => ⟨.inr ⟨rfl, hnone⟩, hclient⟩, ?_⟩
      rintro ⟨hview | ⟨-, hnone⟩, -⟩
      · by_contra hne
        exact h.alone hne client hview
      · exact hnone
    · rw [if_neg heq]
      refine congrArg (fun b => some (Watch.mk b _))
        (decide_eq_decide.2 (and_congr_left fun _ => ?_))
      exact (or_iff_left fun hc => heq hc.1.symm).symm
  · dsimp only at hc ⊢
    rw [hnext]
    rcases hc with hc | hc
    · rcases (hviews c).1 hc with hc | ⟨rfl, -⟩
      · exact h.known c (.inl hc)
      · exact h.known c (.inr hclient)
    · exact h.known c (.inr ((hmem c).1 hc))
  · dsimp only at hne hc
    rw [hexited] at hne
    rcases (hviews c).1 hc with hc | hc
    · exact h.alone hne c hc
    · exact hne hc.2

theorem Inv.detach (client : ClientId) :
    Inv (s.note [.detached client] (s.session.detach client) s.registry) := by
  rw [note_of_nil _ (news_refl _)]
  have hviews := fun c => @Session.mem_detach s.session c client
  have hexited := (@Session.detach_keeps s.session client).1
  refine ⟨fun c => ?_, fun c hc => ?_, fun hne c hc => ?_⟩
  · rw [Watch.of_append, h.reads, Option.bind_some, List.foldlM_cons, Watch.read]
    dsimp only
    rw [hexited]
    by_cases heq : client = c
    · rw [if_pos heq]
      refine congrArg (fun b => some (Watch.mk b _)) (decide_eq_false fun hview => ?_).symm
      exact ((hviews c).1 hview.1).2 heq.symm
    · rw [if_neg heq]
      refine congrArg (fun b => some (Watch.mk b _))
        (decide_eq_decide.2 (and_congr_left fun _ => ?_))
      exact ((hviews c).trans (and_iff_left fun hc => heq hc.symm)).symm
  · exact h.known c (hc.imp_left fun hc => ((hviews c).1 hc).1)
  · exact h.alone (hexited ▸ hne) c ((hviews c).1 hc).1

theorem Inv.pump (chunk : Bytes) :
    Inv (s.note [] (s.session.pumpOutput chunk)
      (s.session.state.views.keys.foldl (fun registry client =>
        registry.sendOutput client s.session.id s.session.state.endOffset chunk) s.registry)) := by
  have hnews := @news_sendOutputs s.registry s.session.id s.session.state.endOffset chunk
    s.session.state.views.keys Std.ExtTreeMap.nodup_keys
  have hmem := fun c => (@mem_sendOutputs s.registry c s.session.id s.session.state.endOffset chunk
    s.session.state.views.keys).1
  rw [Sys.note, hnews, List.append_nil]
  refine ⟨fun c => ?_, fun c hc => ?_, h.alone⟩
  · have hheard : c ∈ (s.registry.clients.keys.filter fun c => c ∈ s.session.state.views.keys ∧
        hears s.registry s.session.id chunk c = true) →
        c ∈ s.session.state.views ∧ c ∈ s.registry.clients := by
      intro hc
      obtain ⟨hc, hview⟩ := List.mem_filter.1 hc
      exact ⟨Std.ExtTreeMap.mem_keys.1 (of_decide_eq_true hview).1, Std.ExtTreeMap.mem_keys.1 hc⟩
    rw [Watch.of_append, h.reads, Option.bind_some,
      Watch.foldlM_outputs _ fun hc => decide_eq_true (hheard hc)]
    exact congrArg (fun b => some (Watch.mk b _))
      (decide_eq_decide.2 (and_congr_right fun _ => (hmem c).symm))
  · dsimp only at hc ⊢
    rw [(@mem_sendOutputs s.registry c s.session.id s.session.state.endOffset chunk
      s.session.state.views.keys).2]
    exact h.known c (hc.imp_right (hmem c).1)

theorem Inv.endViews :
    Inv (s.note [] s.session.endViews.1 (s.registry.sendAll s.session.endViews.2)) := by
  rw [Session.endViews]
  split
  · rw [Sys.note, List.append_nil]
    refine ⟨fun c => ?_, fun c hc => ?_, fun _ c => Std.ExtTreeMap.not_mem_empty⟩
    · dsimp only
      rw [h.reads_told]
      exact congrArg (fun b => some (Watch.mk b _))
        (decide_eq_false fun hview => Std.ExtTreeMap.not_mem_empty hview.1).symm
    · dsimp only at hc ⊢
      rw [(@mem_sendAll s.registry c _).2]
      refine h.known c (.inr ?_)
      exact (mem_sendAll _).1.1 (hc.resolve_left Std.ExtTreeMap.not_mem_empty)
  · have hnews : news s.registry (s.registry.sendAll []) = [] := news_refl _
    rw [note_of_nil _ hnews]
    exact h.congr (fun _ => Iff.rfl) rfl (fun _ => Iff.rfl) rfl (List.append_nil _)

theorem Inv.finish (hrunning : s.session.isExited = false) (code : Option Int) :
    Inv { s.note [] (s.session.finish code).1 (s.registry.sendAll (s.session.finish code).2) with
      log := (s.note [] (s.session.finish code).1
        (s.registry.sendAll (s.session.finish code).2)).log ++
          [.finished ⟨code, s.session.state.userKilled⟩] } := by
  have hnone : s.session.state.exited = none := by
    rwa [Session.isExited, Option.isSome_eq_false_iff, Option.isNone_iff_eq_none] at hrunning
  rw [Session.finish, Sys.note, List.append_nil]
  refine ⟨fun c => ?_, fun c hc => ?_, fun _ c => Std.ExtTreeMap.not_mem_empty⟩
  · dsimp only
    rw [Watch.of_append, h.reads_told, Option.bind_some, List.foldlM_cons, Watch.read, hnone,
      if_pos ⟨rfl, rfl⟩]
    exact congrArg (fun b => some (Watch.mk b _))
      (decide_eq_false fun hview => Std.ExtTreeMap.not_mem_empty hview.1).symm
  · dsimp only at hc ⊢
    rw [(@mem_sendAll s.registry c _).2]
    refine h.known c (.inr ?_)
    exact (mem_sendAll _).1.1 (hc.resolve_left Std.ExtTreeMap.not_mem_empty)

end

theorem Inv.step {s s' : Sys} {act : Act} (h : Inv s) (hs : step s act = some s') : Inv s' := by
  cases act with
  | connect =>
      cases hs
      exact h.connect
  | remove client =>
      rw [Exits.step] at hs
      split at hs
      · cases hs
        exact h.remove client
      · cases hs
  | attach client replyId cols rows =>
      rw [Exits.step] at hs
      split at hs
      · next hclient =>
          cases hs
          exact h.attach hclient replyId cols rows
      · cases hs
  | detach client =>
      cases hs
      exact h.detach client
  | resize client cols rows =>
      cases hs
      rw [note_of_nil [] (news_refl _)]
      exact h.congr (fun c => Session.mem_resize _ cols rows) (Session.resize_exited _ cols rows)
        (fun _ => Iff.rfl) rfl (List.append_nil _)
  | endViews =>
      cases hs
      exact h.endViews
  | kill =>
      cases hs
      rw [note_of_nil [] (news_refl _)]
      have hkeeps := Session.kill_keeps s.session
      refine h.congr (fun c => ?_) hkeeps.2 (fun _ => Iff.rfl) rfl (List.append_nil _)
      exact iff_of_eq (congrArg (c ∈ ·) hkeeps.1)
  | pump chunk =>
      cases hs
      exact h.pump chunk
  | finish code =>
      rw [Exits.step] at hs
      split at hs
      · cases hs
      · next hrunning =>
          cases hs
          exact h.finish (Bool.eq_false_iff.2 hrunning) code
  | write client =>
      obtain ⟨received, hreceived, rfl⟩ := Option.map_eq_some_iff.1 hs
      obtain ⟨queue, hqueue, htaken⟩ := Option.bind_eq_some_iff.1 hreceived
      have hnews : news s.registry (s.registry.modify client fun _ =>
          received.2.written received.1) = [] := by
        refine news_modify fun queue' hqueue' => ?_
        rw [hqueue, Option.mem_some_iff] at hqueue'
        subst hqueue'
        rw [ClientQueue.receive] at htaken
        split at htaken
        · cases htaken
        · next hrx =>
            cases htaken
            rw [hrx]
            exact Nat.le_succ _
      rw [note_of_nil [] hnews]
      exact h.congr (fun _ => Iff.rfl) rfl (fun _ => mem_modify) rfl (List.append_nil _)
  | takeResyncs client =>
      cases hs
      have hnews : news s.registry (s.registry.modify client fun queue =>
          queue.takeResyncs.2) = [] := by
        refine news_modify fun queue _ => ?_
        rw [ClientQueue.takeResyncs]
        split <;> exact Nat.le_refl _
      rw [note_of_nil [] hnews]
      exact h.congr (fun _ => Iff.rfl) rfl (fun _ => mem_modify) rfl (List.append_nil _)

/-! ## Attaches are answered -/

/-- Every attach is followed by a snapshot in the client's queue. -/
def Answered (log : List Event) : Prop :=
  ∀ before client after, log = before ++ .asked client :: after →
    ∃ snapshot rest, after = .attached client snapshot :: rest

theorem answered_of_not_mem {events : List Event} (h : ∀ client, .asked client ∉ events) :
    Answered events := by
  rintro before client after rfl
  exact absurd (List.mem_append_right _ List.mem_cons_self) (h client)

theorem Answered.append {log events : List Event} (h : Answered log) (h' : Answered events) :
    Answered (log ++ events) := by
  intro before client after heq
  rcases List.append_eq_append_iff.1 heq with ⟨between, -, hevents⟩ | ⟨between, hlog, hrest⟩
  · exact h' between client after hevents
  · cases between with
    | nil => exact h' [] client after hrest.symm
    | cons event between =>
        obtain ⟨rfl, hafter⟩ := List.cons.inj hrest
        obtain ⟨snapshot, rest, rfl⟩ := h before client between hlog
        exact ⟨snapshot, rest ++ events, hafter⟩

/-- No attach is among what comes into the queues. -/
theorem answered_news (before after : Registry) : Answered (news before after) := by
  refine answered_of_not_mem fun client hmem => ?_
  obtain ⟨c, -, hevent⟩ := List.mem_flatMap.1 hmem
  obtain ⟨message, -, htold⟩ := List.mem_filterMap.1 hevent
  rw [Event.told.eq_def] at htold
  split at htold <;> cases htold

theorem Answered.note {s : Sys} (h : Answered s.log) {first : List Event}
    (hfirst : ∀ client, .asked client ∉ first) (session : Session) (registry : Registry) :
    Answered (s.note first session registry).log :=
  (h.append (answered_of_not_mem hfirst)).append (answered_news _ _)

theorem Answered.step {s s' : Sys} {act : Act} (h : Answered s.log)
    (hs : step s act = some s') : Answered s'.log := by
  cases act with
  | attach client replyId cols rows =>
      rw [Exits.step] at hs
      split at hs
      · next hclient =>
          cases hs
          have hnews : news s.registry
              (s.registry.sendAll (s.session.attach client replyId cols rows).2.2) =
                [.attached client s.session.snapshot] := news_snapshot hclient replyId _
          rw [Sys.note, hnews, List.append_assoc]
          refine h.append fun before c after heq => ?_
          cases before with
          | nil =>
              cases heq
              exact ⟨_, [], rfl⟩
          | cons event before =>
              have hrest := (List.cons.inj heq).2
              cases before with
              | nil => cases hrest
              | cons event before => simp at hrest
      · cases hs
  | finish code =>
      rw [Exits.step] at hs
      split at hs
      · cases hs
      · cases hs
        exact (h.note (fun _ => List.not_mem_nil) _ _).append (answered_of_not_mem (by simp))
  | write client =>
      obtain ⟨received, -, rfl⟩ := Option.map_eq_some_iff.1 hs
      exact h.note (fun _ => List.not_mem_nil) _ _
  | remove client =>
      rw [Exits.step] at hs
      split at hs
      · cases hs
        exact h.note (by simp) _ _
      · cases hs
  | detach client =>
      cases hs
      exact h.note (by simp) _ _
  | connect | resize client cols rows | endViews | kill | pump chunk | takeResyncs client =>
      cases hs
      exact h.note (fun _ => List.not_mem_nil) _ _

/-- A log that every client can read delivers exits once. -/
theorem delivered_of_reads {log : List Event} (hanswered : Answered log)
    (h : ∀ client, ∃ w, Watch.of client log = some w) : Delivered log := by
  have hcut : ∀ before client snapshot after,
      log = before ++ .attached client snapshot :: after →
      ∃ w w', Watch.of client before = some w ∧ snapshot.exited = w.exited ∧
        after.foldlM (Watch.read client) ⟨w.exited.isNone, w.exited⟩ = some w' := by
    intro before client snapshot after hlog
    obtain ⟨w', hw'⟩ := h client
    rw [hlog, Watch.of_append, Option.bind_eq_some_iff] at hw'
    obtain ⟨w, hw, hafter⟩ := hw'
    rw [List.foldlM_cons, Option.bind_eq_bind, Option.bind_eq_some_iff] at hafter
    obtain ⟨middle, hread, hafter⟩ := hafter
    rw [Watch.read, if_pos rfl] at hread
    split at hread
    · next hexited =>
        cases hread
        exact ⟨w, w', hw, hexited, hafter⟩
    · cases hread
  refine ⟨hanswered, fun before client snapshot after hlog hrunning => ?_,
    fun before client snapshot after status hlog hfinished => ?_⟩
  · obtain ⟨w, w', hbefore, hexited, hafter⟩ := hcut before client snapshot after hlog
    rw [hrunning] at hexited
    rw [← hexited] at hafter
    rcases Watch.ends_of_viewing rfl hafter with hended | ⟨hnone, hnot⟩
    · exact .inl hended
    · refine .inr ⟨hnone, fun status hmem => ?_⟩
      rw [hlog, List.mem_append, List.mem_cons] at hmem
      rcases hmem with hmem | hmem | hmem
      · have := Watch.exited_of_mem hbefore hmem
        rw [← hexited] at this
        cases this
      · cases hmem
      · exact hnot status hmem
  · obtain ⟨w, w', hbefore, hexited, hafter⟩ := hcut before client snapshot after hlog
    have hw := Watch.exited_of_mem hbefore hfinished
    rw [hw] at hexited hafter
    exact ⟨hexited, (Watch.quiet_of_finished rfl hafter).2⟩

/-- Whatever the order of the critical sections, exits are delivered once. -/
theorem exits_delivered (spec : SpawnSpec) (tailBytes : Nat) (elevated : Bool) {s : Sys}
    (h : (machine spec tailBytes elevated).Reach Machine.anyStep s) : Delivered s.log := by
  have hinv : Inv s := by
    refine h.invariant (fun s hs => ?_) fun s act s' hi _ hs => hi.step hs
    obtain ⟨registry, hknown, rfl⟩ := hs
    refine ⟨fun client => ?_, fun client hclient => ?_, fun hne => absurd rfl hne⟩
    · exact congrArg (fun b => some (Watch.mk b none))
        (decide_eq_false fun hview => Std.ExtTreeMap.not_mem_empty hview.1).symm
    · exact hknown client (hclient.resolve_left Std.ExtTreeMap.not_mem_empty)
  have hanswered : Answered s.log := by
    refine h.invariant (P := fun s => Answered s.log) (fun s hs => ?_) fun _ _ _ hi _ hs =>
      Answered.step hi hs
    obtain ⟨registry, -, rfl⟩ := hs
    exact answered_of_not_mem fun _ => List.not_mem_nil
  exact delivered_of_reads hanswered fun client => ⟨_, hinv.reads client⟩

/-- A shell of the user's. -/
def shell : SpawnSpec := ⟨⟨1⟩, ⟨2⟩, "shell", "sh", [], "/", [], 80, 24, none, false⟩

/-- The first client leaves before the exit, the second is told of it, and the third comes late. -/
theorem exits_delivered_late : ∃ s : Sys, Delivered s.log ∧
    s.log.filter (fun event => event.tells 1 || event.tells 2 || event.tells 3) =
      [.output 1 0, .output 2 0, .exited 2 ⟨some 0, false⟩] := by
  obtain ⟨s, hreach, hlog⟩ := (Machine.Reach.init
    ⟨.empty, fun _ h => absurd h Std.ExtTreeMap.not_mem_empty, rfl⟩ :
      (machine shell 4096 false).Reach Machine.anyStep
        ⟨Session.spawn shell 4096 false, .empty, []⟩).exists_of_exec
    [.connect, .connect, .connect, .attach 1 1 80 24, .attach 2 1 80 24, .pump [104, 105],
      .detach 1, .finish (some 0), .attach 3 1 80 24, .pump [104]]
    (fun s => decide (s.log.filter
      (fun event => event.tells 1 || event.tells 2 || event.tells 3) =
        [.output 1 0, .output 2 0, .exited 2 ⟨some 0, false⟩])) (by decide +kernel)
  exact ⟨s, exits_delivered _ _ _ hreach, of_decide_eq_true hlog⟩

end Throng.Daemon.Exits
