import Throng.App.HubLink
import Throng.Daemon.WirePrinted
import Throng.Daemon.WireRun

/-!
# What a panel's screen has been fed

A view takes a snapshot's bytes into a fresh emulator and feeds it the outputs behind it. As long as
the wire is lawful and no resync has been written since the attach, the emulator has seen, in order
and each once, the bytes that the terminal printed from the start of the last snapshot up to where
output has been shown.
-/

namespace Throng

open Daemon Wire

variable {E : Type} (platform : Platform E)

/-- The emulator once it has seen the pieces. -/
def Platform.seen (term : E) (pieces : List Bytes) : E :=
  pieces.foldl (fun term piece => (platform.advance term piece).1) term

namespace TerminalView

/-- What a frame of the daemon's does to the view of its terminal. -/
def receive (terminal : TerminalId) (view : TerminalView E) : ServerMsg → TerminalView E
  | .output t offset data => if t = terminal then view.feed platform offset data else view
  | .reply _ (.ok (.snapshot s)) =>
      if s.terminal = terminal then view.applySnapshot platform s else view
  | _ => view

def snapshotOf (terminal : TerminalId) : ServerMsg → Option Snapshot
  | .reply _ (.ok (.snapshot s)) => if s.terminal = terminal then some s else none
  | _ => none

/-- The last snapshot of the terminal among the frames. -/
def lastSnapshot (terminal : TerminalId) (frames : List ServerMsg) : Option Snapshot :=
  (frames.filterMap (snapshotOf terminal)).getLast?

/-- The emulator has seen what the stream holds from the cut to where output has been shown. -/
def Shows (stream : Bytes) (cut : Nat) (view : TerminalView E) : Prop :=
  cut ≤ view.seenUntil ∧ view.seenUntil ≤ stream.length ∧
    ∃ pieces, view.term = platform.seen (platform.newTerm view.scrollback view.size) pieces ∧
      pieces.flatten = (stream.take view.seenUntil).drop cut

/-- The emulator has seen what the stream holds from where the last snapshot among the frames
begins. -/
def ShowsLast (terminal : TerminalId) (stream : Bytes) (frames : List ServerMsg)
    (view : TerminalView E) : Prop :=
  ∃ s, lastSnapshot terminal frames = some s ∧
    Shows platform stream (s.endOffset - s.tail.length) view

variable {platform} {stream data : Bytes} {cut offset : Nat} {view : TerminalView E}
  {terminal : TerminalId} {frames : List ServerMsg}

/-! ## One frame -/

/-- What is new in data that starts where output has been shown, or before. -/
theorem unseen_eq {seenUntil : Nat} (h : StandsAt stream offset data)
    (hseen : seenUntil ≤ stream.length) (hoffset : offset ≤ seenUntil) :
    stream.take seenUntil ++ unseen offset data seenUntil =
      stream.take (max seenUntil (offset + data.length)) := by
  obtain ⟨before, after, rfl, rfl⟩ := h
  obtain ⟨n, rfl⟩ := Nat.exists_eq_add_of_le hoffset
  rw [unseen]
  split
  · next hend => rw [Nat.max_eq_left hend, List.append_nil]
  · next hend =>
      have hn : n ≤ data.length := by omega
      rw [Nat.max_eq_right (Nat.le_of_not_le hend), List.take_length_add_append,
        List.take_length_add_append, List.take_left, List.take_append_of_le_length hn,
        List.append_assoc, List.append_cancel_left_eq]
      split
      · next hstart =>
          obtain rfl : n = 0 := by omega
          rw [List.take_zero, List.nil_append]
      · rw [Nat.add_sub_cancel_left, List.take_append_drop]

theorem Shows.feed (h : Shows platform stream cut view) (hstands : StandsAt stream offset data)
    (hoffset : offset ≤ view.seenUntil) :
    Shows platform stream cut (view.feed platform offset data) := by
  obtain ⟨hcut, hseen, pieces, hterm, hpieces⟩ := h
  have hnew := unseen_eq hstands hseen hoffset
  obtain ⟨before, after, hstream, hbefore⟩ := hstands
  have hend : offset + data.length ≤ stream.length := by
    rw [hstream, List.length_append, List.length_append]
    omega
  have hdrop : (stream.take (max view.seenUntil (offset + data.length))).drop cut =
      (stream.take view.seenUntil).drop cut ++ unseen offset data view.seenUntil := by
    rw [← hnew, List.drop_append_of_le_length]
    rw [List.length_take, Nat.min_eq_left hseen]
    exact hcut
  rw [TerminalView.feed]
  split
  · next hempty =>
      refine ⟨Nat.le_trans hcut (Nat.le_max_left _ _), Nat.max_le.2 ⟨hseen, hend⟩, pieces, hterm,
        ?_⟩
      dsimp only
      rw [hdrop, List.isEmpty_iff.1 hempty, List.append_nil]
      exact hpieces
  · refine ⟨Nat.le_trans hcut (Nat.le_max_left _ _), Nat.max_le.2 ⟨hseen, hend⟩,
      pieces ++ [unseen offset data view.seenUntil], ?_, ?_⟩
    · rw [Platform.seen, List.foldl_append]
      change (platform.advance view.term _).1 = _
      rw [hterm]
      rfl
    · dsimp only
      rw [List.flatten_append, List.flatten_singleton, hpieces, hdrop]

theorem shows_applySnapshot {snapshot : Snapshot} (hstands : StandsAt stream cut snapshot.tail)
    (hend : cut + snapshot.tail.length = snapshot.endOffset) :
    Shows platform stream cut (view.applySnapshot platform snapshot) := by
  obtain ⟨before, after, rfl, rfl⟩ := hstands
  refine ⟨?_, ?_, [snapshot.tail], rfl, ?_⟩
  · change before.length ≤ snapshot.endOffset
    rw [← hend]
    exact Nat.le_add_right _ _
  · change snapshot.endOffset ≤ _
    rw [← hend, List.length_append, List.length_append]
    omega
  · change _ = ((before ++ (snapshot.tail ++ after)).take snapshot.endOffset).drop before.length
    rw [← hend, List.take_length_add_append, List.drop_left, List.take_left' rfl,
      List.flatten_singleton]

theorem receive_of_stop_none {frame : ServerMsg} (h : stop terminal frame = none) :
    view.receive platform terminal frame = view := by
  cases frame with
  | output t offset data =>
      rw [stop] at h
      rw [receive, if_neg fun heq => by rw [if_pos heq] at h; cases h]
  | reply id result =>
      cases result with
      | error reason => rfl
      | ok reply =>
          cases reply with
          | snapshot snapshot =>
              rw [stop] at h
              rw [receive, if_neg fun heq => by rw [if_pos heq] at h; cases h]
          | _ => rfl
  | _ => rfl

theorem lastSnapshot_append_of_some {frame : ServerMsg} {s : Snapshot}
    (h : snapshotOf terminal frame = some s) :
    lastSnapshot terminal (frames ++ [frame]) = some s := by
  rw [lastSnapshot, List.filterMap_append, List.filterMap_cons_some h, List.filterMap_nil,
    List.getLast?_concat]

theorem lastSnapshot_append_of_none {frame : ServerMsg} (h : snapshotOf terminal frame = none) :
    lastSnapshot terminal (frames ++ [frame]) = lastSnapshot terminal frames := by
  rw [lastSnapshot, lastSnapshot, List.filterMap_append, List.filterMap_cons_none h,
    List.filterMap_nil, List.append_nil]

theorem snapshotOf_of_stop_none {frame : ServerMsg} (h : stop terminal frame = none) :
    snapshotOf terminal frame = none := by
  cases frame with
  | reply id result =>
      cases result with
      | error reason => rfl
      | ok reply =>
          cases reply with
          | snapshot s =>
              rw [stop] at h
              rw [snapshotOf, if_neg fun heq => by rw [if_pos heq] at h; cases h]
          | _ => rfl
  | _ => rfl

/-- A snapshot rebuilds the view, whatever it showed. -/
theorem showsLast_snapshot {printed : TerminalId → Bytes} {id : Nat} {s : Snapshot}
    (hsaid : Says printed (.reply id (.ok (.snapshot s)))) (hterminal : s.terminal = terminal) :
    ShowsLast platform terminal (printed terminal) (frames ++ [.reply id (.ok (.snapshot s))])
      (view.receive platform terminal (.reply id (.ok (.snapshot s)))) := by
  obtain ⟨start, hstands, hend⟩ := hsaid
  rw [hterminal] at hstands
  have hstart : s.endOffset - s.tail.length = start := by omega
  refine ⟨s, lastSnapshot_append_of_some (if_pos hterminal), ?_⟩
  rw [hstart, receive, if_pos hterminal]
  exact shows_applySnapshot hstands hend

/-! ## A wire -/

section

variable {printed : TerminalId → Bytes} {conn : Conn} {attach : Attach} {front : List ServerMsg}
  {id : Nat} {snapshot : Snapshot}

/-- Behind the snapshot of an attach the view shows what was printed from the start of the last
snapshot, up to where the last frame of the terminal ends. -/
theorem shows_run (hlaw : Lawful conn attach.terminal)
    (hsaid : ∀ frame ∈ conn.wire, Says printed frame) (hattach : attach ∈ conn.attaches)
    (hterminal : snapshot.terminal = attach.terminal) (hqueued : attach.queued ≤ messages front)
    (hnone : .resync attach.terminal ∉ conn.wire.drop attach.written) (view : TerminalView E)
    (back : List ServerMsg) :
    ∀ rest, conn.wire = (front ++ .reply id (.ok (.snapshot snapshot)) :: back) ++ rest →
      ShowsLast platform attach.terminal (printed attach.terminal)
        (front ++ .reply id (.ok (.snapshot snapshot)) :: back)
        ((front ++ .reply id (.ok (.snapshot snapshot)) :: back).foldl
          (receive platform attach.terminal) view) ∧
      last attach.terminal (front ++ .reply id (.ok (.snapshot snapshot)) :: back) =
        some ((front ++ .reply id (.ok (.snapshot snapshot)) :: back).foldl
          (receive platform attach.terminal) view).seenUntil := by
  have hrebuilt : ∀ {id s} {view : TerminalView E} {frames : List ServerMsg},
      Says printed (.reply id (.ok (.snapshot s))) → s.terminal = attach.terminal →
      ShowsLast platform attach.terminal (printed attach.terminal)
        (frames ++ [.reply id (.ok (.snapshot s))])
        (view.receive platform attach.terminal (.reply id (.ok (.snapshot s)))) ∧
      last attach.terminal (frames ++ [.reply id (.ok (.snapshot s))]) =
        some (view.receive platform attach.terminal (.reply id (.ok (.snapshot s)))).seenUntil := by
    intro id s view frames hsays hsame
    refine ⟨showsLast_snapshot hsays hsame, ?_⟩
    rw [receive, if_pos hsame]
    exact last_append_of_some (if_pos hsame)
  induction back using List.reverseRecOn with
  | nil =>
      intro rest hwire
      rw [List.foldl_append, List.foldl_cons, List.foldl_nil]
      exact hrebuilt (hsaid _ (by rw [hwire]; simp)) hterminal
  | append_singleton back frame ih =>
      intro rest hwire
      have hsplit : front ++ .reply id (.ok (.snapshot snapshot)) :: (back ++ [frame]) =
          (front ++ .reply id (.ok (.snapshot snapshot)) :: back) ++ [frame] := by
        rw [List.append_assoc, List.cons_append]
      rw [hsplit, List.append_assoc] at hwire
      rw [hsplit, List.foldl_append, List.foldl_cons, List.foldl_nil]
      generalize hbefore : front ++ .reply id (.ok (.snapshot snapshot)) :: back = before at *
      obtain ⟨⟨s, hsnapshot, hshows⟩, hlast⟩ := ih ([frame] ++ rest) hwire
      have hframe : Says printed frame := hsaid frame (by rw [hwire]; simp)
      cases hstop : stop attach.terminal frame with
      | none =>
          rw [receive_of_stop_none hstop, last_append_of_none hstop, ShowsLast,
            lastSnapshot_append_of_none (snapshotOf_of_stop_none hstop)]
          exact ⟨⟨s, hsnapshot, hshows⟩, hlast⟩
      | some n =>
          cases frame with
          | output t offset data =>
              have ht : t = attach.terminal := by
                by_contra hne
                rw [stop, if_neg hne] at hstop
                cases hstop
              subst ht
              have hmessages : attach.queued ≤ messages before := by
                rw [← hbefore, messages, List.countP_append]
                exact Nat.le_add_right_of_le hqueued
              have hunsynced : ∀ f ∈ before.drop attach.written, f ≠ .resync attach.terminal := by
                rintro f hf rfl
                refine hnone ?_
                rw [hwire, List.drop_append]
                exact List.mem_append_left _ hf
              have hexact :=
                hlaw.attached attach hattach rfl before offset data rest hwire hmessages hunsynced
              rw [hlast, Option.some.injEq] at hexact
              rw [receive, if_pos rfl]
              refine ⟨⟨s, ?_, hshows.feed hframe (Nat.le_of_eq hexact.symm)⟩, ?_⟩
              · rw [lastSnapshot_append_of_none rfl]
                exact hsnapshot
              have hend : stop attach.terminal (.output attach.terminal offset data) =
                  some (offset + data.length) := if_pos rfl
              rw [last_append_of_some hend]
              refine congrArg some (Nat.max_eq_right ?_).symm
              rw [hexact]
              exact Nat.le_add_right _ _
          | reply id result =>
              cases result with
              | error reason => cases hstop
              | ok reply =>
                  cases reply with
                  | snapshot s =>
                      refine hrebuilt hframe ?_
                      by_contra hne
                      rw [stop, if_neg hne] at hstop
                      cases hstop
                  | _ => cases hstop
          | _ => cases hstop

end

/-! ## Runs -/

section

variable {specs : TerminalId → SpawnSpec} {tailBytes : Nat} {elevated : Bool} {s : Sys}
  {client : ClientId} {attach : Attach} {front back : List ServerMsg} {id : Nat}
  {snapshot : Snapshot}

/-- The view of an attached client shows what its terminal printed from the start of the last
snapshot, each byte once and none left out, unless a resync has been written since the attach was
handled. -/
theorem shows_of_calm (platform : Platform E)
    (hs : (machine specs tailBytes elevated).Reach Calm s)
    (hattach : attach ∈ (s.conns client).attaches)
    (hwire : (s.conns client).wire = front ++ .reply id (.ok (.snapshot snapshot)) :: back)
    (hterminal : snapshot.terminal = attach.terminal) (hqueued : attach.queued ≤ messages front)
    (hnone : .resync attach.terminal ∉ (s.conns client).wire.drop attach.written)
    (view : TerminalView E) :
    ShowsLast platform attach.terminal (s.printed attach.terminal) (s.conns client).wire
      ((s.conns client).wire.foldl (receive platform attach.terminal) view) := by
  have hsaid : ∀ frame ∈ (s.conns client).wire, Says s.printed frame := fun frame hframe =>
    (faithful_of_reach hs).frames client frame (List.mem_append_left _ hframe)
  obtain ⟨hshows, -⟩ := shows_run (lawful_of_calm hs client attach.terminal)
    hsaid hattach hterminal hqueued hnone view back [] (by rw [List.append_nil, hwire])
  rw [hwire]
  exact hshows

/-- Once nothing is left to be written, the view shows everything from the start of the last
snapshot up to the last byte printed. -/
theorem caught_up_of_calm (platform : Platform E)
    (hs : (machine specs tailBytes elevated).Reach Calm s)
    (hattach : attach ∈ (s.conns client).attaches)
    (hwire : (s.conns client).wire = front ++ .reply id (.ok (.snapshot snapshot)) :: back)
    (hterminal : snapshot.terminal = attach.terminal) (hqueued : attach.queued ≤ messages front)
    (hnone : .resync attach.terminal ∉ (s.conns client).wire.drop attach.written)
    (hconnected : (s.conns client).connected = true) (halive : (s.conns client).writer ≠ .gone)
    (hview : client ∈ (s.sessions attach.terminal).state.views)
    (hlock : s.locks attach.terminal = .free) (hidle : (s.conns client).upcoming = [])
    (howed : attach.terminal ∉ (s.conns client).queue.resync) (view : TerminalView E) :
    ShowsLast platform attach.terminal (s.printed attach.terminal) (s.conns client).wire
        ((s.conns client).wire.foldl (receive platform attach.terminal) view) ∧
      ((s.conns client).wire.foldl (receive platform attach.terminal) view).seenUntil =
        (s.printed attach.terminal).length := by
  have hfaithful := faithful_of_reach hs
  have hframes : (s.conns client).frames = (s.conns client).wire := by
    rw [Conn.frames, hidle, List.append_nil]
  obtain ⟨hshows, hlast⟩ := shows_run (lawful_of_calm hs client attach.terminal)
    (fun frame hframe => hfaithful.frames client frame (List.mem_append_left _ hframe)) hattach
    hterminal hqueued hnone view back [] (by rw [List.append_nil, hwire])
  rw [← hwire] at hshows hlast
  refine ⟨hshows, ?_⟩
  obtain ⟨n, hn, hnext⟩ := ((inv_of_calm hs).good client attach.terminal).shown
    ((live_of_free hlock).2 hview) hconnected halive
  rw [hframes] at hn hnext
  rw [hn, Option.some.injEq] at hlast
  rw [← hlast, hfaithful.ends, ← @next_of_free s attach.terminal client hlock]
  rcases hnext with hnext | hnext | ⟨before, after, hresync, -, hwritten⟩
  · exact hnext
  · exact absurd hnext howed
  · refine absurd ?_ hnone
    rw [hresync, List.drop_append_of_le_length (hwritten attach hattach rfl)]
    exact List.mem_append_right _ List.mem_cons_self

end

/-- A client attaches between two chunks: its view shows both. -/
def attachedRun : List Act :=
  [.pump ⟨1⟩ [104, 105] [], .done ⟨1⟩, .attach ⟨1⟩ 7 1 80 24, .reply ⟨1⟩, .send, .send,
    .write 7 true, .pump ⟨1⟩ [106, 107, 108] [7], .next ⟨1⟩, .send, .write 7 true, .write 7 true,
    .send, .send, .send,
    .done ⟨1⟩, .write 7 true, .write 7 true, .write 7 true]

theorem exists_attachedRun : ∃ s : Sys, (machine shells 4096 false).Reach Calm s ∧
    (s.conns 7).attaches = [⟨⟨1⟩, 0, 0⟩] ∧
    (s.conns 7).wire = [.reply 1 (.ok (.snapshot ⟨⟨1⟩, [104, 105], 2, none, false, false⟩)),
      .output ⟨1⟩ 2 [106, 107, 108]] ∧
    ((s.conns 7).connected = true ∧ (s.conns 7).writer ≠ .gone ∧
      7 ∈ (s.sessions ⟨1⟩).state.views ∧ s.locks ⟨1⟩ = .free ∧ (s.conns 7).upcoming = [] ∧
      ⟨1⟩ ∉ (s.conns 7).queue.resync) ∧ s.printed ⟨1⟩ = [104, 105, 106, 107, 108] := by
  obtain ⟨s, hreach, hrun⟩ := (Machine.Reach.init ⟨fun _ => rfl, rfl⟩ :
      (machine shells 4096 false).Reach Calm
        ⟨fun t => Session.spawn (shells t) 4096 false, fun _ => .free, .free, fun _ => fresh,
          fun _ => []⟩).exists_of_exec attachedRun
    (fun s => decide ((s.conns 7).attaches = [⟨⟨1⟩, 0, 0⟩] ∧
      (s.conns 7).wire = [.reply 1 (.ok (.snapshot ⟨⟨1⟩, [104, 105], 2, none, false, false⟩)),
        .output ⟨1⟩ 2 [106, 107, 108]] ∧
      ((s.conns 7).connected = true ∧ (s.conns 7).writer ≠ .gone ∧
        7 ∈ (s.sessions ⟨1⟩).state.views ∧ s.locks ⟨1⟩ = .free ∧ (s.conns 7).upcoming = [] ∧
        ⟨1⟩ ∉ (s.conns 7).queue.resync) ∧ s.printed ⟨1⟩ = [104, 105, 106, 107, 108]))
    (by decide +kernel)
  exact ⟨s, hreach, of_decide_eq_true hrun⟩

/-- A host whose emulator keeps the bytes it has seen. -/
def keeping : Platform Bytes where
  newTerm _ _ := []
  advance seen bytes := (seen ++ bytes, [])
  queriedColour _ _ := ⟨0, 0, 0⟩
  localDirectory _ := none
  workingDirectory _ := none
  runningCommand _ := none
  isWithin _ _ := true
  isDir _ := true
  vars := []

theorem shows_of_calm_attached : ∃ s : Sys, s.printed ⟨1⟩ = [104, 105, 106, 107, 108] ∧
    ShowsLast keeping ⟨1⟩ (s.printed ⟨1⟩) (s.conns 7).wire
      ((s.conns 7).wire.foldl (receive keeping ⟨1⟩) (.new keeping ⟨1⟩ 100)) := by
  obtain ⟨s, hreach, hattaches, hwire, -, hprinted⟩ := exists_attachedRun
  refine ⟨s, hprinted, @shows_of_calm _ _ _ _ _ _ ⟨⟨1⟩, 0, 0⟩ [] _ _ _ keeping hreach ?_ hwire rfl
    (Nat.zero_le _) ?_ _⟩
  · rw [hattaches]
    exact List.mem_singleton_self _
  · rw [hwire]
    decide

theorem caught_up_of_calm_attached : ∃ s : Sys, s.printed ⟨1⟩ = [104, 105, 106, 107, 108] ∧
    ShowsLast keeping ⟨1⟩ (s.printed ⟨1⟩) (s.conns 7).wire
        ((s.conns 7).wire.foldl (receive keeping ⟨1⟩) (.new keeping ⟨1⟩ 100)) ∧
      ((s.conns 7).wire.foldl (receive keeping ⟨1⟩) (.new keeping ⟨1⟩ 100)).seenUntil =
        (s.printed ⟨1⟩).length := by
  obtain ⟨s, hreach, hattaches, hwire, ⟨hconnected, halive, hview, hlock, hidle, howed⟩,
    hprinted⟩ := exists_attachedRun
  refine ⟨s, hprinted, @caught_up_of_calm _ _ _ _ _ _ ⟨⟨1⟩, 0, 0⟩ [] _ _ _ keeping hreach ?_ hwire
    rfl (Nat.zero_le _) ?_ hconnected halive hview hlock hidle howed _⟩
  · rw [hattaches]
    exact List.mem_singleton_self _
  · rw [hwire]
    decide

/-! ## What the hub does with a frame -/

/-- What a view's screen is made of. -/
def screen (view : TerminalView E) : E × Nat := (view.term, view.seenUntil)

theorem screen_settleDirectory (view : TerminalView E) :
    view.settleDirectory.1.screen = view.screen := by
  rw [settleDirectory]
  split <;> rfl

end TerminalView

namespace TerminalHub

open TerminalView

variable {platform : Platform E} {hub : TerminalHub E} {panel : PanelId} {client : Option Client}

theorem screen_emulatorEvent (view : TerminalView E) (event : TermEvent) :
    (emulatorEvent platform view client event).1.screen = view.screen := by
  cases event <;> rfl

theorem screen_emulatorEvents (view : TerminalView E) :
    (emulatorEvents platform view client).1.screen = view.screen := by
  rw [emulatorEvents]
  generalize hacc : (({ view with events := [] }, client, []) :
    TerminalView E × Option Client × List HubEvent) = acc
  have hscreen : acc.1.screen = view.screen := by rw [← hacc]; rfl
  clear hacc
  induction view.events generalizing acc with
  | nil => exact hscreen
  | cons event events ih =>
      rw [List.foldl_cons]
      exact ih _ ((screen_emulatorEvent acc.1 event).trans hscreen)

theorem views_setView (view : TerminalView E) :
    (hub.setView panel view).views[panel]? = some view := by
  rw [setView]
  exact Std.ExtTreeMap.getElem?_insert_self

/-- An output changes the screen of its panel as `receive` says. -/
theorem screen_onOutput (offset : Nat) (data : Bytes) :
    ((hub.onDaemonEvent platform (.output panel.toTerminal offset data) client).1.views[panel]?).map
        screen =
      (hub.views[panel]?).map fun view =>
        (view.receive platform panel.toTerminal (.output panel.toTerminal offset data)).screen := by
  rw [onDaemonEvent]
  simp only [flush, onOutput, PanelId.toTerminal_toPanel]
  cases hview : hub.views[panel]? with
  | none => simp only [hview, Option.map_none]
  | some view =>
      simp only [views_setView, Option.map_some, screen_settleDirectory, screen_emulatorEvents]
      rw [receive, if_pos rfl]

/-- So does a snapshot that was asked for. -/
theorem screen_onReply {id : Nat} {kind : Pending} {snapshot : Snapshot}
    (hlisting : hub.listing ≠ some id) (hpending : hub.pending[id]? = some (panel, kind))
    (hterminal : snapshot.terminal = panel.toTerminal) (hrunning : snapshot.exited = none) :
    ((hub.onDaemonEvent platform (.reply id (.ok (.snapshot snapshot))) client).1.views[panel]?).map
        screen =
      (hub.views[panel]?).map fun view =>
        (view.receive platform panel.toTerminal (.reply id (.ok (.snapshot snapshot)))).screen := by
  rw [onDaemonEvent, onReply, if_neg hlisting, hpending]
  dsimp only
  cases hview : hub.views[panel]? with
  | none => simp only [hview, Option.map_none]
  | some view =>
      simp only [applyReply, hrunning, flush, views_setView, Option.map_some]
      rw [receive, if_pos hterminal]
      rfl

end TerminalHub

end Throng
