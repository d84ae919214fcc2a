import Throng.App.Hub

/-!
# What the hub says to the daemon

Everything a hub function says to the daemon, it says in one of two ways: a request
nobody waits for, or a request about a panel that is entered in the pending map
under its number. `Talk` is the record of such a conversation, seen from what the
hub keeps to match the answers: the pending map, the listing id and the killed
panels. Only `kill`, `poll_directories` and a reply do more than talk.
-/

namespace Throng

open Daemon (Client ClientEvent)

namespace Request

/-- The panel and the kind of a request whose reply is matched with a panel. -/
def asks : Request → Option (PanelId × Pending)
  | .attach terminal _ _ => some (terminal.toPanel, .attach)
  | .spawn spec => some (spec.terminal.toPanel, .spawn)
  | _ => none

/-- The terminal a request ends. -/
def kills : Request → Option TerminalId
  | .kill terminal => some terminal
  | _ => none

end Request

namespace TerminalHub

/-- What the hub keeps to match the daemon's messages with what it said itself. -/
structure Books where
  pending : Std.ExtTreeMap Nat (PanelId × Pending)
  listing : Option Nat
  killed : Std.ExtTreeSet PanelId

variable {E : Type}

def books (hub : TerminalHub E) : Books := ⟨hub.pending, hub.listing, hub.killed⟩

/-- The hub posts requests that neither ask nor kill, and asks requests whose
number it enters in the pending map. -/
inductive Talk (b : Books) (client : Option Client) : Books → Option Client → Prop
  | silent : Talk b client b client
  | post {b' : Books} {c : Client} {request : Request} (before : Talk b client b' (some c))
      (asks : request.asks = none) (kills : request.kills = none) :
      Talk b client b' (some (c.post request))
  | ask {b' : Books} {c : Client} {request : Request} {panel : PanelId} {kind : Pending}
      (before : Talk b client b' (some c)) (asks : request.asks = some (panel, kind)) :
      Talk b client { b' with pending := b'.pending.insert c.nextId (panel, kind) }
        (some (c.send request).2)

namespace Talk

variable {b b' b'' : Books} {client client' client'' : Option Client}

theorem trans (h : Talk b client b' client') (h' : Talk b' client' b'' client'') :
    Talk b client b'' client'' := by
  induction h' with
  | silent => exact h
  | post _ hasks hkills ih => exact .post ih hasks hkills
  | ask _ hasks ih => exact .ask ih hasks

/-- Without a connection nothing is said. -/
theorem eq_of_none (h : Talk b client b' client') (hnone : client = none) :
    b' = b ∧ client' = none := by
  induction h with
  | silent => exact ⟨rfl, hnone⟩
  | post _ _ _ ih => cases ih.2
  | ask _ _ ih => cases ih.2

/-- A conversation keeps the listing id and the killed panels. -/
theorem keeps (h : Talk b client b' client') : b'.listing = b.listing ∧ b'.killed = b.killed := by
  induction h with
  | silent => exact ⟨rfl, rfl⟩
  | post _ _ _ ih => exact ih
  | ask _ _ ih => exact ih

end Talk

section calls

variable (platform : Platform E) (hub : TerminalHub E) (panel : PanelId)

@[simp] theorem books_setView (view : TerminalView E) :
    (hub.setView panel view).books = hub.books :=
  rfl

theorem talk_post (client : Option Client) {request : Request} (hasks : request.asks = none)
    (hkills : request.kills = none) :
    Talk hub.books client hub.books (client.map fun connection => connection.post request) := by
  cases client with
  | none => exact .silent
  | some connection => exact .post .silent hasks hkills

theorem talk_ask (view : TerminalView E) (client : Client) {kind : Pending} {request : Request}
    (hasks : request.asks = some (panel, kind)) :
    Talk hub.books (some client) (hub.ask panel view kind request client).1.books
      (some (hub.ask panel view kind request client).2) :=
  .ask .silent hasks

theorem talk_connect (client : Option Client) :
    Talk hub.books client (hub.connect panel client).1.books (hub.connect panel client).2 := by
  unfold connect
  split
  · exact .silent
  · split
    · split
      · exact talk_ask hub panel _ _ rfl
      · exact .silent
    · exact .silent

theorem talk_forgetView (client : Option Client) :
    Talk hub.books client (hub.forgetView panel client).1.books
      (hub.forgetView panel client).2 := by
  unfold forgetView
  dsimp only
  split
  · exact talk_post hub client rfl rfl
  · exact .silent

theorem talk_spawn {b : Books} (hb : hub.books = b) (client : Client) :
    Talk b (some client) (hub.spawn platform panel client).1.books
      (some (hub.spawn platform panel client).2) := by
  subst hb
  unfold spawn
  split
  · exact .silent
  · split
    · exact .silent
    · dsimp only
      split
      · exact .silent
      · split
        · exact .silent
        · exact .ask .silent rfl

/-- Neither the dormant mark nor a view is in the books. -/
theorem books_awaitShell : (hub.awaitShell panel).books = hub.books := by
  unfold awaitShell
  dsimp only
  split <;> rfl

theorem talk_restart (client : Option Client) :
    Talk hub.books client (hub.restart platform panel client).1.books
      (hub.restart platform panel client).2 := by
  rw [← books_awaitShell hub panel]
  unfold restart
  cases client with
  | none => exact .silent
  | some connection =>
      have hpost : Talk (hub.awaitShell panel).books (some connection) (hub.awaitShell panel).books
          (some (connection.post (.forget panel.toTerminal))) := .post .silent rfl rfl
      exact hpost.trans (talk_spawn platform _ panel rfl _)

/-- A poll that is sent enters its number as the listing id. -/
theorem pollDirectories_cases (now : Nat) (client : Option Client) :
    (∃ connection, client = some connection ∧ hub.listing = none ∧
      (hub.pollDirectories now client).1.books =
        { hub.books with listing := some connection.nextId } ∧
      (hub.pollDirectories now client).2.1 = some (connection.send .list).2) ∨
    ((hub.pollDirectories now client).1.books = hub.books ∧
      (hub.pollDirectories now client).2.1 = client) := by
  unfold pollDirectories
  cases hclient : client.filter fun _ => hub.running with
  | none => exact .inr ⟨rfl, rfl⟩
  | some connection =>
      have hconnection := (Option.filter_eq_some_iff.mp hclient).1
      by_cases hdue : hub.listing = none ∧ hub.due now
      · left
        refine ⟨connection, hconnection, hdue.1, ?_, ?_⟩ <;> simp [hdue, books, Client.send]
      · right
        simp [hdue]

end calls

section events

variable (platform : Platform E)

theorem talk_write (b : Books) (connection : Client) (terminal : TerminalId) (data : Bytes) :
    Talk b (some connection) b (some (connection.write terminal data)) := by
  unfold Client.write
  generalize data.toChunks Client.writeChunk = chunks
  induction chunks generalizing connection with
  | nil => exact .silent
  | cons chunk chunks ih => exact Talk.trans (.post .silent rfl rfl) (ih _)

theorem talk_emulatorEvent (b : Books) (view : TerminalView E) (client : Option Client)
    (event : TermEvent) : Talk b client b (emulatorEvent platform view client event).2.1 := by
  have hanswer : ∀ text, Talk b client b (emulatorEvent.answer view client text) := by
    intro text
    cases client with
    | none => exact .silent
    | some connection => exact talk_write b connection _ _
  cases event with
  | reply | colorQuery | sizeQuery => exact hanswer _
  | title | resetTitle | clipboard | bell => exact .silent

theorem talk_emulatorEvents (b : Books) (view : TerminalView E) (client : Option Client) :
    Talk b client b (emulatorEvents platform view client).2.1 := by
  unfold emulatorEvents
  generalize ({ view with events := [] } : TerminalView E) = shown
  generalize ([] : List HubEvent) = out
  induction view.events generalizing shown client out with
  | nil => exact .silent
  | cons event events ih =>
      exact (talk_emulatorEvent platform b shown client event).trans (ih _ _ _)

variable (hub : TerminalHub E) (panel : PanelId)

theorem talk_onOutput (offset : Nat) (data : Bytes) (client : Option Client) :
    Talk hub.books client (hub.onOutput platform panel offset data client).1.books
      (hub.onOutput platform panel offset data client).2.1 := by
  unfold onOutput
  split
  · exact .silent
  · exact talk_emulatorEvents platform hub.books _ client

theorem talk_exited {b : Books} (hb : hub.books = b) (status : ExitStatus)
    (client : Option Client) :
    Talk b client (hub.exited panel status client).1.books
      (hub.exited panel status client).2.1 := by
  subst hb
  unfold exited
  split
  · exact .silent
  · dsimp only
    split
    · exact .silent
    · exact talk_post hub client rfl rfl

theorem talk_onResync (client : Option Client) :
    Talk hub.books client (hub.onResync panel client).1.books (hub.onResync panel client).2.1 := by
  unfold onResync
  split
  · exact talk_ask hub panel _ _ rfl
  · exact .silent

theorem books_onInfo (remembering : Bool) (info : TerminalInfo) :
    (hub.onInfo platform remembering info).1.books = hub.books := by
  unfold onInfo
  dsimp only
  split <;> rfl

theorem books_onList (list : List TerminalInfo) :
    (hub.onList platform list).1.books = hub.books := by
  unfold onList
  dsimp only
  generalize hub.plans.toList.any _ = remembering
  generalize ([] : List HubEvent) = out
  induction list generalizing hub out with
  | nil => rfl
  | cons info list ih =>
      rw [List.foldl_cons, ih, books_onInfo]

theorem talk_applyReply (view : TerminalView E) (kind : Pending) (result : Except String Reply)
    (client : Option Client) :
    Talk hub.books client (hub.applyReply platform panel view kind result client).1.books
      (hub.applyReply platform panel view kind result client).2.1 := by
  unfold applyReply
  dsimp only
  split
  · split
    · apply talk_exited
      rfl
    · exact .silent
  · split
    · split
      · exact .silent
      · split
        · apply talk_spawn
          rfl
        · exact .silent
    · exact .silent
  · exact .silent

@[simp] theorem flush_books (outcome : Outcome E) : (flush outcome).1.books = outcome.1.books := rfl

@[simp] theorem flush_client (outcome : Outcome E) : (flush outcome).2.1 = outcome.2.1 := rfl

/-- What a reply does: one to the listing request clears the listing id, one to a
pending request is taken from the pending map and talked about, any other one is
ignored. -/
theorem onReply_cases (id : Nat) (result : Except String Reply) (client : Option Client) :
    (hub.listing = some id ∧
      (hub.onReply platform id result client).1.books = { hub.books with listing := none } ∧
      (hub.onReply platform id result client).2.1 = client) ∨
    (hub.listing ≠ some id ∧
      Talk { hub.books with pending := hub.pending.erase id } client
        (hub.onReply platform id result client).1.books
        (hub.onReply platform id result client).2.1) := by
  unfold onReply
  by_cases hlisting : hub.listing = some id
  · left
    rw [if_pos hlisting]
    dsimp only
    split
    · exact ⟨hlisting, by rw [flush_books, books_onList]; rfl, rfl⟩
    · exact ⟨hlisting, rfl, rfl⟩
  · right
    refine ⟨hlisting, ?_⟩
    rw [if_neg hlisting]
    cases hpending : hub.pending[id]? with
    | none =>
        have herase : hub.pending.erase id = hub.pending := by
          apply Std.ExtTreeMap.ext_getElem?
          intro k
          rw [Std.ExtTreeMap.getElem?_erase]
          grind
        rw [herase]
        exact .silent
    | some entry =>
        obtain ⟨panel, kind⟩ := entry
        dsimp only
        split
        · exact .silent
        · exact talk_applyReply platform { hub with pending := hub.pending.erase id } panel _ _ _ _

end events

end TerminalHub

end Throng
