import Mathlib.Logic.Function.Basic
import Throng.Daemon.Registry
import Throng.Lib.Machine

/-!
# Output on its way to the clients

Output, snapshots and resyncs go through three places: a session's lock, the queue of a client
and its set of resyncs owed, and the client's writer thread. Each step below is one access to what
threads share: the lock of a session and that of the registry are held over several steps, and the
writer thread may go on between any two of them.

What a terminal has printed and what a client's connection has carried are kept beside the state,
and so is where a connection stood when an attach was handled and when output was dropped.
-/

namespace Throng.Daemon.Wire

/-- Where a client's writer thread is. -/
inductive Writer
  | receiving
  | writing (message : ServerMsg)
  /-- A message is written, and not yet taken off the bytes queued. -/
  | counting (message : ServerMsg)
  /-- Is the channel empty? -/
  | checking
  /-- `take_resyncs` is about to look at the bytes queued. -/
  | loading
  /-- `take_resyncs` is about to take the set. -/
  | draining
  | resyncing (left : List TerminalId)
  | gone
deriving DecidableEq

/-- An attach, with how many frames had been written and how many messages queued by then. -/
structure Attach where
  terminal : TerminalId
  written : Nat
  queued : Nat
deriving DecidableEq

/-- Output that was dropped, with how many frames had been written by then. -/
structure Drop where
  terminal : TerminalId
  written : Nat

/-- A client's connection. -/
structure Conn where
  queue : ClientQueue
  /-- The registry knows the client. -/
  connected : Bool
  writer : Writer
  /-- The frames written so far. -/
  wire : List ServerMsg
  attaches : List Attach
  drops : List Drop

/-- Who holds a session's lock. -/
inductive Lock
  | free
  /-- A chunk is retained and goes to the views that are left. -/
  | pumping (offset : Nat) (chunk : Bytes) (left : List ClientId)
  /-- A view is attached and its snapshot is to be sent. -/
  | replying (client : ClientId) (message : ServerMsg)
deriving DecidableEq

/-- How far `send_output` is. -/
inductive Stage
  | check
  | load (pending : Bool)
  | owe
  | count
  | push
deriving DecidableEq

/-- Who holds the registry's lock. -/
inductive Sender
  | free
  | output (terminal : TerminalId) (stage : Stage)
  | reply (terminal : TerminalId) (counted : Bool)
  | control (client : ClientId) (message : ServerMsg) (counted : Bool)

structure Sys where
  sessions : TerminalId → Session
  locks : TerminalId → Lock
  sender : Sender
  conns : ClientId → Conn
  /-- All that the terminals have printed. -/
  printed : TerminalId → Bytes

inductive Act
  /-- The views are served in the order in which the map happens to list them. -/
  | pump (terminal : TerminalId) (chunk : Bytes) (order : List ClientId)
  | next (terminal : TerminalId)
  | done (terminal : TerminalId)
  | attach (terminal : TerminalId) (client : ClientId) (replyId cols rows : Nat)
  | reply (terminal : TerminalId)
  | detach (terminal : TerminalId) (client : ClientId)
  | control (client : ClientId) (message : ServerMsg)
  | send
  | remove (client : ClientId)
  | write (client : ClientId) (ok : Bool)
  | drain (client : ClientId) (order : List TerminalId)

/-! ## Frames -/

/-- Where an output or an attach snapshot of the terminal ends. -/
def stop (terminal : TerminalId) : ServerMsg → Option Nat
  | .output t offset data => if t = terminal then some (offset + data.length) else none
  | .reply _ (.ok (.snapshot s)) => if s.terminal = terminal then some s.endOffset else none
  | _ => none

def isOutput (terminal : TerminalId) : ServerMsg → Bool
  | .output t _ _ => t = terminal
  | _ => false

def isResync : ServerMsg → Bool
  | .resync _ => true
  | _ => false

/-- Any other message: nothing of a session's output. -/
def isControl : ServerMsg → Bool
  | .output _ _ _ => false
  | .resync _ => false
  | .reply _ (.ok (.snapshot _)) => false
  | _ => true

/-- Where the last output or attach snapshot of the terminal ends. -/
def last (terminal : TerminalId) (frames : List ServerMsg) : Option Nat :=
  (frames.filterMap (stop terminal)).getLast?

/-- How many of the frames came through the queue. -/
def messages (frames : List ServerMsg) : Nat := frames.countP fun frame => !isResync frame

namespace Conn

variable (conn : Conn)

/-- The resyncs that the writer thread has taken and not written yet. -/
def taken : List ServerMsg :=
  match conn.writer with
  | .resyncing left => left.map .resync
  | _ => []

/-- What is written next, in order. -/
def upcoming : List ServerMsg :=
  match conn.writer with
  | .writing message => message :: conn.queue.rx
  | .resyncing left => left.map .resync ++ conn.queue.rx
  | .gone => []
  | _ => conn.queue.rx

def frames : List ServerMsg := conn.wire ++ conn.upcoming

/-- The writer thread goes on by a step. -/
def write (ok : Bool) : Option Conn :=
  match conn.writer with
  | .receiving =>
      match conn.queue.rx with
      -- the wait has timed out, and the connection may have been closed
      | [] => some { conn with writer := if ok then .loading else .gone }
      | message :: rx =>
          some { conn with queue := { conn.queue with rx }, writer := .writing message }
  | .writing message =>
      if ok then some { conn with writer := .counting message, wire := conn.wire ++ [message] }
      else some { conn with writer := .gone }
  | .counting message =>
      some { conn with queue := conn.queue.written message, writer := .checking }
  | .checking =>
      some { conn with writer := if conn.queue.rx = [] then .loading else .receiving }
  | .loading =>
      some { conn with
        writer := if conn.queue.queued > maxQueuedBytes / 2 then .receiving else .draining }
  | .draining => none
  | .resyncing [] => some { conn with writer := .receiving }
  | .resyncing (terminal :: left) =>
      if ok then
        some { conn with writer := .resyncing left, wire := conn.wire ++ [.resync terminal] }
      else some { conn with writer := .gone }
  | .gone => none

/-- The set is taken, in whatever order. -/
def drain (order : List TerminalId) : Option Conn :=
  if conn.writer = .draining ∧ order.Perm conn.queue.resync then
    some { conn with queue := { conn.queue with resync := [] }, writer := .resyncing order }
  else none

def attach (terminal : TerminalId) : Conn :=
  { conn with
    attaches := conn.attaches ++ [⟨terminal, conn.wire.length, messages conn.frames⟩] }

def count (message : ServerMsg) : Conn := { conn with queue := conn.queue.count message }

def push (message : ServerMsg) : Conn := { conn with queue := conn.queue.push message }

def owe (terminal : TerminalId) : Conn :=
  { conn with
    queue := conn.queue.owe terminal
    drops := conn.drops ++ [⟨terminal, conn.wire.length⟩] }

end Conn

/-! ## Steps -/

/-- The largest piece that is read from a PTY at once. -/
def readBytes : Nat := 64 * 1024

namespace Sys

variable (s : Sys)

def setConn (client : ClientId) (conn : Conn) : Sys :=
  { s with conns := Function.update s.conns client conn }

def setLock (terminal : TerminalId) (lock : Lock) : Sys :=
  { s with locks := Function.update s.locks terminal lock }

def setSession (terminal : TerminalId) (session : Session) : Sys :=
  { s with sessions := Function.update s.sessions terminal session }

def print (terminal : TerminalId) (chunk : Bytes) : Sys :=
  { s with printed := Function.update s.printed terminal (s.printed terminal ++ chunk) }

/-- The holder of the registry's lock goes on by a step. -/
def send : Option Sys :=
  match s.sender with
  | .free => none
  | .output terminal stage =>
      match s.locks terminal with
      | .pumping offset chunk (client :: left) =>
          let conn := s.conns client
          let message := .output terminal offset chunk
          match stage with
          | .check =>
              some { s with
                sender := .output terminal (.load (conn.queue.resync.contains terminal)) }
          | .load pending =>
              if pending || maxQueuedBytes < conn.queue.queued + chunk.length then
                some { s with sender := .output terminal .owe }
              else some { s with sender := .output terminal .count }
          | .owe =>
              some { (s.setConn client (conn.owe terminal)).setLock terminal
                (.pumping offset chunk left) with sender := .free }
          | .count =>
              some { s.setConn client (conn.count message) with sender := .output terminal .push }
          | .push =>
              some { (s.setConn client (conn.push message)).setLock terminal
                (.pumping offset chunk left) with sender := .free }
      | _ => none
  | .reply terminal counted =>
      match s.locks terminal with
      | .replying client message =>
          let conn := s.conns client
          if counted then
            some { (s.setConn client (conn.push message)).setLock terminal .free with
              sender := .free }
          else
            some { s.setConn client (conn.count message) with sender := .reply terminal true }
      | _ => none
  | .control client message counted =>
      let conn := s.conns client
      if counted then some { s.setConn client (conn.push message) with sender := .free }
      else
        some { s.setConn client (conn.count message) with sender := .control client message true }

end Sys

def step (s : Sys) : Act → Option Sys
  | .pump terminal chunk order =>
      match s.locks terminal with
      | .free =>
          let session := s.sessions terminal
          if chunk ≠ [] ∧ chunk.length ≤ readBytes ∧ order.Perm session.state.views.keys then
            some (((s.setSession terminal (session.pumpOutput chunk)).setLock terminal
              (.pumping session.state.endOffset chunk order)).print terminal chunk)
          else none
      | _ => none
  | .next terminal =>
      match s.sender, s.locks terminal with
      | .free, .pumping offset chunk (client :: left) =>
          if (s.conns client).connected then some { s with sender := .output terminal .check }
          else some (s.setLock terminal (.pumping offset chunk left))
      | _, _ => none
  | .done terminal =>
      match s.locks terminal with
      | .pumping _ _ [] => some (s.setLock terminal .free)
      | _ => none
  | .attach terminal client replyId cols rows =>
      match s.locks terminal with
      | .free =>
          let attached := (s.sessions terminal).attach client replyId cols rows
          some (((s.setSession terminal attached.1).setConn client
            ((s.conns client).attach terminal)).setLock terminal
              (.replying client (.reply replyId (.ok (.snapshot attached.2.1)))))
      | _ => none
  | .reply terminal =>
      match s.sender, s.locks terminal with
      | .free, .replying client _ =>
          if (s.conns client).connected then some { s with sender := .reply terminal false }
          else some (s.setLock terminal .free)
      | _, _ => none
  | .detach terminal client =>
      match s.locks terminal with
      | .free => some (s.setSession terminal ((s.sessions terminal).detach client))
      | _ => none
  | .control client message =>
      match s.sender with
      | .free =>
          if isControl message ∧ (s.conns client).connected then
            some { s with sender := .control client message false }
          else none
      | _ => none
  | .send => s.send
  | .remove client =>
      match s.sender with
      | .free => some (s.setConn client { s.conns client with connected := false })
      | _ => none
  | .write client ok => ((s.conns client).write ok).map (s.setConn client)
  | .drain client order => ((s.conns client).drain order).map (s.setConn client)

/-- A connection that has just been made. -/
def fresh : Conn := ⟨.new, true, .receiving, [], [], []⟩

/-- Sessions that have just been started, without views. -/
def machine (specs : TerminalId → SpawnSpec) (tailBytes : Nat) (elevated : Bool) :
    Machine Sys Act where
  init s := (∀ terminal, (specs terminal).terminal = terminal) ∧
    s = ⟨fun terminal => Session.spawn (specs terminal) tailBytes elevated, fun _ => .free, .free,
      fun _ => fresh, fun _ => []⟩
  step := step

/-! ## What is to hold -/

/-- The law of a client's wire for a terminal. -/
structure Lawful (conn : Conn) (terminal : TerminalId) : Prop where
  /-- Nothing is delivered twice. -/
  once : ∀ before offset data after, conn.wire = before ++ .output terminal offset data :: after →
    ∀ frame ∈ before, ∀ n, stop terminal frame = some n → n ≤ offset
  /-- Where something is missing a resync has been written since the last output. -/
  resynced : ∀ before offset data after,
    conn.wire = before ++ .output terminal offset data :: after →
      ∃ n, last terminal before = some n ∧ (n ≠ offset →
        ∃ front back, before = front ++ .resync terminal :: back ∧
          ∀ frame ∈ back, isOutput terminal frame = false)
  /-- Behind an attach nothing is missing as long as no resync is written. -/
  attached : ∀ attach ∈ conn.attaches, attach.terminal = terminal →
    ∀ before offset data after, conn.wire = before ++ .output terminal offset data :: after →
      attach.queued ≤ messages before →
      (∀ frame ∈ before.drop attach.written, frame ≠ .resync terminal) →
      last terminal before = some offset
  /-- Once output is dropped a resync is owed, or taken to be written before what is queued. -/
  owed : conn.writer ≠ .gone → ∀ drop ∈ conn.drops, drop.terminal = terminal →
    terminal ∈ conn.queue.resync ∨
      ∃ front back, conn.wire ++ conn.taken = front ++ .resync terminal :: back ∧
        drop.written ≤ front.length

/-- No output is found too much for a client while its writer thread stands between its look at
the bytes queued and taking the resyncs. -/
def Calm (s : Sys) : Act → Prop
  | .send => ∀ terminal offset chunk client left, s.sender = .output terminal (.load false) →
      s.locks terminal = .pumping offset chunk (client :: left) →
      maxQueuedBytes < (s.conns client).queue.queued + chunk.length →
      (s.conns client).writer ≠ .draining
  | _ => True

/-- Whether the holder of the registry's lock is about to find output too much for a client whose
writer thread is about to take the resyncs. -/
def Sys.rushes (s : Sys) : Bool :=
  match s.sender with
  | .output terminal (.load false) =>
      match s.locks terminal with
      | .pumping _ chunk (client :: _) =>
          decide (maxQueuedBytes < (s.conns client).queue.queued + chunk.length) &&
            decide ((s.conns client).writer = .draining)
      | _ => false
  | _ => false

theorem calm_send_iff (s : Sys) : Calm s .send ↔ s.rushes = false := by
  rw [Calm, Sys.rushes]
  constructor
  · intro h
    split
    · next terminal hsender =>
        split
        · next chunk client left hlock =>
            by_cases hover : maxQueuedBytes < (s.conns client).queue.queued + chunk.length
            · rw [decide_eq_true hover, Bool.true_and]
              exact decide_eq_false (h _ _ _ _ _ hsender hlock hover)
            · rw [decide_eq_false hover, Bool.false_and]
        · rfl
    · rfl
  · intro h terminal offset chunk client left hsender hlock hover hwriter
    rw [hsender] at h
    dsimp only at h
    rw [hlock] at h
    dsimp only at h
    rw [decide_eq_true hover, decide_eq_true hwriter] at h
    cases h

instance : DecidableRel Calm := fun s a =>
  match a with
  | .send => decidable_of_iff _ (calm_send_iff s).symm
  | .pump .. | .next _ | .done _ | .attach .. | .reply _ | .detach .. | .control .. | .remove _
  | .write .. | .drain .. => isTrue trivial

end Throng.Daemon.Wire
