import Throng.Daemon.Session

/-!
# Connected clients and the queues that feed them

Each client has one outgoing queue, drained by its own writer thread. A client that is too far
behind gets no more output, and is owed a resync of the terminal once it has caught up.
-/

namespace Throng.Daemon

/-- How far behind a client may fall before its output is dropped in favour of a resync. -/
def maxQueuedBytes : Nat := 32 * 1024 * 1024

/-- One client's outgoing side. -/
structure ClientQueue where
  /-- What stands in the channel. -/
  rx : List ServerMsg
  queued : Nat
  /-- Terminals owed a resync. -/
  resync : List TerminalId
deriving DecidableEq

namespace ClientQueue

def new : ClientQueue := ⟨[], 0, []⟩

def sizeOf : ServerMsg → Nat
  | .output _ _ data => data.length
  | .reply _ (.ok (.snapshot s)) => s.tail.length
  | _ => 64

def count (queue : ClientQueue) (message : ServerMsg) : ClientQueue :=
  { queue with queued := queue.queued + sizeOf message }

def push (queue : ClientQueue) (message : ServerMsg) : ClientQueue :=
  { queue with rx := queue.rx ++ [message] }

def send (queue : ClientQueue) (message : ServerMsg) : ClientQueue :=
  (queue.count message).push message

def owe (queue : ClientQueue) (terminal : TerminalId) : ClientQueue :=
  { queue with
    resync := if terminal ∈ queue.resync then queue.resync else queue.resync ++ [terminal] }

/-- The client is too far behind for the output, or was before and is owed a resync. -/
def behind (queue : ClientQueue) (terminal : TerminalId) (data : Bytes) : Bool :=
  queue.resync.contains terminal || maxQueuedBytes < queue.queued + data.length

/-- Queue output, or mark the terminal for resync. -/
def sendOutput (queue : ClientQueue) (terminal : TerminalId) (offset : Nat) (data : Bytes) :
    ClientQueue :=
  if queue.behind terminal data then queue.owe terminal
  else queue.send (.output terminal offset data)

/-- The writer thread takes the next message. -/
def receive (queue : ClientQueue) : Option (ServerMsg × ClientQueue) :=
  match queue.rx with
  | [] => none
  | message :: rx => some (message, { queue with rx })

/-- The writer thread has written a message. -/
def written (queue : ClientQueue) (message : ServerMsg) : ClientQueue :=
  { queue with queued := queue.queued - sizeOf message }

/-- Terminals owed a resync, once the queue has drained. -/
def takeResyncs (queue : ClientQueue) : List TerminalId × ClientQueue :=
  if queue.queued > maxQueuedBytes / 2 then ([], queue)
  else (queue.resync, { queue with resync := [] })

end ClientQueue

/-- Every connected client. -/
structure Registry where
  clients : Std.ExtTreeMap ClientId ClientQueue
  next : Nat

namespace Registry

def empty : Registry := ⟨∅, 0⟩

/-- Register a client. -/
def add (registry : Registry) : ClientId × Registry :=
  (registry.next + 1,
    ⟨registry.clients.insert (registry.next + 1) .new, registry.next + 1⟩)

def remove (registry : Registry) (client : ClientId) : Registry :=
  { registry with clients := registry.clients.erase client }

/-- Do something to a client's queue, if it is connected. -/
def modify (registry : Registry) (client : ClientId) (f : ClientQueue → ClientQueue) : Registry :=
  { registry with clients := registry.clients.modify client f }

/-- Queue a control message (never dropped). -/
def send (registry : Registry) (client : ClientId) (message : ServerMsg) : Registry :=
  registry.modify client fun queue => queue.send message

/-- Queue output, or mark the terminal for resync if the client is too far behind. -/
def sendOutput (registry : Registry) (client : ClientId) (terminal : TerminalId) (offset : Nat)
    (data : Bytes) : Registry :=
  registry.modify client fun queue => queue.sendOutput terminal offset data

/-- What a control message to each of the clients comes to. -/
def sendAll (registry : Registry) (sends : Session.Sends) : Registry :=
  sends.foldl (fun registry send => registry.send send.1 send.2) registry

end Registry

end Throng.Daemon
