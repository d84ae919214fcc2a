import Mathlib.Data.List.Basic
import Throng.Protocol.Messages

/-!
# The client side of a connection

A client numbers the requests it wants answered from one, each connection anew,
and the daemon's answers come back under those numbers. A request may be waited
for, in which case its answer goes to the waiter and is not reported as an event,
unless the waiter has given up by then. Requests leave in the order they were made;
what has left is the outgoing queue here until the daemon takes it from there.
-/

namespace Throng.Daemon

/-- Something the daemon told us. -/
inductive ClientEvent
  | output (terminal : TerminalId) (offset : Nat) (data : Bytes)
  | exited (terminal : TerminalId) (status : ExitStatus)
  | resync (terminal : TerminalId)
  | reply (id : Nat) (result : Except String Reply)
  | disconnected (reason : String)

/-- A connection as its client holds it. -/
structure Client where
  nextId : Nat
  outgoing : List (Nat × Request)
  waiters : List Nat
deriving DecidableEq

namespace Client

/-- A connection that has just been made. -/
def connected : Client := ⟨1, [], []⟩

variable (client : Client)

/-- Send a request whose answer arrives later as an event. -/
def send (request : Request) : Nat × Client :=
  (client.nextId,
    { client with
      nextId := client.nextId + 1
      outgoing := client.outgoing ++ [(client.nextId, request)] })

/-- Send a request that needs no answer. -/
def post (request : Request) : Client :=
  { client with outgoing := client.outgoing ++ [(noReply, request)] }

/-- Writes larger than this are split by the sender. -/
def writeChunk : Nat := 64 * 1024

/-- Send input, split so no frame is ever too large. -/
def write (terminal : TerminalId) (data : Bytes) : Client :=
  (data.toChunks writeChunk).foldl (fun client chunk => client.post (.write terminal chunk)) client

/-- `Client::request` up to its wait: the waiter is entered, then the request goes. -/
def request (request : Request) : Client :=
  { nextId := client.nextId + 1
    outgoing := client.outgoing ++ [(client.nextId, request)]
    waiters := client.nextId :: client.waiters }

/-- A wait has timed out. -/
def giveUp (id : Nat) : Client := { client with waiters := client.waiters.erase id }

/-- What the reader makes of a message: a reply somebody waits for is handed over
to the waiter. -/
def receive : ServerMsg → Client × Option ClientEvent
  | .output terminal offset data => (client, some (.output terminal offset data))
  | .exited terminal status => (client, some (.exited terminal status))
  | .resync terminal => (client, some (.resync terminal))
  | .reply id result =>
      if id ∈ client.waiters then ({ client with waiters := client.waiters.erase id }, none)
      else (client, some (.reply id result))
  | .welcome _ _ _ => (client, none)

@[simp] theorem send_fst (request : Request) : (client.send request).1 = client.nextId := rfl

@[simp] theorem send_outgoing (request : Request) :
    (client.send request).2.outgoing = client.outgoing ++ [(client.nextId, request)] := rfl

@[simp] theorem post_outgoing (request : Request) :
    (client.post request).outgoing = client.outgoing ++ [(noReply, request)] := rfl

end Client

end Throng.Daemon
