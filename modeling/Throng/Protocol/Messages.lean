import Throng.Core.Ids

/-!
# The wire protocol between the UI and its terminal daemon

One connection per client carries one ordered stream of messages in each
direction. Terminal output carries the byte offset of its first byte in the
session's lifetime stream, and an attach snapshot the offset where it ends, so a
client can drop whatever its snapshot already covers (`unseen`). Here a connection
is a list of messages; `Protocol/Frames` has the bytes.
-/

namespace Throng

/-- A byte string. -/
abbrev Bytes := List UInt8

/-- How a session's shell ended. -/
structure ExitStatus where
  code : Option Int
  userKilled : Bool
deriving DecidableEq, Repr

/-- A request id that asks for no reply. -/
def noReply : Nat := 0

/-- The refusal an attach gets when the daemon holds no session with that id. -/
def noSuchTerminal : String := "No such terminal."

/-- How to start a terminal. -/
structure SpawnSpec where
  terminal : TerminalId
  project : ProjectId
  label : String
  program : String
  args : List String
  cwd : String
  env : List (String × String)
  cols : Nat
  rows : Nat
  startupCommand : Option String
  admin : Bool
deriving DecidableEq, Repr

/-- Everything a client can ask. -/
inductive Request
  | spawn (spec : SpawnSpec)
  | attach (terminal : TerminalId) (cols rows : Nat)
  | detach (terminal : TerminalId)
  | write (terminal : TerminalId) (data : Bytes)
  | resize (terminal : TerminalId) (cols rows : Nat)
  | kill (terminal : TerminalId)
  | forget (terminal : TerminalId)
  | list
  | closeIdle (terminals : List TerminalId)
  | shutdown (killAll : Bool)
  | ping
deriving DecidableEq, Repr

/-- What a client needs to rebuild a view: the retained tail, the offset just
past its last byte, and how the session stands. -/
structure Snapshot where
  terminal : TerminalId
  tail : Bytes
  endOffset : Nat
  exited : Option ExitStatus
  altScreen : Bool
  elevated : Bool
deriving DecidableEq, Repr

/-- A session, as listed. -/
structure TerminalInfo where
  terminal : TerminalId
  project : ProjectId
  label : String
  pid : Option Nat
  busy : Bool
  exited : Option ExitStatus
  views : Nat
  elevated : Bool
deriving DecidableEq, Repr

/-- Successful answers. -/
inductive Reply
  | ok
  | snapshot (snapshot : Snapshot)
  | terminals (list : List TerminalInfo)
  | closed (terminals : List TerminalId)
  | pong
deriving DecidableEq, Repr

instance : DecidableEq (Except String Reply)
  | .ok a, .ok b => decidable_of_iff (a = b) (by simp)
  | .error a, .error b => decidable_of_iff (a = b) (by simp)
  | .ok _, .error _ => isFalse (by simp)
  | .error _, .ok _ => isFalse (by simp)

/-- Daemon to client. -/
inductive ServerMsg
  | welcome (protocol : Nat) (build : String) (pid : Nat)
  | reply (id : Nat) (result : Except String Reply)
  | output (terminal : TerminalId) (offset : Nat) (data : Bytes)
  | exited (terminal : TerminalId) (status : ExitStatus)
  | resync (terminal : TerminalId)
deriving DecidableEq

/-- The part of an output chunk a client has not seen, given the offset its
snapshot ended at. -/
def unseen (offset : Nat) (data : Bytes) (seenUntil : Nat) : Bytes :=
  let «end» := offset + data.length
  if «end» ≤ seenUntil then []
  else if offset ≥ seenUntil then data
  else data.drop (seenUntil - offset)

end Throng
