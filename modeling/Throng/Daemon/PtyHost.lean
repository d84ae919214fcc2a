import Mathlib.Algebra.GroupWithZero.Nat
import Throng.Daemon.Session
import Throng.Lib.Machine

/-!
# A terminal in a process of its own

A host owns one terminal's PTY and shell and relays them over its input and output. On its side
are three threads: one reads what the terminal prints, one carries out what the daemon asks, and
the main one waits for the shell. On the daemon's side one thread reads the pipe and queues the
output for the session. A step below is one access to a pipe, a channel or the PTY; frames go
through the pipes whole, and what a process that ended has sent is still read. A write to the PTY
takes as long as the terminal takes no input, and whoever writes waits for it.
-/

namespace Throng.Daemon.PtyHost

/-- What a host starts. -/
structure Start where
  program : String
  args : List String
  cwd : String
  env : List (String × String)
  cols : Nat
  rows : Nat
deriving DecidableEq, Repr

def size (cols rows : Nat) : PtySize := ⟨max cols 1, max rows 1⟩

def Start.size (start : Start) : PtySize := PtyHost.size start.cols start.rows

/-- How a shell ended, as the system reports it. -/
inductive ShellStatus
  | exitCode (code : UInt32)
  | signal (name : String)
deriving DecidableEq, Repr

namespace ShellStatus

/-- `exit_code`: one for a shell that a signal ended. -/
def code : ShellStatus → UInt32
  | .exitCode code => code
  | .signal _ => 1

/-- `signal`. -/
def signalName : ShellStatus → Option String
  | .exitCode _ => none
  | .signal name => some name

end ShellStatus

/-- Daemon → host. -/
inductive ToHost
  | start (start : Start)
  | input (data : Bytes)
  | resize (cols rows : Nat)
  | kill
deriving DecidableEq, Repr

/-- Host → daemon. -/
inductive FromHost
  | started (pid : Option UInt32)
  | failed (reason : String)
  | output (data : Bytes)
  | exited (code : UInt32) (signal : Option String)
deriving DecidableEq, Repr

/-- What the daemon makes of an exit. -/
def statusOf (code : UInt32) : Option String → ShellStatus
  | none => .exitCode code
  | some signal => .signal signal

/-! ## The daemon's reader -/

/-- The host's output, as the bytes a PTY would give. -/
structure OutputReader where
  output : List Bytes
  chunk : Bytes
  pos : Nat
deriving DecidableEq, Repr

namespace OutputReader

/-- What it holds that was not read yet. -/
def rest (reader : OutputReader) : Bytes := reader.chunk.drop reader.pos ++ reader.output.flatten

def readChunks (closed : Bool) (room : Nat) :
    List Bytes → Bytes → Nat → Option (Bytes × OutputReader)
  | output, chunk, pos =>
      if pos = chunk.length then
        match output with
        | [] => if closed then some ([], ⟨[], chunk, pos⟩) else none
        | next :: output => readChunks closed room output next 0
      else
        let n := min room (chunk.length - pos)
        some ((chunk.drop pos).take n, ⟨output, chunk, pos + n⟩)

/-- `read` into a buffer with `room`. `none`: it waits for more. -/
def read (closed : Bool) (room : Nat) (reader : OutputReader) : Option (Bytes × OutputReader) :=
  readChunks closed room reader.output reader.chunk reader.pos

end OutputReader

/-! ## The system -/

inductive Shell
  | none
  | running
  | exited (status : ShellStatus)
deriving DecidableEq, Repr

/-- The host's main thread. -/
inductive Main
  | reading
  | opened (pid : Option UInt32)
  | waiting
  /-- The PTY is closed, and its last output may drain. -/
  | draining (status : ShellStatus)
  | exiting (status : ShellStatus)
  | ended (code : Int)
  | crashed
deriving DecidableEq, Repr

def Main.alive : Main → Bool
  | .ended _ | .crashed => false
  | _ => true

/-- The thread that relays the output. -/
inductive Output
  | idle
  | reading
  | holding (data : Bytes)
  | done
deriving DecidableEq, Repr

/-- The thread once it is spawned, or could not be: what it owns is dropped then. -/
def Output.spawned : Bool → Output
  | true => .reading
  | false => .done

/-- The thread that carries out what the daemon asks. -/
inductive Input
  | idle
  | reading
  /-- It writes to the PTY, which has not taken these bytes yet. -/
  | writing (data : Bytes)
  | done
deriving DecidableEq, Repr

def Input.spawned : Bool → Input
  | true => .reading
  | false => .done

/-- Where the daemon stands with the host. -/
inductive Link
  | asking
  | refused (reason : String)
  | up (pid : Option UInt32)
  | done (pid : Option UInt32) (status : ShellStatus)
  /-- There is no daemon any more. -/
  | gone
deriving DecidableEq, Repr

structure Sys where
  shell : Shell
  /-- What the host has read of the terminal's output, and what it has not. -/
  taken : Bytes
  pending : Bytes
  /-- Nothing holds the terminal any more, so its output ends. -/
  hungUp : Bool
  /-- The input that the host has read, and what the terminal took of it. -/
  heard : Bytes
  fed : Bytes
  ptySize : Option PtySize
  /-- What the shell was started from, and its pid. -/
  launched : Option (Start × Option UInt32)
  main : Main
  output : Output
  input : Input
  killed : Bool
  /-- The output that the host has sent. -/
  sent : Bytes
  toHost : List ToHost
  fromHost : List FromHost
  link : Link
  /-- The daemon has let go of the host's input. -/
  letGo : Bool
  reader : OutputReader
  /-- What the session has read, and whether it has seen the end. -/
  read : Bytes
  ended : Bool
  /-- What the session has written. -/
  typed : Bytes
deriving DecidableEq, Repr

namespace Sys

variable (s : Sys)

/-- All that was printed on the terminal. -/
def printed : Bytes := s.taken ++ s.pending

/-- The daemon has its end of the host's output open. -/
def listens : Bool :=
  match s.link with
  | .asking | .up _ => true
  | _ => false

/-- The host has its end of its input open. -/
def hears : Bool := s.main.alive && s.input != .done

/-- The daemon has a terminal at the host. -/
def connected : Bool :=
  match s.link with
  | .up _ | .done _ _ => true
  | _ => false

/-- The link thread has dropped its end of the channel. -/
def closed : Bool :=
  match s.link with
  | .done _ _ => true
  | _ => false

/-- `send`, on the host. A frame that cannot be sent is dropped. -/
def toDaemon (message : FromHost) : Sys :=
  { s with fromHost := if s.listens then s.fromHost ++ [message] else s.fromHost }

/-- `send`, in the daemon. -/
def ask (message : ToHost) : Sys :=
  { s with toHost := if s.hears then s.toHost ++ [message] else s.toHost }

/-- What the host does with a frame. -/
def carryOut : ToHost → Sys
  | .input data => { s with heard := s.heard ++ data, input := .writing data }
  | .resize cols rows =>
      { s with ptySize := if s.main = .waiting then some (size cols rows) else s.ptySize }
  | .start _ => s
  | .kill => { s with killed := true, input := .done }

/-- What the link thread does with a frame. -/
def follow (pid : Option UInt32) : FromHost → Sys
  | .output data => { s with reader := { s.reader with output := s.reader.output ++ [data] } }
  | .exited code signal => { s with link := .done pid (statusOf code signal) }
  | .started _ | .failed _ => s

end Sys

def «ended» : String := "its host ended before starting it"

def hostEnded : ShellStatus := .signal "its host ended"

/-- `i32::try_from(code).unwrap_or(1)` -/
def returnCode (code : UInt32) : Int := if code.toNat < 2 ^ 31 then code.toNat else 1

/-- The most that is read of the output at once. -/
def bufLen : Nat := 64 * 1024

inductive Act
  -- the host's main thread
  | openPty (result : Except String (Option UInt32))
  /-- `open` fails once the shell is started. -/
  | openFails (pid : Option UInt32) (reason : String)
  | noStart
  /-- `relays` and `carries` say whether the two threads could be spawned. -/
  | sayStarted (relays carries : Bool)
  | wait
  | drained
  | timeout
  | sayExited
  -- the thread that relays the output
  | readPty (n : Nat)
  | sendOutput
  | ptyEnds
  | ptyFails
  -- the thread that carries out what the daemon asks
  | hear
  | written
  | writeFails
  | inputEnds
  -- the terminal
  | feed (n : Nat)
  -- the system
  | print (data : Bytes)
  | exit (status : ShellStatus)
  | hangUp
  | crash
  -- the daemon
  | answer
  /-- The thread that follows the host cannot be spawned. -/
  | linkFails (reason : String)
  | follow
  | followEnds
  | read (room : Nat)
  | type (data : Bytes)
  | resize (cols rows : Nat)
  | kill
  | letGo
  | die

def step (s : Sys) : Act → Option Sys
  | .openPty result =>
      match s.main, s.toHost with
      | .reading, .start start :: rest =>
          match result with
          | .ok pid =>
              some
                { s with
                  toHost := rest
                  shell := .running
                  ptySize := some start.size
                  launched := some (start, pid)
                  main := .opened pid }
          | .error reason =>
              some { ({ s with toHost := rest }).toDaemon (.failed reason) with main := .ended 1 }
      | _, _ => none
  | .openFails pid reason =>
      match s.main, s.toHost with
      | .reading, .start start :: rest =>
          some
            { ({ s with toHost := rest }).toDaemon (.failed reason) with
              shell := .running
              ptySize := some start.size
              launched := some (start, pid)
              main := .ended 1 }
      | _, _ => none
  | .noStart =>
      match s.main, s.toHost with
      | .reading, [] => if s.letGo then some { s with main := .ended 2 } else none
      | .reading, .start _ :: _ => none
      | .reading, _ :: rest => some { s with toHost := rest, main := .ended 2 }
      | _, _ => none
  | .sayStarted relays carries =>
      match s.main with
      | .opened pid =>
          if s.listens then
            some
              { s.toDaemon (.started pid) with
                main := .waiting
                output := .spawned relays
                input := .spawned carries }
          else some { s with killed := true, main := .ended 1 }
      | _ => none
  | .wait =>
      match s.main, s.shell with
      | .waiting, .exited status => some { s with main := .draining status }
      | _, _ => none
  | .drained =>
      match s.main, s.output with
      | .draining status, .done => some { s with main := .exiting status }
      | _, _ => none
  | .timeout =>
      match s.main with
      | .draining status => some { s with main := .exiting status }
      | _ => none
  | .sayExited =>
      match s.main with
      | .exiting status =>
          some
            { s.toDaemon (.exited status.code status.signalName) with
              main := .ended (returnCode status.code) }
      | _ => none
  | .readPty n =>
      if s.main.alive ∧ s.output = .reading ∧ 0 < n ∧ n ≤ bufLen ∧ n ≤ s.pending.length then
        some
          { s with
            taken := s.taken ++ s.pending.take n
            pending := s.pending.drop n
            output := .holding (s.pending.take n) }
      else none
  | .sendOutput =>
      match s.output with
      | .holding data =>
          if s.main.alive then
            if s.listens then
              some { s.toDaemon (.output data) with sent := s.sent ++ data, output := .reading }
            else some { s with output := .done }
          else none
      | _ => none
  | .ptyEnds =>
      if s.main.alive ∧ s.output = .reading ∧ s.hungUp ∧ s.pending = [] then
        some { s with output := .done }
      else none
  | .ptyFails =>
      if s.main.alive ∧ s.output = .reading then some { s with output := .done } else none
  | .hear =>
      match s.toHost with
      | message :: rest =>
          if s.main.alive ∧ s.input = .reading then
            some (({ s with toHost := rest }).carryOut message)
          else none
      | [] => none
  | .written =>
      if s.main.alive ∧ s.input = .writing [] then some { s with input := .reading } else none
  | .writeFails =>
      match s.input with
      | .writing (_ :: _) => if s.main.alive then some { s with input := .reading } else none
      | _ => none
  | .inputEnds =>
      if s.main.alive ∧ s.input = .reading ∧ s.toHost = [] ∧ s.letGo then
        some { s with killed := true, input := .done }
      else none
  | .feed n =>
      match s.input with
      | .writing data =>
          if s.main.alive ∧ 0 < n ∧ n ≤ data.length then
            some { s with fed := s.fed ++ data.take n, input := .writing (data.drop n) }
          else none
      | _ => none
  | .print data =>
      if s.shell ≠ .none ∧ s.hungUp = false then some { s with pending := s.pending ++ data }
      else none
  | .exit status =>
      if s.shell = .running then some { s with shell := .exited status } else none
  | .hangUp =>
      match s.shell with
      | .exited _ => some { s with hungUp := true }
      | _ => none
  | .crash => if s.main.alive then some { s with main := .crashed } else none
  | .answer =>
      match s.link, s.fromHost with
      | .asking, .started pid :: rest => some { s with fromHost := rest, link := .up pid }
      | .asking, .failed reason :: rest =>
          some { s with fromHost := rest, link := .refused reason, letGo := true }
      | .asking, _ :: rest =>
          some { s with fromHost := rest, link := .refused «ended», letGo := true }
      | .asking, [] =>
          if s.main.alive then none else some { s with link := .refused «ended», letGo := true }
      | _, _ => none
  | .linkFails reason =>
      match s.link, s.fromHost with
      | .asking, .started _ :: rest =>
          some { s with fromHost := rest, link := .refused reason, letGo := true }
      | _, _ => none
  | .follow =>
      match s.link, s.fromHost with
      | .up pid, message :: rest => some (({ s with fromHost := rest }).follow pid message)
      | _, _ => none
  | .followEnds =>
      match s.link, s.fromHost with
      | .up pid, [] => if s.main.alive then none else some { s with link := .done pid hostEnded }
      | _, _ => none
  | .read room =>
      if 0 < room ∧ s.link ≠ .gone then
        match s.reader.read s.closed room with
        | some (data, reader) =>
            some { s with reader, read := s.read ++ data, ended := s.ended || data.isEmpty }
        | none => none
      else none
  | .type data =>
      if s.connected ∧ s.letGo = false then
        some { s.ask (.input data) with typed := if s.hears then s.typed ++ data else s.typed }
      else none
  | .resize cols rows =>
      if s.connected ∧ s.letGo = false then some (s.ask (.resize cols rows)) else none
  | .kill => if s.connected ∧ s.letGo = false then some (s.ask .kill) else none
  | .letGo => if s.connected then some { s with letGo := true } else none
  | .die => some { s with link := .gone, letGo := true }

/-- The daemon has just sent what is to be started. -/
def Sys.asked (start : Start) : Sys where
  shell := .none
  taken := []
  pending := []
  hungUp := false
  heard := []
  fed := []
  ptySize := none
  launched := none
  main := .reading
  output := .idle
  input := .idle
  killed := false
  sent := []
  toHost := [.start start]
  fromHost := []
  link := .asking
  letGo := false
  reader := ⟨[], [], 0⟩
  read := []
  ended := false
  typed := []

def machine (start : Start) : Machine Sys Act where
  init s := s = .asked start
  step := step

/-- A shell that is up at both ends. -/
def comesUp : List Act := [.openPty (.ok (some 7)), .sayStarted true true, .answer]

def shStart : Start := ⟨"/bin/sh", [], "/", [], 80, 24⟩

end Throng.Daemon.PtyHost
