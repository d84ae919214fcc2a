import Throng.App.Osc7
import Throng.Core.Terminal

/-!
# One terminal panel's emulator and session bookkeeping

The emulator itself is a parameter, as are the facts that are read from the
operating system: the platform below. A view feeds it the daemon's output, each
byte once, and replays a snapshot into a new one when it attaches.
-/

namespace Throng

structure Rgb where
  r : UInt8
  g : UInt8
  b : UInt8
deriving DecidableEq, Repr

/-- What a program learns that asks for the size of its text area. -/
structure WindowSize where
  numCols : Nat
  numLines : Nat
  cellWidth : Nat
  cellHeight : Nat
deriving DecidableEq, Repr

/-- Something the emulator wants done. An answer is worded by the emulator, once
the value it asks for is supplied. -/
inductive TermEvent
  | reply (text : String)
  | title (title : String)
  | resetTitle
  | clipboard (text : String)
  | bell
  | colorQuery (index : Nat) (answer : Rgb → String)
  | sizeQuery (answer : WindowSize → String)

/-- What stands outside: the terminal emulator `E` with its parser, and what is read
from the operating system. -/
structure Platform (E : Type) where
  newTerm : (scrollback : Nat) → (size : Nat × Nat) → E
  advance : E → Bytes → E × List TermEvent
  queriedColour : E → Nat → Rgb
  /-- The directory an OSC 7 report names, when its host is this machine. -/
  localDirectory : String → Option PathBuf
  workingDirectory : (pid : Nat) → Option PathBuf
  runningCommand : (pid : Nat) → Option String
  isWithin : (root dir : PathBuf) → Bool
  isDir : PathBuf → Bool
  vars : List (String × String)

/-- Where a terminal panel's session stands. -/
inductive Status
  | connecting
  | running
  | exited (status : ExitStatus)
  | failed (message : String)
  | dormant
deriving DecidableEq, Repr

structure TerminalView (E : Type) where
  panel : PanelId
  term : E
  /-- What the emulator asked for and nobody has handled yet. -/
  events : List TermEvent
  scrollback : Nat
  /-- Output below this offset has been shown. -/
  seenUntil : Nat
  status : Status
  size : Nat × Nat
  title : Option String
  /-- Request id of an attach or spawn in flight. -/
  pending : Option Nat
  bell : Bool
  label : String
  cwd : Option PathBuf
  processCwd : Option PathBuf
  shellPid : Option Nat
  elevated : Bool
  /-- The last directory the shell reported itself. -/
  reported : Option PathBuf
  cellPx : Nat × Nat
  osc7 : Osc7

namespace TerminalView

variable {E : Type} (platform : Platform E)

def new (panel : PanelId) (scrollback : Nat) : TerminalView E :=
  { panel
    term := platform.newTerm scrollback (80, 24)
    events := []
    scrollback
    seenUntil := 0
    status := .connecting
    size := (80, 24)
    title := none
    pending := none
    bell := false
    label := ""
    cwd := none
    processCwd := none
    shellPid := none
    elevated := false
    reported := none
    cellPx := (8, 16)
    osc7 := {} }

variable (view : TerminalView E)

def scanReports (data : Bytes) : TerminalView E :=
  let (osc7, uri) := view.osc7.scan data
  { view with osc7, reported := (uri.bind platform.localDirectory).or view.reported }

/-- Let the emulator see `data`. -/
def advance (data : Bytes) : TerminalView E :=
  let (term, events) := platform.advance view.term data
  ({ view with term, events := view.events ++ events }).scanReports platform data

/-- Rebuild the view from a snapshot. What the replayed bytes ask is dropped. -/
def applySnapshot (snapshot : Snapshot) : TerminalView E :=
  let fresh := { view with term := platform.newTerm view.scrollback view.size }
  { fresh.advance platform snapshot.tail with
    events := []
    seenUntil := snapshot.endOffset
    elevated := snapshot.elevated
    status :=
      match snapshot.exited with
      | some status => .exited status
      | none => .running }

/-- Feed output; bytes already shown are skipped. -/
def feed (offset : Nat) (data : Bytes) : TerminalView E :=
  let fresh := unseen offset data view.seenUntil
  { if fresh.isEmpty then view else view.advance platform fresh with
    seenUntil := max view.seenUntil (offset + data.length) }

/-- Settle where the shell is working; with the directory when it changed. -/
def settleDirectory : TerminalView E × Option PathBuf :=
  let now := view.reported.or view.processCwd
  if now.isSome ∧ now ≠ view.cwd then ({ view with cwd := now }, now) else (view, none)

/-- Settling twice reports a change once. -/
theorem settleDirectory_settleDirectory :
    view.settleDirectory.1.settleDirectory = (view.settleDirectory.1, none) := by
  unfold settleDirectory
  by_cases h : (view.reported.or view.processCwd).isSome ∧
      view.reported.or view.processCwd ≠ view.cwd
  · simp [h]
  · simp only [h, if_false]

end TerminalView

end Throng
