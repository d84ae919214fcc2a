import Throng.Core.Chars
import Throng.Protocol.Messages

/-!
# One terminal session

A session is a shell on a PTY, its retained output and the views attached to it.
Everything but the PTY handle stands behind one lock, so each function below is
one critical section: it takes the state as the lock's holder finds it and says
what the holder leaves, what is sent to which client meanwhile, and the size
last given to the PTY.
-/

namespace Throng.Daemon

/-- A connection's identity. -/
abbrev ClientId := Nat

/-- The size of a pseudo terminal. -/
structure PtySize where
  cols : Nat
  rows : Nat
deriving DecidableEq, Repr

/-! ## The alternate screen -/

inductive ScanState
  | ground
  | escape
  | csi
  | «private»
deriving DecidableEq, Repr

/-- Tracks whether the program is on the alternate screen by watching for
`CSI ? 1049/1047/47 h|l`. -/
structure AltScreenScanner where
  active : Bool := false
  state : ScanState := .ground
  params : Bytes := []
deriving DecidableEq, Repr

namespace AltScreenScanner

/-- The parameters that switch to or from the alternate screen. -/
def screenModes : List Bytes := ["1049", "1047", "47"].map fun mode =>
  mode.toList.map fun c => UInt8.ofNat c.toNat

/-- One byte of the scan. -/
def scanByte (s : AltScreenScanner) (b : UInt8) : AltScreenScanner :=
  if b = 0x1b then { s with state := .escape }
  else if s.state = .escape ∧ b = '['.toUInt8 then { s with state := .csi }
  else if s.state = .csi ∧ b = '?'.toUInt8 then
    { s with params := [], state := .private }
  else if s.state = .private ∧ (('0'.toUInt8 ≤ b ∧ b ≤ '9'.toUInt8) ∨ b = ';'.toUInt8) ∧
      s.params.length < 32 then
    { s with params := s.params ++ [b], state := .private }
  else if s.state = .private ∧ (b = 'h'.toUInt8 ∨ b = 'l'.toUInt8) then
    let hit := (s.params.splitOn ';'.toUInt8).any fun p => screenModes.contains p
    { s with active := if hit then b = 'h'.toUInt8 else s.active, state := .ground }
  else { s with state := .ground }

def scan (s : AltScreenScanner) (bytes : Bytes) : AltScreenScanner :=
  bytes.foldl scanByte s

/-- The alternate screen is seen across a cut between two pieces of output. -/
example :
    ((({} : AltScreenScanner).scan [27, 91, 63, 49, 48]).scan [52, 57, 104]).active = true := by
  decide

end AltScreenScanner

/-! ## The state behind the lock -/

structure State where
  tail : Bytes
  capacity : Nat
  /-- Bytes produced over the session's life. -/
  endOffset : Nat
  exited : Option ExitStatus
  userKilled : Bool
  views : Std.ExtTreeMap ClientId (Nat × Nat)
  size : Nat × Nat
  alt : AltScreenScanner
  seenOutput : Bool
  startupCommand : Option String

namespace State

/-- How far past the excess a line boundary is looked for. -/
def trimWindow : Nat := 64 * 1024

/-- Where the tail is cut once it holds `excess` bytes too many: after the first
line break found from there on, else right there. -/
def cutAt (tail : Bytes) (excess : Nat) : Nat :=
  let window := min tail.length (excess + trimWindow)
  match (List.range' excess (window - excess)).find? fun i => tail[i]? == some '\n'.toUInt8 with
  | some i => i + 1
  | none => excess

def push (s : State) (chunk : Bytes) : State :=
  let tail := s.tail ++ chunk
  { s with
    alt := s.alt.scan chunk
    endOffset := s.endOffset + chunk.length
    tail :=
      if tail.length > s.capacity then tail.drop (cutAt tail (tail.length - s.capacity))
      else tail }

section push

variable (s : State) (chunk : Bytes)

@[simp] theorem push_endOffset : (s.push chunk).endOffset = s.endOffset + chunk.length := rfl
@[simp] theorem push_views : (s.push chunk).views = s.views := rfl
@[simp] theorem push_size : (s.push chunk).size = s.size := rfl
@[simp] theorem push_exited : (s.push chunk).exited = s.exited := rfl

end push

/-- The smallest size across attached views, `none` when no view is attached. -/
def smallest (views : Std.ExtTreeMap ClientId (Nat × Nat)) : Option (Nat × Nat) := do
  let cols ← (views.values.map Prod.fst).min?
  let rows ← (views.values.map Prod.snd).min?
  return (cols, rows)

/-- There is a smallest size as soon as a view is attached. -/
theorem smallest_eq_none_iff (views : Std.ExtTreeMap ClientId (Nat × Nat)) :
    smallest views = none ↔ views.values = [] := by
  cases h : views.values with
  | nil => simp [smallest, h]
  | cons v vs =>
      simp [smallest, h, List.min?_cons]

end State

/-! ## The session -/

/-- A session: who it is, the size last given to its PTY, and its state. -/
structure Session where
  id : TerminalId
  elevated : Bool
  master : PtySize
  state : State

namespace Session

/-- A message on its way to a client. -/
abbrev Sends := List (ClientId × ServerMsg)

/-- A fresh session as `Session::spawn` leaves it. -/
def spawn (spec : SpawnSpec) (tailBytes : Nat) (elevated : Bool) : Session :=
  let size : PtySize := ⟨max spec.cols 1, max spec.rows 1⟩
  { id := spec.terminal
    elevated
    master := size
    state :=
      { tail := []
        capacity := max tailBytes 4096
        endOffset := 0
        exited := none
        userKilled := false
        views := ∅
        size := (size.cols, size.rows)
        alt := {}
        seenOutput := false
        startupCommand := spec.startupCommand.filter fun c => trim c ≠ "" } }

/-- The PTY takes the smallest size across attached views and is only resized on
a change. -/
def applySize (s : Session) : Session :=
  match State.smallest s.state.views with
  | none => s
  | some (cols, rows) =>
      if (cols, rows) ≠ s.state.size then
        { s with state := { s.state with size := (cols, rows) }, master := ⟨cols, rows⟩ }
      else s

/-- The critical section of `pump_output`: the chunk is retained, and its offset
is where the output stood before. The chunk then goes to every attached view, in
the order the map happens to list them, while the lock is still held. -/
def pumpOutput (s : Session) (chunk : Bytes) : Session :=
  { s with
    state :=
      { s.state.push chunk with
        startupCommand := if s.state.seenOutput then s.state.startupCommand else none
        seenOutput := true } }

/-- What the shell is typed after this chunk: its startup command, once. -/
def startupLine (s : Session) : Option Bytes :=
  if s.state.seenOutput then none
  else s.state.startupCommand.map fun command => command.toUTF8.toList ++ ['\r'.toUInt8]

/-- The message the exit is told with, to every attached view. -/
def exitedTo (s : Session) (status : ExitStatus) : Sends :=
  s.state.views.keys.map fun client => (client, .exited s.id status)

def finish (s : Session) (code : Option Int) : Session × Sends :=
  let status : ExitStatus := ⟨code, s.state.userKilled⟩
  ({ s with state := { s.state with exited := some status, views := ∅ } }, s.exitedTo status)

/-- What a client needs to rebuild its view, as things stand. -/
def snapshot (s : Session) : Snapshot :=
  { terminal := s.id
    tail := s.state.tail
    endOffset := s.state.endOffset
    exited := s.state.exited
    altScreen := s.state.alt.active
    elevated := s.elevated }

/-- Attach a view; its snapshot is sent under the lock that orders output. -/
def attach (s : Session) (client : ClientId) (replyId cols rows : Nat) :
    Session × Snapshot × Sends :=
  let snapshot := s.snapshot
  let s' :=
    if s.state.exited.isNone then
      ({ s with state :=
          { s.state with
            views := s.state.views.insert client (max cols 1, max rows 1) } }).applySize
    else s
  (s', snapshot, [(client, .reply replyId (.ok (.snapshot snapshot)))])

def detach (s : Session) (client : ClientId) : Session :=
  if client ∈ s.state.views then
    ({ s with state := { s.state with views := s.state.views.erase client } }).applySize
  else s

/-- A resize from a view that is not attached is ignored. -/
def resize (s : Session) (client : ClientId) (cols rows : Nat) : Session :=
  if client ∈ s.state.views then
    ({ s with state :=
        { s.state with views := s.state.views.insert client (max cols 1, max rows 1) } }).applySize
  else s

/-- The first critical section of `end`: every view is told and detached. -/
def endViews (s : Session) : Session × Sends :=
  if s.state.exited.isNone then
    ({ s with state := { s.state with views := ∅ } }, s.exitedTo ⟨none, true⟩)
  else (s, [])

/-- The critical section of `kill`. The signals that follow only reach the
processes of a session that has not exited. -/
def kill (s : Session) : Session :=
  if s.state.exited.isSome then s
  else { s with state := { s.state with userKilled := true } }

def isExited (s : Session) : Bool := s.state.exited.isSome

/-! Nothing that is done to a session changes which one it is. -/

section id

variable (s : Session) (client : ClientId)

@[simp] theorem applySize_id : s.applySize.id = s.id := by
  unfold applySize
  split
  · rfl
  · split <;> rfl

@[simp] theorem attach_id (replyId cols rows : Nat) :
    (s.attach client replyId cols rows).1.id = s.id := by
  unfold attach
  dsimp only
  split <;> simp

@[simp] theorem detach_id : (s.detach client).id = s.id := by
  unfold detach
  split <;> simp

@[simp] theorem resize_id (cols rows : Nat) : (s.resize client cols rows).id = s.id := by
  unfold resize
  split <;> simp

@[simp] theorem kill_id : s.kill.id = s.id := by
  unfold kill
  split <;> rfl

end id

/-! Only an attach, a detach and an end change who is attached. -/

section views

variable (s : Session) {client c : ClientId}

theorem applySize_keeps : s.applySize.state.views = s.state.views ∧
    s.applySize.state.exited = s.state.exited ∧
      s.applySize.state.endOffset = s.state.endOffset := by
  unfold applySize
  split
  · exact ⟨rfl, rfl, rfl⟩
  · split <;> exact ⟨rfl, rfl, rfl⟩

theorem mem_attach (replyId cols rows : Nat) :
    client ∈ (s.attach c replyId cols rows).1.state.views ↔
      client ∈ s.state.views ∨ client = c ∧ s.state.exited = none := by
  rw [attach]
  dsimp only
  split
  · next hrunning =>
      rw [(applySize_keeps _).1, Std.ExtTreeMap.mem_insert]
      rw [Option.isNone_iff_eq_none] at hrunning
      rw [hrunning, Nat.compare_eq_eq]
      grind
  · next hexited =>
      rw [Option.isNone_iff_eq_none] at hexited
      exact (or_iff_left fun h => hexited h.2).symm

theorem attach_keeps (replyId cols rows : Nat) :
    (s.attach c replyId cols rows).1.state.exited = s.state.exited ∧
      (s.attach c replyId cols rows).1.state.endOffset = s.state.endOffset := by
  rw [attach]
  dsimp only
  split
  · exact (applySize_keeps _).2
  · exact ⟨rfl, rfl⟩

theorem mem_detach :
    client ∈ (s.detach c).state.views ↔ client ∈ s.state.views ∧ client ≠ c := by
  rw [detach]
  split
  · rw [(applySize_keeps _).1, Std.ExtTreeMap.mem_erase, Ne, Nat.compare_eq_eq]
    grind
  · next hnot => exact ⟨fun h => ⟨h, fun heq => hnot (heq ▸ h)⟩, And.left⟩

theorem detach_keeps : (s.detach c).state.exited = s.state.exited ∧
    (s.detach c).state.endOffset = s.state.endOffset := by
  rw [detach]
  split
  · exact (applySize_keeps _).2
  · exact ⟨rfl, rfl⟩

theorem mem_resize (cols rows : Nat) :
    client ∈ (s.resize c cols rows).state.views ↔ client ∈ s.state.views := by
  rw [resize]
  split
  · next hmem =>
      rw [(applySize_keeps _).1, Std.ExtTreeMap.mem_insert, Nat.compare_eq_eq]
      grind
  · exact Iff.rfl

theorem resize_exited (cols rows : Nat) :
    (s.resize c cols rows).state.exited = s.state.exited := by
  rw [resize]
  split
  · exact (applySize_keeps _).2.1
  · rfl

theorem kill_keeps : s.kill.state.views = s.state.views ∧
    s.kill.state.exited = s.state.exited := by
  rw [kill]
  split <;> exact ⟨rfl, rfl⟩

end views

end Session

end Throng.Daemon
