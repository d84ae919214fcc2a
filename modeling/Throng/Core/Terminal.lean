import Throng.Core.Panel
import Throng.Protocol.Messages

/-!
# Terminal rules that do not depend on how a PTY is spawned

Where a terminal starts, which shell it starts with, what it remembers of the
command that ran in it, and which ends deserve a notice.
-/

namespace Throng

namespace TerminalPanelConfig

/-- It ended with what was last seen running in it: while it remembers, a command
becomes its startup command. Either way the observation is spent. -/
def capture (config : TerminalPanelConfig) : TerminalPanelConfig × Bool :=
  match config.runningCommand with
  | some command =>
      ({ config with
          runningCommand := none
          startupCommand :=
            if config.rememberCommand then some command else config.startupCommand },
        true)
  | none => (config, false)

/-- Nothing is captured twice. -/
theorem capture_capture (config : TerminalPanelConfig) :
    config.capture.1.capture = (config.capture.1, false) := by
  unfold capture
  cases h : config.runningCommand <;> simp [h]

end TerminalPanelConfig

/-- Where a terminal starts on a cold start: the directory it last worked in when
it remembers, else the one it was asked to start in, each only while it is a folder
inside the project, else the project root. -/
def startDirectory (config : TerminalPanelConfig) (root : PathBuf) (rememberDefault : Bool)
    (isWithin : PathBuf → PathBuf → Bool) (isDir : PathBuf → Bool) : PathBuf :=
  let remember := config.rememberDirectory.getD rememberDefault
  let remembered := config.lastDirectory.filter fun _ => remember
  let candidates := remembered.toList ++ config.cwd.toList
  (candidates.find? fun dir => isWithin root dir && isDir dir).getD root

/-- A shell the user can pick. -/
structure ShellInfo where
  id : String
  label : String
  program : PathBuf
  args : List String
deriving DecidableEq, Repr

/-- The preferred shell if there is one of that id, else the first. -/
def choose (shells : List ShellInfo) (preferred : Option String) : Option ShellInfo :=
  (preferred.bind fun id => shells.find? fun s => s.id == id).or shells.head?

/-- Whether an exit deserves a notice. A deliberate kill never does; otherwise the
exit code decides. -/
def shouldSurfaceExit (status : ExitStatus) : Bool :=
  !status.userKilled && status.code != some 0

/-- Environment variables removed before a shell starts. -/
def isPrivateEnvVar (name : String) : Bool := "THRONG_".toList.isPrefixOf name.toList

end Throng
