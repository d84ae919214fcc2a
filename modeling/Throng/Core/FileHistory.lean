import Mathlib.Data.List.Basic

/-!
# The record of file operations

A move or rename, and a delete to the system trash, are recorded, at most a certain number of them.
The record never touches the disk. A path is here the list of its names.
-/

namespace Throng

/-- An absolute path, as the names it goes through. -/
abbrev FilePath := List String

namespace FilePath

/-- `Path::parent`. -/
def parent (path : FilePath) : Option FilePath := if path = [] then none else some path.dropLast

def display (path : FilePath) : String := "/" ++ "/".intercalate path

end FilePath

/-- One file operation that can be reversed. -/
inductive FileOp
  /-- A rename or a move: the item went from `source` to `target`. -/
  | move (source target : FilePath)
  /-- The item at `path` went to the system trash, where `token` finds it again. -/
  | trash (path : FilePath) (token : String)
deriving DecidableEq, Repr

namespace FileOp

/-- What the user did, as a verb. -/
def verb : FileOp → String
  | .move source target => if source.parent = target.parent then "rename" else "move"
  | .trash _ _ => "delete"

/-- The item as the user knows it: where it is when the operation stands. -/
def item : FileOp → FilePath
  | .move _ target => target
  | .trash path _ => path

end FileOp

/-- Entries kept per project. -/
def fileHistoryLimit : Nat := 50

/-- A project's undo and redo stacks, each with the newest entry first. -/
structure FileHistory where
  undo : List FileOp
  redo : List FileOp
deriving DecidableEq, Repr

namespace FileHistory

def empty : FileHistory := ⟨[], []⟩

variable (history : FileHistory)

/-- Drop the oldest entries. -/
def trim : FileHistory :=
  { undo := history.undo.take fileHistoryLimit, redo := history.redo.take fileHistoryLimit }

/-- A new operation: it can be undone, and what was undone before it can no longer be redone. -/
def record (op : FileOp) : FileHistory := trim { undo := op :: history.undo, redo := [] }

/-- The newest operation was reversed on disk: it can now be redone. -/
def undone : FileHistory :=
  match history.undo with
  | [] => history
  | op :: undo => { undo, redo := op :: history.redo }

/-- The newest undone operation was applied again, as `op`. `none`: it cannot be undone again. -/
def redone : Option FileOp → FileHistory
  | none => { history with redo := history.redo.tail }
  | some op => trim { undo := op :: history.undo, redo := history.redo.tail }

end FileHistory

end Throng
