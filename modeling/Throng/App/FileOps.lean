import Throng.Platform.Trash
import Throng.Lib.Machine

/-!
# File operations that can be undone

Every undo and redo is checked against the disk first; when the disk no longer matches what the
entry describes, nothing changes and the reason is returned.
-/

namespace Throng

/-- What changed on disk, for open editors and the tree to follow. -/
inductive Changed
  | moved (source target : FilePath)
  | restored (path : FilePath)
  | trashed (path : FilePath)
deriving DecidableEq, Repr

/-- An undo or redo that was not carried out. -/
structure Refusal where
  title : String
  item : FilePath
  reason : String
deriving DecidableEq, Repr

namespace FileOps

variable {Bin : Type}

/-- `name`, for a message. -/
def name (path : FilePath) : String := path.getLast?.getD path.display

def refuse (undo : Bool) (op : FileOp) (reason : String) : Refusal :=
  { title := "Can't " ++ (if undo then "undo" else "redo") ++ " " ++ op.verb
    item := op.item
    reason }

/-- Whether the item at `source` can go to `target`: it must still be there, and nothing may be in
its way. -/
def checkMove (disk : FileDisk Bin) (source target : FilePath) : Except String Unit :=
  if !disk.exists source then
    .error ("\"" ++ name source ++ "\" is no longer at " ++ source.display ++ ".")
  else if disk.exists target then .error ("Something else is now at " ++ target.display ++ ".")
  else
    match target.parent.filter fun folder => !disk.isDir folder with
    | some folder => .error ("The folder " ++ folder.display ++ " no longer exists.")
    | none => .ok ()

def restoreReason (path : FilePath) : RestoreError → String
  | .gone => "It is no longer in the trash."
  | .taken => "Something else is now at " ++ path.display ++ "."
  | .unsupported => "This system's trash cannot put items back."
  | .failed reason => reason

/-- The files of a project: its history of operations, and the disk. -/
structure Files (Bin : Type) where
  history : FileHistory
  disk : FileDisk Bin

variable (trash : Trash Bin) (files : Files Bin)

/-- Undo the newest operation. `none`: there was nothing to undo. -/
def undo : Except Refusal (Option (Changed × Files Bin)) :=
  match files.history.undo with
  | [] => .ok none
  | op :: _ =>
      match op with
      | .move source target =>
          match checkMove files.disk target source with
          | .error reason => .error (refuse true op reason)
          | .ok () =>
              match files.disk.rename target source with
              | .error reason => .error (refuse true op reason)
              | .ok disk => .ok (some (.moved target source, ⟨files.history.undone, disk⟩))
      | .trash path token =>
          match path.parent.filter fun folder => !files.disk.isDir folder with
          | some folder =>
              .error (refuse true op ("Its folder " ++ folder.display ++ " no longer exists."))
          | none =>
              match files.disk.restoreFromTrash trash token path with
              | .error reason => .error (refuse true op (restoreReason path reason))
              | .ok disk => .ok (some (.restored path, ⟨files.history.undone, disk⟩))

/-- Apply the newest undone operation again. `none`: there was nothing to redo. -/
def redo : Except Refusal (Option (Changed × Files Bin)) :=
  match files.history.redo with
  | [] => .ok none
  | op :: _ =>
      match op with
      | .move source target =>
          match checkMove files.disk source target with
          | .error reason => .error (refuse false op reason)
          | .ok () =>
              match files.disk.rename source target with
              | .error reason => .error (refuse false op reason)
              | .ok disk =>
                  .ok (some (.moved source target, ⟨files.history.redone (some op), disk⟩))
      | .trash path _ =>
          if !files.disk.exists path then
            .error (refuse false op ("Nothing is at " ++ path.display ++ " any more."))
          else
            match files.disk.trashRestorable trash path with
            | .error reason => .error (refuse false op reason)
            | .ok (token, disk) =>
                let again := token.map fun token => FileOp.trash path token
                .ok (some (.trashed path, ⟨files.history.redone again, disk⟩))

/-! ## Runs -/

/-- What the user does in the tree. -/
inductive Action
  /-- A rename, or a move to another folder. -/
  | move (source target : FilePath)
  | delete (path : FilePath)
  | undo
  | redo
deriving DecidableEq, Repr

/-- `rename_path` and `trash` of the app, and what they record. `none`: the system refused. -/
def perform (source : FilePath) : Option FilePath → Option (Files Bin)
  | some target =>
      match files.disk.rename source target with
      | .error _ => none
      | .ok disk => some ⟨files.history.record (.move source target), disk⟩
  | none =>
      match files.disk.trashRestorable trash source with
      | .error _ => none
      | .ok (none, disk) => some ⟨files.history, disk⟩
      | .ok (some token, disk) => some ⟨files.history.record (.trash source token), disk⟩

/-- The files after an undo or redo, if it was carried out. -/
def carriedOut : Except Refusal (Option (Changed × Files Bin)) → Option (Files Bin)
  | .ok (some (_, files)) => some files
  | _ => none

def act : Action → Option (Files Bin)
  -- the tree does not ask for an item's own name
  | .move source target =>
      if source = target then none else perform trash files source (some target)
  | .delete path => perform trash files path none
  | .undo => carriedOut (undo trash files)
  | .redo => carriedOut (redo trash files)

/-- The runs in which nothing else changes the disk, from one with nothing recorded. -/
def machine : Machine (Files Bin) Action where
  init files := files.history = .empty ∧ PathTree.Closed FileNode.isDir files.disk.tree
  step files action := some ((act trash files action).getD files)

/-- Carry out the actions, each of which must succeed. -/
def actAll (files : Files Bin) (actions : List Action) : Option (Files Bin) :=
  actions.foldlM (act trash) files

end FileOps

end Throng
