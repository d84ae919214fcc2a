import Mathlib.Algebra.Order.BigOperators.Group.List
import Mathlib.Algebra.Order.Ring.Nat
import Mathlib.Data.List.Nodup
import Throng.Core.FileHistory
import Throng.Lib.PathTree

/-!
# The system trash

An item goes to the trash and is found there again by a token, the id of what was not in the trash
before. The trash is the system's and is reached through a library, which stands here as a parameter
(`Trash`), with what is documented of a trash that works (`Trash.Works`). The disk has
case-sensitive names and no links.
-/

namespace Throng

/-- What stands at a path of the disk. -/
inductive FileNode
  | dir
  | file (content : List UInt8)
deriving DecidableEq, Repr

def FileNode.isDir : FileNode → Bool
  | .dir => true
  | .file _ => false

abbrev FileTree := PathTree String FileNode

/-- A folder stands at a path. -/
def FolderAt (tree : FileTree) (path : FilePath) : Prop :=
  ∃ node ∈ tree path, FileNode.isDir node = true

/-- What the trash tells of an item in it. -/
structure TrashItem where
  id : String
  originalPath : FilePath
  timeDeleted : Int
deriving DecidableEq, Repr

inductive TrashError
  | restoreCollision
  | other (reason : String)
deriving DecidableEq, Repr

inductive RestoreError
  | gone
  | taken
  | unsupported
  | failed (reason : String)
deriving DecidableEq, Repr

structure FileDisk (Bin : Type) where
  tree : FileTree
  bin : Bin

/-- The `trash` library. -/
structure Trash (Bin : Type) where
  /-- `os_limited` is there: the system's trash can be listed and put things back. -/
  limited : Bool
  list : Bin → Except String (List TrashItem)
  delete : FileDisk Bin → FilePath → Except String (FileDisk Bin)
  /-- `restore_all` of one item. -/
  restoreAll : FileDisk Bin → TrashItem → Except TrashError (FileDisk Bin)

def noSuchFile : String := "No such file or directory (os error 2)"

/-- `max_by_key`: the last of the items that were deleted last. -/
def lastDeleted (items : List TrashItem) : Option TrashItem :=
  items.foldl (fun last item =>
    match last with
    | none => some item
    | some last => some (if last.timeDeleted ≤ item.timeDeleted then item else last)) none

namespace FileDisk

variable {Bin : Type} (trash : Trash Bin) (disk : FileDisk Bin)

/-- `symlink_metadata(..).is_ok()`. -/
def «exists» (path : FilePath) : Bool := (disk.tree path).isSome

def isDir (path : FilePath) : Bool := (disk.tree path).any FileNode.isDir

/-- `rename_no_clobber`. -/
def rename (source target : FilePath) : Except String (FileDisk Bin) :=
  if disk.exists target ∧ source ≠ target then .error "destination exists"
  else if !disk.exists source then .error noSuchFile
  else if source = target then .ok disk
  else if !(target.parent.any disk.isDir) then .error noSuchFile
  else if source <+: target then .error "Invalid argument (os error 22)"
  else
    .ok
      { disk with
        tree := PathTree.graft target (PathTree.below source disk.tree)
          (PathTree.prune source disk.tree) }

/-- The path the trash records for `path`. -/
def trashOriginal (path : FilePath) : Except String FilePath :=
  match path.parent, path.getLast? with
  | some folder, some name =>
      if disk.exists folder then .ok (folder ++ [name]) else .error noSuchFile
  | _, _ => .error "no file name"

/-- Move `path` to the trash, with a token that finds it there again where the system can
restore. -/
def trashRestorable (path : FilePath) : Except String (Option String × FileDisk Bin) :=
  if trash.limited then
    match disk.trashOriginal path with
    | .error e => .error e
    | .ok original =>
        let ours := fun item : TrashItem => decide (item.originalPath = original)
        let before := (((trash.list disk.bin).toOption.getD []).filter ours).map TrashItem.id
        match trash.delete disk path with
        | .error e => .error e
        | .ok disk =>
            let token := (trash.list disk.bin).toOption.bind fun items =>
              (lastDeleted (items.filter fun item => ours item && !before.contains item.id)).map
                TrashItem.id
            .ok (token, disk)
  else (trash.delete disk path).map fun disk => (none, disk)

/-- Put the trashed item `token` back at `original`, refusing to replace anything there. -/
def restoreFromTrash (token : String) (original : FilePath) :
    Except RestoreError (FileDisk Bin) :=
  if trash.limited then
    if disk.exists original then .error .taken
    else
      match trash.list disk.bin with
      | .error e => .error (.failed e)
      | .ok items =>
          match items.find? fun item => item.id = token with
          | none => .error .gone
          | some item =>
              if disk.exists item.originalPath then .error .taken
              else
                match trash.restoreAll disk item with
                | .ok disk => .ok disk
                | .error .restoreCollision => .error .taken
                | .error (.other reason) => .error (.failed reason)
  else .error .unsupported

end FileDisk

open PathTree

/-- What is documented of a trash that works: it keeps items with what stood at their paths, each
under an id of its own, lists them in any order, takes whatever stands on the disk, and puts an item
back where nothing is in its way. -/
structure Trash.Works {Bin : Type} (trash : Trash Bin) where
  limited : trash.limited = true
  entries : Bin → List (TrashItem × FileTree)
  nodup : ∀ bin, ((entries bin).map fun entry => entry.1.id).Nodup
  list : ∀ bin, ∃ items, trash.list bin = .ok items ∧
    List.Perm items ((entries bin).map Prod.fst)
  delete : ∀ disk path, path ≠ [] → disk.tree path ≠ none → ∃ item bin,
    item.originalPath = path ∧ trash.delete disk path = .ok ⟨prune path disk.tree, bin⟩ ∧
      List.Perm (entries bin) ((item, below path disk.tree) :: entries disk.bin)
  missing : ∀ disk path, disk.tree path = none → ∃ e, trash.delete disk path = .error e
  restoreAll : ∀ disk item content, (item, content) ∈ entries disk.bin →
    disk.tree item.originalPath = none →
    (∃ front name, item.originalPath = front ++ [name] ∧ FolderAt disk.tree front) →
    ∃ bin, trash.restoreAll disk item = .ok ⟨graft item.originalPath content disk.tree, bin⟩ ∧
      List.Perm (entries disk.bin) ((item, content) :: entries bin)

section

variable {Bin : Type} {trash : Trash Bin} {disk disk' : FileDisk Bin} {path : FilePath}
  {item : TrashItem} {items : List TrashItem} {content : FileTree}

theorem exists_iff : disk.exists path = true ↔ disk.tree path ≠ none := by
  rw [FileDisk.exists, Option.isSome_iff_ne_none]

theorem exists_eq_false : disk.exists path = false ↔ disk.tree path = none := by
  rw [FileDisk.exists, Option.isSome_eq_false_iff, Option.isNone_iff_eq_none]

theorem parent_append (front : FilePath) (name : String) :
    FilePath.parent (front ++ [name]) = some front := by
  rw [FilePath.parent, if_neg, List.dropLast_concat]
  exact List.append_ne_nil_of_right_ne_nil _ (List.cons_ne_nil _ _)

/-- The trash records the path itself. -/
theorem trashOriginal_append (front : FilePath) (name : String) :
    disk.trashOriginal (front ++ [name]) =
      if disk.exists front then .ok (front ++ [name]) else .error noSuchFile := by
  rw [FileDisk.trashOriginal, parent_append, List.getLast?_concat]

theorem trashOriginal_nil : disk.trashOriginal [] = .error "no file name" := rfl

/-- Where no two have one id, an element is found by its own. -/
theorem find?_eq_of_nodup {α β : Type*} [DecidableEq β] {f : α → β} {l : List α} {a : α}
    (hnodup : (l.map f).Nodup) (ha : a ∈ l) : (l.find? fun b => f b = f a) = some a := by
  obtain ⟨found, hfound⟩ := Option.isSome_iff_exists.1
    (List.find?_isSome.2 ⟨a, ha, decide_eq_true rfl⟩ : (l.find? fun b => f b = f a).isSome = true)
  have hsame := List.find?_some hfound
  rw [hfound, List.inj_on_of_nodup_map hnodup (List.mem_of_find?_eq_some hfound) ha
    (of_decide_eq_true hsame)]

theorem lastDeleted_singleton (item : TrashItem) : lastDeleted [item] = some item := rfl

/-- What is found again is the one item that was not there before. -/
theorem Trash.Works.filter_new (works : trash.Works) {bin bin' : Bin}
    (hpath : item.originalPath = path) (hnew : List.Perm (works.entries bin')
      ((item, content) :: works.entries bin))
    (hitems : List.Perm items ((works.entries bin').map Prod.fst)) {before : List TrashItem}
    (hbefore : List.Perm before ((works.entries bin).map Prod.fst)) :
    (items.filter fun new => decide (new.originalPath = path) &&
      !((before.filter fun old => decide (old.originalPath = path)).map TrashItem.id).contains
        new.id) = [item] := by
  have hnodup := (hnew.map fun entry => entry.1.id).nodup_iff.1 (works.nodup bin')
  rw [List.map_cons, List.nodup_cons] at hnodup
  have hall : List.Perm items (item :: before) :=
    hitems.trans ((hnew.map Prod.fst).trans (hbefore.symm.cons item))
  refine List.perm_singleton.1 ((hall.filter _).trans ?_)
  have hold : item.id ∉ before.map TrashItem.id := by
    rw [(hbefore.map TrashItem.id).mem_iff, List.map_map]
    exact hnodup.1
  rw [List.filter_cons_of_pos, List.filter_eq_nil_iff.2]
  · intro old hmem hkept
    rw [Bool.and_eq_true, decide_eq_true_eq, Bool.not_eq_true', List.contains_eq_mem,
      decide_eq_false_iff_not] at hkept
    refine hkept.2 (List.mem_map_of_mem (List.mem_filter.2 ⟨hmem, ?_⟩))
    exact decide_eq_true hkept.1
  · rw [Bool.and_eq_true, decide_eq_true_eq, Bool.not_eq_true', List.contains_eq_mem,
      decide_eq_false_iff_not]
    exact ⟨hpath, fun hmem => hold ((List.filter_sublist.map _).subset hmem)⟩

/-- What goes to the trash that works: it stood on the disk, and its token is its own id. -/
theorem Trash.Works.trashRestorable_eq (works : trash.Works) {front : FilePath} {name : String}
    (hfolder : disk.tree front ≠ none) (hthere : disk.tree (front ++ [name]) ≠ none) :
    ∃ item bin, item.originalPath = front ++ [name] ∧
      disk.trashRestorable trash (front ++ [name]) =
        .ok (some item.id, ⟨prune (front ++ [name]) disk.tree, bin⟩) ∧
      List.Perm (works.entries bin)
        ((item, below (front ++ [name]) disk.tree) :: works.entries disk.bin) := by
  obtain ⟨item, bin, hpath, hdelete, hnew⟩ := works.delete disk (front ++ [name])
    (List.append_ne_nil_of_right_ne_nil _ (List.cons_ne_nil _ _)) hthere
  obtain ⟨before, hlist, hbefore⟩ := works.list disk.bin
  obtain ⟨items, hlist', hitems⟩ := works.list bin
  refine ⟨item, bin, hpath, ?_, hnew⟩
  rw [FileDisk.trashRestorable, works.limited, if_pos rfl, trashOriginal_append,
    exists_iff.2 hfolder, if_pos rfl]
  simp only [hdelete, hlist, hlist', Except.toOption, Option.getD_some, Option.bind_some]
  rw [works.filter_new hpath hnew hitems hbefore, lastDeleted_singleton, Option.map_some]

theorem Trash.Works.exists_of_trashRestorable (works : trash.Works)
    {result : Option String × FileDisk Bin} (hok : disk.trashRestorable trash path = .ok result) :
    ∃ front name, path = front ++ [name] ∧ disk.tree front ≠ none ∧ disk.tree path ≠ none := by
  rw [FileDisk.trashRestorable, works.limited, if_pos rfl] at hok
  rcases List.eq_nil_or_concat path with rfl | ⟨front, name, rfl⟩
  · rw [trashOriginal_nil] at hok
    cases hok
  · rw [List.concat_eq_append] at hok ⊢
    refine ⟨front, name, rfl, fun hnone => ?_, fun hnone => ?_⟩
    · rw [trashOriginal_append, exists_eq_false.2 hnone, if_neg Bool.false_ne_true] at hok
      cases hok
    · obtain ⟨e, hdelete⟩ := works.missing disk _ hnone
      rw [hdelete] at hok
      split at hok
      · cases hok
      · cases hok

/-- An item in the trash is found there by its id and put back. -/
theorem Trash.Works.restoreFromTrash_eq (works : trash.Works)
    (hmem : (item, content) ∈ works.entries disk.bin) (hfree : disk.tree item.originalPath = none)
    (hfolder : ∃ front name, item.originalPath = front ++ [name] ∧ FolderAt disk.tree front) :
    ∃ bin, disk.restoreFromTrash trash item.id item.originalPath =
        .ok ⟨graft item.originalPath content disk.tree, bin⟩ ∧
      List.Perm (works.entries disk.bin) ((item, content) :: works.entries bin) := by
  obtain ⟨bin, hrestore, hperm⟩ := works.restoreAll disk item content hmem hfree hfolder
  obtain ⟨items, hlist, hitems⟩ := works.list disk.bin
  have hnodup : (items.map TrashItem.id).Nodup := by
    rw [(hitems.map TrashItem.id).nodup_iff, List.map_map]
    exact works.nodup disk.bin
  have hfind : items.find? (fun other => other.id = item.id) = some item :=
    find?_eq_of_nodup hnodup (hitems.mem_iff.2 (List.mem_map_of_mem hmem))
  refine ⟨bin, ?_, hperm⟩
  have hnot : disk.exists item.originalPath = false := exists_eq_false.2 hfree
  rw [FileDisk.restoreFromTrash, works.limited, if_pos rfl, hnot, if_neg Bool.false_ne_true, hlist]
  dsimp only
  rw [hfind]
  dsimp only
  rw [hnot, if_neg Bool.false_ne_true, hrestore]

end

/-! ## A trash that works -/

/-- The items of a trash, and what stood at their paths. -/
abbrev PlainBin :=
  { entries : List (TrashItem × FileTree) // (entries.map fun entry => entry.1.id).Nodup }

/-- An id that is longer than any in the trash. -/
def longId (entries : List (TrashItem × FileTree)) : String :=
  String.ofList (List.replicate ((entries.map fun entry => entry.1.id.length).sum + 1) 'x')

theorem longId_notMem (entries : List (TrashItem × FileTree)) :
    longId entries ∉ entries.map fun entry => entry.1.id := by
  intro h
  obtain ⟨entry, hentry, hid⟩ := List.mem_map.1 h
  have hle := List.le_sum_of_mem
    (List.mem_map_of_mem (f := fun entry : TrashItem × FileTree => entry.1.id.length) hentry)
  have hlength := congrArg String.length hid
  rw [longId, String.length_ofList, List.length_replicate] at hlength
  omega

namespace PlainBin

def add (bin : PlainBin) (path : FilePath) (content : FileTree) : PlainBin :=
  ⟨(⟨longId bin.1, path, bin.1.length⟩, content) :: bin.1,
    List.nodup_cons.2 ⟨longId_notMem bin.1, bin.2⟩⟩

def drop (bin : PlainBin) (id : String) : PlainBin :=
  ⟨bin.1.filter fun entry => entry.1.id ≠ id, bin.2.sublist (List.filter_sublist.map _)⟩

end PlainBin

def plainTrash : Trash PlainBin where
  limited := true
  list bin := .ok (bin.1.map Prod.fst)
  delete disk path :=
    if disk.exists path then
      .ok ⟨prune path disk.tree, PlainBin.add disk.bin path (below path disk.tree)⟩
    else .error noSuchFile
  restoreAll disk item :=
    if disk.exists item.originalPath then .error .restoreCollision
    else
      match disk.bin.1.find? fun entry => entry.1.id = item.id with
      | none => .error (.other noSuchFile)
      | some (_, content) =>
          .ok ⟨graft item.originalPath content disk.tree, PlainBin.drop disk.bin item.id⟩

/-- An entry of an id that no other has comes first up to order. -/
theorem perm_cons_drop {bin : PlainBin} {entry : TrashItem × FileTree} (hmem : entry ∈ bin.1) :
    List.Perm bin.1 (entry :: (PlainBin.drop bin entry.1.id).1) := by
  obtain ⟨entries, hnodup⟩ := bin
  obtain ⟨front, back, rfl⟩ := List.append_of_mem hmem
  have hapart : ∀ other ∈ front ++ back, other.1.id ≠ entry.1.id := by
    have hmiddle : List.Perm (front ++ entry :: back) (entry :: (front ++ back)) :=
      List.perm_middle
    have hperm := hmiddle.map fun entry : TrashItem × FileTree => entry.1.id
    have hnot := (List.nodup_cons.1 (hperm.nodup_iff.1 hnodup)).1
    intro other hother heq
    exact hnot (List.mem_map.2 ⟨other, hother, heq⟩)
  have hdrop : ((front ++ entry :: back).filter fun other => other.1.id ≠ entry.1.id) =
      front ++ back := by
    rw [List.filter_append, List.filter_cons_of_neg (by simp), ← List.filter_append]
    exact List.filter_eq_self.2 fun other hother => decide_eq_true (hapart other hother)
  exact (List.perm_middle.trans (hdrop ▸ .refl _))

def plainTrash_works : plainTrash.Works where
  limited := rfl
  entries := Subtype.val
  nodup := Subtype.property
  list bin := ⟨_, rfl, .refl _⟩
  delete disk path _ hthere := ⟨_, _, rfl, if_pos (exists_iff.2 hthere), .refl _⟩
  missing disk path hnone := by
    refine ⟨noSuchFile, if_neg ?_⟩
    rw [exists_eq_false.2 hnone]
    exact Bool.false_ne_true
  restoreAll disk item content hmem hfree _ := by
    have hfind : disk.bin.1.find? (fun entry => entry.1.id = item.id) = some (item, content) :=
      find?_eq_of_nodup disk.bin.2 hmem
    refine ⟨PlainBin.drop disk.bin item.id, ?_, perm_cons_drop hmem⟩
    change (if disk.exists item.originalPath then _ else _) = _
    rw [exists_eq_false.2 hfree, if_neg Bool.false_ne_true, hfind]

end Throng
