import Throng.App.Document
import Throng.Core.PathParts
import Throng.Lib.Rekey

/-!
# Documents that change their path

A rename, a move and the undo or redo of one take the open documents under the moved path
along: each gets its new path and is put under the key of it. Save As gives one document
a new path and key. The store is not asked whether the new key is taken.
-/

namespace Throng

open Text (Diff)

namespace Path

/-- `rest` below `base`. -/
def join (base : PathBuf) (rest : List String) : PathBuf :=
  base ++ (if base.toList.getLast? = some '/' then "" else "/") ++ "/".intercalate rest

/-- Where `path` is once `fromPath` has become `toPath`; `none` if it is not under it. -/
def rebase (fromPath toPath path : PathBuf) : Option PathBuf :=
  match (components path).dropPrefix? (components fromPath) with
  | none => none
  | some [] => some toPath
  | some rest => some (join toPath rest)

end Path

/-- What Save As finds out about the path it is given. -/
structure SaveTarget where
  path : PathBuf
  isAbsolute : Bool
  /-- The project it lies in, if the editor belongs to a sub-workspace. -/
  owner : Option String
  /-- The folder it lies in is there. -/
  parentIsDir : Bool
  isThere : Bool
  /-- How writing the document goes, and what its file's metadata are then. -/
  wrote : Except String Unit
  stamp : Option Stamp
  /-- The path's key before and after the document is written. -/
  keyBefore : String
  keyAfter : String

namespace Documents

/-- The open documents under `fromPath`, with their new paths. `order` is the order in which
the store lists its keys. -/
def moved (documents : Documents) (fromPath toPath : PathBuf) (order : List DocKey) :
    List (DocKey × PathBuf) :=
  order.filterMap fun key => do
    let doc ← documents.docs[key]?
    let path ← doc.path
    let path ← Path.rebase fromPath toPath path
    return (key, path)

/-- One document follows the move of its file. -/
def follow (documents : Documents) (keyFor : PathBuf → String) (stamp : PathBuf → Option Stamp)
    (moved : DocKey × PathBuf) : Documents :=
  let documents := match documents.docs[moved.1]? with
    | some doc =>
        { documents with
          docs := documents.docs.insert moved.1 (doc.movedTo moved.2 (stamp moved.2)) }
    | none => documents
  documents.rekey moved.1 (.file (keyFor moved.2))

/-- Something moved from `fromPath` to `toPath`: open documents follow it. -/
def followMove (documents : Documents) (keyFor : PathBuf → String)
    (stamp : PathBuf → Option Stamp) (fromPath toPath : PathBuf) (order : List DocKey) :
    Documents :=
  (documents.moved fromPath toPath order).foldl
    (fun documents moved => documents.follow keyFor stamp moved) documents

/-- Save As of the document `key`. The error is what the dialog then shows. -/
def saveAs (diff : Diff) (documents : Documents) (key : DocKey) (target : SaveTarget) :
    Except String Documents :=
  if !target.isAbsolute then .error "Enter a full path."
  else
    match target.owner with
    | some name =>
        .error ("That is inside \"" ++ name ++ "\". This editor belongs to a sub-workspace, " ++
          "which saves only outside projects.")
    | none =>
        if !target.parentIsDir then .error "That folder does not exist."
        else if target.isThere ∧ DocKey.file target.keyBefore ≠ key then
          .error "A file already exists there."
        else
          match documents.docs[key]? with
          | none => .ok documents
          | some doc =>
              (doc.saveTo diff (some target.path) target.wrote target.stamp).map fun saved =>
                { documents with docs := documents.docs.insert key saved }.rekey key
                  (.file target.keyAfter)

end Documents

/-- What gives open documents new paths: a rename or a move, its undo and its redo, which
the disk may refuse; or Save As. -/
inductive PathOp
  | relocate (accepted : Bool) (fromPath toPath : PathBuf) (keyFor : PathBuf → String)
      (stamp : PathBuf → Option Stamp)
  | saveAs (key : DocKey) (target : SaveTarget)

namespace PathOp

def apply (diff : Diff) (order : List DocKey) (documents : Documents) : PathOp → Documents
  | .relocate false _ _ _ _ => documents
  | .relocate true fromPath toPath keyFor stamp =>
      documents.followMove keyFor stamp fromPath toPath order
  | .saveAs key target =>
      match documents.saveAs diff key target with
      | .ok documents => documents
      | .error _ => documents

end PathOp

/-- Save As goes through: no check refuses the path, and the file is written. -/
def SaveTarget.Accepted (target : SaveTarget) (key : DocKey) : Prop :=
  target.isAbsolute = true ∧ target.owner = none ∧ target.parentIsDir = true ∧
    (target.isThere = true → DocKey.file target.keyBefore = key) ∧ target.wrote.isOk = true

instance (target : SaveTarget) (key : DocKey) : Decidable (target.Accepted key) :=
  inferInstanceAs (Decidable (_ ∧ _))

namespace Documents

open Rekey (Move)

/-- The move of a document's entry when its file moves. -/
def followed (keyFor : PathBuf → String) (stamp : PathBuf → Option Stamp)
    (moved : DocKey × PathBuf) : Move DocKey Document where
  key := moved.1
  dest := .file (keyFor moved.2)
  value doc := doc.movedTo moved.2 (stamp moved.2)

/-- The move of a document's entry when it is saved under another path. -/
def savedAs (diff : Diff) (key : DocKey) (target : SaveTarget) : Move DocKey Document where
  key := key
  dest := .file target.keyAfter
  value doc :=
    match doc.saveTo diff (some target.path) target.wrote target.stamp with
    | .ok saved => saved
    | .error _ => doc

end Documents

/-- The entries that an operation moves. -/
def PathOp.moves (diff : Diff) (order : List DocKey) (documents : Documents) :
    PathOp → List (Rekey.Move DocKey Document)
  | .relocate false _ _ _ _ => []
  | .relocate true fromPath toPath keyFor stamp =>
      (documents.moved fromPath toPath order).map (Documents.followed keyFor stamp)
  | .saveAs key target =>
      if target.Accepted key ∧ key ∈ documents.docs then [Documents.savedAs diff key target]
      else []

/-- The unsaved text of a document is its buffer's. -/
def Document.SameText (doc doc' : Document) : Prop := doc.buf.rope = doc'.buf.rope

theorem Document.exists_saveTo (diff : Diff) (doc : Document) (path : PathBuf)
    (stamp : Option Stamp) {wrote : Except String Unit} (h : wrote.isOk = true) :
    ∃ saved, doc.saveTo diff (some path) wrote stamp = .ok saved := by
  cases wrote with
  | error reason => cases h
  | ok u => exact ⟨_, rfl⟩

theorem Document.isOk_of_saveTo {diff : Diff} {doc saved : Document} {path : PathBuf}
    {stamp : Option Stamp} {wrote : Except String Unit}
    (h : doc.saveTo diff (some path) wrote stamp = .ok saved) : wrote.isOk = true := by
  cases wrote with
  | error reason => cases h
  | ok u => rfl

theorem Document.sameText_of_saveTo {diff : Diff} {doc saved : Document} {path : PathBuf}
    {wrote : Except String Unit} {stamp : Option Stamp}
    (h : doc.saveTo diff (some path) wrote stamp = .ok saved) : doc.SameText saved := by
  cases wrote with
  | error reason => cases h
  | ok u =>
      cases h
      rfl

namespace Documents

variable {diff : Diff} {documents : Documents} {order : List DocKey}
  {keyFor : PathBuf → String} {stamp : PathBuf → Option Stamp} {fromPath toPath : PathBuf}

/-- An entry that was just written moves like the one that was there. -/
theorem rekey_insert (documents : Documents) (key dest : DocKey) (doc : Document) :
    ({ documents with docs := documents.docs.insert key doc }.rekey key dest).docs =
      (documents.docs.erase key).insert dest doc := by
  have hget : (documents.docs.insert key doc)[key]? = some doc := by
    rw [Std.ExtTreeMap.getElem?_insert_self]
  have herase : (documents.docs.insert key doc).erase key = documents.docs.erase key := by
    refine Std.ExtTreeMap.ext_getElem? fun other => ?_
    by_cases hother : key = other <;>
      simp [Std.ExtTreeMap.getElem?_erase, Std.ExtTreeMap.getElem?_insert, hother]
  rw [rekey]
  dsimp only
  rw [hget]
  dsimp only
  rw [herase]

theorem follow_docs (documents : Documents) (moved : DocKey × PathBuf) :
    (documents.follow keyFor stamp moved).docs =
      (followed keyFor stamp moved).apply documents.docs := by
  rw [follow, Rekey.Move.apply]
  cases hdoc : documents.docs[moved.1]? with
  | none => simp [rekey, followed, hdoc]
  | some doc =>
      dsimp only
      rw [rekey_insert]
      simp [followed, hdoc]

theorem foldl_follow_docs (documents : Documents) (moved : List (DocKey × PathBuf)) :
    (moved.foldl (fun documents moved => documents.follow keyFor stamp moved) documents).docs =
      Rekey.run documents.docs (moved.map (followed keyFor stamp)) := by
  induction moved generalizing documents with
  | nil => rfl
  | cons entry moved ih =>
      rw [List.foldl_cons, ih, follow_docs]
      rfl

theorem mem_moved {entry : DocKey × PathBuf} :
    entry ∈ documents.moved fromPath toPath order ↔
      entry.1 ∈ order ∧ ∃ doc path, documents.docs[entry.1]? = some doc ∧
        doc.path = some path ∧ Path.rebase fromPath toPath path = some entry.2 := by
  obtain ⟨key, dest⟩ := entry
  rw [moved, List.mem_filterMap]
  constructor
  · rintro ⟨other, hother, h⟩
    simp only [Option.bind_eq_bind, Option.bind_eq_some_iff, Option.pure_def, Option.some.injEq,
      Prod.mk.injEq] at h
    obtain ⟨doc, hdoc, path, hpath, path', hrebase, rfl, rfl⟩ := h
    exact ⟨hother, doc, path, hdoc, hpath, hrebase⟩
  · rintro ⟨hkey, doc, path, hdoc, hpath, hrebase⟩
    exact ⟨key, hkey, by simp [hdoc, hpath, hrebase]⟩

theorem map_fst_moved_sublist (documents : Documents) (fromPath toPath : PathBuf)
    (order : List DocKey) :
      ((documents.moved fromPath toPath order).map Prod.fst).Sublist order := by
  induction order with
  | nil => exact .slnil
  | cons key order ih =>
      rw [moved, List.filterMap_cons]
      split
      · exact ih.cons key
      · next entry h =>
          simp only [Option.bind_eq_bind, Option.bind_eq_some_iff, Option.pure_def,
            Option.some.injEq] at h
          obtain ⟨doc, -, path, -, path', -, rfl⟩ := h
          exact ih.cons_cons key

/-- Save As changes the store only if it goes through. -/
theorem accepted_of_saveAs {key : DocKey} {target : SaveTarget} {after : Documents}
    (h : documents.saveAs diff key target = .ok after) (hne : after.docs ≠ documents.docs) :
    target.Accepted key ∧ key ∈ documents.docs := by
  rw [saveAs] at h
  split at h
  · cases h
  next habsolute =>
    split at h
    · cases h
    next howner =>
      split at h
      · cases h
      next hparent =>
        split at h
        · cases h
        next hthere =>
          split at h
          · cases h
            exact absurd rfl hne
          next doc hdoc =>
            cases hsave : doc.saveTo diff (some target.path) target.wrote target.stamp with
            | error reason =>
                rw [hsave] at h
                cases h
            | ok saved =>
                refine ⟨⟨by simpa using habsolute, howner, by simpa using hparent, ?_,
                  Document.isOk_of_saveTo hsave⟩, Rekey.mem_of_getElem? hdoc⟩
                intro hisThere
                by_contra hkey
                exact hthere ⟨hisThere, hkey⟩

end Documents

namespace PathOp

variable {diff : Diff} {documents : Documents} {order : List DocKey}

theorem saveAs_docs (diff : Diff) (documents : Documents) (key : DocKey) (target : SaveTarget)
    (order : List DocKey) :
    ((saveAs key target).apply diff order documents).docs =
      Rekey.run documents.docs ((saveAs key target).moves diff order documents) := by
  rw [moves]
  split
  · next h =>
      obtain ⟨⟨habsolute, howner, hparent, hthere, hwrote⟩, hkey⟩ := h
      obtain ⟨doc, hdoc⟩ := Rekey.exists_getElem? hkey
      obtain ⟨saved, hsaved⟩ :=
        Document.exists_saveTo diff doc target.path target.stamp hwrote
      have hsaveAs : documents.saveAs diff key target =
          .ok ({ documents with docs := documents.docs.insert key saved }.rekey key
            (.file target.keyAfter)) := by
        rw [Documents.saveAs, habsolute, howner, hparent, hdoc]
        simp only [Bool.not_true, Bool.false_eq_true, if_false]
        rw [if_neg fun hrefused => hrefused.2 (hthere hrefused.1)]
        simp only [hsaved, Except.map]
      rw [apply, hsaveAs]
      dsimp only
      rw [Documents.rekey_insert, Rekey.run, List.foldl_cons, List.foldl_nil, Rekey.Move.apply]
      simp only [Documents.savedAs, hdoc, hsaved]
  · next h =>
      have hdocs : ∀ after, documents.saveAs diff key target = .ok after →
          after.docs = documents.docs := by
        intro after hafter
        by_contra hne
        exact h (Documents.accepted_of_saveAs hafter hne)
      rw [apply]
      split
      · next after hafter => exact hdocs after hafter
      · rfl

theorem apply_docs (diff : Diff) (order : List DocKey) (documents : Documents)
    (operation : PathOp) :
    (operation.apply diff order documents).docs =
      Rekey.run documents.docs (operation.moves diff order documents) := by
  cases operation with
  | relocate accepted fromPath toPath keyFor stamp =>
      cases accepted with
      | false => rfl
      | true => exact Documents.foldl_follow_docs documents _
  | saveAs key target => exact saveAs_docs diff documents key target order

theorem nodup_moves (h : order.Perm documents.docs.keys) (operation : PathOp) :
    ((operation.moves diff order documents).map Rekey.Move.key).Nodup := by
  have hnodup : order.Nodup := h.nodup_iff.mpr (Rekey.nodup_keys documents.docs)
  cases operation with
  | relocate accepted fromPath toPath keyFor stamp =>
      cases accepted with
      | false => exact List.nodup_nil
      | true =>
          rw [moves, List.map_map]
          exact hnodup.sublist
            (Documents.map_fst_moved_sublist documents fromPath toPath order)
  | saveAs key target =>
      rw [moves]
      split
      · exact List.nodup_singleton _
      · exact List.nodup_nil

theorem moves_mem (operation : PathOp) {move : Rekey.Move DocKey Document}
    (h : move ∈ operation.moves diff order documents) :
    move.key ∈ documents.docs ∧ ∀ doc : Document, doc.SameText (move.value doc) := by
  cases operation with
  | relocate accepted fromPath toPath keyFor stamp =>
      cases accepted with
      | false => cases h
      | true =>
          obtain ⟨entry, hentry, rfl⟩ := List.mem_map.mp h
          obtain ⟨-, doc, -, hdoc, -⟩ := Documents.mem_moved.mp hentry
          exact ⟨Rekey.mem_of_getElem? hdoc, fun _ => rfl⟩
  | saveAs key target =>
      rw [moves] at h
      split at h
      · next hkey =>
          rw [List.mem_singleton] at h
          subst h
          refine ⟨hkey.2, fun doc => ?_⟩
          dsimp only [Documents.savedAs]
          split
          · next saved hsaved => exact Document.sameText_of_saveTo hsaved
          · rfl
      · cases h

/-- An operation that gives documents new paths keeps every open document, with its text,
exactly if no target key belongs to a document that stays where it is or is still to move,
and no two targets are the same. -/
theorem documentsKept_iff (diff : Diff) (documents : Documents) (order : List DocKey)
    (h : order.Perm documents.docs.keys) (operation : PathOp) :
    Rekey.Kept Document.SameText documents.docs (operation.apply diff order documents).docs ↔
      Rekey.Free documents.docs (operation.moves diff order documents) := by
  rw [apply_docs]
  refine Rekey.kept_run_iff (fun _ => rfl) ?_ (nodup_moves h operation) ?_ ?_
  · intro a b c hab hbc
    exact hab.trans hbc
  · exact fun move hmove => (moves_mem operation hmove).1
  · exact fun move hmove => (moves_mem operation hmove).2

/-- `/a` is open, and so is `/b`, whose file is gone and whose text was never saved. -/
def oneGone : Documents where
  docs := ((∅ : Std.ExtTreeMap DocKey Document).insert (.file "/a")
    { Document.untitled .lf with path := some "/a" }).insert (.file "/b")
    ((Documents.gone "/b" .lf).restoreUnsaved ['k'])
  languages := ∅
  recovered := ∅

theorem documentsKept_renamed :
    Rekey.Kept Document.SameText oneGone.docs
      ((relocate true "/a" "/c" id fun _ => none).apply (fun _ _ => []) [.file "/a", .file "/b"]
        oneGone).docs :=
  (documentsKept_iff _ oneGone _ (by decide +kernel) _).mpr (by decide +kernel)

/-- Renaming `/a` to the free name `/b` drops the text kept of the deleted `/b`. -/
theorem not_documentsKept :
    (oneGone.docs[DocKey.file "/b"]?.any fun doc => doc.isDirty.1 && doc.buf.rope == ['k']) = true ∧
      ¬ Rekey.Kept Document.SameText oneGone.docs
        ((relocate true "/a" "/b" id fun _ => none).apply (fun _ _ => [])
          [.file "/a", .file "/b"] oneGone).docs := by
  refine ⟨by decide +kernel, fun hkept => ?_⟩
  exact absurd hkept.size_le (by decide +kernel)

end PathOp

end Throng
