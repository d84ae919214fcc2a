import Throng.Core.Text
import Throng.Core.Ids
import Throng.Editor.Doc

/-!
# Documents

A document is a text with its history, how it is encoded on disk and how the file on
disk relates to it. There is one for each file, however many panels show it.

The file system is outside: a function that looks at a path is told what it finds
there, and one that writes whether the write went through.
-/

namespace Throng

open Editor (EditKind History Rope Selection TextDoc Transaction)
open Text (Decoded DecodeError Diff LineEnding TextFormat)

/-- What we last saw on disk: enough to tell our own write from someone else's. -/
structure Stamp where
  len : Nat
  modified : Option Nat
deriving DecidableEq, Repr

/-- How the file on disk relates to the buffer. -/
inductive Disk
  | inSync
  | changed
  | deleted
deriving DecidableEq, Repr

/-- What is found at a path: the stamp if its metadata can be read, whether it exists,
and its bytes or the error of reading them. -/
structure Look where
  stamp : Except String Stamp
  isThere : Bool
  bytes : Except String Bytes

inductive OpenError
  | tooLarge (size max : Nat)
  | notText (reason : String)
  | io (reason : String)
deriving DecidableEq, Repr

/-- `DecodeError`'s message. -/
def decodeErrorText : DecodeError → String
  | .binary => "This looks like a binary file."
  | .invalidUtf8 offset => "This file is not valid UTF-8 (first bad byte at offset " ++
      toString offset ++ "). throng will not open it, so it cannot be re-encoded by accident."
  | .invalidUtf16 => "This file is not valid UTF-16."

/-- `OpenError`'s message. -/
def OpenError.text : OpenError → String
  | .tooLarge size max => "This file is " ++ toString (size / 1048576) ++ " MB, larger than the " ++
      toString (max / 1048576) ++ " MB editor limit (editor.maxOpenFileBytes)."
  | .notText reason => reason
  | .io reason => reason

/-- Read and decode a text file, with its stamp. -/
def readFile (look : Look) (maxBytes : Nat) (defaultEol : LineEnding) :
    Except OpenError (Decoded × Option Stamp) :=
  match look.stamp with
  | .error reason => .error (.io reason)
  | .ok stamp =>
      if stamp.len > maxBytes then .error (.tooLarge stamp.len maxBytes)
      else
        match look.bytes with
        | .error reason => .error (.io reason)
        | .ok bytes =>
            match Text.decode bytes defaultEol with
            | .error reason => .error (.notText (decodeErrorText reason))
            | .ok decoded => .ok (decoded, some stamp)

/-- What a recovery file holds. -/
structure Record where
  format : Nat
  /-- The document's real path; `none` for a document never saved. -/
  path : Option String
  /-- The panel an untitled document belongs to. -/
  untitled : Option PanelId
  text : List Char
  history : Option History
  language : Option String
  wrap : Option Bool
deriving DecidableEq

structure Document where
  path : Option String
  buf : TextDoc
  format : TextFormat
  disk : Disk
  stamp : Option Stamp
  error : Option String
  language : Option String
  wrap : Option Bool

namespace Document

/-- A new, never-saved document. -/
def untitled (eol : LineEnding) : Document :=
  { path := none
    buf := TextDoc.new []
    format := { encoding := .utf8 false, eol := eol, mixed := none }
    disk := .inSync
    stamp := none
    error := none
    language := none
    wrap := none }

/-- Open a file. -/
def openFile (path : String) (look : Look) (maxBytes : Nat) (defaultEol : LineEnding) :
    Except OpenError Document :=
  (readFile look maxBytes defaultEol).map fun read =>
    { untitled defaultEol with
      buf := TextDoc.new read.1.text
      format := read.1.format
      stamp := read.2
      path := some path }

/-- Unsaved: the text differs from the disk copy, or the file was deleted. -/
def isDirty (doc : Document) : Bool × Document :=
  let dirty := doc.buf.isDirty
  (dirty.1 || doc.disk = .deleted, { doc with buf := dirty.2 })

/-- Put recovered unsaved text back. -/
def restoreUnsaved (doc : Document) (text : List Char) : Document :=
  { doc with buf := doc.buf.restoreUnsaved text }

def setLanguage (doc : Document) (name : Option String) : Document := { doc with language := name }

/-- Put a recovery record's text, history and choices back. -/
def restore (doc : Document) (record : Record) : Document :=
  let doc := doc.restoreUnsaved record.text
  let doc := match record.history with
    | some history => { doc with buf := doc.buf.setHistory history }
    | none => doc
  let doc := if record.language.isSome then doc.setLanguage record.language else doc
  { doc with wrap := record.wrap }

/-- What a save writes. -/
def encoded (diff : Diff) (doc : Document) : Bytes := Text.encode diff doc.buf.rope doc.format

/-- Save to `path`, or the document's own path. `wrote` says how the write of
`doc.encoded` went, `stamp` what the file's metadata are after it. -/
def saveTo (diff : Diff) (doc : Document) (path : Option String) (wrote : Except String Unit)
    (stamp : Option Stamp) : Except String Document :=
  match path.or doc.path with
  | none => .error "Choose where to save."
  | some target =>
      wrote.map fun _ =>
        { doc with
          format := match Text.decode (doc.encoded diff) doc.format.eol with
            | .ok decoded => decoded.format
            | .error _ => doc.format
          buf := doc.buf.markSaved doc.buf.rope
          path := some target
          stamp := stamp
          disk := .inSync
          error := none }

def reloadFrom (doc : Document) (fresh : Decoded) : Document :=
  { doc with buf := doc.buf.reset fresh.text, format := fresh.format, disk := .inSync }

/-- The content found on disk, read because its stamp is new or the file is back. -/
def follow (doc : Document) (fresh : Decoded) (stamp : Option Stamp) : Document :=
  let doc := { doc with stamp := stamp }
  if doc.buf.saved = fresh.text then
    -- our own save, or a touch that changed nothing
    let dirty := doc.buf.isDirty
    if doc.disk = .deleted then
      if dirty.1 then { doc with buf := dirty.2, disk := .changed }
      else { doc with buf := dirty.2, disk := .inSync, format := fresh.format }
    else { doc with disk := .inSync, format := fresh.format }
  else
    let dirty := doc.buf.isDirty
    let doc := { doc with buf := dirty.2 }
    if dirty.1 then { doc with disk := .changed } else doc.reloadFrom fresh

/-- Compare with the disk after a change notification. -/
def checkDisk (doc : Document) (look : Look) (maxBytes : Nat) : Document :=
  if doc.path.isNone then doc
  else
    match look.stamp with
    | .error _ => if look.isThere then doc else { doc with disk := .deleted, stamp := none }
    | .ok stamp =>
        if some stamp = doc.stamp ∧ doc.disk ≠ .deleted then doc
        else
          match readFile look maxBytes doc.format.eol with
          | .error _ => doc
          | .ok (fresh, stamp) => doc.follow fresh stamp

/-- Replace the buffer with the disk's content, discarding edits and history. -/
def reload (doc : Document) (look : Look) (maxBytes : Nat) : Except String Document :=
  match doc.path with
  | none => .error "This document has never been saved."
  | some _ =>
      match readFile look maxBytes doc.format.eol with
      | .error reason => .error reason.text
      | .ok (fresh, stamp) => .ok ({ doc with stamp := stamp }.reloadFrom fresh)

/-- Keep the edits and stop warning: the next save overwrites the disk. -/
def keepMine (doc : Document) (stamp : Option Stamp) : Document :=
  { doc with stamp := if doc.path.isSome then stamp else doc.stamp, disk := .inSync }

/-- The file was moved or renamed inside throng: follow it. -/
def movedTo (doc : Document) (path : String) (stamp : Option Stamp) : Document :=
  { doc with stamp := stamp, path := some path }

/-- Apply an edit made outside the widget as one undo step. -/
def transact (doc : Document) (before : Selection) (tx : Transaction) (nowMs : Nat) :
    Option (Document × Option Editor.Applied) :=
  (doc.buf.edit tx before (before.map tx) .other nowMs).map fun result =>
    ({ doc with buf := result.1 }, result.2)

end Document

/-- Where a document lives in the store. -/
inductive DocKey
  | file (key : String)
  | untitled (panel : PanelId)
deriving DecidableEq, Repr

namespace DocKey

def isUntitled : DocKey → Bool
  | .file _ => false
  | .untitled _ => true

def name : DocKey → String
  | .file key => key
  | .untitled _ => ""

def number : DocKey → Nat
  | .file _ => 0
  | .untitled panel => panel.uuid

instance : Ord DocKey :=
  ⟨compareLex (compareOn isUntitled) (compareLex (compareOn name) (compareOn number))⟩

instance : Std.TransOrd DocKey :=
  inferInstanceAs (Std.TransCmp
    (compareLex (compareOn isUntitled) (compareLex (compareOn name) (compareOn number))))

instance : Std.LawfulEqOrd DocKey where
  compare_self := by
    intro a
    exact Std.ReflCmp.compare_self
  eq_of_compare := by
    intro a b h
    have h' : compareLex (compareOn isUntitled) (compareLex (compareOn name) (compareOn number))
        a b = .eq := h
    simp only [compareLex, compareOn, Ordering.then_eq_eq] at h'
    obtain ⟨hkind, hname, hnumber⟩ := h'
    rw [Std.LawfulEqCmp.compare_eq_iff_eq] at hkind hname hnumber
    cases a with
    | file a =>
        cases b with
        | file b => exact congrArg DocKey.file hname
        | untitled b => cases hkind
    | untitled a =>
        cases b with
        | file b => cases hkind
        | untitled b =>
            obtain ⟨a⟩ := a
            obtain ⟨b⟩ := b
            exact congrArg (fun uuid => DocKey.untitled ⟨uuid⟩) hnumber

end DocKey

/-- Every open document, and what is kept for those that are not open. -/
structure Documents where
  docs : Std.ExtTreeMap DocKey Document
  /-- Hand-picked languages, saved against their files. -/
  languages : Std.ExtTreeMap DocKey String
  /-- Unsaved work recovered at launch, put back when its editor opens. -/
  recovered : Std.ExtTreeMap DocKey Record

namespace Documents

/-- The document a path opens as when its file is gone but its unsaved text is not. -/
def gone (path : String) (eol : LineEnding) : Document :=
  { Document.untitled eol with path := some path, disk := .deleted }

/-- Open the document for a path, with the record that waits for it. -/
def openWith (record : Option Record) (path : String) (look : Look) (maxBytes : Nat)
    (eol : LineEnding) : Except OpenError Document :=
  match Document.openFile path look maxBytes eol with
  | .ok doc => .ok doc
  | .error reason => if record.isSome && !look.isThere then .ok (gone path eol) else .error reason

/-- A document just opened, with its language and recovered text. -/
def prepared (documents : Documents) (key : DocKey) (record : Option Record) (doc : Document) :
    Document :=
  let doc := match documents.languages[key]? with
    | some language => doc.setLanguage (some language)
    | none => doc
  match record with
  | some record => doc.restore record
  | none => doc

/-- Open (or find) the document for a path, whose key is `key`. -/
def ensureFile (documents : Documents) (key : DocKey) (path : String) (look : Look)
    (maxBytes : Nat) (eol : LineEnding) : Documents × Except OpenError DocKey :=
  if documents.docs.contains key then (documents, .ok key)
  else
    let record := documents.recovered[key]?
    let documents := { documents with recovered := documents.recovered.erase key }
    match openWith record path look maxBytes eol with
    | .error reason => (documents, .error reason)
    | .ok doc =>
        ({ documents with
            docs := documents.docs.insert key (documents.prepared key record doc) }, .ok key)

def ensureUntitled (documents : Documents) (panel : PanelId) (eol : LineEnding) :
    Documents × DocKey :=
  let key := DocKey.untitled panel
  if documents.docs.contains key then (documents, key)
  else
    let doc := match documents.recovered[key]? with
      | some record => (Document.untitled eol).restore record
      | none => Document.untitled eol
    ({ documents with
        docs := documents.docs.insert key doc
        recovered := documents.recovered.erase key }, key)

/-- Move a document to a new key (Save As on an untitled document, a rename). -/
def rekey (documents : Documents) (key dest : DocKey) : Documents :=
  match documents.docs[key]? with
  | some doc => { documents with docs := (documents.docs.erase key).insert dest doc }
  | none => documents

def remove (documents : Documents) (key : DocKey) : Documents :=
  { documents with docs := documents.docs.erase key }

end Documents

end Throng
