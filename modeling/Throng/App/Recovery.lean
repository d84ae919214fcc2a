import Std.Data.ExtTreeSet
import Throng.App.Document
import Throng.Lib.Sweep
import Throng.Lib.Utf8

/-!
# Crash recovery of unsaved edits

Every document with unsaved changes has a recovery file holding its text and, unless
the user turned it off, its undo history. A document that becomes clean, is closed or
is saved loses its file. The files are written by a thread of their own, one job after
the other; the folder is told here as that thread leaves it once it has done every job
sent to it, and a job may fail.
-/

namespace Throng

/-- Quiet time after an edit before the recovery file is written, in milliseconds. -/
def debounceMs : Nat := 400

/-- Undo history kept per document in its recovery file. -/
def historyBytes : Nat := 1048576

/-- The format a recovery file is written in. -/
def recoveryFormat : Nat := 1

/-- The document key a record restores; `keyFor` resolves a path to the name of its key. -/
def Record.key (keyFor : String → String) (record : Record) : Option DocKey :=
  match record.path, record.untitled with
  | some path, _ => some (.file (keyFor path))
  | none, some panel => some (.untitled panel)
  | none, none => none

/-- FNV-1a: stable across runs and platforms. -/
def fnv1a (bytes : Bytes) : UInt64 :=
  bytes.foldl (fun hash byte => (hash ^^^ byte.toUInt64) * 0x100000001b3) 0xcbf29ce484222325

def hexDigit (n : Nat) : Char := if n < 10 then Char.ofNat (48 + n) else Char.ofNat (87 + n)

/-- The last `width` hexadecimal digits of a number. -/
def hex : Nat → Nat → List Char
  | 0, _ => []
  | width + 1, n => hex width (n / 16) ++ [hexDigit (n % 16)]

/-- A UUID as it is displayed. -/
def PanelId.display (panel : PanelId) : List Char :=
  let digits := hex 32 panel.uuid
  digits.take 8 ++ ['-'] ++ (digits.drop 8).take 4 ++ ['-'] ++ (digits.drop 12).take 4 ++ ['-'] ++
    (digits.drop 16).take 4 ++ ['-'] ++ digits.drop 20

/-- What a key's file name is the hash of. -/
def DocKey.text : DocKey → List Char
  | .file key => "file:".toList ++ key.toList
  | .untitled panel => "untitled:".toList ++ panel.display

/-- A stable file name for a document key. -/
def fileName (key : DocKey) : String :=
  String.ofList (hex 16 (fnv1a (Utf8.encode key.text)).toNat) ++ ".json"

/-- The recovery folder: its files, and the record each holds, if it holds one. -/
abbrev Folder := Std.ExtTreeMap String (Option Record)

namespace Folder

/-- Remove a file; a `stuck` one stays. -/
def removeFile (stuck : List String) (folder : Folder) (name : String) : Folder :=
  if name ∈ stuck then folder else folder.erase name

/-- The record a file holds, in the format of today. -/
def read (folder : Folder) (name : String) : Option Record :=
  (folder[name]?.join).filter fun record => record.format = recoveryFormat

/-- Every record on disk, read in the order of `listing`. Unreadable files are removed:
they cannot be restored. -/
def loadAll (stuck : List String) (folder : Folder) (listing : List String) :
    Folder × List Record :=
  (listing.foldl (fun left name =>
      if (folder.read name).isSome then left else left.removeFile stuck name) folder,
    listing.filterMap folder.read)

def removeMatching (stuck : List String) (folder : Folder) (pred : Record → Bool) : Folder :=
  folder.keys.foldl (fun left name =>
    if (folder[name]?.join).any pred then left.removeFile stuck name else left) folder

/-- Delete one record whose document nothing refers to. -/
def discard (stuck : List String) (folder : Folder) (record : Record) : Folder :=
  match record.path, record.untitled with
  | some path, _ => folder.removeMatching stuck fun other => other.path = some path
  | none, some panel => folder.removeFile stuck (fileName (.untitled panel))
  | none, none => folder

/-- Delete the records whose documents nothing refers to (the reconcile at launch). -/
def reconcile (stuck : List String) (folder : Folder) (records : List Record)
    (keep : Record → Bool) : Folder :=
  records.foldl (fun left record => if keep record then left else left.discard stuck record) folder

/-- Rewrite every record without its history; a `broken` file cannot be written. -/
def stripHistories (broken : List String) (folder : Folder) : Folder :=
  folder.keys.foldl (fun left name =>
    match folder[name]? with
    | some (some record) =>
        if record.history.isSome ∧ name ∉ broken then
          left.insert name (some { record with history := none })
        else left
    | _ => left) folder

end Folder

/-- What the writer thread is sent. -/
inductive Job
  | write (target : String) (record : Record)
  | delete (target : String)
  | stripHistories
deriving DecidableEq

/-- One job of the writer thread; it cannot write or delete a `broken` file. -/
def Job.perform (broken : List String) (folder : Folder) : Job → Folder
  | .write target record => if target ∈ broken then folder else folder.insert target (some record)
  | .delete target => folder.removeFile broken target
  | .stripHistories => folder.stripHistories broken

/-- The writer thread: every job sent to it, in order. -/
def writer (broken : List String) (folder : Folder) (jobs : List Job) : Folder :=
  jobs.foldl (Job.perform broken) folder

/-- Writes recovery files and remembers what it wrote. -/
structure Recovery where
  /-- The version each document's file was last written at. -/
  written : Std.ExtTreeMap DocKey Nat
  /-- When each document last changed, for the debounce. -/
  changed : Std.ExtTreeMap DocKey (Nat × Nat)
  /-- Records left by the last session, whose documents may not be open yet. -/
  adopted : Std.ExtTreeSet DocKey

/-- A pass of `tick` over the documents: the recovery, the jobs sent, and how long until
a pending write is due. -/
structure Pass where
  recovery : Recovery
  jobs : List Job
  next : Option Nat

/-- The number a document's write is remembered by. -/
def Document.number (doc : Document) : Nat :=
  doc.buf.version + if doc.disk = .deleted then 1 else 0

/-- The record a document's recovery file is written with. -/
def Document.pending (persist : Bool) (key : DocKey) (doc : Document) : Record where
  format := recoveryFormat
  path := doc.path
  untitled := match key with
    | .untitled panel => some panel
    | .file _ => none
  text := doc.buf.rope
  history := if persist then some (doc.buf.history.trimmedTo historyBytes) else none
  language := doc.language
  wrap := doc.wrap

namespace Recovery

def new : Recovery where
  written := ∅
  changed := ∅
  adopted := ∅

/-- Since when a document has had the number it has, as far as was noticed. -/
def since (entry : Option (Nat × Nat)) (number now : Nat) : Nat :=
  match entry with
  | some (number', noticed) => if number' = number then noticed else now
  | none => now

/-- Bring one document's recovery file up to date. -/
def tickDoc (now : Nat) (persist flush : Bool) (pass : Pass) (key : DocKey) (doc : Document) :
    Pass :=
  let recovery := pass.recovery
  let number := doc.number
  if doc.isDirty.1 = false then
    { pass with
      recovery :=
        { written := recovery.written.erase key
          changed := recovery.changed.erase key
          adopted := recovery.adopted.erase key }
      jobs := if recovery.adopted.contains key || recovery.written.contains key then
          pass.jobs ++ [.delete (fileName key)]
        else pass.jobs }
  else if recovery.written[key]? = some number then pass
  else
    let noticed := since recovery.changed[key]? number now
    let recovery := { recovery with changed := recovery.changed.insert key (number, noticed) }
    let quiet := now - noticed
    if flush = false ∧ quiet < debounceMs then
      let wait := debounceMs - quiet
      { pass with
        recovery := recovery
        next := some (match pass.next with
          | some next => min next wait
          | none => wait) }
    else
      { pass with
        recovery :=
          { recovery with
            written := recovery.written.insert key number
            adopted := recovery.adopted.erase key }
        jobs := pass.jobs ++ [.write (fileName key) (doc.pending persist key)] }

/-- Forget a document's record now. -/
def forget (pass : Pass) (key : DocKey) : Pass :=
  { pass with
    recovery :=
      { pass.recovery with
        written := pass.recovery.written.erase key
        changed := pass.recovery.changed.erase key }
    jobs := pass.jobs ++ [.delete (fileName key)] }

/-- The documents' turns, in the order the store yields them. -/
def tickDocs (docs : Std.ExtTreeMap DocKey Document) (order : List DocKey) (now : Nat)
    (persist flush : Bool) (pass : Pass) : Pass :=
  order.foldl (fun pass key =>
    match docs[key]? with
    | some doc => tickDoc now persist flush pass key doc
    | none => pass) pass

/-- Bring the recovery files up to date with the documents: write dirty ones that have been
quiet for long enough (or all, when `flush`), delete clean or closed ones. -/
def tick (recovery : Recovery) (docs : Std.ExtTreeMap DocKey Document) (order : List DocKey)
    (now : Nat) (persist flush : Bool) : Pass :=
  let pass := tickDocs docs order now persist flush { recovery, jobs := [], next := none }
  -- documents closed since the last tick lose their files
  let gone := pass.recovery.written.keys.filter fun key => !docs.contains key
  gone.foldl forget pass

/-- Take charge of a record the last session left. -/
def adopt (recovery : Recovery) (key : DocKey) : Recovery :=
  { recovery with adopted := recovery.adopted.insert key }

/-- The history setting was turned off: every record on disk loses its history now, and
open documents are rewritten without it. -/
def dropHistories (recovery : Recovery) : Recovery × List Job :=
  ({ recovery with written := ∅ }, [.stripHistories])

end Recovery

/-- What `start_recovery` leaves: the folder, the recovery, and the records that wait. -/
structure Launch where
  folder : Folder
  recovery : Recovery
  recovered : Std.ExtTreeMap DocKey Record

/-- A record as it waits for its editor. -/
def Record.waiting (history : Bool) (record : Record) : Record :=
  { record with history := if history then record.history else none }

/-- Take one record over. -/
def Launch.adopt (keyFor : String → String) (shown : DocKey → Bool) (history : Bool)
    (launch : Launch) (record : Record) : Launch :=
  match (record.key keyFor).filter shown with
  | some key =>
      { launch with
        recovery := launch.recovery.adopt key
        recovered := launch.recovered.insert key (record.waiting history) }
  | none => launch

/-- Load last session's unsaved edits, to be put back as their editors open, and delete
the ones no saved layout still shows. -/
def startRecovery (keyFor : String → String) (shown : DocKey → Bool) (history : Bool)
    (stuck : List String) (folder : Folder) (listing : List String) : Launch :=
  let loaded := folder.loadAll stuck listing
  let folder := loaded.1.reconcile stuck loaded.2 fun record => (record.key keyFor).any shown
  loaded.2.foldl (Launch.adopt keyFor shown history)
    { folder, recovery := .new, recovered := ∅ }

end Throng
