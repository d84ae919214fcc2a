import Throng.App.RecoveryTick
import Throng.Lib.Machine

/-!
# Recovery over whole runs

The machine below launches the app on any recovery folder and then opens, edits, saves,
moves and closes documents, looks at the disk and ticks, in any order. Beside the app it
remembers where each record in the folder comes from: the last session, or one opening of
a document at one version. A record of an open document at its present version holds its
present text, so what a tick skips is right as long as its number stands for that version.
-/

namespace Throng

open Editor (EditKind Selection TextDoc Transaction)
open Text (Diff LineEnding)

/-- A later state of the same document: its text changes only with its version. -/
structure Document.Follows (doc doc' : Document) : Prop where
  version : doc.buf.version ≤ doc'.buf.version
  text : doc'.buf.version = doc.buf.version → doc'.buf.rope = doc.buf.rope

namespace Document

theorem Follows.refl (doc : Document) : Follows doc doc := ⟨Nat.le_refl _, fun _ => rfl⟩

theorem Follows.of_lt {doc doc' : Document} (h : doc.buf.version < doc'.buf.version) :
    Follows doc doc' := ⟨Nat.le_of_lt h, fun heq => absurd heq (Nat.ne_of_gt h)⟩

theorem Follows.of_eq {doc doc' : Document} (hversion : doc'.buf.version = doc.buf.version)
    (hrope : doc'.buf.rope = doc.buf.rope) : Follows doc doc' :=
  ⟨Nat.le_of_eq hversion.symm, fun _ => hrope⟩

theorem version_of_apply {buf buf' : TextDoc} {tx : Transaction} {applied : Editor.Applied}
    (h : buf.apply tx = some (buf', applied)) : buf'.version = buf.version + 1 := by
  unfold TextDoc.apply at h
  rw [Option.map_eq_some_iff] at h
  obtain ⟨state, -, h⟩ := h
  obtain rfl : (buf.applied tx state).1 = buf' := congrArg Prod.fst h
  rfl

/-- An edit made in a view. -/
def edited (tx : Transaction) (before after : Selection) (kind : EditKind) (nowMs : Nat)
    (doc : Document) : Option Document :=
  (doc.buf.edit tx before after kind nowMs).map fun result => { doc with buf := result.1 }

def undone (doc : Document) : Option Document :=
  doc.buf.undo.map fun result => { doc with buf := result.1 }

def redone (doc : Document) : Option Document :=
  doc.buf.redo.map fun result => { doc with buf := result.1 }

/-- A save, or the error it leaves on the document. -/
def saved (diff : Diff) (wrote : Except String Unit) (stamp : Option Stamp) (doc : Document) :
    Document :=
  match doc.saveTo diff none wrote stamp with
  | .ok doc' => doc'
  | .error reason => { doc with error := some reason }

def reloaded (look : Look) (maxBytes : Nat) (doc : Document) : Document :=
  match doc.reload look maxBytes with
  | .ok doc' => doc'
  | .error _ => doc

variable {doc doc' : Document}

theorem follows_edited {tx : Transaction} {before after : Selection} {kind : EditKind}
    {nowMs : Nat} (h : doc.edited tx before after kind nowMs = some doc') : Follows doc doc' := by
  unfold edited TextDoc.edit at h
  rw [Option.map_eq_some_iff] at h
  obtain ⟨result, hedit, rfl⟩ := h
  split at hedit
  · obtain rfl := Option.some.inj hedit
    exact .refl doc
  · rw [Option.map_eq_some_iff] at hedit
    obtain ⟨⟨buf, applied⟩, happly, rfl⟩ := hedit
    have hversion := version_of_apply happly
    exact .of_lt (by simp only [hversion]; omega)

theorem follows_undone (h : doc.undone = some doc') : Follows doc doc' := by
  unfold undone TextDoc.undo at h
  rw [Option.map_eq_some_iff] at h
  obtain ⟨result, hundo, rfl⟩ := h
  split at hundo
  · obtain rfl := Option.some.inj hundo
    exact .refl doc
  · rw [Option.map_eq_some_iff] at hundo
    obtain ⟨⟨buf, applied⟩, happly, rfl⟩ := hundo
    have hversion := version_of_apply happly
    exact .of_lt (by simp only [hversion]; omega)

theorem follows_redone (h : doc.redone = some doc') : Follows doc doc' := by
  unfold redone TextDoc.redo at h
  rw [Option.map_eq_some_iff] at h
  obtain ⟨result, hredo, rfl⟩ := h
  split at hredo
  · obtain rfl := Option.some.inj hredo
    exact .refl doc
  · rw [Option.map_eq_some_iff] at hredo
    obtain ⟨⟨buf, applied⟩, happly, rfl⟩ := hredo
    have hversion := version_of_apply happly
    exact .of_lt (by simp only [hversion]; omega)

theorem follows_saveTo {diff : Diff} {path : Option String} {wrote : Except String Unit}
    {stamp : Option Stamp} (h : doc.saveTo diff path wrote stamp = .ok doc') :
    Follows doc doc' := by
  unfold saveTo at h
  split at h
  · cases h
  · cases wrote with
    | error reason => cases h
    | ok _ =>
        obtain rfl := Except.ok.inj h
        exact .of_eq rfl rfl

theorem follows_saved (diff : Diff) (wrote : Except String Unit) (stamp : Option Stamp) :
    Follows doc (doc.saved diff wrote stamp) := by
  unfold saved
  split
  · next h => exact follows_saveTo h
  · exact .of_eq rfl rfl

/-- Looking at what is on disk leaves the text alone, or takes the file's as a new version. -/
theorem follows_follow (fresh : Text.Decoded) (stamp : Option Stamp) :
    Follows doc (doc.follow fresh stamp) := by
  have hkept := doc.buf.isDirty_snd
  unfold follow
  dsimp only
  split_ifs
  · exact .of_eq hkept.2.2.1 hkept.1
  · exact .of_eq hkept.2.2.1 hkept.1
  · exact .of_eq rfl rfl
  · exact .of_eq hkept.2.2.1 hkept.1
  · refine .of_lt ?_
    simp only [reloadFrom, TextDoc.reset, hkept.2.2.1]
    omega

theorem follows_checkDisk (look : Look) (maxBytes : Nat) :
    Follows doc (doc.checkDisk look maxBytes) := by
  unfold checkDisk
  split
  · exact .refl doc
  · split
    · split
      · exact .refl doc
      · exact .of_eq rfl rfl
    · split
      · exact .refl doc
      · split
        · exact .refl doc
        · exact follows_follow _ _

theorem follows_reloaded (look : Look) (maxBytes : Nat) :
    Follows doc (doc.reloaded look maxBytes) := by
  unfold reloaded reload
  cases doc.path with
  | none => exact .refl doc
  | some path =>
      cases readFile look maxBytes doc.format.eol with
      | error reason => exact .refl doc
      | ok read => exact .of_lt (Nat.lt_succ_self _)

theorem follows_keepMine (stamp : Option Stamp) : Follows doc (doc.keepMine stamp) := .of_eq rfl rfl

/-- A restored document holds the record's text. -/
theorem rope_restore (record : Record) : (doc.restore record).buf.rope = record.text := by
  unfold restore
  cases record.history <;> cases record.language <;> rfl

end Document

namespace RecoveryRun

/-- Where a record in the folder comes from. -/
inductive Source
  | left
  | taken (opening version : Nat)
deriving DecidableEq

structure State where
  documents : Documents
  recovery : Recovery
  /-- Whether recovery files carry undo history, as last applied. -/
  history : Bool
  folder : Folder
  launched : Bool
  /-- The opening each open document dates from, and how many there were. -/
  opened : DocKey → Nat
  openings : Nat
  /-- Where the record under a name was taken from. -/
  source : String → Option Source
  /-- The records adopted at launch: the file, its document and its text. -/
  kept : String → Option (DocKey × List Char)
  /-- The opening that put an adopted record's text back. -/
  putBack : String → Option Nat

/-- The app before its launch, on the folder the last session left. -/
def State.start (folder : Folder) (languages : Std.ExtTreeMap DocKey String) : State where
  documents := { docs := ∅, languages := languages, recovered := ∅ }
  recovery := .new
  history := true
  folder := folder
  launched := false
  opened := fun _ => 0
  openings := 0
  source := fun _ => none
  kept := fun _ => none
  putBack := fun _ => none

namespace State

/-- The open documents. -/
abbrev docs (s : State) : Std.ExtTreeMap DocKey Document := s.documents.docs

/-- The record a file holds, if a launch adopts it: its document and text. -/
def adopts (s : State) (keyFor : String → String) (shown : DocKey → Bool) (name : String) :
    Option (DocKey × List Char) :=
  (s.folder.read name).bind fun record =>
    ((record.key keyFor).filter shown).map fun key => (key, record.text)

def launch (s : State) (keyFor : String → String) (shown : DocKey → Bool) (history : Bool)
    (stuck listing : List String) : State :=
  let launch := startRecovery keyFor shown history stuck s.folder listing
  { s with
    documents := { s.documents with recovered := launch.recovered }
    recovery := launch.recovery
    history := history
    folder := launch.folder
    launched := true
    source := fun name => (s.adopts keyFor shown name).map fun _ => .left
    kept := s.adopts keyFor shown }

/-- Opening the document of `key` puts back the text of the record under `name`. -/
def restores (s : State) (documents : Documents) (key : DocKey) (name : String) : Bool :=
  match s.kept name, documents.docs[key]? with
  | some (owner, text), some doc =>
      owner == key && s.documents.recovered.contains key && doc.buf.rope == text
  | _, _ => false

/-- The document of `key` was asked for. -/
def afterOpen (s : State) (key : DocKey) (documents : Documents) : State :=
  if !s.docs.contains key && documents.docs.contains key then
    { s with
      documents := documents
      opened := fun other => if other = key then s.openings else s.opened other
      openings := s.openings + 1
      putBack := fun name =>
        if s.restores documents key name then some s.openings else s.putBack name }
  else { s with documents := documents }

/-- A document is brought up to date where it stands. -/
def onDoc (s : State) (key : DocKey) (next : Document → Option Document) : Option State :=
  (s.docs[key]?.bind next).map fun doc =>
    { s with documents := { s.documents with docs := s.docs.insert key doc } }

/-- A document, brought up to date, moves to another key. -/
def move (s : State) (key dest : DocKey) (doc : Document) : State :=
  { s with
    documents := ({ s.documents with docs := s.docs.insert key doc } : Documents).rekey key dest
    opened := fun other => if other = dest then s.opened key else s.opened other }

def saveAs (s : State) (diff : Diff) (key dest : DocKey) (path : String)
    (wrote : Except String Unit) (stamp : Option Stamp) : Option State :=
  s.docs[key]?.map fun doc =>
    match doc.saveTo diff (some path) wrote stamp with
    | .ok doc => s.move key dest doc
    | .error _ => s

/-- The history setting as a tick finds it is applied. -/
def applySetting (s : State) (persist : Bool) (broken : List String) : State :=
  if s.history && !persist then
    let dropped := s.recovery.dropHistories
    { s with
      documents :=
        { s.documents with
          recovered := s.documents.recovered.map fun _ record => { record with history := none } }
      recovery := dropped.1
      history := persist
      folder := writer broken s.folder dropped.2 }
  else { s with history := persist }

/-- The document of `key` is written in its turn. -/
def due (s : State) (now : Nat) (flush : Bool) (key : DocKey) : Bool :=
  s.docs[key]?.any fun doc => (s.recovery.held key).isDue now flush doc

/-- The document written under `name`, if that goes through. -/
def writes (s : State) (order : List DocKey) (now : Nat) (flush : Bool) (broken : List String)
    (name : String) : Option DocKey :=
  if name ∈ broken then none
  else order.find? fun key => fileName key == name && s.due now flush key

/-- A tick of the recovery, and what the writer thread leaves after it. -/
def tick (s : State) (order : List DocKey) (now : Nat) (persist flush : Bool)
    (broken : List String) : State :=
  let pass := s.recovery.tick s.docs order now persist flush
  { s with
    recovery := pass.recovery
    folder := writer broken s.folder pass.jobs
    source := fun name =>
      match s.writes order now flush broken name with
      | some key => s.docs[key]?.map fun doc => .taken (s.opened key) doc.buf.version
      | none => s.source name }

end State

/-- What may happen. The file system's answers and the clock come with the action. -/
inductive Action
  | launch (keyFor : String → String) (shown : DocKey → Bool) (history : Bool)
      (stuck listing : List String)
  | openFile (key path : String) (look : Look) (maxBytes : Nat) (eol : LineEnding)
  | openUntitled (panel : PanelId) (eol : LineEnding)
  | edit (key : DocKey) (tx : Transaction) (before after : Selection) (kind : EditKind)
      (nowMs : Nat)
  | undo (key : DocKey)
  | redo (key : DocKey)
  | save (key : DocKey) (wrote : Except String Unit) (stamp : Option Stamp)
  | saveAs (key dest : DocKey) (path : String) (wrote : Except String Unit)
      (stamp : Option Stamp)
  | checkDisk (key : DocKey) (look : Look) (maxBytes : Nat)
  | reload (key : DocKey) (look : Look) (maxBytes : Nat)
  | keepMine (key : DocKey) (stamp : Option Stamp)
  | move (key dest : DocKey) (path : String) (stamp : Option Stamp)
  | close (key : DocKey)
  | tick (order : List DocKey) (now : Nat) (persist flush : Bool) (broken : List String)

/-- What the launched app does. -/
def act (diff : Diff) (s : State) : Action → Option State
  | .launch _ _ _ _ _ => none
  | .openFile key path look maxBytes eol =>
      some (s.afterOpen (.file key) (s.documents.ensureFile (.file key) path look maxBytes eol).1)
  | .openUntitled panel eol =>
      some (s.afterOpen (.untitled panel) (s.documents.ensureUntitled panel eol).1)
  | .edit key tx before after kind nowMs => s.onDoc key (Document.edited tx before after kind nowMs)
  | .undo key => s.onDoc key Document.undone
  | .redo key => s.onDoc key Document.redone
  | .save key wrote stamp => s.onDoc key fun doc => some (doc.saved diff wrote stamp)
  | .saveAs key dest path wrote stamp => s.saveAs diff key dest path wrote stamp
  | .checkDisk key look maxBytes => s.onDoc key fun doc => some (doc.checkDisk look maxBytes)
  | .reload key look maxBytes => s.onDoc key fun doc => some (doc.reloaded look maxBytes)
  | .keepMine key stamp => s.onDoc key fun doc => some (doc.keepMine stamp)
  | .move key dest path stamp =>
      s.docs[key]?.map fun doc => s.move key dest (doc.movedTo path stamp)
  | .close key => some { s with documents := s.documents.remove key }
  | .tick order now persist flush broken =>
      if order.isPerm s.docs.keys then
        some ((s.applySetting persist broken).tick order now persist flush broken)
      else none

def step (diff : Diff) (s : State) (a : Action) : Option State :=
  if s.launched then act diff s a
  else
    match a with
    | .launch keyFor shown history stuck listing =>
        if listing.isPerm s.folder.keys then some (s.launch keyFor shown history stuck listing)
        else none
    | _ => none

def machine (diff : Diff) : Machine State Action where
  init := fun s => ∃ folder languages, s = State.start folder languages
  step := step diff

/-- The key an action asks a document for. -/
def Action.opens : Action → Option DocKey
  | .openFile key _ _ _ _ => some (.file key)
  | .openUntitled panel _ => some (.untitled panel)
  | _ => none

/-- The keys an action moves a document between. -/
def Action.moves : Action → Option (DocKey × DocKey)
  | .saveAs key dest _ _ _ => some (key, dest)
  | .move key dest _ _ => some (key, dest)
  | _ => none

/-- What a step does to the app, whatever the file system answered. -/
inductive Takes (s : State) : Action → State → Prop
  | launch {keyFor shown history stuck listing} : s.launched = false →
      listing.Perm s.folder.keys →
      Takes s (.launch keyFor shown history stuck listing)
        (s.launch keyFor shown history stuck listing)
  | opened {a key doc} : s.launched = true → a.opens = some key → key ∉ s.docs →
      (∀ record, s.documents.recovered[key]? = some record → doc.buf.rope = record.text) →
      Takes s a (s.afterOpen key
        { s.documents with
          docs := s.docs.insert key doc
          recovered := s.documents.recovered.erase key })
  | present {a key} : s.launched = true → a.opens = some key → key ∈ s.docs → Takes s a s
  | failed {key path look maxBytes eol reason} : s.launched = true → .file key ∉ s.docs →
      Documents.openWith s.documents.recovered[DocKey.file key]? path look maxBytes eol =
        .error reason →
      Takes s (.openFile key path look maxBytes eol)
        { s with
          documents :=
            { s.documents with recovered := s.documents.recovered.erase (.file key) } }
  | follows {a key doc doc'} : s.launched = true → s.docs[key]? = some doc → doc.Follows doc' →
      Takes s a { s with documents := { s.documents with docs := s.docs.insert key doc' } }
  | move {a key dest doc doc'} : s.launched = true → a.moves = some (key, dest) →
      s.docs[key]? = some doc → doc.Follows doc' → Takes s a (s.move key dest doc')
  | unmoved {a} : s.launched = true → Takes s a s
  | close {key} : s.launched = true →
      Takes s (.close key) { s with documents := s.documents.remove key }
  | tick {order now persist flush broken} : s.launched = true → order.Perm s.docs.keys →
      Takes s (.tick order now persist flush broken)
        ((s.applySetting persist broken).tick order now persist flush broken)

theorem afterOpen_same (s : State) (key : DocKey) (documents : Documents)
    (h : documents.docs = s.docs) :
    s.afterOpen key documents = { s with documents := documents } := by
  rw [State.afterOpen, h]
  simp

theorem takes_openFile {s : State} (hlaunched : s.launched = true) (key path : String)
    (look : Look) (maxBytes : Nat) (eol : LineEnding) :
    Takes s (.openFile key path look maxBytes eol)
      (s.afterOpen (.file key)
        (s.documents.ensureFile (.file key) path look maxBytes eol).1) := by
  unfold Documents.ensureFile
  split
  · next hcontains =>
      rw [afterOpen_same s _ s.documents rfl]
      have hkey : DocKey.file key ∈ s.docs := Std.ExtTreeMap.mem_iff_contains.mpr hcontains
      exact .present hlaunched rfl hkey
  · next hcontains =>
      have hkey : DocKey.file key ∉ s.docs := by
        rwa [Std.ExtTreeMap.mem_iff_contains]
      dsimp only
      split
      · next hopen =>
          have hsame := afterOpen_same s (.file key)
            { s.documents with recovered := s.documents.recovered.erase (.file key) } rfl
          dsimp only
          rw [hsame]
          exact .failed hlaunched hkey hopen
      · refine .opened hlaunched rfl hkey ?_
        intro record hrecord
        simp only [Documents.prepared, hrecord]
        exact Document.rope_restore record

theorem takes_openUntitled {s : State} (hlaunched : s.launched = true) (panel : PanelId)
    (eol : LineEnding) :
    Takes s (.openUntitled panel eol)
      (s.afterOpen (.untitled panel) (s.documents.ensureUntitled panel eol).1) := by
  unfold Documents.ensureUntitled
  dsimp only
  split
  · next hcontains =>
      rw [afterOpen_same s _ s.documents rfl]
      have hkey : DocKey.untitled panel ∈ s.docs := Std.ExtTreeMap.mem_iff_contains.mpr hcontains
      exact .present hlaunched rfl hkey
  · next hcontains =>
      have hkey : DocKey.untitled panel ∉ s.docs := by
        rwa [Std.ExtTreeMap.mem_iff_contains]
      refine .opened hlaunched rfl hkey ?_
      intro record hrecord
      simp only [hrecord]
      exact Document.rope_restore record

theorem takes_onDoc {s s' : State} {a : Action} {key : DocKey}
    {next : Document → Option Document} (hlaunched : s.launched = true)
    (hnext : ∀ doc doc', next doc = some doc' → doc.Follows doc')
    (h : s.onDoc key next = some s') : Takes s a s' := by
  unfold State.onDoc at h
  rw [Option.map_eq_some_iff] at h
  obtain ⟨doc', hdoc', rfl⟩ := h
  rw [Option.bind_eq_some_iff] at hdoc'
  obtain ⟨doc, hdoc, hdoc'⟩ := hdoc'
  exact .follows hlaunched hdoc (hnext doc doc' hdoc')

theorem takes_onDoc_some {s s' : State} {a : Action} {key : DocKey} {next : Document → Document}
    (hlaunched : s.launched = true) (hnext : ∀ doc : Document, doc.Follows (next doc))
    (h : s.onDoc key (fun doc => some (next doc)) = some s') : Takes s a s' := by
  refine takes_onDoc hlaunched ?_ h
  intro doc doc' heq
  obtain rfl := Option.some.inj heq
  exact hnext doc

/-- Every step is one of those. -/
theorem step_takes {diff : Diff} {s s' : State} {a : Action} (h : step diff s a = some s') :
    Takes s a s' := by
  unfold step at h
  split at h
  · next hlaunched =>
      cases a with
      | launch => cases h
      | openFile key path look maxBytes eol =>
          obtain rfl := Option.some.inj h
          exact takes_openFile hlaunched key path look maxBytes eol
      | openUntitled panel eol =>
          obtain rfl := Option.some.inj h
          exact takes_openUntitled hlaunched panel eol
      | edit => exact takes_onDoc hlaunched (fun _ _ => Document.follows_edited) h
      | undo => exact takes_onDoc hlaunched (fun _ _ => Document.follows_undone) h
      | redo => exact takes_onDoc hlaunched (fun _ _ => Document.follows_redone) h
      | save key wrote stamp =>
          exact takes_onDoc_some hlaunched (fun _ => Document.follows_saved diff wrote stamp) h
      | saveAs key dest path wrote stamp =>
          simp only [act, State.saveAs, Option.map_eq_some_iff] at h
          obtain ⟨doc, hdoc, rfl⟩ := h
          split
          · next hsave => exact .move hlaunched rfl hdoc (Document.follows_saveTo hsave)
          · exact .unmoved hlaunched
      | checkDisk key look maxBytes =>
          exact takes_onDoc_some hlaunched (fun _ => Document.follows_checkDisk look maxBytes) h
      | reload key look maxBytes =>
          exact takes_onDoc_some hlaunched (fun _ => Document.follows_reloaded look maxBytes) h
      | keepMine key stamp =>
          exact takes_onDoc_some hlaunched (fun _ => Document.follows_keepMine stamp) h
      | move key dest path stamp =>
          simp only [act, Option.map_eq_some_iff] at h
          obtain ⟨doc, hdoc, rfl⟩ := h
          exact .move hlaunched rfl hdoc (.of_eq rfl rfl)
      | close key =>
          obtain rfl := Option.some.inj h
          exact .close hlaunched
      | tick order now persist flush broken =>
          simp only [act, Option.ite_none_right_eq_some, Option.some.injEq] at h
          obtain ⟨horder, rfl⟩ := h
          exact .tick hlaunched (List.isPerm_iff.mp horder)
  · next hlaunched =>
      split at h
      · rw [Option.ite_none_right_eq_some, Option.some.injEq] at h
        obtain ⟨hlisting, rfl⟩ := h
        exact .launch (Bool.eq_false_iff.mpr hlaunched) (List.isPerm_iff.mp hlisting)
      · cases h

/-! ## What each step leaves -/

variable {s s' : State} {a : Action}

theorem afterOpen_new (s : State) {key : DocKey} (documents : Documents) (h : key ∉ s.docs)
    (hmem : key ∈ documents.docs) :
    s.afterOpen key documents =
      { s with
        documents := documents
        opened := fun other => if other = key then s.openings else s.opened other
        openings := s.openings + 1
        putBack := fun name =>
          if s.restores documents key name then some s.openings else s.putBack name } := by
  rw [State.afterOpen, if_pos]
  rw [Std.ExtTreeMap.mem_iff_contains, Bool.not_eq_true] at h
  rw [Std.ExtTreeMap.mem_iff_contains] at hmem
  simp [State.docs, h, hmem]

theorem mem_insert_docs {docs : Std.ExtTreeMap DocKey Document} {key other : DocKey}
    {doc : Document} : other ∈ docs.insert key doc ↔ other = key ∨ other ∈ docs := by
  rw [Std.ExtTreeMap.mem_insert, Std.LawfulEqCmp.compare_eq_iff_eq, eq_comm]

/-- Which document stands where after a move. -/
theorem getElem?_move {key dest : DocKey} (doc : Document) (other : DocKey) :
    (s.move key dest doc).docs[other]? =
      if dest = other then some doc else if key = other then none else s.docs[other]? := by
  simp only [State.move, Documents.rekey, State.docs, Std.ExtTreeMap.getElem?_insert_self,
    Std.ExtTreeMap.getElem?_insert, Std.ExtTreeMap.getElem?_erase,
    Std.LawfulEqCmp.compare_eq_iff_eq]
  split_ifs <;> rfl

theorem mem_move {key dest : DocKey} {doc : Document} {other : DocKey} :
    other ∈ (s.move key dest doc).docs ↔ other = dest ∨ other ≠ key ∧ other ∈ s.docs := by
  rw [Std.ExtTreeMap.mem_iff_isSome_getElem?, getElem?_move]
  by_cases hdest : dest = other
  · simp [hdest]
  · have hdest' : other ≠ dest := Ne.symm hdest
    by_cases hkey : key = other
    · simp [hdest, hkey, hdest']
    · have hkey' : other ≠ key := Ne.symm hkey
      simp [hdest, hkey, hdest', hkey']

@[simp] theorem applySetting_docs (persist : Bool) (broken : List String) :
    (s.applySetting persist broken).docs = s.docs := by
  unfold State.applySetting
  split <;> rfl

@[simp] theorem applySetting_opened (persist : Bool) (broken : List String) :
    (s.applySetting persist broken).opened = s.opened ∧
      (s.applySetting persist broken).openings = s.openings ∧
      (s.applySetting persist broken).source = s.source ∧
      (s.applySetting persist broken).kept = s.kept ∧
      (s.applySetting persist broken).putBack = s.putBack := by
  unfold State.applySetting
  split <;> exact ⟨rfl, rfl, rfl, rfl, rfl⟩

/-- What a tick writes was taken from an open document. -/
theorem tick_source {order : List DocKey} {now : Nat} {persist flush : Bool}
    {broken : List String} {name : String} {source : Source}
    (h : (s.tick order now persist flush broken).source name = some source) :
    s.source name = some source ∨
      ∃ key doc, s.writes order now flush broken name = some key ∧ s.docs[key]? = some doc ∧
        source = .taken (s.opened key) doc.buf.version := by
  simp only [State.tick] at h
  split at h
  · next key hwrites =>
      rw [Option.map_eq_some_iff] at h
      obtain ⟨doc, hdoc, rfl⟩ := h
      exact Or.inr ⟨key, doc, hwrites, hdoc, rfl⟩
  · exact Or.inl h

/-! ## Openings -/

/-- Every opening is of one open document at most, and was before the next one. -/
structure Numbered (s : State) : Prop where
  recent : ∀ key, key ∈ s.docs → s.opened key < s.openings
  unique : ∀ key other, key ∈ s.docs → other ∈ s.docs → s.opened key = s.opened other → key = other
  past : ∀ name opening version, s.source name = some (.taken opening version) →
    opening < s.openings
  putBack : ∀ name opening, s.putBack name = some opening → opening < s.openings

theorem numbered_start (folder : Folder) (languages : Std.ExtTreeMap DocKey String) :
    Numbered (State.start folder languages) := by
  constructor <;> simp [State.start, State.docs]

theorem Numbered.applySetting (h : Numbered s) (persist : Bool) (broken : List String) :
    Numbered (s.applySetting persist broken) := by
  obtain ⟨hopened, hopenings, hsource, -, hput⟩ := applySetting_opened (s := s) persist broken
  constructor
  · rw [applySetting_docs, hopened, hopenings]
    exact h.recent
  · rw [applySetting_docs, hopened]
    exact h.unique
  · rw [hsource, hopenings]
    exact h.past
  · rw [hput, hopenings]
    exact h.putBack

theorem Numbered.tick (h : Numbered s) (order : List DocKey) (now : Nat) (persist flush : Bool)
    (broken : List String) : Numbered (s.tick order now persist flush broken) := by
  refine ⟨h.recent, h.unique, ?_, h.putBack⟩
  intro name opening version htaken
  rcases tick_source htaken with hbefore | ⟨key, doc, -, hdoc, heq⟩
  · exact h.past name opening version hbefore
  · rw [Source.taken.injEq] at heq
    exact heq.1 ▸ h.recent key (mem_docs hdoc)

theorem Numbered.takes (h : Numbered s) (hstep : Takes s a s') : Numbered s' := by
  cases hstep with
  | launch hnot _ =>
      refine ⟨h.recent, h.unique, ?_, h.putBack⟩
      intro name opening version hsource
      simp [State.launch] at hsource
  | @opened _ key doc _ _ hkey _ =>
      rw [afterOpen_new s _ hkey Std.ExtTreeMap.mem_insert_self]
      refine ⟨?_, ?_, ?_, ?_⟩
      · intro other hother
        dsimp only
        split_ifs with heq
        · omega
        · exact Nat.lt_succ_of_lt (h.recent other ((mem_insert_docs.mp hother).resolve_left heq))
      · intro first second hfirst hsecond heq
        have hmem : ∀ other, other ≠ key → other ∈ s.docs.insert key doc → other ∈ s.docs :=
          fun other hne hother => (mem_insert_docs.mp hother).resolve_left hne
        dsimp only at heq
        split_ifs at heq with h1 h2
        · rw [h1, h2]
        · have := h.recent second (hmem second h2 hsecond)
          omega
        · have := h.recent first (hmem first h1 hfirst)
          omega
        · rename_i h2
          exact h.unique first second (hmem first h1 hfirst) (hmem second h2 hsecond) heq
      · intro name opening version hsource
        exact Nat.lt_succ_of_lt (h.past name opening version hsource)
      · intro name opening hput
        dsimp only at hput
        split_ifs at hput
        · obtain rfl := Option.some.inj hput
          exact Nat.lt_succ_self _
        · exact Nat.lt_succ_of_lt (h.putBack name opening hput)
  | present => exact h
  | failed => exact ⟨h.recent, h.unique, h.past, h.putBack⟩
  | @follows _ key doc doc' _ hdoc _ =>
      have hmem : ∀ other, other ∈ s.docs.insert key doc' → other ∈ s.docs := by
        intro other hother
        rcases mem_insert_docs.mp hother with rfl | hother
        · exact mem_docs hdoc
        · exact hother
      exact ⟨fun other hother => h.recent other (hmem other hother),
        fun first second hfirst hsecond =>
          h.unique first second (hmem first hfirst) (hmem second hsecond), h.past, h.putBack⟩
  | @move _ key dest doc doc' _ _ hdoc _ =>
      have hkey := mem_docs hdoc
      refine ⟨?_, ?_, h.past, h.putBack⟩
      · intro other hother
        simp only [State.move]
        split_ifs with heq
        · exact h.recent key hkey
        · exact h.recent other ((mem_move.mp hother).resolve_left heq).2
      · intro first second hfirst hsecond heq
        simp only [State.move] at heq
        split_ifs at heq with h1 h2
        · rw [h1, h2]
        · have hsecond := (mem_move.mp hsecond).resolve_left h2
          exact absurd (h.unique key second hkey hsecond.2 heq).symm hsecond.1
        · have hfirst := (mem_move.mp hfirst).resolve_left h1
          exact absurd (h.unique first key hfirst.2 hkey heq) hfirst.1
        · rename_i h2
          exact h.unique first second ((mem_move.mp hfirst).resolve_left h1).2
            ((mem_move.mp hsecond).resolve_left h2).2 heq
  | unmoved => exact h
  | @close key =>
      have hmem : ∀ other, other ∈ s.docs.erase key → other ∈ s.docs := fun other hother =>
        Std.ExtTreeMap.mem_of_mem_erase hother
      exact ⟨fun other hother => h.recent other (hmem other hother),
        fun first second hfirst hsecond =>
          h.unique first second (hmem first hfirst) (hmem second hsecond), h.past, h.putBack⟩
  | @tick order now persist flush broken _ _ =>
      exact (h.applySetting persist broken).tick order now persist flush broken

end RecoveryRun

end Throng
