import Throng.App.RecoveryRun

/-!
# A document and its file

The machine below lets a document be edited, undone, redone, auto-saved and changed by
committed search replacements while its file is written, deleted and locked from outside,
with a look at the disk after each outside change and before the program's next write.
Each of the program's calls (`check_disk`, `auto_save`, a commit) is one step: nothing changes
the file in the middle of one. Beside both the machine remembers the contents the document has
read or written. A dirty document is never replaced; the file's content is never replaced
unseen, as long as the document is written only when it is in sync and the last look could
read what was new.
-/

namespace Throng.DiskRun

open Editor (EditKind Selection Transaction)
open Text (Diff LineEnding)

/-- What can be told of a file: its content, its metadata only, or nothing. -/
inductive Access
  | full
  | locked
  | hidden
deriving DecidableEq

structure File where
  bytes : Bytes
  modified : Option Nat
  access : Access
deriving DecidableEq

def File.stamp (file : File) : Stamp := ⟨file.bytes.length, file.modified⟩

/-- What is found at the document's path. -/
def look : Option File → Look
  | none => ⟨.error "not found", false, .error "not found"⟩
  | some file =>
      match file.access with
      | .full => ⟨.ok file.stamp, true, .ok file.bytes⟩
      | .locked => ⟨.ok file.stamp, true, .error "permission denied"⟩
      | .hidden => ⟨.error "permission denied", false, .error "permission denied"⟩

/-- The auto-save entry of a document: a version, since when it has had it, and whether a
save was tried. -/
abbrev AutoEntry := Nat × Nat × Bool

/-- A document's turn in `auto_save`: its entry after it, and whether it is saved now. -/
def autoTurn (doc : Document) (debounce now : Nat) (entry : Option AutoEntry) :
    Option AutoEntry × Bool :=
  if doc.path.isNone ∨ doc.disk ≠ .inSync ∨ doc.isDirty.1 = false then (none, false)
  else
    let version := doc.buf.version
    let entry := match entry with
      | some entry => if entry.1 = version then entry else (version, now, false)
      | none => (version, now, false)
    if entry.2.2 then (some entry, false)
    else if now - entry.2.1 < debounce then (some entry, false)
    else (some (entry.1, entry.2.1, true), true)

structure State where
  doc : Document
  entry : Option AutoEntry
  file : Option File
  /-- The disk was looked at since the last outside change. -/
  checked : Bool
  /-- The contents the document was loaded from, found to have, or was written as. -/
  seen : List Bytes
  /-- The contents every stamp has stood for. -/
  log : List (Stamp × Bytes)
  /-- The last look found a new stamp, and could not read the content. -/
  unread : Bool

namespace State

/-- The stamp of `file` has stood for no other content. -/
def consistent (s : State) (file : File) : Bool :=
  s.log.all fun entry => entry.1 ≠ file.stamp || entry.2 = file.bytes

/-- Save the document, or the error; the file's modification time is then `modified`. -/
def save (s : State) (diff : Diff) (wrote : Except String Unit) (modified : Option Nat) :
    Option (Except String State) :=
  let file : File := ⟨s.doc.encoded diff, modified, .full⟩
  match s.doc.saveTo diff none wrote (some file.stamp) with
  | .ok doc =>
      if s.consistent file then
        some (.ok { s with
          doc := doc
          file := some file
          seen := file.bytes :: s.seen
          log := (file.stamp, file.bytes) :: s.log
          unread := false })
      else none
  | .error reason => some (.error reason)

def autoSave (s : State) (diff : Diff) (on : Bool) (debounce now : Nat)
    (wrote : Except String Unit) (modified : Option Nat) : Option State :=
  if on then
    let turn := autoTurn s.doc debounce now s.entry
    let s := { s with entry := turn.1 }
    if turn.2 then
      (s.save diff wrote modified).map fun
        | .ok s => { s with doc := { s.doc with error := none } }
        | .error reason => { s with doc := { s.doc with error := some reason } }
    else some s
  else some { s with entry := none }

/-- Commit the replacements of the matches that were verified, `tx` if there are any. -/
def commit (s : State) (diff : Diff) (tx : Option Transaction) (nowMs : Nat)
    (wrote : Except String Unit) (modified : Option Nat) : Option State :=
  match tx with
  | none => some s
  | some tx =>
      let wasClean := !s.doc.isDirty.1
      (s.doc.transact (Selection.point 0) tx nowMs).bind fun result =>
        let s := { s with doc := result.1 }
        -- a clean document is saved; one with edits of its own stays dirty
        if wasClean then
          (s.save diff wrote modified).map fun
            | .ok s => s
            | .error _ => s
        else some s

/-- A look at the disk finds a stamp that is not the document's. -/
def finds (s : State) : Bool :=
  match (look s.file).stamp with
  | .ok stamp => !(some stamp = s.doc.stamp ∧ s.doc.disk ≠ .deleted)
  | .error _ => false

/-- The file's content can be read and decoded. -/
def readable (s : State) (maxBytes : Nat) : Bool :=
  (readFile (look s.file) maxBytes s.doc.format.eol).isOk

def checkDisk (s : State) (maxBytes : Nat) : State :=
  let doc := s.doc.checkDisk (look s.file) maxBytes
  { s with
    doc := doc
    checked := true
    seen :=
      match s.file with
      | some file =>
          if s.finds && s.readable maxBytes && doc.disk = .inSync then file.bytes :: s.seen
          else s.seen
      | none => s.seen
    unread := s.finds && !s.readable maxBytes }

end State

inductive Action
  | edit (tx : Transaction) (before after : Selection) (kind : EditKind) (nowMs : Nat)
  | undo
  | redo
  | autoSave (on : Bool) (debounce now : Nat) (wrote : Except String Unit)
      (modified : Option Nat)
  | commit (tx : Option Transaction) (nowMs : Nat) (wrote : Except String Unit)
      (modified : Option Nat)
  | outside (file : Option File)
  | checkDisk (maxBytes : Nat)

/-- The program writes only after a look at what changed; nobody gives a stamp another
content. -/
def step (diff : Diff) (s : State) : Action → Option State
  | .edit tx before after kind nowMs =>
      (s.doc.edited tx before after kind nowMs).map fun doc => { s with doc := doc }
  | .undo => s.doc.undone.map fun doc => { s with doc := doc }
  | .redo => s.doc.redone.map fun doc => { s with doc := doc }
  | .autoSave on debounce now wrote modified =>
      if s.checked then s.autoSave diff on debounce now wrote modified else none
  | .commit tx nowMs wrote modified =>
      if s.checked then s.commit diff tx nowMs wrote modified else none
  | .outside file =>
      match file with
      | some file =>
          if s.consistent file then
            some { s with
              file := some file
              checked := false
              log := (file.stamp, file.bytes) :: s.log }
          else none
      | none => some { s with file := none, checked := false }
  | .checkDisk maxBytes => some (s.checkDisk maxBytes)

/-- A document as it is opened from its file, with the record that waited for it. -/
def opened (doc : Document) (record : Option Record) (file : Option File) : State where
  doc := match record with
    | some record => doc.restore record
    | none => doc
  entry := none
  file := file
  checked := true
  seen := match file with
    | some file => if file.access = .full then [file.bytes] else []
    | none => []
  log := match file with
    | some file => [(file.stamp, file.bytes)]
    | none => []
  unread := false

def machine (diff : Diff) : Machine State Action where
  init := fun s => ∃ record path file maxBytes eol doc,
    Documents.openWith record path (look file) maxBytes eol = .ok doc ∧ s = opened doc record file
  step := step diff

/-- Every save finds the document in sync and the file read: an auto-save looks at the first
itself, a commit at neither. -/
def InSync (s : State) : Action → Prop
  | .autoSave on debounce now _ _ =>
      on = true ∧ (autoTurn s.doc debounce now s.entry).2 = true → s.unread = false
  | .commit tx _ _ _ =>
      tx.isSome = true ∧ s.doc.isDirty.1 = false → s.doc.disk = .inSync ∧ s.unread = false
  | _ => True

instance : DecidableRel InSync := fun s a =>
  match a with
  | .autoSave on debounce now _ _ =>
      inferInstanceAs (Decidable
        (on = true ∧ (autoTurn s.doc debounce now s.entry).2 = true → s.unread = false))
  | .commit tx _ _ _ =>
      inferInstanceAs (Decidable
        (tx.isSome = true ∧ s.doc.isDirty.1 = false → s.doc.disk = .inSync ∧ s.unread = false))
  | .edit _ _ _ _ _ | .undo | .redo | .outside _ | .checkDisk _ => isTrue trivial

/-- Actions of the program that may write the file. -/
def Action.saves : Action → Bool
  | .autoSave _ _ _ _ _ => true
  | .commit _ _ _ _ => true
  | _ => false

/-- A look at the disk leaves the text of a document with unsaved edits alone, and what the
program writes replaces only content that the document has read or written. -/
structure Guarded (s : State) (a : Action) (s' : State) : Prop where
  text : ∀ maxBytes, a = .checkDisk maxBytes → s.doc.buf.isDirty.1 = true →
    s'.doc.buf.rope = s.doc.buf.rope
  content : a.saves = true → s'.file ≠ s.file → ∀ file, s.file = some file → file.bytes ∈ s.seen

variable {diff : Diff} {s s' : State} {a : Action}

/-! ## The invariant -/

/-- What the document knows of the disk: each stamp stands for one content; the stamp of a
document in sync stands for content it has read or written; and after a look that missed
nothing, so does the file. -/
structure Told (s : State) : Prop where
  path : s.doc.path.isSome = true
  logged : ∀ file, s.file = some file → (file.stamp, file.bytes) ∈ s.log
  functional : ∀ stamp bytes bytes', (stamp, bytes) ∈ s.log → (stamp, bytes') ∈ s.log →
    bytes = bytes'
  stamped : ∀ stamp, s.doc.stamp = some stamp → s.doc.disk = .inSync →
    ∃ bytes ∈ s.seen, (stamp, bytes) ∈ s.log
  known : s.checked = true → s.unread = false → s.doc.disk = .inSync →
    ∀ file, s.file = some file → file.bytes ∈ s.seen

/-- A change of the text, the history or the error shown tells nothing of the disk. -/
theorem Told.frame (h : Told s) (doc : Document) (entry : Option AutoEntry)
    (hpath : doc.path = s.doc.path) (hdisk : doc.disk = s.doc.disk)
    (hstamp : doc.stamp = s.doc.stamp) : Told { s with doc := doc, entry := entry } := by
  refine ⟨?_, h.logged, h.functional, ?_, ?_⟩
  · rw [hpath]
    exact h.path
  · rw [hdisk, hstamp]
    exact h.stamped
  · rw [hdisk]
    exact h.known

theorem consistent_iff {file : File} : s.consistent file = true ↔
    ∀ bytes, (file.stamp, bytes) ∈ s.log → bytes = file.bytes := by
  rw [State.consistent, List.all_eq_true]
  constructor
  · intro h bytes hmem
    have hentry := h _ hmem
    simpa using hentry
  · rintro h ⟨stamp, bytes⟩ hmem
    by_cases hstamp : stamp = file.stamp
    · subst hstamp
      simp [h bytes hmem]
    · simp [hstamp]

/-- A stamp added with the content it stands for keeps standing for one. -/
theorem functional_cons {file : File} (h : Told s) (hfile : s.consistent file = true)
    (stamp : Stamp) (bytes bytes' : Bytes)
    (hmem : (stamp, bytes) ∈ (file.stamp, file.bytes) :: s.log)
    (hmem' : (stamp, bytes') ∈ (file.stamp, file.bytes) :: s.log) : bytes = bytes' := by
  have hone := consistent_iff.mp hfile
  rcases List.mem_cons.mp hmem with heq | hmem <;> rcases List.mem_cons.mp hmem' with heq' | hmem'
  · rw [Prod.mk.injEq] at heq heq'
    rw [heq.2, heq'.2]
  · rw [Prod.mk.injEq] at heq
    rw [heq.2, hone bytes' (heq.1 ▸ hmem')]
  · rw [Prod.mk.injEq] at heq'
    rw [heq'.2, hone bytes (heq'.1 ▸ hmem)]
  · exact h.functional stamp bytes bytes' hmem hmem'

/-- A save leaves the document in sync with what it wrote. -/
theorem Told.save {wrote : Except String Unit} {modified : Option Nat} (h : Told s)
    (hsave : s.save diff wrote modified = some (.ok s')) : Told s' := by
  unfold State.save at hsave
  dsimp only at hsave
  split at hsave
  · next doc hdoc =>
      rw [Option.ite_none_right_eq_some, Option.some.injEq, Except.ok.injEq] at hsave
      obtain ⟨hfile, rfl⟩ := hsave
      have hsaved : doc.path.isSome = true ∧ doc.disk = .inSync ∧
          doc.stamp = some (File.stamp ⟨s.doc.encoded diff, modified, .full⟩) := by
        unfold Document.saveTo at hdoc
        split at hdoc
        · cases hdoc
        · cases wrote with
          | error reason => cases hdoc
          | ok _ =>
              obtain rfl := Except.ok.inj hdoc
              exact ⟨rfl, rfl, rfl⟩
      refine ⟨hsaved.1, ?_, functional_cons h hfile, ?_, ?_⟩
      · intro file hfile
        obtain rfl := Option.some.inj hfile
        exact List.mem_cons_self
      · intro stamp hstamp _
        rw [hsaved.2.2, Option.some.injEq] at hstamp
        subst hstamp
        exact ⟨_, List.mem_cons_self, List.mem_cons_self⟩
      · intro _ _ _ file hfile
        obtain rfl := Option.some.inj hfile
        exact List.mem_cons_self
  · simp at hsave

/-! ## A look at the disk -/

theorem look_stamp {file : File} (h : file.access ≠ .hidden) :
    (look (some file)).stamp = .ok file.stamp := by
  cases haccess : file.access <;> simp_all [look]

theorem look_hidden {file : Option File} {reason : String} (h : (look file).stamp = .error reason) :
    (look file).isThere = false := by
  cases file with
  | none => rfl
  | some file => cases haccess : file.access <;> simp_all [look]

theorem finds_iff {file : File} (hfile : s.file = some file) (haccess : file.access ≠ .hidden) :
    s.finds = true ↔ ¬ (some file.stamp = s.doc.stamp ∧ s.doc.disk ≠ .deleted) := by
  rw [State.finds, hfile, look_stamp haccess, Bool.not_eq_true', decide_eq_false_iff_not]

/-- What a look makes of the document: nothing new, a file that is gone, content that could
not be read, or content that was read. -/
theorem look_cases (hpath : s.doc.path.isSome = true) (maxBytes : Nat) :
    (s.finds = false ∧ s.doc.checkDisk (look s.file) maxBytes = s.doc ∧
      ∃ file, s.file = some file ∧ some file.stamp = s.doc.stamp) ∨
    (s.finds = false ∧
      s.doc.checkDisk (look s.file) maxBytes = { s.doc with disk := .deleted, stamp := none }) ∨
    (s.finds = true ∧ s.readable maxBytes = false ∧
      s.doc.checkDisk (look s.file) maxBytes = s.doc) ∨
    ∃ file fresh, s.file = some file ∧ s.finds = true ∧ s.readable maxBytes = true ∧
      s.doc.checkDisk (look s.file) maxBytes = s.doc.follow fresh (some file.stamp) := by
  have hsome : ¬ s.doc.path.isNone = true := by
    cases hdoc : s.doc.path <;> simp_all
  unfold Document.checkDisk
  rw [if_neg hsome]
  cases hstamp : (look s.file).stamp with
  | error reason =>
      have hfinds : s.finds = false := by rw [State.finds, hstamp]
      refine Or.inr (Or.inl ⟨hfinds, ?_⟩)
      dsimp only
      rw [look_hidden hstamp, if_neg Bool.false_ne_true]
  | ok stamp =>
      obtain ⟨file, hfile, haccess, rfl⟩ : ∃ file, s.file = some file ∧ file.access ≠ .hidden ∧
          file.stamp = stamp := by
        cases hfile : s.file with
        | none => simp [hfile, look] at hstamp
        | some file =>
            have haccess : file.access ≠ .hidden := by
              intro haccess
              simp [hfile, look, haccess] at hstamp
            rw [hfile, look_stamp haccess, Except.ok.injEq] at hstamp
            exact ⟨file, rfl, haccess, hstamp⟩
      dsimp only
      split_ifs with hsame
      · refine Or.inl ⟨?_, rfl, file, hfile, hsame.1⟩
        rw [← Bool.not_eq_true, finds_iff hfile haccess]
        exact fun hnot => hnot hsame
      · have hfinds : s.finds = true := (finds_iff hfile haccess).mpr hsame
        cases hread : readFile (look s.file) maxBytes s.doc.format.eol with
        | error reason =>
            refine Or.inr (Or.inr (Or.inl ⟨hfinds, ?_, rfl⟩))
            rw [State.readable, hread]
            rfl
        | ok read =>
            obtain ⟨fresh, stamp⟩ := read
            have hstamp' : stamp = some file.stamp := by
              unfold readFile at hread
              rw [hstamp] at hread
              dsimp only at hread
              split_ifs at hread
              split at hread
              · cases hread
              · split at hread
                · cases hread
                · rw [Except.ok.injEq, Prod.mk.injEq] at hread
                  exact hread.2.symm
            subst hstamp'
            refine Or.inr (Or.inr (Or.inr ⟨file, fresh, hfile, hfinds, ?_, rfl⟩))
            rw [State.readable, hread]
            rfl

theorem follow_path (doc : Document) (fresh : Text.Decoded) (stamp : Option Stamp) :
    (doc.follow fresh stamp).path = doc.path ∧ (doc.follow fresh stamp).stamp = stamp := by
  unfold Document.follow
  dsimp only
  split_ifs <;> exact ⟨rfl, rfl⟩

/-- The state after a look, in the same cases. -/
theorem checkDisk_cases (hpath : s.doc.path.isSome = true) (maxBytes : Nat) :
    (s.checkDisk maxBytes = { s with checked := true, unread := false } ∧
      ∃ file, s.file = some file ∧ some file.stamp = s.doc.stamp) ∨
    s.checkDisk maxBytes =
      { s with
        doc := { s.doc with disk := .deleted, stamp := none }
        checked := true
        unread := false } ∨
    s.checkDisk maxBytes = { s with checked := true, unread := true } ∨
    ∃ file fresh, s.file = some file ∧
      s.checkDisk maxBytes =
        { s with
          doc := s.doc.follow fresh (some file.stamp)
          checked := true
          unread := false
          seen :=
            if (s.doc.follow fresh (some file.stamp)).disk = .inSync then file.bytes :: s.seen
            else s.seen } := by
  rcases look_cases hpath maxBytes with
    ⟨hfinds, hdoc, hfile⟩ | ⟨hfinds, hdoc⟩ | ⟨hfinds, hread, hdoc⟩ |
      ⟨file, fresh, hfile, hfinds, hread, hdoc⟩
  · refine Or.inl ⟨?_, hfile⟩
    unfold State.checkDisk
    rw [hdoc, hfinds]
    cases s.file <;> rfl
  · refine Or.inr (Or.inl ?_)
    unfold State.checkDisk
    rw [hdoc, hfinds]
    cases s.file <;> rfl
  · refine Or.inr (Or.inr (Or.inl ?_))
    unfold State.checkDisk
    rw [hdoc, hfinds, hread]
    cases s.file <;> rfl
  · refine Or.inr (Or.inr (Or.inr ⟨file, fresh, hfile, ?_⟩))
    unfold State.checkDisk
    rw [hdoc, hfinds, hread, hfile]
    simp only [Bool.true_and, decide_eq_true_eq, Bool.not_true]

theorem Told.checkDisk (h : Told s) (maxBytes : Nat) : Told (s.checkDisk maxBytes) := by
  rcases checkDisk_cases h.path maxBytes with
    ⟨hcheck, file, hfile, hstamp⟩ | hcheck | hcheck | ⟨file, fresh, hfile, hcheck⟩
  · rw [hcheck]
    refine ⟨h.path, h.logged, h.functional, h.stamped, ?_⟩
    intro _ _ hdisk file' hfile'
    rw [hfile, Option.some.injEq] at hfile'
    subst hfile'
    obtain ⟨bytes, hseen, hlog⟩ := h.stamped _ hstamp.symm hdisk
    rwa [h.functional _ _ _ (h.logged file hfile) hlog]
  · rw [hcheck]
    refine ⟨h.path, h.logged, h.functional, ?_, ?_⟩
    · intro stamp hstamp
      cases hstamp
    · intro _ _ hdisk
      cases hdisk
  · rw [hcheck]
    refine ⟨h.path, h.logged, h.functional, h.stamped, ?_⟩
    intro _ hunread
    cases hunread
  · rw [hcheck]
    obtain ⟨hpath, hstamp⟩ := follow_path s.doc fresh (some file.stamp)
    refine ⟨?_, h.logged, h.functional, ?_, ?_⟩
    · rw [hpath]
      exact h.path
    · intro stamp hstamp' hdisk
      dsimp only at hstamp' hdisk ⊢
      rw [hstamp, Option.some.injEq] at hstamp'
      subst hstamp'
      rw [if_pos hdisk]
      exact ⟨file.bytes, List.mem_cons_self, h.logged file hfile⟩
    · intro _ _ hdisk file' hfile'
      dsimp only at hdisk ⊢
      rw [hfile, Option.some.injEq] at hfile'
      subst hfile'
      rw [if_pos hdisk]
      exact List.mem_cons_self

/-- A look leaves the text of a document with unsaved edits alone. -/
theorem rope_checkDisk (maxBytes : Nat) (hdirty : s.doc.buf.isDirty.1 = true) :
    (s.checkDisk maxBytes).doc.buf.rope = s.doc.buf.rope := by
  have hkept := s.doc.buf.isDirty_snd.1
  change (s.doc.checkDisk (look s.file) maxBytes).buf.rope = _
  unfold Document.checkDisk
  split
  · rfl
  · split
    · split <;> rfl
    · split
      · rfl
      · split
        · rfl
        · unfold Document.follow
          simp only [hdirty, if_true]
          split_ifs
          · exact hkept
          · rfl
          · exact hkept

/-! ## Every step -/

theorem edited_disk {doc doc' : Document} {tx : Transaction} {before after : Selection}
    {kind : EditKind} {nowMs : Nat} (h : doc.edited tx before after kind nowMs = some doc') :
    doc'.path = doc.path ∧ doc'.disk = doc.disk ∧ doc'.stamp = doc.stamp := by
  unfold Document.edited at h
  obtain ⟨result, -, rfl⟩ := Option.map_eq_some_iff.mp h
  exact ⟨rfl, rfl, rfl⟩

theorem undone_disk {doc doc' : Document} (h : doc.undone = some doc') :
    doc'.path = doc.path ∧ doc'.disk = doc.disk ∧ doc'.stamp = doc.stamp := by
  unfold Document.undone at h
  obtain ⟨result, -, rfl⟩ := Option.map_eq_some_iff.mp h
  exact ⟨rfl, rfl, rfl⟩

theorem redone_disk {doc doc' : Document} (h : doc.redone = some doc') :
    doc'.path = doc.path ∧ doc'.disk = doc.disk ∧ doc'.stamp = doc.stamp := by
  unfold Document.redone at h
  obtain ⟨result, -, rfl⟩ := Option.map_eq_some_iff.mp h
  exact ⟨rfl, rfl, rfl⟩

theorem transact_disk {doc : Document} {before : Selection} {tx : Transaction} {nowMs : Nat}
    {result : Document × Option Editor.Applied} (h : doc.transact before tx nowMs = some result) :
    result.1.path = doc.path ∧ result.1.disk = doc.disk ∧ result.1.stamp = doc.stamp := by
  unfold Document.transact at h
  obtain ⟨edit, -, rfl⟩ := Option.map_eq_some_iff.mp h
  exact ⟨rfl, rfl, rfl⟩

/-- An auto-save is of a document in sync. -/
theorem autoTurn_inSync {doc : Document} {debounce now : Nat} {entry : Option AutoEntry}
    (h : (autoTurn doc debounce now entry).2 = true) : doc.disk = .inSync := by
  unfold autoTurn at h
  split at h
  · cases h
  · next hnot =>
      simp only [not_or, not_not] at hnot
      exact hnot.2.1

/-- What an auto-save does: nothing to the file, or a save of a document in sync. -/
theorem autoSave_cases {on : Bool} {debounce now : Nat} {wrote : Except String Unit}
    {modified : Option Nat} (h : s.autoSave diff on debounce now wrote modified = some s') :
    (∃ entry error, s' = { s with entry := entry, doc := { s.doc with error := error } }) ∨
      (on = true ∧ (autoTurn s.doc debounce now s.entry).2 = true) ∧
        ∃ entry t, State.save { s with entry := entry } diff wrote modified = some (.ok t) ∧
          s' = { t with doc := { t.doc with error := none } } := by
  unfold State.autoSave at h
  dsimp only at h
  split_ifs at h with hon hdue
  · rw [Option.map_eq_some_iff] at h
    obtain ⟨result, hsave, hs'⟩ := h
    cases result with
    | ok t => exact Or.inr ⟨⟨hon, hdue⟩, _, t, hsave, hs'.symm⟩
    | error reason => exact Or.inl ⟨_, some reason, hs'.symm⟩
  · obtain rfl := Option.some.inj h
    exact Or.inl ⟨_, s.doc.error, rfl⟩
  · obtain rfl := Option.some.inj h
    exact Or.inl ⟨_, s.doc.error, rfl⟩

/-- What a commit does: nothing, an edit, or an edit and a save of a document that was
clean. -/
theorem commit_cases {tx : Option Transaction} {nowMs : Nat} {wrote : Except String Unit}
    {modified : Option Nat} (h : s.commit diff tx nowMs wrote modified = some s') :
    s' = s ∨ ∃ doc, (doc.path = s.doc.path ∧ doc.disk = s.doc.disk ∧ doc.stamp = s.doc.stamp) ∧
      (s' = { s with doc := doc } ∨ (tx.isSome = true ∧ s.doc.isDirty.1 = false) ∧
        State.save { s with doc := doc } diff wrote modified = some (.ok s')) := by
  unfold State.commit at h
  cases tx with
  | none => exact Or.inl (Option.some.inj h).symm
  | some tx =>
      dsimp only at h
      rw [Option.bind_eq_some_iff] at h
      obtain ⟨result, htransact, h⟩ := h
      refine Or.inr ⟨result.1, transact_disk htransact, ?_⟩
      split_ifs at h with hclean
      · rw [Option.map_eq_some_iff] at h
        obtain ⟨saved, hsave, hs'⟩ := h
        cases saved with
        | ok t =>
            obtain rfl : t = s' := hs'
            exact Or.inr ⟨⟨rfl, by simpa using hclean⟩, hsave⟩
        | error reason => exact Or.inl hs'.symm
      · exact Or.inl (Option.some.inj h).symm

theorem Told.step (h : Told s) (hstep : step diff s a = some s') : Told s' := by
  cases a with
  | edit =>
      obtain ⟨doc, hdoc, rfl⟩ := Option.map_eq_some_iff.mp hstep
      obtain ⟨hpath, hdisk, hstamp⟩ := edited_disk hdoc
      exact h.frame doc s.entry hpath hdisk hstamp
  | undo =>
      obtain ⟨doc, hdoc, rfl⟩ := Option.map_eq_some_iff.mp hstep
      obtain ⟨hpath, hdisk, hstamp⟩ := undone_disk hdoc
      exact h.frame doc s.entry hpath hdisk hstamp
  | redo =>
      obtain ⟨doc, hdoc, rfl⟩ := Option.map_eq_some_iff.mp hstep
      obtain ⟨hpath, hdisk, hstamp⟩ := redone_disk hdoc
      exact h.frame doc s.entry hpath hdisk hstamp
  | autoSave on debounce now wrote modified =>
      simp only [DiskRun.step, Option.ite_none_right_eq_some] at hstep
      rcases autoSave_cases hstep.2 with ⟨entry, error, rfl⟩ | ⟨-, entry, t, hsave, rfl⟩
      · exact h.frame _ entry rfl rfl rfl
      · exact ((h.frame s.doc entry rfl rfl rfl).save hsave).frame _ t.entry rfl rfl rfl
  | commit tx nowMs wrote modified =>
      simp only [DiskRun.step, Option.ite_none_right_eq_some] at hstep
      rcases commit_cases hstep.2 with rfl | ⟨doc, ⟨hpath, hdisk, hstamp⟩, rfl | ⟨-, hsave⟩⟩
      · exact h
      · exact h.frame doc s.entry hpath hdisk hstamp
      · exact (h.frame doc s.entry hpath hdisk hstamp).save hsave
  | outside file =>
      cases file with
      | some file =>
          simp only [DiskRun.step, Option.ite_none_right_eq_some, Option.some.injEq] at hstep
          obtain ⟨hfile, rfl⟩ := hstep
          refine ⟨h.path, ?_, functional_cons h hfile, ?_, ?_⟩
          · intro file' hfile'
            obtain rfl := Option.some.inj hfile'
            exact List.mem_cons_self
          · intro stamp hstamp hdisk
            obtain ⟨bytes, hseen, hlog⟩ := h.stamped stamp hstamp hdisk
            exact ⟨bytes, hseen, List.mem_cons_of_mem _ hlog⟩
          · intro hchecked
            cases hchecked
      | none =>
          obtain rfl := Option.some.inj hstep
          refine ⟨h.path, ?_, h.functional, h.stamped, ?_⟩
          · intro file hfile
            cases hfile
          · intro hchecked
            cases hchecked
  | checkDisk maxBytes =>
      obtain rfl := Option.some.inj hstep
      exact h.checkDisk maxBytes

theorem readFile_full {file : Option File} {maxBytes : Nat} {eol : LineEnding}
    {read : Text.Decoded × Option Stamp} (h : readFile (look file) maxBytes eol = .ok read) :
    ∃ found, file = some found ∧ found.access = .full ∧ read.2 = some found.stamp := by
  cases file with
  | none => simp [readFile, look] at h
  | some file =>
      refine ⟨file, rfl, ?_⟩
      unfold readFile look at h
      cases haccess : file.access with
      | full =>
          simp only [haccess] at h
          split_ifs at h
          split at h
          · cases h
          · exact ⟨rfl, congrArg Prod.snd (Except.ok.inj h).symm⟩
      | locked =>
          simp only [haccess] at h
          split_ifs at h
      | hidden => simp [haccess] at h

theorem told_opened {record : Option Record} {path : String} {file : Option File} {maxBytes : Nat}
    {eol : LineEnding} {doc : Document}
    (h : Documents.openWith record path (look file) maxBytes eol = .ok doc) :
    Told (opened doc record file) := by
  have hrestore : ∀ record : Record, (doc.restore record).path = doc.path ∧
      (doc.restore record).disk = doc.disk ∧ (doc.restore record).stamp = doc.stamp := by
    intro record
    unfold Document.restore
    cases record.history <;> cases record.language <;> exact ⟨rfl, rfl, rfl⟩
  have hdoc : (opened doc record file).doc.path = doc.path ∧
      (opened doc record file).doc.disk = doc.disk ∧
      (opened doc record file).doc.stamp = doc.stamp := by
    cases record with
    | none => exact ⟨rfl, rfl, rfl⟩
    | some record => exact hrestore record
  have hknown : doc.path.isSome = true ∧ (doc.disk = .inSync →
      ∃ found, file = some found ∧ found.access = .full ∧ doc.stamp = some found.stamp) := by
    unfold Documents.openWith Document.openFile at h
    cases hread : readFile (look file) maxBytes eol with
    | ok read =>
        rw [hread] at h
        obtain rfl := Except.ok.inj h
        exact ⟨rfl, fun _ => readFile_full hread⟩
    | error reason =>
        rw [hread] at h
        simp only [Except.map] at h
        split_ifs at h
        obtain rfl := Except.ok.inj h
        refine ⟨rfl, fun hdisk => ?_⟩
        cases hdisk
  obtain ⟨hpath, hfull⟩ := hknown
  refine ⟨?_, ?_, ?_, ?_, ?_⟩
  · rw [hdoc.1]
    exact hpath
  · intro found hfile
    obtain rfl : file = some found := hfile
    exact List.mem_singleton_self _
  · intro stamp bytes bytes' hmem hmem'
    cases file with
    | none => cases hmem
    | some found =>
        rw [show (opened doc record (some found)).log = [(found.stamp, found.bytes)] from rfl,
          List.mem_singleton, Prod.mk.injEq] at hmem hmem'
        rw [hmem.2, hmem'.2]
  · intro stamp hstamp hdisk
    rw [hdoc.2.1] at hdisk
    rw [hdoc.2.2] at hstamp
    obtain ⟨found, rfl, haccess, hfound⟩ := hfull hdisk
    obtain rfl := Option.some.inj (hstamp.symm.trans hfound)
    refine ⟨found.bytes, ?_, List.mem_singleton_self _⟩
    simp [opened, haccess]
  · intro _ _ hdisk found' hfile
    rw [hdoc.2.1] at hdisk
    obtain ⟨found, rfl, haccess, -⟩ := hfull hdisk
    obtain rfl := Option.some.inj hfile
    simp [opened, haccess]

theorem Told.guarded (h : Told s) (hok : InSync s a) (hstep : DiskRun.step diff s a = some s') :
    Guarded s a s' := by
  constructor
  · rintro maxBytes rfl hdirty
    obtain rfl := Option.some.inj hstep
    exact rope_checkDisk maxBytes hdirty
  · intro hsaves hchanged file hfile
    cases a <;> cases hsaves
    · simp only [DiskRun.step, Option.ite_none_right_eq_some] at hstep
      rcases autoSave_cases hstep.2 with ⟨entry, error, rfl⟩ | ⟨hdue, -⟩
      · exact absurd rfl hchanged
      · exact h.known hstep.1 (hok hdue) (autoTurn_inSync hdue.2) file hfile
    · simp only [DiskRun.step, Option.ite_none_right_eq_some] at hstep
      rcases commit_cases hstep.2 with rfl | ⟨doc, -, rfl | ⟨hclean, -⟩⟩
      · exact absurd rfl hchanged
      · exact absurd rfl hchanged
      · obtain ⟨hdisk, hunread⟩ := hok hclean
        exact h.known hstep.1 hunread hdisk file hfile

/-- In every run whose saves find the document in sync, document and file never overwrite
each other unseen. -/
theorem guarded_of_taken (h : (machine diff).Taken InSync s a s') : Guarded s a s' := by
  have htold : Told s := by
    refine Machine.Reach.invariant ?_ ?_ h.reach
    · rintro _ ⟨record, path, file, maxBytes, eol, doc, hopen, rfl⟩
      exact told_opened hopen
    · intro t a t' ht _ hstep
      exact ht.step hstep
  exact htold.guarded h.ok h.step

/-! ## Two runs -/

def emptyFile : File := ⟨[], some 1, .full⟩

/-- A file whose one byte is `byte`. -/
def byteFile (byte : UInt8) : File := ⟨[byte], some 2, .full⟩

def noDiff : Diff := fun _ _ => []

def emptyDoc : Document :=
  { Document.untitled .lf with path := some "a", stamp := some emptyFile.stamp }

def insertX : Transaction := ⟨[⟨0, [], ['x']⟩]⟩

theorem emptyDoc_init : (machine noDiff).init (opened emptyDoc none (some emptyFile)) :=
  ⟨none, "a", some emptyFile, 9, .lf, emptyDoc, rfl, rfl⟩

/-- A clean document follows the disk, and a commit then replaces what it followed. -/
theorem guarded_followed : ∃ s a s', Guarded s a s' ∧ a.saves = true ∧ s.seen.length = 2 ∧
    s'.file ≠ s.file := by
  have hinit : (machine noDiff).Reach InSync (opened emptyDoc none (some emptyFile)) :=
    .init emptyDoc_init
  obtain ⟨s, s', htaken, hs⟩ := Machine.Taken.exists_of_exec hinit
    [.outside (some (byteFile 97)), .checkDisk 9]
    (.commit (some insertX) 0 (.ok ()) (some 3))
    (fun s s' => decide (s.seen.length = 2) && decide (s'.file ≠ s.file))
    (by decide +kernel)
  rw [Bool.and_eq_true, decide_eq_true_eq, decide_eq_true_eq] at hs
  exact ⟨s, _, s', guarded_of_taken htaken, rfl, hs⟩

/-- Without the condition, a document that was edited while the disk changed, and undone
back to clean, is committed over content it never read. -/
theorem not_guarded : ¬ ∀ s a s', (machine noDiff).Taken Machine.anyStep s a s' →
    Guarded s a s' := by
  intro h
  have hinit : (machine noDiff).Reach Machine.anyStep (opened emptyDoc none (some emptyFile)) :=
    .init emptyDoc_init
  obtain ⟨s, s', htaken, hs⟩ := Machine.Taken.exists_of_exec hinit
    [.edit insertX (.point 0) (.point 1) .insert 0, .outside (some (byteFile 97)), .checkDisk 9,
      .undo]
    (.commit (some insertX) 0 (.ok ()) (some 3))
    (fun s s' => decide (s.file = some (byteFile 97)) && decide (s'.file ≠ s.file) &&
      decide ([97] ∉ s.seen))
    (by decide +kernel)
  simp only [Bool.and_eq_true, decide_eq_true_eq] at hs
  obtain ⟨⟨hfile, hchanged⟩, hunseen⟩ := hs
  exact hunseen ((h s _ s' htaken).content rfl hchanged _ hfile)

end Throng.DiskRun
