import Throng.App.RecoveryTick
import Throng.Core.LayoutStore

/-!
# The launch

The app reads its projects, takes over last session's unsaved edits, reads its
sub-workspaces and loads their workspaces and the active project's. The records that no
saved layout shows are deleted when the edits are taken over: before the sub-workspaces
are read. What else happens at the launch touches neither the layouts nor the records.
-/

namespace Throng

/-- How a stored layout came back. -/
inductive LayoutLoad
  | missing
  | loaded (layout : Layout)
  | unreadable (raw : String) (error : LayoutError)

structure SubWorkspace where
  id : ProjectId
  name : String
deriving DecidableEq, Repr

/-- What the store answers at a launch, or that it failed. -/
structure Store where
  layout : ProjectId → Except String LayoutLoad
  /-- The text under `SUB_WORKSPACES_KEY`. -/
  subWorkspaces : Except String (Option String)

/-- The app, as far as a launch fills it. -/
structure App where
  projects : List ProjectId
  active : Option ProjectId
  subs : List SubWorkspace
  workspaces : Std.ExtTreeMap ProjectId Layout
  folder : Folder
  recovery : Recovery
  recovered : Std.ExtTreeMap DocKey Record

/-- The key an editor panel uses. -/
def Documents.panelKey (keyFor : String → String) (panel : PanelId) (path : Option PathBuf) :
    DocKey :=
  match path with
  | some path => .file (keyFor path)
  | none => .untitled panel

/-- The documents the editor panels of a layout show. -/
def Layout.documents (keyFor : String → String) (layout : Layout) : List DocKey :=
  layout.panels.toList.filterMap fun entry =>
    match entry.2.kind with
    | .editor config => some (Documents.panelKey keyFor entry.2.id config.path)
    | _ => none

/-- Every document an editor panel shows in a saved layout of these. -/
def Store.documents (store : Store) (keyFor : String → String) (ids : List ProjectId) :
    List DocKey :=
  ids.flatMap fun id =>
    match store.layout id with
    | .ok (.loaded layout) => layout.documents keyFor
    | _ => []

/-- The stored sub-workspaces, as `parse` reads them. -/
def Store.savedSubs (store : Store) (parse : String → Except String (List SubWorkspace)) :
    List SubWorkspace :=
  match store.subWorkspaces with
  | .ok (some text) =>
      match parse text with
      | .ok subs => subs
      | .error _ => []
  | _ => []

namespace App

def documentsInSavedLayouts (app : App) (store : Store) (keyFor : String → String) :
    List DocKey :=
  store.documents keyFor (app.projects ++ app.subs.map SubWorkspace.id)

/-- Load last session's unsaved edits, and delete the ones no saved layout still shows. -/
def startRecovery (app : App) (store : Store) (keyFor : String → String) (history : Bool)
    (stuck listing : List String) : App :=
  let shown := app.documentsInSavedLayouts store keyFor
  let launch :=
    Throng.startRecovery keyFor (fun key => key ∈ shown) history stuck app.folder listing
  { app with folder := launch.folder, recovery := launch.recovery, recovered := launch.recovered }

/-- `fresh` makes the layout of a workspace that has none that can be read. -/
def loadWorkspace (app : App) (store : Store) (fresh : ProjectId → Layout) (id : ProjectId) : App :=
  if app.workspaces.contains id then app
  else if id ∉ app.projects ∧ id ∉ app.subs.map SubWorkspace.id then app
  else
    let layout := match store.layout id with
      | .ok (.loaded layout) => layout.pruneOrphans.1
      | _ => fresh id
    { app with workspaces := app.workspaces.insert id layout }

def loadSubs (app : App) (store : Store) (parse : String → Except String (List SubWorkspace))
    (fresh : ProjectId → Layout) : App :=
  let app := { app with subs := store.savedSubs parse }
  (app.subs.map SubWorkspace.id).foldl (fun app id => app.loadWorkspace store fresh id) app

def loadActive (app : App) (store : Store) (fresh : ProjectId → Layout) : App :=
  match app.active with
  | some id => app.loadWorkspace store fresh id
  | none => app

/-- The app after its launch on a recovery folder. -/
def new (store : Store) (parse : String → Except String (List SubWorkspace))
    (fresh : ProjectId → Layout) (projects : List ProjectId) (active : Option ProjectId)
    (keyFor : String → String) (history : Bool) (stuck : List String) (folder : Folder)
    (listing : List String) : App :=
  let app : App :=
    { projects, active, subs := [], workspaces := ∅, folder, recovery := .new, recovered := ∅ }
  ((app.startRecovery store keyFor history stuck listing).loadSubs store parse fresh).loadActive
    store fresh

end App

/-! ## What a launch leaves in the folder -/

variable {keyFor : String → String} {shown : DocKey → Bool} {history : Bool}
  {stuck listing : List String} {folder : Folder} {name : String}

theorem Folder.getElem?_of_read {record : Record} (h : folder.read name = some record) :
    folder[name]? = some (some record) := by
  rw [read, Option.filter_eq_some_iff] at h
  cases hfolder : folder[name]? with
  | none => simp [hfolder] at h
  | some content => simpa [hfolder] using h.1

/-- Reading the folder leaves what could be read. -/
theorem Folder.loadAll_keeps {record : Record} (h : folder.read name = some record) :
    (folder.loadAll stuck listing).1[name]? = some (some record) := by
  refine List.foldl_keeps (P := fun left : Folder => left[name]? = some (some record)) ?_
    (getElem?_of_read h)
  intro left other _ hleft
  split_ifs with hread
  · exact hleft
  · rw [getElem?_removeFile, if_neg]
    · exact hleft
    · rintro ⟨rfl, -⟩
      simp [h] at hread

theorem Folder.getElem?_removeMatching (stuck : List String) (pred : Record → Bool) :
    (folder.removeMatching stuck pred)[name]? =
      if (folder[name]?.join).any pred = true ∧ name ∉ stuck then none else folder[name]? := by
  split_ifs with h
  · have hname : name ∈ folder.keys := by
      rw [Std.ExtTreeMap.mem_keys, Std.ExtTreeMap.mem_iff_isSome_getElem?]
      cases hfolder : folder[name]? with
      | none => simp [hfolder] at h
      | some content => rfl
    refine List.foldl_settles (P := fun left : Folder => left[name]? = none) hname ?_ ?_
    · intro left other _ hleft
      split_ifs
      · rw [getElem?_removeFile, hleft, ite_self]
      · exact hleft
    · intro left
      rw [if_pos h.1, getElem?_removeFile, if_pos ⟨rfl, h.2⟩]
  · refine List.foldl_keeps (P := fun left : Folder => left[name]? = folder[name]?) ?_ rfl
    intro left other _ hleft
    split_ifs with hmatch
    · rw [getElem?_removeFile, if_neg]
      · exact hleft
      · rintro ⟨rfl, hstuck⟩
        exact h ⟨hmatch, hstuck⟩
    · exact hleft

/-- Discarding one record takes the file with another. -/
def Record.reaches (discarded : Record) (name : String) (record : Record) : Bool :=
  match discarded.path, discarded.untitled with
  | some path, _ => record.path = some path
  | none, some panel => fileName (.untitled panel) = name
  | none, none => false

theorem Folder.getElem?_discard {record discarded : Record}
    (h : folder[name]? = some (some record)) :
    (folder.discard stuck discarded)[name]? =
      if discarded.reaches name record = true ∧ name ∉ stuck then none else some (some record) := by
  cases hpath : discarded.path with
  | some path =>
      simp only [discard, Record.reaches, hpath, getElem?_removeMatching, h]
      rfl
  | none =>
      cases huntitled : discarded.untitled with
      | some panel =>
          simp only [discard, Record.reaches, hpath, huntitled, getElem?_removeFile, h,
            decide_eq_true_eq]
          by_cases hname : fileName (.untitled panel) = name
          · simp [hname]
          · simp [hname]
      | none =>
          simp only [discard, Record.reaches, hpath, huntitled, Bool.false_eq_true, false_and,
            if_false]
          exact h

theorem Folder.getElem?_discard_none {discarded : Record} (h : folder[name]? = none) :
    (folder.discard stuck discarded)[name]? = none := by
  unfold discard
  split
  · rw [getElem?_removeMatching, h, ite_self]
  · rw [getElem?_removeFile, h, ite_self]
  · exact h

/-- A record stays in the folder unless a discarded one reaches it. -/
theorem Folder.reconcile_keeps {record : Record} {records : List Record} {keep : Record → Bool}
    (h : folder[name]? = some (some record))
    (hkeep : ∀ other ∈ records, keep other = false → other.reaches name record = true →
      name ∈ stuck) :
    (folder.reconcile stuck records keep)[name]? = some (some record) := by
  refine List.foldl_keeps (P := fun left : Folder => left[name]? = some (some record)) ?_ h
  intro left other hother hleft
  split_ifs with hkept
  · exact hleft
  · rw [getElem?_discard hleft, if_neg]
    rintro ⟨hreaches, hstuck⟩
    exact hstuck (hkeep other hother (by simpa using hkept) hreaches)

/-- A record that a discarded one reaches goes. -/
theorem Folder.reconcile_removes {record discarded : Record} {records : List Record}
    {keep : Record → Bool} (h : folder[name]? = some (some record)) (hmem : discarded ∈ records)
    (hnot : keep discarded = false) (hreaches : discarded.reaches name record = true)
    (hstuck : name ∉ stuck) : (folder.reconcile stuck records keep)[name]? = none := by
  have hdiscard : ∀ (left : Folder) (other : Record),
      left[name]? = some (some record) ∨ left[name]? = none →
      (left.discard stuck other)[name]? = some (some record) ∨
        (left.discard stuck other)[name]? = none := by
    intro left other hleft
    rcases hleft with hleft | hleft
    · rw [getElem?_discard hleft]
      split_ifs <;> simp
    · exact Or.inr (getElem?_discard_none hleft)
  refine List.foldl_settles_of (I := fun left : Folder =>
    left[name]? = some (some record) ∨ left[name]? = none)
    (P := fun left : Folder => left[name]? = none) hmem ?_ ?_ ?_ (Or.inl h)
  · intro left other _ hleft
    split_ifs
    · exact hleft
    · exact hdiscard left other hleft
  · intro left other _ hleft
    split_ifs
    · exact hleft
    · exact getElem?_discard_none hleft
  · intro left hleft
    rw [hnot, if_neg Bool.false_ne_true]
    rcases hleft with hleft | hleft
    · rw [getElem?_discard hleft, if_pos ⟨hreaches, hstuck⟩]
    · exact getElem?_discard_none hleft

/-- Taking records over touches neither the folder nor what is kept as written. -/
theorem adopt_untouched (launch : Launch) (records : List Record) :
    (records.foldl (Launch.adopt keyFor shown history) launch).folder = launch.folder ∧
      (records.foldl (Launch.adopt keyFor shown history) launch).recovery.written =
        launch.recovery.written := by
  refine List.foldl_keeps (P := fun left : Launch => left.folder = launch.folder ∧
    left.recovery.written = launch.recovery.written) ?_ ⟨rfl, rfl⟩
  intro left record _ hleft
  unfold Launch.adopt
  split <;> exact hleft

theorem startRecovery_folder (keyFor : String → String) (shown : DocKey → Bool) (history : Bool)
    (stuck : List String) (folder : Folder) (listing : List String) :
    (startRecovery keyFor shown history stuck folder listing).folder =
      (folder.loadAll stuck listing).1.reconcile stuck (listing.filterMap folder.read)
        fun record => (record.key keyFor).any shown := by
  rw [startRecovery, (adopt_untouched _ _).1]
  rfl

/-! ## The start-up order -/

namespace App

variable (store : Store) (fresh : ProjectId → Layout)

theorem loadWorkspace_untouched (app : App) (id : ProjectId) :
    (app.loadWorkspace store fresh id).folder = app.folder ∧
      (app.loadWorkspace store fresh id).recovered = app.recovered := by
  unfold loadWorkspace
  split_ifs <;> exact ⟨rfl, rfl⟩

theorem loadSubs_untouched (app : App) (parse : String → Except String (List SubWorkspace)) :
    (app.loadSubs store parse fresh).folder = app.folder ∧
      (app.loadSubs store parse fresh).recovered = app.recovered := by
  refine List.foldl_keeps (P := fun left : App =>
    left.folder = app.folder ∧ left.recovered = app.recovered) ?_ ⟨rfl, rfl⟩
  intro left id _ hleft
  obtain ⟨hfolder, hrecovered⟩ := loadWorkspace_untouched store fresh left id
  exact ⟨hfolder.trans hleft.1, hrecovered.trans hleft.2⟩

theorem loadActive_untouched (app : App) :
    (app.loadActive store fresh).folder = app.folder ∧
      (app.loadActive store fresh).recovered = app.recovered := by
  unfold loadActive
  split
  · exact loadWorkspace_untouched store fresh app _
  · exact ⟨rfl, rfl⟩

/-- The folder after the launch is the one left when the edits were taken over, with the
projects' layouts only. -/
theorem new_folder (parse : String → Except String (List SubWorkspace)) (projects : List ProjectId)
    (active : Option ProjectId) (keyFor : String → String) (history : Bool)
    (stuck : List String) (folder : Folder) (listing : List String) :
    (App.new store parse fresh projects active keyFor history stuck folder listing).folder =
      (Throng.startRecovery keyFor (fun key => key ∈ store.documents keyFor projects) history stuck
        folder listing).folder := by
  rw [App.new, (loadActive_untouched store fresh _).1,
    (loadSubs_untouched store fresh _ _).1]
  simp only [startRecovery, documentsInSavedLayouts, List.map_nil, List.append_nil]

end App

/-- Every document an editor panel of any saved layout shows, of a project or a
sub-workspace. -/
def Store.shownDocuments (store : Store) (parse : String → Except String (List SubWorkspace))
    (keyFor : String → String) (projects : List ProjectId) : List DocKey :=
  store.documents keyFor (projects ++ (store.savedSubs parse).map SubWorkspace.id)

/-- No unsaved work is discarded: the records that could be read, and whose documents some
saved layout shows, are still there, and only others are deleted. -/
structure NoneDiscarded (keyFor : String → String) (folder : Folder) (shown : List DocKey)
    (app : App) : Prop where
  kept : ∀ name record key, folder.read name = some record → record.key keyFor = some key →
    key ∈ shown →
    app.folder[name]? = some (some record) ∨
      ∃ waiting, app.recovered[key]? = some waiting ∧ waiting.text = record.text
  deleted : ∀ name record key, folder.read name = some record → record.key keyFor = some key →
    app.folder[name]? = none → key ∉ shown

/-- A record with a path that some saved layout shows is shown by a project's, and so is an
untitled one in whose file another stands; files that cannot be removed aside. -/
def ShownByProjects (keyFor : String → String) (folder : Folder) (stuck : List String)
    (shown byProjects : List DocKey) : Prop :=
  ∀ name ∈ folder.keys, name ∉ stuck → ∀ record ∈ folder.read name,
    ∀ key ∈ record.key keyFor, key ∈ shown →
      (record.path.isSome = true → key ∈ byProjects) ∧
        ∀ other ∈ folder.keys, ∀ discarded ∈ folder.read other, discarded.path = none →
          ∀ panel ∈ discarded.untitled, fileName (.untitled panel) = name →
            .untitled panel ∈ byProjects

instance (keyFor : String → String) (folder : Folder) (stuck : List String)
    (shown byProjects : List DocKey) :
    Decidable (ShownByProjects keyFor folder stuck shown byProjects) := by
  unfold ShownByProjects
  infer_instance

theorem Folder.mem_keys_of_read {record : Record} (h : folder.read name = some record) :
    name ∈ folder.keys := by
  rw [Std.ExtTreeMap.mem_keys, Std.ExtTreeMap.mem_iff_isSome_getElem?, getElem?_of_read h]
  rfl

/-- What a record reaches is not discarded with it where the projects show it. -/
theorem ShownByProjects.not_reaches {shown byProjects : List DocKey}
    (h : ShownByProjects keyFor folder stuck shown byProjects) {record discarded : Record}
    {key : DocKey} {other : String} (hread : folder.read name = some record)
    (hkey : record.key keyFor = some key) (hshown : key ∈ shown) (hstuck : name ∉ stuck)
    (hother : folder.read other = some discarded)
    (hnot : (discarded.key keyFor).any (fun key => key ∈ byProjects) = false) :
    discarded.reaches name record = false := by
  obtain ⟨hpathShown, hfile⟩ :=
    h name (Folder.mem_keys_of_read hread) hstuck record hread key hkey hshown
  rw [← Bool.not_eq_true]
  intro hreaches
  unfold Record.reaches at hreaches
  cases hpath : discarded.path with
  | some path =>
      simp only [hpath, decide_eq_true_eq] at hreaches
      have hsame : discarded.key keyFor = record.key keyFor := by
        simp [Record.key, hpath, hreaches]
      rw [hsame, hkey] at hnot
      have hin := hpathShown (by rw [hreaches]; rfl)
      simp [hin] at hnot
  | none =>
      cases huntitled : discarded.untitled with
      | some panel =>
          simp only [hpath, huntitled, decide_eq_true_eq] at hreaches
          have hin := hfile other (Folder.mem_keys_of_read hother) discarded hother hpath panel
            huntitled hreaches
          simp [Record.key, hpath, huntitled, hin] at hnot
      | none => simp [hpath, huntitled] at hreaches

section

variable (store : Store) (parse : String → Except String (List SubWorkspace))
  (fresh : ProjectId → Layout) (projects : List ProjectId) (active : Option ProjectId)
  (keyFor : String → String) (history : Bool) (stuck : List String)

/-- A launch discards no unsaved work exactly if the projects' layouts show what the saved
layouts show. -/
theorem noneDiscarded_iff {folder : Folder} {listing : List String}
    (hlisting : listing.Perm folder.keys) :
    NoneDiscarded keyFor folder (store.shownDocuments parse keyFor projects)
        (App.new store parse fresh projects active keyFor history stuck folder listing) ↔
      ShownByProjects keyFor folder stuck (store.shownDocuments parse keyFor projects)
        (store.documents keyFor projects) := by
  have hmem : ∀ name record, folder.read name = some record →
      record ∈ listing.filterMap folder.read := fun name record hread =>
    List.mem_filterMap.mpr ⟨name, hlisting.mem_iff.mpr (Folder.mem_keys_of_read hread), hread⟩
  have hfolder := App.new_folder store fresh parse projects active keyFor history stuck folder
    listing
  rw [startRecovery_folder] at hfolder
  constructor
  · intro h name _ hstuck record hread key hkey hshown
    -- a record that went would have been shown by no saved layout
    have hreached : ∀ discarded ∈ listing.filterMap folder.read,
        discarded.reaches name record = true →
        (discarded.key keyFor).any (fun key => key ∈ store.documents keyFor projects) = true := by
      intro discarded hdiscarded hreaches
      by_contra hnot
      refine h.deleted name record key hread hkey ?_ hshown
      rw [hfolder]
      exact Folder.reconcile_removes (Folder.loadAll_keeps hread) hdiscarded (by simpa using hnot)
        hreaches hstuck
    constructor
    · intro hpath
      have hself : record.reaches name record = true := by
        obtain ⟨path, hpath⟩ := Option.isSome_iff_exists.mp hpath
        simp [Record.reaches, hpath]
      have hany := hreached record (hmem name record hread) hself
      rw [hkey] at hany
      simpa using hany
    · intro other _ discarded hother hpath panel hpanel hfile
      have hreaches : discarded.reaches name record = true := by
        rw [Option.mem_def] at hpanel
        simp [Record.reaches, hpath, hpanel, hfile]
      have hany := hreached discarded (hmem other discarded hother) hreaches
      rw [Option.mem_def] at hpanel
      simpa [Record.key, hpath, hpanel] using hany
  · intro h
    have hkept : ∀ name record key, folder.read name = some record →
        record.key keyFor = some key → key ∈ store.shownDocuments parse keyFor projects →
        (App.new store parse fresh projects active keyFor history stuck folder
          listing).folder[name]? = some (some record) := by
      intro name record key hread hkey hshown
      rw [hfolder]
      refine Folder.reconcile_keeps (Folder.loadAll_keeps hread) ?_
      intro discarded hdiscarded hnot hreaches
      by_contra hstuck
      obtain ⟨other, -, hother⟩ := List.mem_filterMap.mp hdiscarded
      rw [h.not_reaches hread hkey hshown hstuck hother hnot] at hreaches
      cases hreaches
    constructor
    · intro name record key hread hkey hshown
      exact Or.inl (hkept name record key hread hkey hshown)
    · intro name record key hread hkey hgone hshown
      rw [hkept name record key hread hkey hshown] at hgone
      cases hgone

end

/-! ## Two launches -/

/-- A layout whose only panel edits the file at `path`. -/
def editing (path : String) : Layout where
  version := 1
  tabs := [⟨⟨1⟩, "Tab 1", false, SplitTree.leafOf ⟨2⟩, some ⟨2⟩⟩]
  activeTab := some ⟨1⟩
  panels := (∅ : Std.ExtTreeMap PanelId Panel).insert ⟨2⟩
    ⟨⟨2⟩, ⟨1⟩, "Panel 1", false, .editor ⟨some path⟩⟩
  away := []

/-- The file `a` is edited in the layout stored under 1. -/
def storing : Store where
  layout := fun id => if id = ⟨1⟩ then .ok (.loaded (editing "a")) else .ok .missing
  subWorkspaces := .ok (some "")

def unsavedFolder : Folder :=
  (∅ : Folder).insert (fileName (.file "a"))
    (some ⟨1, some "a", none, ['x'], none, none, none⟩)

/-- With the layout a project's, the record is kept. -/
theorem noneDiscarded_project :
    NoneDiscarded id unsavedFolder (storing.shownDocuments (fun _ => .ok []) id [⟨1⟩])
      (App.new storing (fun _ => .ok []) (fun _ => editing "b") [⟨1⟩] none id true []
        unsavedFolder [fileName (.file "a")]) := by
  have hlisting : [fileName (.file "a")].Perm unsavedFolder.keys :=
    List.isPerm_iff.mp (by decide +kernel)
  exact (noneDiscarded_iff storing (fun _ => .ok []) (fun _ => editing "b") [⟨1⟩] none id true []
    hlisting).mpr (by decide +kernel)

/-- With the layout a sub-workspace's, the record is deleted before it is read. -/
theorem not_noneDiscarded : ¬ ∀ store parse fresh projects active keyFor history stuck folder
    listing, List.Perm listing folder.keys →
    NoneDiscarded keyFor folder (Store.shownDocuments store parse keyFor projects)
      (App.new store parse fresh projects active keyFor history stuck folder listing) := by
  intro h
  have hlisting : [fileName (.file "a")].Perm unsavedFolder.keys :=
    List.isPerm_iff.mp (by decide +kernel)
  have hnone := (h storing (fun _ => .ok [⟨⟨1⟩, "Sub-workspace 1"⟩]) (fun _ => editing "b") [] none
    id true [] unsavedFolder _ hlisting).deleted (fileName (.file "a"))
    ⟨1, some "a", none, ['x'], none, none, none⟩ (.file "a") (by decide +kernel) rfl
    (by decide +kernel)
  exact hnone (by decide +kernel)

end Throng
