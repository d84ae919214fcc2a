import Throng.App.Closing
import Throng.Lib.Machine

/-!
# The desk

What the user does with panels: files are opened in editors, panels are split, shown in
sub-workspaces, moved there and sent back, closed, sub-workspaces are destroyed and
projects deleted. A layout is saved some time after it was changed, and the list of the
sub-workspaces after that; at the next start both are read again, if they can be.
-/

namespace Throng

open Text (LineEnding)

/-- How the store answers when a layout is read. -/
inductive Answer
  | stored
  | unreadable (raw : String) (error : LayoutError)
  | failed (message : String)

/-- What one action draws and is answered: the tab ids of panels that come back, the ids in
fresh layouts, and how the store answers. -/
structure Draw where
  answer : ProjectId → Answer
  fresh : ProjectId → PanelId × TabId
  tabId : PanelId → TabId

/-- The ids a mirror draws: of its panel, of its tab, and of its sub-workspace with the name. -/
structure NewMirror where
  panel : PanelId
  tab : TabId
  sub : SubWorkspace

/-- What opening a file reads. -/
structure Reading where
  look : Look
  languages : Std.ExtTreeMap DocKey String
  maxBytes : Nat
  eol : LineEnding

def PanelKind.isMirror : PanelKind → Bool
  | .mirror _ => true
  | _ => false

/-- The layout of a workspace that has none: a project starts with a terminal, a
sub-workspace with an empty panel. -/
def Layout.fallback (isProject : Bool) (id : ProjectId) (panel : PanelId) (tab : TabId) : Layout :=
  match newDefault id panel tab with
  | some l => if isProject then (l.setKind panel (.terminal {})).1 else l
  | none => ⟨layoutSchemaVersion, [], none, ∅, []⟩

namespace AppState

variable (out : Outside) (app : AppState)

def isSub (id : ProjectId) : Bool := (app.subs.map SubWorkspace.id).contains id

/-- There is a project, a sub-workspace or a loaded layout with the id. -/
def knows (id : ProjectId) : Bool :=
  app.projects.contains id || app.isSub id || app.workspaces.contains id

/-- Do an operation on a loaded layout; `none` if an id it draws is taken. -/
def alter (id : ProjectId) (op : Layout.Op) : Option AppState :=
  match app.workspaces[id]? with
  | none => some app
  | some l =>
      if l.fresh op then
        (l.apply op).map fun l => { app with workspaces := app.workspaces.insert id l }
      else none

/-! ## Sub-workspaces -/

/-- A sub-workspace can show the panel. -/
def showable (id : ProjectId) (panel : PanelId) : Bool :=
  (app.record id panel).any fun record =>
    match record.kind with
    | .terminal _ | .editor _ | .preview _ => true
    | _ => false

/-- A mirror goes beside the active panel of `tab`, or into a tab of its own. -/
def mirrorOp (l : Layout) (id : ProjectId) (tab : Option TabId) (mirror : PanelKind)
    (new : NewMirror) : Layout.Op :=
  match (tab.bind l.tab).bind fun t => t.activePanel.or t.root.panels.head? with
  | some anchor => .addPanel id (some anchor) .right mirror new.panel new.tab
  | none => .addTab id mirror new.panel new.tab

/-- The panel leaves its project's tabs, if it is moved. -/
def leaveHome (id : ProjectId) (panel : PanelId) (moved : Bool) : AppState :=
  if moved then
    { app with workspaces := app.workspaces.modify id fun l => (l.sendAway panel).1 }
  else app

/-- Show project `pid`'s `panel` in a sub-workspace (a new one when `sub` is `none`). -/
def syncTo (pid : ProjectId) (panel : PanelId) (sub : Option ProjectId) (tab : Option TabId)
    (moved : Bool) (new : NewMirror) : Option (AppState × Option ProjectId) :=
  if app.isSub pid then some (app, none)
  else if !app.showable pid panel then some (app, none)
  else
    let mirror := PanelKind.mirror ⟨pid, panel⟩
    match sub.filter app.isSub with
    | some id =>
        let app := app.loadWorkspace out id
        match app.workspaces[id]? with
        | none => some (app, none)
        | some l =>
            (app.alter id (mirrorOp l id tab mirror new)).map fun app =>
              (app.leaveHome pid panel moved, some id)
    | none =>
        if app.knows new.sub.id then none
        else (Layout.newDefault new.sub.id new.panel new.tab).map fun l =>
          let app := { app with
            subs := app.subs ++ [new.sub]
            workspaces := app.workspaces.insert new.sub.id (l.setKind new.panel mirror).1 }
          (app.leaveHome pid panel moved, some new.sub.id)

/-- Move every panel of a project's tab that a sub-workspace can show into a new one, in one
tab. -/
def moveTab (pid : ProjectId) (tab : TabId) (new : PanelId → NewMirror) : Option AppState :=
  ((app.tabPanels pid tab).foldlM (fun (state : AppState × Option (ProjectId × TabId)) panel =>
    (state.1.syncTo out pid panel (state.2.map Prod.fst) (state.2.map Prod.snd) true
      (new panel)).map fun (app, sub) =>
        match sub, state.2 with
        | some sub, none =>
            (app, (app.workspaces[sub]?.bind fun l => l.tabs.head?).map fun t => (sub, t.id))
        | _, target => (app, target)) (app, none)).map Prod.fst

/-! ## Documents -/

def documents (languages : Std.ExtTreeMap DocKey String) : Documents :=
  ⟨app.docs, languages, app.recovered⟩

def withDocuments (documents : Documents) : AppState :=
  { app with docs := documents.docs, recovered := documents.recovered }

def ensureFile (path : PathBuf) (reading : Reading) : AppState :=
  app.withDocuments ((app.documents reading.languages).ensureFile (.file (out.keyFor path)) path
    reading.look reading.maxBytes reading.eol).1

/-- Drawing an editor opens its document. -/
def showEditor (panel : PanelId) (kind : PanelKind) (reading : Reading) : AppState :=
  match kind with
  | .editor ⟨some path⟩ => app.ensureFile out path reading
  | .editor ⟨none⟩ =>
      app.withDocuments ((app.documents reading.languages).ensureUntitled panel reading.eol).1
  | _ => app

/-- Draw a panel. A mirror is drawn as the panel that it shows, in a project that is there. -/
def draw (id : ProjectId) (panel : PanelId) (reading : Reading) : AppState :=
  match app.record id panel with
  | none => app
  | some record =>
      match record.kind with
      | .mirror m =>
          if app.projects.contains m.project then
            let app := app.loadWorkspace out m.project
            match app.record m.project m.panel with
            | some source => app.showEditor out m.panel source.kind reading
            | none => app
          else app
      | kind => app.showEditor out panel kind reading

/-! ## Opening files -/

/-- An editor of the workspace that shows the file. -/
def editorOf (l : Layout) (path : PathBuf) : Option Panel :=
  (l.panels.toList.map Prod.snd).find? fun record =>
    match record.kind with
    | .editor ⟨some other⟩ => out.keyFor other = out.keyFor path
    | _ => false

/-- The panel shown for a file: the workspace's editor of it, or a new one. -/
def openInEditor (id : ProjectId) (path : PathBuf) (anchor : Option PanelId)
    (new : PanelId × TabId) : Option (AppState × Option PanelId) :=
  match app.workspaces[id]? with
  | none => some (app, none)
  | some l =>
      match editorOf out l path with
      | some record => (app.alter id (.focusPanel record.id)).map fun app => (app, some record.id)
      | none =>
          (app.alter id (.addPanel id anchor .stack (.editor ⟨some path⟩) new.1 new.2)).map
            fun app => (app, some new.1)

/-- Open a file in an editor, with a selection. -/
def openAt (id : ProjectId) (path : PathBuf) (anchor : Option PanelId) (new : PanelId × TabId)
    (reading : Reading) : Option AppState :=
  (app.openInEditor out id path anchor new).map fun (app, panel) =>
    match panel with
    | some _ => app.ensureFile out path reading
    | none => app

/-- The document is read to find the position first. -/
def openAtLine (id : ProjectId) (path : PathBuf) (anchor : Option PanelId) (new : PanelId × TabId)
    (reading : Reading) : Option AppState :=
  (app.ensureFile out path reading).openAt out id path anchor new reading

/-- The panel becomes the editor of a file. -/
def becomeEditor (id : ProjectId) (panel : PanelId) (path : PathBuf) : Option AppState :=
  (app.alter id (.setKind panel (.editor ⟨some path⟩))).bind fun app =>
    app.alter id (.focusPanel panel)

/-- Show a file in the editor `panel`, unless its unsaved text has no other view. -/
def openHere (id : ProjectId) (panel : PanelId) (path : PathBuf) (anchor : Option PanelId)
    (new : PanelId × TabId) : Option AppState :=
  match app.editorKey out id panel with
  | none => app.becomeEditor id panel path
  | some key =>
      let lastView : Bool := app.panelsShowing out key ≤ 1
      if app.isDirty key && lastView then
        (app.openInEditor out id path anchor new).map Prod.fst
      else
        (if lastView then { app with docs := app.docs.erase key } else app).becomeEditor id panel
          path

/-- A file dropped on an empty panel becomes its editor, unless it is open elsewhere. -/
def dropFile (id : ProjectId) (panel : PanelId) (path : PathBuf) (anchor : Option PanelId)
    (new : PanelId × TabId) : Option AppState :=
  if (app.workspaces[id]?.any fun l => (editorOf out l path).isSome) = true then
    (app.openInEditor out id path anchor new).map Prod.fst
  else app.becomeEditor id panel path

/-! ## Projects -/

/-- Make a project the active one. -/
def switchProject (id : ProjectId) : AppState :=
  if app.projects.contains id then { app with active := some id }.loadWorkspace out id else app

def deleteProject (id : ProjectId) : AppState :=
  let app := (app.dropMirrors out id none).loadWorkspace out id
  let app := { app with workspaces := app.workspaces.erase id }
  if app.projects.contains id then
    let projects := app.projects.erase id
    if app.active = some id then
      let app := { app with projects, active := projects.head? }
      match app.active with
      | some next => app.switchProject out next
      | none => app
    else { app with projects }
  else app

end AppState

/-- The app with what is stored of it. -/
structure Desk where
  app : AppState
  saved : Std.ExtTreeMap ProjectId Layout
  savedSubs : List SubWorkspace

namespace Desk

variable (keyFor : PathBuf → String) (desk : Desk)

/-- The outside of one action. A layout that is read is one that was saved. -/
def outside (draw : Draw) : Outside where
  keyFor
  store :=
    { layout id :=
        match draw.answer id with
        | .stored =>
            match desk.saved[id]? with
            | some l => .ok (.loaded l)
            | none => .ok .missing
        | .unreadable raw error => .ok (.unreadable raw error)
        | .failed message => .error message
      subWorkspaces := .ok none }
  fresh id := Layout.fallback (desk.app.projects.contains id) id (draw.fresh id).1 (draw.fresh id).2
  tabId := draw.tabId

/-- No workspace has the id, and none is stored under it. -/
def isNew (id : ProjectId) : Bool :=
  !desk.app.knows id && !(desk.savedSubs.map SubWorkspace.id).contains id &&
    !desk.saved.contains id

/-- The operations that the user has on a layout itself. A panel is given another kind by its
picker, or as its terminal ends: it is no editor. -/
def plain (id : ProjectId) : Layout.Op → Bool
  | .addTab _ kind _ _ | .addPanel _ _ _ kind _ _ => !kind.isMirror
  | .setKind panel kind =>
      !kind.isMirror && (desk.app.record id panel).all fun record =>
        match record.kind with
        | .editor _ => false
        | _ => true
  | .focusPanel _ | .renamePanel _ _ | .renameTab _ _ | .moveTab _ _ => true
  | _ => false

/-- The app starts again, with the sub-workspaces that were stored, if their list can be read. -/
def restart (out : Outside) (readable : Bool) (recovered : Std.ExtTreeMap DocKey Record) :
    AppState :=
  let app := { desk.app with
    subs := if readable then desk.savedSubs else [], workspaces := ∅, docs := ∅, recovered }
  let app := (app.subs.map SubWorkspace.id).foldl
    (fun (app : AppState) id => app.loadWorkspace out id) app
  match app.active with
  | some id => app.loadWorkspace out id
  | none => app

inductive Action
  /-- A project comes. -/
  | create (id : ProjectId)
  | switch (id : ProjectId)
  | alter (id : ProjectId) (op : Layout.Op)
  | openInEditor (id : ProjectId) (path : PathBuf) (anchor : Option PanelId)
      (new : PanelId × TabId)
  | openAt (id : ProjectId) (path : PathBuf) (anchor : Option PanelId) (new : PanelId × TabId)
      (reading : Reading)
  | openAtLine (id : ProjectId) (path : PathBuf) (anchor : Option PanelId)
      (new : PanelId × TabId) (reading : Reading)
  | openHere (id : ProjectId) (panel : PanelId) (path : PathBuf) (anchor : Option PanelId)
      (new : PanelId × TabId)
  | dropFile (id : ProjectId) (panel : PanelId) (path : PathBuf) (anchor : Option PanelId)
      (new : PanelId × TabId)
  | draw (id : ProjectId) (panel : PanelId) (reading : Reading)
  | syncTo (id : ProjectId) (panel : PanelId) (sub : Option ProjectId) (tab : Option TabId)
      (moved : Bool) (new : NewMirror)
  | moveTab (id : ProjectId) (tab : TabId) (new : PanelId → NewMirror)
  | closePanel (id : ProjectId) (panel : PanelId) (force : Bool)
  | closeTab (id : ProjectId) (tab : TabId)
  | removeSub (id : ProjectId)
  | deleteProject (id : ProjectId)
  /-- Some of the layouts are saved. -/
  | save (ids : List ProjectId)
  | saveSubs
  /-- The stored layout of a workspace that is gone goes. -/
  | forget (id : ProjectId)
  | restart (readable : Bool) (recovered : Std.ExtTreeMap DocKey Record)

/-- Save one layout that is loaded. -/
def saveLayout (id : ProjectId) : Desk :=
  match desk.app.workspaces[id]? with
  | some l => { desk with saved := desk.saved.insert id l }
  | none => desk

def step (desk : Desk) : Draw × Action → Option Desk
  | (draw, action) =>
      let out := desk.outside keyFor draw
      let app := desk.app
      let put (app : AppState) : Desk := { desk with app }
      match action with
      | .create id =>
          if desk.isNew id then some (put { app with projects := app.projects ++ [id] }) else none
      | .switch id => some (put (app.switchProject out id))
      | .alter id op => if desk.plain id op then (app.alter id op).map put else none
      | .openInEditor id path anchor new =>
          ((app.openInEditor out id path anchor new).map Prod.fst).map put
      | .openAt id path anchor new reading => (app.openAt out id path anchor new reading).map put
      | .openAtLine id path anchor new reading =>
          -- What asks for it is drawn, so its workspace is loaded.
          if app.workspaces.contains id then
            (app.openAtLine out id path anchor new reading).map put
          else none
      | .openHere id panel path anchor new => (app.openHere out id panel path anchor new).map put
      | .dropFile id panel path anchor new =>
          if desk.plain id (.setKind panel (.editor ⟨some path⟩)) then
            (app.dropFile out id panel path anchor new).map put
          else none
      | .draw id panel reading => some (put (app.draw out id panel reading))
      | .syncTo id panel sub tab moved new =>
          -- Only panels of the active project and of sub-workspaces ask for it.
          if (app.projects.contains id || app.isSub id) && desk.isNew new.sub.id then
            ((app.syncTo out id panel sub tab moved new).map Prod.fst).map put
          else none
      | .moveTab id tab new =>
          if (app.projects.contains id || app.isSub id) &&
              (app.tabPanels id tab).all fun panel => desk.isNew (new panel).sub.id then
            (app.moveTab out id tab new).map put
          else none
      | .closePanel id panel force => some (put (app.closePanel out id panel force).1)
      | .closeTab id tab => some (put (app.closeTab out id tab).1)
      | .removeSub id => if app.isSub id then some (put (app.removeSub out id)) else none
      | .deleteProject id => some (put (app.deleteProject out id))
      | .save ids => some (ids.foldl saveLayout desk)
      | .saveSubs => some { desk with savedSubs := app.subs }
      | .forget id =>
          if app.projects.contains id || app.isSub id then none
          else some { desk with saved := desk.saved.erase id }
      | .restart readable recovered => some (put (desk.restart out readable recovered))

/-- The first start: there is nothing. -/
def first : Desk where
  app :=
    { projects := [], active := none, subs := [], workspaces := ∅, folder := ∅, recovery := .new,
      recovered := ∅, docs := ∅ }
  saved := ∅
  savedSubs := []

def machine : Machine Desk (Draw × Action) where
  init desk := desk = first
  step := step keyFor

end Desk

end Throng
