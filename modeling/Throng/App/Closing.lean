import Throng.App.Launch
import Throng.App.Moves
import Throng.Core.LayoutInvariant

/-!
# Closing panels and tabs

A panel that is closed goes from its layout; the last editor of a document takes the
document along. A mirror is closed where it stands, and its panel goes back to its project.
A project's panel is taken out of the sub-workspaces that mirror it, and a sub-workspace
left with no tab goes too. The user is asked before a close when a document with unsaved
text has no other editor: the editors are counted in the workspaces that are loaded.
-/

namespace Throng

/-- `Path::file_name`. -/
def Path.fileName (path : PathBuf) : Option String :=
  (components path).getLast?.filter fun name => name ∉ ["/", ".", ".."]

/-- The file-name label. -/
def Document.name (doc : Document) : String := (doc.path.bind Path.fileName).getD "Untitled"

/-- The app and its open documents. -/
structure AppState extends App where
  docs : Std.ExtTreeMap DocKey Document

/-- What closing needs from outside: the keys of paths, the store and the layouts made for
workspaces it has none of, and the id drawn for a tab that a panel coming back is put into. -/
structure Outside where
  keyFor : PathBuf → String
  store : Store
  fresh : ProjectId → Layout
  tabId : PanelId → TabId

/-- How the user is told that unsaved text stands in the way. -/
inductive Question
  | closePanel (panel : PanelId) (reason : String)
  | closeTab (tab : TabId) (warning : String)
deriving DecidableEq, Repr

/-- The document a panel shows. -/
def Panel.document (keyFor : PathBuf → String) (panel : Panel) : Option DocKey :=
  match panel.kind with
  | .editor config => some (Documents.panelKey keyFor panel.id config.path)
  | _ => none

/-- The mirrors of `project`'s panels, or of `panel` alone. -/
def Layout.mirrorsOf (l : Layout) (project : ProjectId) (panel : Option PanelId) :
    List PanelId :=
  l.panels.toList.filterMap fun entry =>
    match entry.2.kind with
    | .mirror m =>
        if m.project = project ∧ (panel.all fun panel => panel = m.panel) = true then
          some entry.2.id
        else none
    | _ => none

namespace AppState

variable (out : Outside) (app : AppState)

def record (id : ProjectId) (panel : PanelId) : Option Panel :=
  app.workspaces[id]?.bind fun l => l.panels[panel]?

/-- The panels of every loaded workspace, with where they are. -/
def panels : List ((ProjectId × PanelId) × Panel) :=
  app.workspaces.toList.flatMap fun workspace =>
    workspace.2.panels.toList.map fun entry => ((workspace.1, entry.1), entry.2)

/-- How many editor panels, across every loaded project, show `key`. -/
def panelsShowing (key : DocKey) : Nat :=
  app.panels.countP fun entry => entry.2.document out.keyFor = some key

def editorKey (id : ProjectId) (panel : PanelId) : Option DocKey :=
  (app.record id panel).bind fun record =>
    match record.kind with
    | .editor config => some (Documents.panelKey out.keyFor panel config.path)
    | _ => none

def isDirty (key : DocKey) : Bool := app.docs[key]?.any fun doc => doc.isDirty.1

def loadWorkspace (id : ProjectId) : AppState :=
  { app with toApp := app.toApp.loadWorkspace out.store out.fresh id }

/-- A moved panel comes back to its project's tabs. Where the numbering of tabs has run out
the source panics. -/
def returnHome (project : ProjectId) (panel : PanelId) : AppState :=
  let app := app.loadWorkspace out project
  { app with
    workspaces := app.workspaces.modify project fun l =>
      match l.bringBack panel (out.tabId panel) with
      | some back => back.1
      | none => l }

/-- A mirror's panel goes back to its project. -/
def returnMirrored (panel : Panel) : AppState :=
  match panel.kind with
  | .mirror m => app.returnHome out m.project m.panel
  | _ => app

/-- The document of a destroyed editor goes if no panel shows it. -/
def dropUnshown (panel : Panel) : AppState :=
  match panel.document out.keyFor with
  | some key =>
      if app.panelsShowing out key = 0 then { app with docs := app.docs.erase key } else app
  | none => app

/-- Destroy a sub-workspace. -/
def removeSub (id : ProjectId) : AppState :=
  let app := app.loadWorkspace out id
  let app := match app.workspaces[id]? with
    | some l =>
        let panels := l.panels.toList.map Prod.snd
        let app := { app with workspaces := app.workspaces.erase id }
        let app := panels.foldl (fun (app : AppState) panel => app.returnMirrored out panel) app
        panels.foldl (fun (app : AppState) panel => app.dropUnshown out panel) app
    | none => app
  { app with subs := app.subs.eraseP fun sub => sub.id = id }

/-- Take the mirrors of `project`'s panels out of one sub-workspace. -/
def dropMirrorsIn (project : ProjectId) (panel : Option PanelId) (id : ProjectId) : AppState :=
  let app := app.loadWorkspace out id
  match app.workspaces[id]? with
  | none => app
  | some l =>
      let mirrors := l.mirrorsOf project panel
      if mirrors.isEmpty then app
      else
        let l := mirrors.foldl (fun l mirror => (l.removePanel mirror).1) l
        let app := { app with workspaces := app.workspaces.insert id l }
        if l.tabs.isEmpty then app.removeSub out id else app

/-- Take away every mirror of `project`'s panels (only `panel`'s, when given). -/
def dropMirrors (project : ProjectId) (panel : Option PanelId) : AppState :=
  (app.subs.map SubWorkspace.id).foldl
    (fun app id => app.dropMirrorsIn out project panel id) app

def withoutPanel (id : ProjectId) (panel : PanelId) : AppState :=
  { app with workspaces := app.workspaces.modify id fun l => (l.removePanel panel).1 }

/-- The last part of `close_panel`: the panel goes from its layout. -/
def takePanel (id : ProjectId) (panel : PanelId) : AppState :=
  let app := app.withoutPanel id panel
  if (app.subs.map SubWorkspace.id).contains id then
    if (app.workspaces[id]?.any fun l => l.tabs.isEmpty) = true then app.removeSub out id else app
  else app.dropMirrors out id (some panel)

def closePanel (id : ProjectId) (panel : PanelId) (force : Bool) : AppState × Option Question :=
  match app.record id panel with
  | none => (app, none)
  | some record =>
      match record.kind with
      | .editor config =>
          let key := Documents.panelKey out.keyFor panel config.path
          let lastView : Bool := app.panelsShowing out key ≤ 1
          if app.isDirty key && lastView && !force then
            let name := (app.docs[key]?.map Document.name).getD ""
            (app, some (.closePanel panel ("\"" ++ name ++
              "\" has unsaved changes. Closing this panel discards them.")))
          else
            let app := if lastView then { app with docs := app.docs.erase key } else app
            (app.takePanel out id panel, none)
      | .mirror m => ((app.returnHome out m.project m.panel).takePanel out id panel, none)
      | _ => (app.takePanel out id panel, none)

/-- The panels of a tab. -/
def tabPanels (id : ProjectId) (tab : TabId) : List PanelId :=
  match app.workspaces[id]?.bind fun l => l.tab tab with
  | some t => t.root.panels
  | none => []

/-- The name of a panel's document, if closing the panel alone would discard unsaved text. -/
def unsavedName (id : ProjectId) (panel : PanelId) : Option String :=
  match app.editorKey out id panel with
  | some key =>
      if app.panelsShowing out key ≤ 1 ∧ app.isDirty key = true then
        app.docs[key]?.map Document.name
      else none
  | none => none

def closeTab (id : ProjectId) (tab : TabId) : AppState × Option Question :=
  let panels := app.tabPanels id tab
  let dirty := panels.filterMap fun panel => app.unsavedName out id panel
  if dirty.isEmpty then
    (panels.foldl (fun app panel => (app.closePanel out id panel true).1) app, none)
  else
    (app, some (.closeTab tab ("This tab has unsaved changes in " ++ ", ".intercalate dirty ++
      ". Save or close those panels first.")))

end AppState

/-- A close the user asks for: of one panel, not forced, or of a tab. -/
inductive Close
  | panel (panel : PanelId)
  | tab (tab : TabId)
deriving DecidableEq, Repr

namespace AppState

variable (out : Outside) (app : AppState) (id : ProjectId)

def close : Close → AppState × Option Question
  | .panel panel => app.closePanel out id panel false
  | .tab tab => app.closeTab out id tab

/-- The panels to be closed. -/
def closing : Close → List PanelId
  | .panel panel => [panel]
  | .tab tab => app.tabPanels id tab

end AppState

end Throng
