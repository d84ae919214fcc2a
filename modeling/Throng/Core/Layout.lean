import Throng.Core.Panel
import Throng.Core.SplitTree
import Throng.Lib.Machine

/-!
# Workspace layouts

A project's workspace is a row of tabs, each with a split tree of panels, and the
records of all its panels. A panel shown in a sub-workspace is away: in no tab,
but its record stays. The operations below are the source's; where one draws a
new id, the id is an argument, and where it numbers a title, `none` is the panic
of a numbering that has run out.
-/

namespace Throng

structure Tab where
  id : TabId
  title : String
  titleIsCustom : Bool
  root : SplitTree
  activePanel : Option PanelId
deriving DecidableEq

structure Layout where
  version : Nat
  tabs : List Tab
  activeTab : Option TabId
  panels : Std.ExtTreeMap PanelId Panel
  away : List PanelId

inductive LayoutError
  | parse (message : String)
  | newerVersion (version : Nat)
  | missingPanel (panel : PanelId)
  | duplicatePanel (panel : PanelId)
  | emptyTab
deriving DecidableEq

def layoutSchemaVersion : Nat := 1

/-- `tab_mut`: change the first tab with the id. -/
def modifyTab (id : TabId) (f : Tab → Tab) : List Tab → List Tab
  | [] => []
  | tab :: tabs => if tab.id = id then f tab :: tabs else tab :: modifyTab id f tabs

/-- The panels of a row of tabs, in layout order. -/
def treePanels (tabs : List Tab) : List PanelId := tabs.flatMap fun tab => tab.root.panels

namespace Layout

variable (l : Layout)

/-- One tab's panels in `check`, which has seen `seen` before. -/
def checkPanels (records : Std.ExtTreeMap PanelId Panel) :
    List PanelId → List PanelId → Except LayoutError (List PanelId)
  | [], seen => .ok seen
  | panel :: panels, seen =>
      if panel ∈ seen then .error (.duplicatePanel panel)
      else if panel ∉ records then .error (.missingPanel panel)
      else checkPanels records panels (panel :: seen)

def checkTabs (records : Std.ExtTreeMap PanelId Panel) :
    List Tab → List PanelId → Except LayoutError Unit
  | [], _ => .ok ()
  | tab :: tabs, seen =>
      if tab.root.panels.isEmpty then .error .emptyTab
      else (checkPanels records tab.root.panels seen).bind (checkTabs records tabs)

/-- Every panel in a tree has a record, and appears once. -/
def check : Except LayoutError Unit := checkTabs l.panels l.tabs []

/-- Drop the panel records no tree refers to and no sub-workspace shows. -/
def pruneOrphans : Layout × List Panel :=
  let away := l.away.filter fun id => l.panels.contains id
  let live := treePanels l.tabs ++ away
  ({ l with away, panels := l.panels.filter fun id _ => live.contains id },
    (l.panels.toList.filter fun entry => !live.contains entry.1).map Prod.snd)

def tab (id : TabId) : Option Tab := l.tabs.find? fun tab => tab.id = id

def activeTab? : Option Tab := (l.activeTab.bind l.tab).or l.tabs.head?

/-- The tab holding `panel`. -/
def tabOf (panel : PanelId) : Option TabId :=
  (l.tabs.find? fun tab => tab.root.contains panel).map Tab.id

def nextPanelTitle : Option String :=
  nextNumbered "Panel" (l.panels.toList.map fun entry => entry.2.title)

def nextTabTitle : Option String := nextNumbered "Tab" (l.tabs.map Tab.title)

def newPanel (project : ProjectId) (kind : PanelKind) (id : PanelId) : Option Layout :=
  l.nextPanelTitle.map fun title =>
    { l with panels := l.panels.insert id ⟨id, project, title, false, kind⟩ }

/-- A tab holding one panel, made active. -/
def pushTab (id : TabId) (panel : PanelId) : Option Layout :=
  l.nextTabTitle.map fun title =>
    { l with
      tabs := l.tabs ++ [⟨id, title, false, SplitTree.leafOf panel, some panel⟩]
      activeTab := some id }

def addTab (project : ProjectId) (kind : PanelKind) (panel : PanelId) (tab : TabId) :
    Option Layout :=
  (l.newPanel project kind panel).bind fun l => l.pushTab tab panel

/-- The panel a new one goes beside when none is named. -/
def defaultAnchor : Option PanelId :=
  l.activeTab?.bind fun tab => tab.activePanel.or tab.root.panels.head?

/-- Put an existing panel record into a tab: beside `anchor`, else beside the
active tab's active panel, else into a new tab of its own. -/
def place (panel : PanelId) (anchor : Option PanelId) (placement : Placement) (tab : TabId) :
    Option Layout :=
  let inTab := fun anchor => (l.tabOf anchor).isSome
  match ((anchor.filter inTab).or l.defaultAnchor).filter inTab with
  | none => l.pushTab tab panel
  | some anchor =>
      (l.tabOf anchor).map fun id =>
        { l with
          tabs := modifyTab id (fun tab =>
            { tab with
              root := (tab.root.insert anchor panel placement).1
              activePanel := some panel }) l.tabs
          activeTab := some id }

def addPanel (project : ProjectId) (anchor : Option PanelId) (placement : Placement)
    (kind : PanelKind) (new : PanelId) (tab : TabId) : Option Layout :=
  let anchor := anchor.or l.defaultAnchor
  if (anchor.filter fun anchor => (l.tabOf anchor).isSome).isNone then
    l.addTab project kind new tab
  else (l.newPanel project kind new).bind fun l => l.place new anchor placement tab

def closeTabInner (tab : TabId) : Layout :=
  match l.tabs.findIdx? fun t => t.id = tab with
  | none => l
  | some index =>
      let tabs := l.tabs.eraseIdx index
      { l with
        tabs
        activeTab :=
          if l.activeTab = some tab ∨ l.activeTab = none then
            tabs[if index > 0 then index - 1 else 0]?.map Tab.id
          else l.activeTab }

/-- Where the focus goes when a panel is taken out of its tab: the panel before it
in layout order, or the one after when it was first. -/
def focusAfter (order : List PanelId) (index : Nat) (panel : PanelId) : PanelId :=
  order.getD (if index > 0 then index - 1 else 1) panel

/-- Take a panel out of its tab, keeping its record. -/
def detach (panel : PanelId) : Layout × Bool :=
  match l.tabOf panel with
  | none => (l, false)
  | some id =>
      match l.tab id with
      | none => (l, false)
      | some tab =>
          match tab.root.panels.idxOf? panel with
          | none => (l, false)
          | some index =>
              let root := (tab.root.remove panel).1
              let removed : Layout :=
                { l with tabs := modifyTab id (fun tab => { tab with root }) l.tabs }
              if root.panels.isEmpty then (removed.closeTabInner id, true)
              else if tab.activePanel = some panel ∨ tab.activePanel = none then
                let next := focusAfter tab.root.panels index panel
                ({ l with
                  tabs := modifyTab id (fun tab =>
                    { tab with root := (root.activate next).1, activePanel := some next })
                    l.tabs }, true)
              else (removed, true)

/-- Remove a panel and return its record. -/
def removePanel (panel : PanelId) : Layout × Option Panel :=
  let detached := l.detach panel
  if !detached.2 && !detached.1.away.contains panel then (detached.1, none)
  else
    ({ detached.1 with
      away := detached.1.away.filter fun p => p ≠ panel
      panels := detached.1.panels.erase panel }, detached.1.panels[panel]?)

/-- Move a panel to a sub-workspace. -/
def sendAway (panel : PanelId) : Layout × Bool :=
  let detached := l.detach panel
  if detached.2 then ({ detached.1 with away := detached.1.away ++ [panel] }, true)
  else (detached.1, false)

/-- Bring a panel back from a sub-workspace into the active tab. -/
def bringBack (panel : PanelId) (tab : TabId) : Option (Layout × Bool) :=
  match l.away.idxOf? panel with
  | none => some (l, false)
  | some index =>
      ({ l with away := l.away.eraseIdx index }.place panel none .stack tab).map fun l => (l, true)

/-- Take the records of the panels out, one after the other. -/
def takeRecords (records : Std.ExtTreeMap PanelId Panel) :
    List PanelId → Std.ExtTreeMap PanelId Panel × List Panel
  | [] => (records, [])
  | id :: ids =>
      let rest := takeRecords (records.erase id) ids
      (rest.1, records[id]?.toList ++ rest.2)

/-- Close a tab, returning the records of every panel it held. -/
def closeTab (tab : TabId) : Layout × List Panel :=
  match l.tab tab with
  | none => (l, [])
  | some t =>
      let taken := takeRecords l.panels t.root.panels
      ({ l.closeTabInner tab with panels := taken.1 }, taken.2)

/-- Activate a panel's tab and leaf, and record it as the tab's active panel. -/
def focusPanel (panel : PanelId) : Layout × Bool :=
  match l.tabOf panel with
  | none => (l, false)
  | some id =>
      ({ l with
        tabs := modifyTab id (fun tab =>
          { tab with root := (tab.root.activate panel).1, activePanel := some panel }) l.tabs
        activeTab := some id }, true)

/-- The title a rename gives and whether it is the user's own; an empty name
stands for a fresh default. -/
def renamed (title : String) (fresh : Option String) : Option (String × Bool) :=
  if trim title = "" then fresh.map fun title => (title, false) else some (trim title, true)

def renamePanel (panel : PanelId) (title : String) : Option (Layout × Bool) :=
  match l.panels[panel]? with
  | none => some (l, false)
  | some record =>
      (renamed title l.nextPanelTitle).map fun (title, titleIsCustom) =>
        ({ l with panels := l.panels.insert panel { record with title, titleIsCustom } }, true)

def renameTab (tab : TabId) (title : String) : Option (Layout × Bool) :=
  (renamed title l.nextTabTitle).map fun (title, titleIsCustom) =>
    ({ l with tabs := modifyTab tab (fun t => { t with title, titleIsCustom }) l.tabs },
      (l.tab tab).isSome)

/-- Change what a panel shows. -/
def setKind (panel : PanelId) (kind : PanelKind) : Layout × Bool :=
  ({ l with panels := l.panels.modify panel fun record => { record with kind } },
    l.panels.contains panel)

/-- Move a tab to `dest` in the tab strip. -/
def moveTab (tab : TabId) (dest : Nat) : Layout :=
  match l.tabs.findIdx? fun t => t.id = tab with
  | none => l
  | some index =>
      match l.tabs[index]? with
      | none => l
      | some t =>
          let tabs := l.tabs.eraseIdx index
          { l with tabs := tabs.insertIdx (min dest tabs.length) t }

/-- A fresh layout: one tab holding one untyped panel. -/
def newDefault (project : ProjectId) (panel : PanelId) (tab : TabId) : Option Layout :=
  addTab ⟨layoutSchemaVersion, [], none, ∅, []⟩ project .untyped panel tab

/-! ## Runs -/

/-- One call of an operation, with the ids it may draw. -/
inductive Op
  | addTab (project : ProjectId) (kind : PanelKind) (panel : PanelId) (tab : TabId)
  | addPanel (project : ProjectId) (anchor : Option PanelId) (placement : Placement)
      (kind : PanelKind) (panel : PanelId) (tab : TabId)
  | removePanel (panel : PanelId)
  | sendAway (panel : PanelId)
  | bringBack (panel : PanelId) (tab : TabId)
  | closeTab (tab : TabId)
  | focusPanel (panel : PanelId)
  | renamePanel (panel : PanelId) (title : String)
  | renameTab (tab : TabId) (title : String)
  | setKind (panel : PanelId) (kind : PanelKind)
  | moveTab (tab : TabId) (dest : Nat)
  | pruneOrphans

/-- The ids an operation draws are new ones. -/
def fresh : Op → Bool
  | .addTab _ _ panel tab | .addPanel _ _ _ _ panel tab =>
      !l.panels.contains panel && l.tabs.all fun t => t.id ≠ tab
  | .bringBack _ tab => l.tabs.all fun t => t.id ≠ tab
  | _ => true

def apply : Op → Option Layout
  | .addTab project kind panel tab => l.addTab project kind panel tab
  | .addPanel project anchor placement kind panel tab =>
      l.addPanel project anchor placement kind panel tab
  | .removePanel panel => some (l.removePanel panel).1
  | .sendAway panel => some (l.sendAway panel).1
  | .bringBack panel tab => (l.bringBack panel tab).map Prod.fst
  | .closeTab tab => some (l.closeTab tab).1
  | .focusPanel panel => some (l.focusPanel panel).1
  | .renamePanel panel title => (l.renamePanel panel title).map Prod.fst
  | .renameTab tab title => (l.renameTab tab title).map Prod.fst
  | .setKind panel kind => some (l.setKind panel kind).1
  | .moveTab tab dest => some (l.moveTab tab dest)
  | .pruneOrphans => some l.pruneOrphans.1

/-- The layouts that operations lead to from one that satisfies `start`. -/
def machine (start : Layout → Prop) : Machine Layout Op where
  init := start
  step l op := if l.fresh op then l.apply op else none

end Layout

end Throng
