import Throng.Core.SplitTree
import Throng.Lib.Heap

/-!
# The docking widget

A tab's split tree is converted to the docking widget's tree when it is shown, and back
after the widget has run. The widget stores its nodes by their indices in an array, and its
operations are parameters here. Panels dragged out into floating windows are folded back
into the main tree.
-/

namespace Throng

/-- A node of the widget's tree. -/
inductive Node
  | empty
  | leaf (tabs : List PanelId) (active : Nat)
  | horizontal (fraction : Share)
  | vertical (fraction : Share)
deriving DecidableEq

/-- Where the widget puts a new node, seen from the node it splits. -/
inductive Split
  | right
  | below
deriving DecidableEq, Repr

namespace Node

def tabs : Node → List PanelId
  | .leaf tabs _ => tabs
  | _ => []

def isParent : Node → Bool
  | .horizontal _ => true
  | .vertical _ => true
  | _ => false

end Node

/-- What the split node becomes: the parent of the old node and the new one. -/
def Split.parent : Split → Share → Node
  | .right, fraction => .horizontal fraction
  | .below, fraction => .vertical fraction

/-- The operations of the widget's tree. -/
structure Widget (Tree : Type) where
  /-- A tree with one leaf, the first of whose tabs is active. -/
  new : List PanelId → Tree
  len : Tree → Nat
  /-- `tree[index]`. -/
  node : Tree → Nat → Node
  /-- Show a tab of a leaf, where there are such a leaf and such a tab. -/
  setActiveTab : Tree → Nat → Nat → Tree
  /-- Split a node with a new leaf, and tell where the two are then. -/
  split : Tree → Nat → Split → Share → List PanelId → Tree × Nat × Nat

/-- The docking state of a tab: the main surface, and the tree of each floating window. -/
structure DockState (Tree : Type) where
  main : Tree
  windows : List Tree

/-! ## The conversions -/

/-- `f32::clamp(0.05, 0.95)`. It leaves NaN as it is; the infinities, which it takes to an end,
are not told apart from NaN. -/
def Share.clamp : Share → Share
  | .finite value => .finite (max minFraction (min (1 - minFraction) value))
  | .notFinite => .notFinite

def firstLeaf : SplitTree → List PanelId × Nat
  | .leaf panels active => (panels, active)
  | .split _ _ first _ => firstLeaf first

def Axis.toSplit : Axis → Split
  | .horizontal => .right
  | .vertical => .below

/-- A split of what its two sides show, or the side that is left when the other shows
nothing. -/
def join (axis : Axis) (fraction : Share) : Option SplitTree → Option SplitTree → Option SplitTree
  | some first, some second => some (.split axis fraction first second)
  | some only, none => some only
  | none, some only => some only
  | none, none => none

/-- Put a panel of a floating window after the last panel of the tree. -/
def foldBack (tree : SplitTree) (panel : PanelId) : SplitTree :=
  match tree.panels.getLast? with
  | some anchor => (tree.insert anchor panel .stack).1
  | none => tree

namespace Widget

variable {Tree : Type} (W : Widget Tree)

/-- `tree[index]` already holds a leaf with the panels of the first leaf of the split tree. -/
def build (tree : Tree) (index : Nat) : SplitTree → Tree
  | .leaf panels active => W.setActiveTab tree index (min active (panels.length - 1))
  | .split axis fraction first second =>
      let secondTabs := (firstLeaf second).1
      if secondTabs.isEmpty then build tree index first
      else
        let split := W.split tree index axis.toSplit fraction.clamp secondTabs
        build (build split.1 split.2.1 first) split.2.2 second

def toDock (tree : SplitTree) : DockState Tree where
  main := W.build (W.new (firstLeaf tree).1) 0 tree
  windows := []

def read (tree : Tree) (index : Nat) : Option SplitTree :=
  if W.len tree ≤ index then none
  else
    match W.node tree index with
    | .empty => none
    | .leaf tabs active => if tabs.isEmpty then none else some (.leaf tabs active)
    | .horizontal fraction =>
        join .horizontal fraction (read tree (2 * index + 1)) (read tree (2 * index + 2))
    | .vertical fraction =>
        join .vertical fraction (read tree (2 * index + 1)) (read tree (2 * index + 2))
termination_by W.len tree - index

/-- The tabs of every leaf of the widget's tree, in the order of the nodes. -/
def tabs (tree : Tree) : List PanelId :=
  (List.range (W.len tree)).flatMap fun index => (W.node tree index).tabs

/-- The dock's main tree, and the panels dragged out of it into floating windows. -/
def readDock (dock : DockState Tree) : Option SplitTree × List PanelId :=
  let tree := W.read dock.main 0
  (tree.map SplitTree.normalize,
    dock.windows.flatMap fun window =>
      (W.tabs window).filter fun panel => !tree.any fun tree => tree.contains panel)

/-- The split tree of a dock, or `none` when its main surface holds no panel. -/
def fromDock (dock : DockState Tree) : Option SplitTree :=
  (W.readDock dock).1.map fun tree => ((W.readDock dock).2.foldl foldBack tree).normalize

/-- The root of the tab after the widget has run, and whether it has changed. -/
def writeBack (root : SplitTree) (dock : DockState Tree) : SplitTree × Bool :=
  match W.fromDock dock with
  | some tree => if tree = root then (root, false) else (tree, true)
  | none => (root, false)

/-- The panels of the main surface and of every floating window. -/
def allTabs (dock : DockState Tree) : List PanelId :=
  W.tabs dock.main ++ dock.windows.flatMap W.tabs

/-- The panels of the floating windows that the main surface does not hold as well. -/
def floating (dock : DockState Tree) : List PanelId :=
  (dock.windows.flatMap W.tabs).filter fun panel => !(W.tabs dock.main).contains panel

/-! ## The widget -/

/-- What the conversions rely on. The children of the node at `i` are at `2 * i + 1` and
`2 * i + 2`, and splitting a leaf puts it before the new one. -/
structure Lawful : Prop where
  node_of_len_le : ∀ tree i, W.len tree ≤ i → W.node tree i = .empty
  node_new : ∀ tabs, W.node (W.new tabs) 0 = .leaf tabs 0
  node_setActiveTab : ∀ tree i tabs old active j, W.node tree i = .leaf tabs old →
    active < tabs.length → W.node (W.setActiveTab tree i active) j =
      if j = i then .leaf tabs active else W.node tree j
  split_places : ∀ tree i tabs active split fraction new, W.node tree i = .leaf tabs active →
    new ≠ [] → (W.split tree i split fraction new).2 = (2 * i + 1, 2 * i + 2)
  node_split : ∀ tree i tabs active split fraction new j, W.node tree i = .leaf tabs active →
    new ≠ [] → W.node (W.split tree i split fraction new).1 j =
      if j = i then split.parent fraction
      else if j = 2 * i + 1 then .leaf tabs active
      else if j = 2 * i + 2 then .leaf new 0
      else W.node tree j

/-- Every node hangs from a parent, so that none is out of reach from the root. -/
def Rooted (tree : Tree) : Prop :=
  ∀ i, (W.node tree i).isParent = false →
    W.node tree (2 * i + 1) = .empty ∧ W.node tree (2 * i + 2) = .empty

end Widget

end Throng
