import Mathlib.Algebra.BigOperators.Group.List.Basic
import Mathlib.Data.List.GetD
import Throng.App.Dock

/-!
# What a docking state keeps

A well-formed split tree comes back from the widget as it was. Whatever the widget makes of
it, a docking state with a panel in its main surface is read with all the panels it holds:
those of the main surface, and those the floating windows have besides.
-/

namespace Throng

namespace Widget

variable {Tree : Type} {W : Widget Tree} {tree tree' : Tree} {i j : Nat}

/-! ## Building a dock -/

/-- The widget's tree holds a split tree at an index. -/
def Shows (W : Widget Tree) (tree : Tree) : Nat → SplitTree → Prop
  | index, .leaf panels active => W.node tree index = .leaf panels active
  | index, .split axis fraction first second =>
      W.node tree index = axis.toSplit.parent fraction ∧ Shows W tree (2 * index + 1) first ∧
        Shows W tree (2 * index + 2) second

/-- What an index shows depends on the nodes at and below it. -/
theorem Shows.congr {t : SplitTree} (h : W.Shows tree i t)
    (hsame : ∀ j, Heap.Under i j → W.node tree' j = W.node tree j) : W.Shows tree' i t := by
  induction t generalizing i with
  | leaf panels active => exact (hsame i (.refl i)).trans h
  | split axis fraction first second ihf ihs =>
      obtain ⟨hnode, hfirst, hsecond⟩ := h
      exact ⟨(hsame i (.refl i)).trans hnode, ihf hfirst fun j hj => hsame j hj.of_left,
        ihs hsecond fun j hj => hsame j hj.of_right⟩

theorem firstLeaf_ne_nil {t : SplitTree} (h : t.Proper) : (firstLeaf t).1 ≠ [] := by
  induction h with
  | leaf h => exact List.ne_nil_of_length_pos (Nat.zero_lt_of_lt h)
  | split _ _ _ _ ihf _ => exact ihf

theorem clamp_of_mem {value : ℚ} (hlow : minFraction ≤ value) (hhigh : value ≤ 1 - minFraction) :
    (Share.finite value).clamp = .finite value := SplitTree.clampFraction_of_mem hlow hhigh

/-- Where a leaf with its first panels stands, the whole split tree is built, and the nodes
elsewhere stay as they are. -/
theorem shows_build (hW : W.Lawful) {t : SplitTree} (ht : t.Proper) {active : Nat}
    (hleaf : W.node tree i = .leaf (firstLeaf t).1 active) :
    W.Shows (W.build tree i t) i t ∧
      ∀ j, ¬ Heap.Under i j → W.node (W.build tree i t) j = W.node tree j := by
  induction ht generalizing tree i active with
  | @leaf panels shown h =>
      have hmin : min shown (panels.length - 1) = shown := by omega
      have hnode := hW.node_setActiveTab tree i panels active shown
      rw [build, hmin]
      refine ⟨(hnode i hleaf h).trans (if_pos rfl), fun j hj => ?_⟩
      rw [hnode j hleaf h, if_neg]
      rintro rfl
      exact hj (.refl j)
  | @split axis value first second hlow hhigh hfirst hsecond ihf ihs =>
      have hne : (firstLeaf second).1 ≠ [] := firstLeaf_ne_nil hsecond
      have hplaces := hW.split_places tree i _ active axis.toSplit (.finite value) _ hleaf hne
      have hsplit := fun j =>
        hW.node_split tree i _ active axis.toSplit (.finite value) _ j hleaf hne
      rw [build]
      dsimp only
      rw [List.isEmpty_eq_false_iff.mpr hne, if_neg Bool.false_ne_true, clamp_of_mem hlow hhigh,
        hplaces]
      generalize (W.split tree i axis.toSplit (.finite value) (firstLeaf second).1).1 =
        grown at hsplit ⊢
      -- The first side is built where the old leaf went.
      have hold : W.node grown (2 * i + 1) = .leaf (firstLeaf first).1 active := by
        rw [hsplit, if_neg (by omega), if_pos rfl]
        rfl
      obtain ⟨hshows₁, hkeeps₁⟩ := ihf hold
      have hnew : W.node (W.build grown (2 * i + 1) first) (2 * i + 2) =
          .leaf (firstLeaf second).1 0 := by
        rw [hkeeps₁ _ fun hunder => Heap.not_under_right hunder (.refl _), hsplit,
          if_neg (by omega), if_neg (by omega), if_pos rfl]
      obtain ⟨hshows₂, hkeeps₂⟩ := ihs hnew
      have hi : ∀ c, i < c → ¬ Heap.Under c i := fun c hc hunder => by
        have hle := hunder.le
        omega
      refine ⟨⟨?_, hshows₁.congr fun j hj => hkeeps₂ j (Heap.not_under_right hj), hshows₂⟩,
        fun j hj => ?_⟩
      · rw [hkeeps₂ i (hi _ (by omega)), hkeeps₁ i (hi _ (by omega)), hsplit, if_pos rfl]
      · have hroot : j ≠ i := fun hji => hj (hji ▸ .refl i)
        have hleft : ¬ Heap.Under (2 * i + 1) j := fun hunder => hj hunder.of_left
        have hright : ¬ Heap.Under (2 * i + 2) j := fun hunder => hj hunder.of_right
        have hchild₁ : j ≠ 2 * i + 1 := fun hji => hleft (hji ▸ .refl _)
        have hchild₂ : j ≠ 2 * i + 2 := fun hji => hright (hji ▸ .refl _)
        rw [hkeeps₂ j hright, hkeeps₁ j hleft, hsplit, if_neg hroot, if_neg hchild₁,
          if_neg hchild₂]

/-! ## Reading a dock -/

theorem read_of_empty (h : W.node tree i = .empty) : W.read tree i = none := by
  rw [read]
  split
  · rfl
  · rw [h]

theorem Lawful.lt_len (hW : W.Lawful) (h : W.node tree i ≠ .empty) : ¬ W.len tree ≤ i :=
  fun hle => h (hW.node_of_len_le tree i hle)

theorem read_of_parent (hW : W.Lawful) {axis : Axis} {fraction : Share}
    (h : W.node tree i = axis.toSplit.parent fraction) :
    W.read tree i = join axis fraction (W.read tree (2 * i + 1)) (W.read tree (2 * i + 2)) := by
  have hin : ¬ W.len tree ≤ i := hW.lt_len (by cases axis <;> rw [h] <;> nofun)
  rw [read, if_neg hin, h]
  cases axis <;> rfl

/-- What is shown at an index is what is read there. -/
theorem Shows.read_eq (hW : W.Lawful) {t : SplitTree} (ht : t.Proper) (h : W.Shows tree i t) :
    W.read tree i = some t := by
  induction ht generalizing i with
  | @leaf panels active hlt =>
      have hnode : W.node tree i = .leaf panels active := h
      have hin : ¬ W.len tree ≤ i := hW.lt_len (by rw [hnode]; nofun)
      have hne : panels.isEmpty = false :=
        List.isEmpty_eq_false_iff.mpr (List.ne_nil_of_length_pos (Nat.zero_lt_of_lt hlt))
      rw [read, if_neg hin, hnode]
      dsimp only
      rw [hne]
      rfl
  | split _ _ _ _ ihf ihs =>
      obtain ⟨hnode, hfirst, hsecond⟩ := h
      rw [read_of_parent hW hnode, ihf hfirst, ihs hsecond, join]

/-- A well-formed split tree comes back from the widget as it was. -/
theorem fromDock_toDock (hW : W.Lawful) {t : SplitTree} (ht : t.Proper) :
    W.fromDock (W.toDock t) = some t := by
  have hread : W.read (W.toDock t).main 0 = some t :=
    (shows_build hW ht (hW.node_new _)).1.read_eq hW ht
  rw [fromDock, readDock, hread]
  show some (t.normalize).normalize = some t
  rw [ht.normalize_eq, ht.normalize_eq]

/-- A tab that is only shown keeps its root. -/
theorem writeBack_toDock (hW : W.Lawful) {t : SplitTree} (ht : t.Proper) :
    W.writeBack t (W.toDock t) = (t, false) := by
  rw [writeBack, fromDock_toDock hW ht]
  exact if_pos rfl

/-! ## The panels of a dock -/

/-- The panels of what is read. -/
def listed (read : Option SplitTree) : List PanelId := (read.map SplitTree.panels).getD []

theorem listed_join (axis : Axis) (fraction : Share) (first second : Option SplitTree) :
    listed (join axis fraction first second) = listed first ++ listed second := by
  cases first with
  | none => cases second <;> rfl
  | some a =>
      cases second with
      | none => exact (List.append_nil _).symm
      | some b => rfl

/-- A panel is read at an index as often as at the node and at the two below it. -/
theorem count_read (hW : W.Lawful) (hrooted : W.Rooted tree) (p : PanelId) (i : Nat) :
    (listed (W.read tree i)).count p = (W.node tree i).tabs.count p +
      (listed (W.read tree (2 * i + 1))).count p + (listed (W.read tree (2 * i + 2))).count p := by
  have hchildless : (W.node tree i).isParent = false →
      listed (W.read tree (2 * i + 1)) = [] ∧ listed (W.read tree (2 * i + 2)) = [] := by
    intro hparent
    obtain ⟨hleft, hright⟩ := hrooted i hparent
    rw [read_of_empty hleft, read_of_empty hright]
    exact ⟨rfl, rfl⟩
  have hparent : ∀ (axis : Axis) fraction, W.node tree i = axis.toSplit.parent fraction →
      (listed (W.read tree i)).count p = (W.node tree i).tabs.count p +
        (listed (W.read tree (2 * i + 1))).count p +
          (listed (W.read tree (2 * i + 2))).count p := by
    intro axis fraction hnode
    have htabs : (W.node tree i).tabs = [] := by cases axis <;> rw [hnode] <;> rfl
    rw [read_of_parent hW hnode, listed_join, List.count_append, htabs, List.count_nil,
      Nat.zero_add]
  cases hnode : W.node tree i with
  | empty =>
      obtain ⟨hleft, hright⟩ := hchildless (hnode ▸ rfl)
      rw [read_of_empty hnode, hleft, hright]
      rfl
  | leaf tabs active =>
      obtain ⟨hleft, hright⟩ := hchildless (hnode ▸ rfl)
      have hin : ¬ W.len tree ≤ i := hW.lt_len (by rw [hnode]; nofun)
      have hlisted : listed (W.read tree i) = tabs := by
        rw [read, if_neg hin, hnode]
        dsimp only
        split
        · next hempty => exact (List.isEmpty_iff.mp hempty).symm
        · rfl
      rw [hlisted, hleft, hright, List.count_nil, Node.tabs]
      omega
  | horizontal fraction => exact hnode ▸ hparent .horizontal fraction hnode
  | vertical fraction => exact hnode ▸ hparent .vertical fraction hnode

/-- The main surface is read with the panels of all its leaves. -/
theorem listed_read (hW : W.Lawful) (hrooted : W.Rooted tree) :
    (listed (W.read tree 0)).Perm (W.tabs tree) := by
  rw [List.perm_iff_count]
  intro p
  have htotal := @Heap.total_zero Nat _ (fun i => (W.node tree i).tabs.count p)
    (fun i => (listed (W.read tree i)).count p) (W.len tree)
    (fun i _ => count_read hW hrooted p i)
    (fun i hi => by rw [read_of_empty (hW.node_of_len_le tree i hi)]; rfl)
  rw [htotal, tabs, List.count_flatMap]
  rfl

theorem contains_read (hW : W.Lawful) (hrooted : W.Rooted tree) (p : PanelId) :
    ((W.read tree 0).any fun t => t.contains p) = (W.tabs tree).contains p := by
  have hmem := (listed_read hW hrooted).mem_iff (a := p)
  rw [Bool.eq_iff_iff, List.contains_iff_mem, ← hmem, Option.any_eq_true]
  cases W.read tree 0 with
  | none => simp [listed]
  | some t => simp [listed, SplitTree.contains_iff]

/-- The panels folded back are put with those of the tree. -/
theorem panels_foldl_foldBack (torn : List PanelId) {t : SplitTree} (h : t.panels ≠ []) :
    (torn.foldl foldBack t).panels.Perm (t.panels ++ torn) := by
  induction torn generalizing t with
  | nil => rw [List.foldl_nil, List.append_nil]
  | cons p torn ih =>
      obtain ⟨anchor, hanchor⟩ := Option.isSome_iff_exists.mp (List.getLast?_isSome.mpr h)
      have hfold : (foldBack t p).panels.Perm (p :: t.panels) := by
        rw [foldBack, hanchor]
        exact SplitTree.panels_insert (List.mem_of_getLast? hanchor)
      have hne : (foldBack t p).panels ≠ [] := by
        intro hnil
        rw [hnil] at hfold
        exact absurd hfold.symm (List.not_perm_cons_nil)
      rw [List.foldl_cons]
      exact ((ih hne).trans (hfold.append_right torn)).trans List.perm_middle.symm

theorem panels_join {axis : Axis} {fraction : Share} {first second : Option SplitTree}
    {t : SplitTree} (h : join axis fraction first second = some t)
    (hfirst : ∀ t ∈ first, t.panels ≠ []) (hsecond : ∀ t ∈ second, t.panels ≠ []) :
    t.panels ≠ [] := by
  cases first with
  | none =>
      cases second with
      | none => cases h
      | some b => exact hsecond t h
  | some a =>
      cases second with
      | none => exact hfirst t h
      | some b =>
          cases h
          exact List.append_ne_nil_of_left_ne_nil (hfirst a rfl) _

/-- What is read holds a panel. -/
theorem panels_read {t : SplitTree} (h : W.read tree i = some t) : t.panels ≠ [] := by
  fun_induction W.read tree i generalizing t with
  | case1 => cases h
  | case2 => cases h
  | case3 => cases h
  | case4 i _ tabs active _ hne =>
      cases h
      exact fun hnil => hne (List.isEmpty_iff.mpr hnil)
  | case5 i _ fraction _ ihf ihs => exact panels_join h (fun _ => ihf) fun _ => ihs
  | case6 i _ fraction _ ihf ihs => exact panels_join h (fun _ => ihf) fun _ => ihs

/-- What `fromDock` makes of the main surface and the floating windows. -/
theorem fromDock_cases (hW : W.Lawful) {dock : DockState Tree} (hrooted : W.Rooted dock.main) :
    W.fromDock dock = none ∧ W.tabs dock.main = [] ∨
      ∃ t, W.fromDock dock = some t ∧ W.tabs dock.main ≠ [] ∧ t.Proper ∧
        t.panels.Perm (W.tabs dock.main ++ W.floating dock) := by
  have hlisted := listed_read hW hrooted
  have htorn : (W.readDock dock).2 = W.floating dock := by
    rw [readDock, floating, List.filter_flatMap]
    simp only [contains_read hW hrooted]
  rw [fromDock, htorn, readDock]
  cases hread : W.read dock.main 0 with
  | none =>
      rw [hread] at hlisted
      exact .inl ⟨rfl, List.perm_nil.mp hlisted.symm⟩
  | some t =>
      rw [hread] at hlisted
      have hne : t.panels ≠ [] := panels_read hread
      have hnormal : t.normalize.panels ≠ [] := by rwa [SplitTree.panels_normalize]
      have hperm := panels_foldl_foldBack (W.floating dock) hnormal
      rw [SplitTree.panels_normalize] at hperm
      refine .inr ⟨_, rfl, fun hnil => ?_, SplitTree.proper_normalize fun hnil => ?_, ?_⟩
      · exact hne (List.perm_nil.mp (hnil ▸ hlisted))
      · rw [hnil] at hperm
        exact hne (List.append_eq_nil_iff.mp (List.nil_perm.mp hperm)).1
      · rw [SplitTree.panels_normalize]
        exact hperm.trans (hlisted.append_right _)

/-! ## What a conversion promises -/

/-- A split tree comes back as it was, and no panel of a docking state is lost or doubled. -/
structure KeepsLayout (W : Widget Tree) : Prop where
  roundTrip : ∀ t : SplitTree, t.Proper → t.panels.Nodup → W.fromDock (W.toDock t) = some t
  ofNone : ∀ dock, W.Rooted dock.main → W.fromDock dock = none → W.tabs dock.main = []
  once : ∀ dock, W.Rooted dock.main → ∀ t, W.fromDock dock = some t →
    ∀ p ∈ W.allTabs dock, t.panels.count p = 1

theorem mem_floating {dock : DockState Tree} {p : PanelId} :
    p ∈ W.floating dock ↔ p ∈ dock.windows.flatMap W.tabs ∧ p ∉ W.tabs dock.main := by
  rw [floating, List.mem_filter, Bool.not_eq_true', List.contains_eq_mem, decide_eq_false_iff_not]

theorem mem_allTabs {dock : DockState Tree} {p : PanelId} :
    p ∈ W.allTabs dock ↔ p ∈ W.tabs dock.main ++ W.floating dock := by
  rw [allTabs, List.mem_append, List.mem_append, mem_floating]
  tauto

/-- A well-formed tree comes back as it was, and a docking state that shows a panel in its main
surface keeps them all: each one once just if neither the main surface nor, of the panels it
does not hold, the windows hold one twice. -/
theorem keepsLayout_of_lawful (W : Widget Tree) (hW : W.Lawful) :
    (∀ t : SplitTree, t.Proper → W.fromDock (W.toDock t) = some t) ∧
      ∀ dock, W.Rooted dock.main → (W.fromDock dock = none ↔ W.tabs dock.main = []) ∧
        ∀ t, W.fromDock dock = some t → t.Proper ∧
          t.panels.Perm (W.tabs dock.main ++ W.floating dock) ∧
          ((∀ p ∈ W.allTabs dock, t.panels.count p = 1) ↔
            (W.tabs dock.main).Nodup ∧ (W.floating dock).Nodup) := by
  refine ⟨fun t ht => fromDock_toDock hW ht, fun dock hrooted => ?_⟩
  have hapart : (W.tabs dock.main).Disjoint (W.floating dock) :=
    fun _ hmain hfloating => (mem_floating.mp hfloating).2 hmain
  rcases fromDock_cases hW hrooted with ⟨hnone, hempty⟩ | ⟨t, hsome, hne, hproper, hperm⟩
  · rw [hnone]
    exact ⟨iff_of_true rfl hempty, nofun⟩
  · rw [hsome]
    refine ⟨iff_of_false nofun hne, ?_⟩
    rintro _ ⟨⟩
    refine ⟨hproper, hperm, ?_⟩
    calc (∀ p ∈ W.allTabs dock, t.panels.count p = 1)
      _ ↔ (W.tabs dock.main ++ W.floating dock).Nodup := by
          rw [List.nodup_iff_count_eq_one]
          exact forall_congr' fun p => by rw [mem_allTabs, hperm.count_eq]
      _ ↔ (W.tabs dock.main).Nodup ∧ (W.floating dock).Nodup := by
          rw [List.nodup_append']
          exact ⟨fun h => ⟨h.1, h.2.1⟩, fun h => ⟨h.1, h.2, hapart⟩⟩

/-! ## A widget with its nodes in a list -/

/-- Room for the children of the node at `i`. -/
def grow (nodes : List Node) (i : Nat) : List Node :=
  nodes ++ List.replicate (2 * i + 3 - nodes.length) .empty

/-- A widget that keeps its nodes in a list. -/
def inList : Widget (List Node) where
  new tabs := [.leaf tabs 0]
  len := List.length
  node nodes i := nodes.getD i .empty
  setActiveTab nodes i active :=
    if active < (nodes.getD i .empty).tabs.length then
      nodes.set i (.leaf (nodes.getD i .empty).tabs active)
    else nodes
  split nodes i split fraction new :=
    ((((grow nodes i).set i (split.parent fraction)).set (2 * i + 1) (nodes.getD i .empty)).set
      (2 * i + 2) (.leaf new 0), 2 * i + 1, 2 * i + 2)

theorem getD_grow (nodes : List Node) (i j : Nat) :
    (grow nodes i).getD j .empty = nodes.getD j .empty := by
  rw [grow, List.getD_eq_getElem?_getD, List.getD_eq_getElem?_getD, List.getElem?_append]
  split
  · rfl
  · next hout =>
      rw [List.getElem?_eq_none (Nat.not_lt.mp hout), List.getElem?_replicate]
      split <;> rfl

theorem length_grow (nodes : List Node) (i : Nat) : 2 * i + 3 ≤ (grow nodes i).length := by
  rw [grow, List.length_append, List.length_replicate]
  omega

theorem getD_set {nodes : List Node} {i : Nat} (hi : i < nodes.length) (node : Node) (j : Nat) :
    (nodes.set i node).getD j .empty = if j = i then node else nodes.getD j .empty := by
  rw [List.getD_eq_getElem?_getD, List.getElem?_set, if_pos hi]
  split
  · next heq => rw [if_pos heq.symm, Option.getD_some]
  · next hne => rw [if_neg (Ne.symm hne), List.getD_eq_getElem?_getD]

theorem lawful_inList : inList.Lawful where
  node_of_len_le nodes i hi := List.getD_eq_default _ _ hi
  node_new _ := rfl
  node_setActiveTab := by
    intro nodes i tabs old active j hnode hactive
    have hin : i < nodes.length := by
      by_contra hout
      cases hnode.symm.trans (List.getD_eq_default nodes .empty (Nat.not_lt.mp hout))
    have hnode' : nodes.getD i .empty = .leaf tabs old := hnode
    have hset : inList.setActiveTab nodes i active = nodes.set i (.leaf tabs active) := by
      rw [inList]
      dsimp only
      rw [hnode']
      exact if_pos hactive
    rw [hset]
    exact getD_set hin _ j
  split_places _ _ _ _ _ _ _ _ _ := rfl
  node_split := by
    intro nodes i tabs active split fraction new j hnode _
    have hlen := length_grow nodes i
    have hnode' : nodes.getD i .empty = .leaf tabs active := hnode
    show ((((grow nodes i).set i (split.parent fraction)).set (2 * i + 1)
      (nodes.getD i .empty)).set (2 * i + 2) (.leaf new 0)).getD j .empty = _
    rw [getD_set (by rw [List.length_set, List.length_set]; omega),
      getD_set (by rw [List.length_set]; omega), getD_set (by omega), getD_grow, hnode']
    -- The three places are different.
    by_cases hroot : j = i
    · rw [if_pos hroot, if_pos hroot, if_neg (by omega), if_neg (by omega)]
    · rw [if_neg hroot, if_neg hroot]
      by_cases hleft : j = 2 * i + 1
      · rw [if_pos hleft, if_pos hleft, if_neg (by omega)]
      · rw [if_neg hleft, if_neg hleft]
        rfl

theorem rooted_inList (node : Node) : inList.Rooted [node] :=
  fun _ _ => ⟨rfl, rfl⟩

/-- Two stacks side by side come back, and so does a panel in a floating window. -/
theorem keepsLayout_of_lawful_beside :
    inList.fromDock (inList.toDock (.split .horizontal (.finite (3 / 10)) (.leaf [⟨1⟩, ⟨2⟩] 1)
      (.leaf [⟨3⟩] 0))) = some (.split .horizontal (.finite (3 / 10)) (.leaf [⟨1⟩, ⟨2⟩] 1)
        (.leaf [⟨3⟩] 0)) ∧
      inList.fromDock ⟨[.leaf [⟨1⟩] 0], [[.leaf [⟨2⟩] 0]]⟩ ≠ none := by
  have hkeeps := keepsLayout_of_lawful inList lawful_inList
  refine ⟨hkeeps.1 _ (.split ?_ ?_ (.leaf (by decide)) (.leaf (by decide))), ?_⟩
  · norm_num [minFraction]
  · norm_num [minFraction]
  · have hmain := (hkeeps.2 ⟨[.leaf [⟨1⟩] 0], [[.leaf [⟨2⟩] 0]]⟩ (rooted_inList _)).1
    rw [Ne, hmain]
    decide

/-- Two floating windows hold one panel, and the tree gets it twice. -/
theorem not_keepsLayout :
    ¬ ∀ (Tree : Type) (W : Widget Tree), W.Lawful → W.KeepsLayout := by
  intro h
  obtain ⟨hnone, -⟩ | ⟨t, hsome, -, -, hperm⟩ := @fromDock_cases _ inList lawful_inList
    ⟨[.leaf [⟨1⟩] 0], [[.leaf [⟨2⟩] 0], [.leaf [⟨2⟩] 0]]⟩ (rooted_inList _)
  · have hempty := (h _ inList lawful_inList).ofNone _ (rooted_inList _) hnone
    cases hempty
  · have honce := (h _ inList lawful_inList).once _ (rooted_inList _) t hsome ⟨2⟩ (by decide)
    rw [hperm.count_eq] at honce
    revert honce
    decide

end Widget

end Throng
