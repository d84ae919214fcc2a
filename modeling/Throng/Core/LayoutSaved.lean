import Throng.Core.LayoutLoad

/-!
# Saved layouts

A layout is saved as JSON and read back at the next load. Two things decide beside
`check` whether it can be: a fraction that is no number is written as `null`, which
is no fraction, and a text is read only so deep. The operations make no such
fraction (`Layout.carried_apply`); how deep a layout's text nests is for the
splits of its trees to say (`Layout.Shallow`).
-/

namespace Throng

namespace SplitTree

/-- Every fraction is a number. -/
def AllFinite : SplitTree → Prop
  | .leaf _ _ => True
  | .split _ fraction first second =>
      fraction ≠ .notFinite ∧ first.AllFinite ∧ second.AllFinite

instance decidableAllFinite : (t : SplitTree) → Decidable t.AllFinite
  | .leaf _ _ => inferInstanceAs (Decidable True)
  | .split _ fraction first second =>
      have := decidableAllFinite first
      have := decidableAllFinite second
      inferInstanceAs (Decidable (fraction ≠ .notFinite ∧ first.AllFinite ∧ second.AllFinite))

/-- How deep a tree's text nests: an object for each tree, and a leaf's array. -/
def nesting : SplitTree → Nat
  | .leaf _ _ => 2
  | .split _ _ first second => max first.nesting second.nesting + 1

/-- The tree but for its fractions. -/
def unscaled : SplitTree → SplitTree
  | .leaf panels active => .leaf panels active
  | .split axis _ first second => .split axis .notFinite first.unscaled second.unscaled

variable {t : SplitTree}

@[simp] theorem panels_unscaled (t : SplitTree) : t.unscaled.panels = t.panels := by
  induction t with
  | leaf ps active => rfl
  | split axis fraction first second ihf ihs => rw [unscaled, panels, ihf, ihs, panels]

@[simp] theorem nesting_unscaled (t : SplitTree) : t.unscaled.nesting = t.nesting := by
  induction t with
  | leaf ps active => rfl
  | split axis fraction first second ihf ihs => rw [unscaled, nesting, ihf, ihs, nesting]

theorem Proper.allFinite (h : t.Proper) : t.AllFinite := by
  induction h with
  | leaf _ => exact trivial
  | split _ _ _ _ ihf ihs => exact ⟨Share.noConfusion, ihf, ihs⟩

theorem AllFinite.insert (h : t.AllFinite) (anchor new : PanelId) (placement : Placement) :
    (t.insert anchor new placement).1.AllFinite := by
  induction t with
  | leaf ps active =>
      unfold SplitTree.insert
      split
      · exact trivial
      · split
        · exact trivial
        · split
          · exact ⟨Share.noConfusion, trivial, trivial⟩
          · exact ⟨Share.noConfusion, trivial, trivial⟩
  | split axis fraction first second ihf ihs =>
      obtain ⟨hfraction, hfirst, hsecond⟩ := h
      rw [insert_split]
      split
      · exact ⟨hfraction, ihf hfirst, hsecond⟩
      · exact ⟨hfraction, ihf hfirst, ihs hsecond⟩

theorem AllFinite.activate (h : t.AllFinite) (p : PanelId) : (t.activate p).1.AllFinite := by
  induction t with
  | leaf ps active =>
      unfold SplitTree.activate
      split <;> exact trivial
  | split axis fraction first second ihf ihs =>
      obtain ⟨hfraction, hfirst, hsecond⟩ := h
      unfold SplitTree.activate
      split
      · exact ⟨hfraction, ihf hfirst, hsecond⟩
      · exact ⟨hfraction, ihf hfirst, ihs hsecond⟩

end SplitTree

namespace Layout

variable {l l' : Layout}

def AllFinite (l : Layout) : Prop := ∀ t ∈ l.tabs, t.root.AllFinite

instance (l : Layout) : Decidable l.AllFinite :=
  inferInstanceAs (Decidable (∀ t ∈ l.tabs, t.root.AllFinite))

/-- `serde_json` reads no text in which this many arrays and objects nest. -/
def recursionLimit : Nat := 128

/-- The trees nest no deeper than is read: each stands in its tab, the array of tabs
and the layout. -/
def Shallow (l : Layout) : Prop := ∀ t ∈ l.tabs, t.root.nesting + 3 < recursionLimit

instance (l : Layout) : Decidable l.Shallow :=
  inferInstanceAs (Decidable (∀ t ∈ l.tabs, t.root.nesting + 3 < recursionLimit))

/-- The layout but for its fractions. -/
def unscaled (l : Layout) : Layout :=
  { l with tabs := l.tabs.map fun t => { t with root := t.root.unscaled } }

/-! ## What does not look at the fractions -/

theorem treePanels_unscaled (l : Layout) : treePanels l.unscaled.tabs = treePanels l.tabs := by
  simp [treePanels, unscaled, List.flatMap_map]

theorem check_unscaled (l : Layout) : l.unscaled.check = .ok () ↔ l.check = .ok () := by
  rw [check_eq_ok, check_eq_ok, treePanels_unscaled]
  simp [unscaled]

theorem shallow_unscaled (l : Layout) : l.unscaled.Shallow ↔ l.Shallow := by
  simp [Shallow, unscaled]

/-! ## What the operations leave as it is -/

/-- What every operation keeps of what a save depends on. -/
structure Carried (l l' : Layout) : Prop where
  version : l'.version = l.version
  finite : l.AllFinite → l'.AllFinite

theorem Carried.refl (l : Layout) : Carried l l := ⟨rfl, id⟩

theorem Carried.trans {l₁ l₂ l₃ : Layout} (h : Carried l₁ l₂) (h' : Carried l₂ l₃) :
    Carried l₁ l₃ :=
  ⟨h'.version.trans h.version, fun hfinite => h'.finite (h.finite hfinite)⟩

/-- An operation that leaves no tab but old ones. -/
theorem Carried.of_subset (hversion : l'.version = l.version) (htabs : l'.tabs ⊆ l.tabs) :
    Carried l l' :=
  ⟨hversion, fun hfinite t ht => hfinite t (htabs ht)⟩

/-- An operation that changes one tab. -/
theorem Carried.of_replace {as bs : List Tab} {t t' : Tab} (hversion : l'.version = l.version)
    (htabs : l.tabs = as ++ t :: bs) (htabs' : l'.tabs = as ++ t' :: bs)
    (ht' : t.root.AllFinite → t'.root.AllFinite) : Carried l l' := by
  refine ⟨hversion, fun hfinite u hu => ?_⟩
  have hold : ∀ v ∈ as ++ t :: bs, v.root.AllFinite := htabs ▸ hfinite
  rw [htabs'] at hu
  rcases List.mem_append.mp hu with hin | hin
  · exact hold u (List.mem_append_left _ hin)
  · rcases List.mem_cons.mp hin with rfl | hin
    · exact ht' (hold t (by simp))
    · exact hold u (List.mem_append_right _ (List.mem_cons_of_mem _ hin))

theorem carried_newPanel {project : ProjectId} {kind : PanelKind} {p : PanelId}
    (hs : l.newPanel project kind p = some l') : Carried l l' := by
  obtain ⟨title, -, rfl⟩ := newPanel_eq hs
  exact .of_subset rfl (List.Subset.refl _)

theorem carried_pushTab {tab : TabId} {p : PanelId} (hs : l.pushTab tab p = some l') :
    Carried l l' := by
  obtain ⟨title, rfl⟩ := pushTab_eq hs
  refine ⟨rfl, fun hfinite t ht => ?_⟩
  rcases List.mem_append.mp ht with hin | hin
  · exact hfinite t hin
  · rw [List.mem_singleton.mp hin]
    exact trivial

theorem carried_place {p : PanelId} {anchor : Option PanelId} {placement : Placement}
    {tab : TabId} (hs : l.place p anchor placement tab = some l') : Carried l l' := by
  rcases place_cases hs with hpush | ⟨as, t, bs, a, htabs, -, -, rfl⟩
  · exact carried_pushTab hpush
  · exact .of_replace rfl htabs rfl fun hfinite => hfinite.insert a p placement

theorem carried_addTab {project : ProjectId} {kind : PanelKind} {p : PanelId} {tab : TabId}
    (hs : l.addTab project kind p tab = some l') : Carried l l' := by
  obtain ⟨l₁, hnew, hpush⟩ := Option.bind_eq_some_iff.mp hs
  exact (carried_newPanel hnew).trans (carried_pushTab hpush)

theorem carried_addPanel {project : ProjectId} {anchor : Option PanelId} {placement : Placement}
    {kind : PanelKind} {p : PanelId} {tab : TabId}
    (hs : l.addPanel project anchor placement kind p tab = some l') : Carried l l' := by
  simp only [Layout.addPanel] at hs
  split at hs
  · exact carried_addTab hs
  · obtain ⟨l₁, hnew, hplace⟩ := Option.bind_eq_some_iff.mp hs
    exact (carried_newPanel hnew).trans (carried_place hplace)

theorem carried_detach (l : Layout) (p : PanelId) : Carried l (l.detach p).1 := by
  rcases detach_cases l p with ⟨hs, -⟩ | ⟨as, t, bs, htabs, -, ⟨-, hs⟩ | ⟨t', hshrunk, hs⟩⟩
  · rw [hs]
    exact .refl l
  · rw [hs]
    refine .of_subset rfl fun u hu => ?_
    rw [htabs]
    exact (List.sublist_cons_self t bs).append_left as |>.subset hu
  · rw [hs]
    exact .of_replace rfl htabs rfl fun _ => hshrunk.proper.allFinite

theorem carried_removePanel (l : Layout) (p : PanelId) : Carried l (l.removePanel p).1 := by
  simp only [Layout.removePanel]
  split
  · exact carried_detach l p
  · exact (carried_detach l p).trans (.of_subset rfl (List.Subset.refl _))

theorem carried_sendAway (l : Layout) (p : PanelId) : Carried l (l.sendAway p).1 := by
  simp only [Layout.sendAway]
  split
  · exact (carried_detach l p).trans (.of_subset rfl (List.Subset.refl _))
  · exact carried_detach l p

theorem carried_bringBack {p : PanelId} {tab : TabId} {result : Layout × Bool}
    (hs : l.bringBack p tab = some result) : Carried l result.1 := by
  unfold Layout.bringBack at hs
  split at hs
  · cases hs
    exact .refl l
  · next index _ =>
      obtain ⟨back, hplace, rfl⟩ := Option.map_eq_some_iff.mp hs
      have herase : Carried l { l with away := l.away.eraseIdx index } :=
        .of_subset rfl (List.Subset.refl _)
      exact herase.trans (carried_place hplace)

theorem carried_closeTab (l : Layout) (tab : TabId) : Carried l (l.closeTab tab).1 := by
  rcases closeTab_cases l tab with hs | ⟨as, t, bs, htabs, hs⟩
  · rw [hs]
    exact .refl l
  · rw [hs]
    refine .of_subset rfl fun u hu => ?_
    rw [htabs]
    exact (List.sublist_cons_self t bs).append_left as |>.subset hu

theorem carried_focusPanel (l : Layout) (p : PanelId) : Carried l (l.focusPanel p).1 := by
  rcases focusPanel_cases l p with hs | ⟨as, t, bs, htabs, -, hs⟩
  · rw [hs]
    exact .refl l
  · rw [hs]
    exact .of_replace rfl htabs rfl fun hfinite => hfinite.activate p

theorem carried_renameTab {tab : TabId} {title : String} {result : Layout × Bool}
    (hs : l.renameTab tab title = some result) : Carried l result.1 := by
  rcases renameTab_cases hs with hs | ⟨as, t, bs, title, titleIsCustom, htabs, hs⟩
  · rw [hs]
    exact .refl l
  · rw [hs]
    exact .of_replace rfl htabs rfl id

theorem carried_renamePanel {p : PanelId} {title : String} {result : Layout × Bool}
    (hs : l.renamePanel p title = some result) : Carried l result.1 := by
  unfold Layout.renamePanel at hs
  split at hs
  · cases hs
    exact .refl l
  · obtain ⟨⟨title', titleIsCustom⟩, -, rfl⟩ := Option.map_eq_some_iff.mp hs
    exact .of_subset rfl (List.Subset.refl _)

theorem carried_moveTab (l : Layout) (tab : TabId) (dest : Nat) :
    Carried l (l.moveTab tab dest) := by
  obtain ⟨tabs, hperm, hs⟩ := moveTab_perm l tab dest
  rw [hs]
  exact .of_subset rfl hperm.subset

theorem carried_apply {op : Op} (hs : l.apply op = some l') : Carried l l' := by
  cases op with
  | addTab project kind panel tab => exact carried_addTab hs
  | addPanel project anchor placement kind panel tab => exact carried_addPanel hs
  | removePanel panel =>
      cases hs
      exact carried_removePanel l panel
  | sendAway panel =>
      cases hs
      exact carried_sendAway l panel
  | bringBack panel tab =>
      obtain ⟨result, hback, rfl⟩ := Option.map_eq_some_iff.mp hs
      exact carried_bringBack hback
  | closeTab tab =>
      cases hs
      exact carried_closeTab l tab
  | focusPanel panel =>
      cases hs
      exact carried_focusPanel l panel
  | renamePanel panel title =>
      obtain ⟨result, hrename, rfl⟩ := Option.map_eq_some_iff.mp hs
      exact carried_renamePanel hrename
  | renameTab tab title =>
      obtain ⟨result, hrename, rfl⟩ := Option.map_eq_some_iff.mp hs
      exact carried_renameTab hrename
  | setKind panel kind =>
      cases hs
      exact .of_subset rfl (List.Subset.refl _)
  | moveTab tab dest =>
      cases hs
      exact carried_moveTab l tab dest
  | pruneOrphans =>
      cases hs
      exact .of_subset rfl (List.Subset.refl _)

/-- A run makes no fraction that is no number, and keeps the version. -/
theorem carried_reach {start : Layout → Prop} {read : Layout}
    (hstart : ∀ l, start l → Carried read l) (h : (machine start).Reach Machine.anyStep l) :
    Carried read l := by
  refine h.invariant hstart fun l op l' hl _ hs => ?_
  simp only [machine, Option.ite_none_right_eq_some] at hs
  exact hl.trans (carried_apply hs.2)

end Layout

end Throng
