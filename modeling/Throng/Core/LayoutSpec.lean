import Throng.Core.Layout

/-!
# What a layout's operations do to its tabs

Several operations look a tab up by its id and change or close it. The first tab
of an id splits the row in two (`Layout.exists_of_tab`), and the lemmas here say
what each operation leaves of the two halves and the tab between them.
-/

namespace Throng

theorem treePanels_append (as bs : List Tab) :
    treePanels (as ++ bs) = treePanels as ++ treePanels bs :=
  List.flatMap_append

theorem treePanels_cons (t : Tab) (ts : List Tab) :
    treePanels (t :: ts) = t.root.panels ++ treePanels ts :=
  List.flatMap_cons

theorem mem_treePanels {tabs : List Tab} {p : PanelId} :
    p ∈ treePanels tabs ↔ ∃ t ∈ tabs, p ∈ t.root.panels :=
  List.mem_flatMap

/-- A tab's panels come first up to order. -/
theorem treePanels_perm (as : List Tab) (t : Tab) (bs : List Tab) :
    List.Perm (treePanels (as ++ t :: bs)) (t.root.panels ++ treePanels (as ++ bs)) := by
  rw [treePanels_append, treePanels_cons, treePanels_append]
  exact List.perm_append_comm_assoc _ _ _

theorem modifyTab_append {id : TabId} {f : Tab → Tab} {as : List Tab} {t : Tab} {bs : List Tab}
    (hid : t.id = id) (hfirst : ∀ u ∈ as, u.id ≠ id) :
    modifyTab id f (as ++ t :: bs) = as ++ f t :: bs := by
  induction as with
  | nil => exact if_pos hid
  | cons u as ih =>
      have hu : u.id ≠ id := hfirst u List.mem_cons_self
      rw [List.cons_append, modifyTab, if_neg hu,
        ih fun v hv => hfirst v (List.mem_cons_of_mem _ hv)]
      rfl

theorem modifyTab_of_notMem {id : TabId} {f : Tab → Tab} {tabs : List Tab}
    (h : ∀ t ∈ tabs, t.id ≠ id) : modifyTab id f tabs = tabs := by
  induction tabs with
  | nil => rfl
  | cons t tabs ih =>
      rw [modifyTab, if_neg (h t List.mem_cons_self),
        ih fun u hu => h u (List.mem_cons_of_mem _ hu)]

namespace Layout

variable {l l' : Layout}

/-- The first tab of an id, and the tabs on either side of it. -/
theorem exists_of_tab {id : TabId} {t : Tab} (h : l.tab id = some t) :
    ∃ as bs, l.tabs = as ++ t :: bs ∧ t.id = id ∧ ∀ u ∈ as, u.id ≠ id := by
  obtain ⟨hid, as, bs, htabs, hfirst⟩ := List.find?_eq_some_iff_append.mp h
  exact ⟨as, bs, htabs, by simpa using hid, fun u hu => by simpa using hfirst u hu⟩

theorem tab_eq_none {id : TabId} : l.tab id = none ↔ ∀ t ∈ l.tabs, t.id ≠ id := by
  simp [tab]

theorem exists_of_tabOf {p : PanelId} {id : TabId} (h : l.tabOf p = some id) :
    ∃ t ∈ l.tabs, t.id = id ∧ p ∈ t.root.panels := by
  obtain ⟨t, ht, hid⟩ := Option.map_eq_some_iff.mp h
  have hp := List.find?_some ht
  exact ⟨t, List.mem_of_find?_eq_some ht, hid, SplitTree.contains_iff.mp hp⟩

theorem tabOf_eq_none {p : PanelId} : l.tabOf p = none ↔ p ∉ treePanels l.tabs := by
  simp [tabOf, mem_treePanels, SplitTree.contains_iff]

/-- The tab a panel's id leads to is the first of its id, and some tab of that id
holds the panel. -/
theorem exists_of_tabOf_tab {p : PanelId} {id : TabId} (h : l.tabOf p = some id) :
    ∃ as t bs, l.tab id = some t ∧ l.tabs = as ++ t :: bs ∧ t.id = id ∧
      (∀ u ∈ as, u.id ≠ id) ∧ ∃ u ∈ l.tabs, u.id = id ∧ p ∈ u.root.panels := by
  obtain ⟨u, hu, huid, hup⟩ := exists_of_tabOf h
  cases ht : l.tab id with
  | none => exact absurd huid (tab_eq_none.mp ht u hu)
  | some t =>
      obtain ⟨as, bs, htabs, hid, hfirst⟩ := exists_of_tab ht
      exact ⟨as, t, bs, rfl, htabs, hid, hfirst, u, hu, huid, hup⟩

/-- The active tab once the one between `as` and the rest is closed. -/
def activeAfter (active : Option TabId) (as : List Tab) (id : TabId) (rest : List Tab) :
    Option TabId :=
  if active = some id ∨ active = none then
    rest[if as.length > 0 then as.length - 1 else 0]?.map Tab.id
  else active

theorem closeTabInner_append {id : TabId} {as : List Tab} {t : Tab} {bs : List Tab}
    (htabs : l.tabs = as ++ t :: bs) (hid : t.id = id) (hfirst : ∀ u ∈ as, u.id ≠ id) :
    l.closeTabInner id =
      { l with tabs := as ++ bs, activeTab := activeAfter l.activeTab as id (as ++ bs) } := by
  have hindex : l.tabs.findIdx? (fun u => u.id = id) = some as.length := by
    have hnone : as.findIdx? (fun u => decide (u.id = id)) = none := by simpa using hfirst
    rw [htabs, List.findIdx?_append, hnone]
    simp [List.findIdx?_cons, hid]
  have herase : l.tabs.eraseIdx as.length = as ++ bs := by
    rw [htabs, List.eraseIdx_append_of_length_le (le_refl _), Nat.sub_self, List.eraseIdx_cons_zero]
  rw [closeTabInner, hindex]
  simp only [herase]
  rfl

theorem pushTab_eq {tab : TabId} {p : PanelId} (h : l.pushTab tab p = some l') :
    ∃ title, l' = { l with
      tabs := l.tabs ++ [⟨tab, title, false, SplitTree.leafOf p, some p⟩]
      activeTab := some tab } := by
  obtain ⟨title, -, rfl⟩ := Option.map_eq_some_iff.mp h
  exact ⟨title, rfl⟩

theorem newPanel_eq {project : ProjectId} {kind : PanelKind} {p : PanelId}
    (h : l.newPanel project kind p = some l') :
    ∃ title, l.nextPanelTitle = some title ∧
      l' = { l with panels := l.panels.insert p ⟨p, project, title, false, kind⟩ } := by
  obtain ⟨title, htitle, rfl⟩ := Option.map_eq_some_iff.mp h
  exact ⟨title, htitle, rfl⟩

/-- Placing a panel makes a tab for it or puts it beside an anchor. -/
theorem place_cases {p : PanelId} {anchor : Option PanelId} {placement : Placement} {tab : TabId}
    (h : l.place p anchor placement tab = some l') :
    l.pushTab tab p = some l' ∨
      ∃ as t bs a, l.tabs = as ++ t :: bs ∧ (∀ u ∈ as, u.id ≠ t.id) ∧
        (∃ u ∈ l.tabs, u.id = t.id ∧ a ∈ u.root.panels) ∧
        l' = { l with
          tabs := as ++ { t with
            root := (t.root.insert a p placement).1, activePanel := some p } :: bs
          activeTab := some t.id } := by
  simp only [place] at h
  split at h
  · exact .inl h
  · next a _ =>
      obtain ⟨id, hid, rfl⟩ := Option.map_eq_some_iff.mp h
      obtain ⟨as, t, bs, -, htabs, rfl, hfirst, hu⟩ := exists_of_tabOf_tab hid
      refine .inr ⟨as, t, bs, a, htabs, hfirst, hu, ?_⟩
      rw [htabs, modifyTab_append rfl hfirst]

/-- What is left of a tab that a panel is taken out of, when it keeps others. -/
structure Shrunk (t : Tab) (p : PanelId) (t' : Tab) : Prop where
  id : t'.id = t.id
  panels : t'.root.panels = t.root.panels.erase p
  proper : t'.root.Proper
  shown : t.root.panels.Nodup → (∀ q, t.activePanel = some q → q ∈ t.root.shown) →
    ∃ q, t'.activePanel = some q ∧ q ∈ t'.root.shown

theorem focusAfter_mem {order : List PanelId} {index : Nat} {p : PanelId} (hnodup : order.Nodup)
    (hindex : order.idxOf? p = some index) (hrest : order.erase p ≠ []) :
    focusAfter order index p ∈ order.erase p := by
  obtain ⟨hlt, hp, -⟩ := List.idxOf?_eq_some_iff.mp hindex
  have hlength : order.length ≥ 2 := by
    have hpos := List.length_pos_iff.mpr hrest
    rw [List.length_erase_of_mem (hp ▸ List.getElem_mem hlt)] at hpos
    omega
  rw [hnodup.mem_erase_iff]
  unfold focusAfter
  have hk : (if index > 0 then index - 1 else 1) < order.length := by split <;> omega
  have hne : (if index > 0 then index - 1 else 1) ≠ index := by split <;> omega
  rw [List.getD_eq_getElem?_getD, List.getElem?_eq_getElem hk, Option.getD_some]
  refine ⟨fun heq => hne ?_, List.getElem_mem hk⟩
  exact (hnodup.getElem_inj_iff).mp (heq.trans hp.symm)

theorem shrunk_removed {t : Tab} {p : PanelId} {root : SplitTree}
    (hroot : root = (t.root.remove p).1) (hrest : root.panels ≠ [])
    (hactive : t.activePanel ≠ some p) (hsome : t.activePanel ≠ none) :
    Shrunk t p { t with root } where
  id := rfl
  panels := by rw [hroot, SplitTree.panels_remove]
  proper := by
    subst hroot
    exact SplitTree.proper_remove hrest
  shown := by
    intro _ hshown
    obtain ⟨q, hq⟩ := Option.ne_none_iff_exists'.mp hsome
    have hne : q ≠ p := by
      rintro rfl
      exact hactive hq
    refine ⟨q, hq, ?_⟩
    rw [hroot]
    exact SplitTree.mem_shown_remove (hshown q hq) hne

theorem shrunk_focused {t : Tab} {p : PanelId} {index : Nat} {root : SplitTree}
    (hroot : root = (t.root.remove p).1) (hrest : root.panels ≠ [])
    (hindex : t.root.panels.idxOf? p = some index) :
    Shrunk t p { t with
      root := (root.activate (focusAfter t.root.panels index p)).1
      activePanel := some (focusAfter t.root.panels index p) } where
  id := rfl
  panels := by rw [SplitTree.panels_activate, hroot, SplitTree.panels_remove]
  proper := by
    subst hroot
    exact SplitTree.proper_activate (SplitTree.proper_remove hrest)
  shown := by
    intro hnodup _
    have hpanels : root.panels = t.root.panels.erase p := by rw [hroot, SplitTree.panels_remove]
    refine ⟨_, rfl, SplitTree.mem_shown_activate ?_⟩
    rw [hpanels]
    exact focusAfter_mem hnodup hindex (hpanels ▸ hrest)

/-- Taking a panel out of its tab does nothing, closes the tab it was alone in, or
shrinks the tab. Where ids are distinct it does nothing only to a panel in no tab. -/
theorem detach_cases (l : Layout) (p : PanelId) :
    (l.detach p = (l, false) ∧ ((l.tabs.map Tab.id).Nodup → p ∉ treePanels l.tabs)) ∨
    ∃ as t bs, l.tabs = as ++ t :: bs ∧ p ∈ t.root.panels ∧
      ((t.root.panels.erase p = [] ∧
          l.detach p = ({ l with
            tabs := as ++ bs, activeTab := activeAfter l.activeTab as t.id (as ++ bs) }, true)) ∨
        ∃ t', Shrunk t p t' ∧ l.detach p = ({ l with tabs := as ++ t' :: bs }, true)) := by
  cases hid : l.tabOf p with
  | none =>
      refine .inl ⟨?_, fun _ => tabOf_eq_none.mp hid⟩
      simp only [detach, hid]
  | some id =>
      obtain ⟨as, t, bs, ht, htabs, rfl, hfirst, u, hu, huid, hup⟩ := exists_of_tabOf_tab hid
      cases hindex : t.root.panels.idxOf? p with
      | none =>
          refine .inl ⟨by simp only [detach, hid, ht, hindex], fun hnodup => ?_⟩
          have hut : u = t :=
            List.inj_on_of_nodup_map hnodup hu (htabs ▸ by simp) huid
          exact absurd (hut ▸ hup) (List.idxOf?_eq_none_iff.mp hindex)
      | some index =>
          obtain ⟨hlt, hp, -⟩ := List.idxOf?_eq_some_iff.mp hindex
          refine .inr ⟨as, t, bs, htabs, hp ▸ List.getElem_mem hlt, ?_⟩
          have hpanels := SplitTree.panels_remove t.root p
          by_cases hrest : (t.root.remove p).1.panels = []
          · refine .inl ⟨hpanels ▸ hrest, ?_⟩
            have hempty : (t.root.remove p).1.panels.isEmpty = true := List.isEmpty_iff.mpr hrest
            simp only [detach, hid, ht, hindex, hempty, if_true, htabs]
            rw [modifyTab_append rfl hfirst]
            exact Prod.ext (closeTabInner_append rfl rfl hfirst) rfl
          · right
            have hempty : (t.root.remove p).1.panels.isEmpty = false := by simpa using hrest
            by_cases hfocus : t.activePanel = some p ∨ t.activePanel = none
            · refine ⟨_, shrunk_focused rfl hrest hindex, ?_⟩
              simp only [detach, hid, ht, hindex, hempty, if_pos hfocus, htabs, Bool.false_eq_true,
                if_false]
              rw [modifyTab_append rfl hfirst]
            · obtain ⟨hactive, hsome⟩ := not_or.mp hfocus
              refine ⟨_, shrunk_removed rfl hrest hactive hsome, ?_⟩
              simp only [detach, hid, ht, hindex, hempty, if_neg hfocus, htabs, Bool.false_eq_true,
                if_false]
              rw [modifyTab_append rfl hfirst]

theorem focusPanel_cases (l : Layout) (p : PanelId) :
    (l.focusPanel p).1 = l ∨
      ∃ as t bs, l.tabs = as ++ t :: bs ∧ (∃ u ∈ l.tabs, u.id = t.id ∧ p ∈ u.root.panels) ∧
        (l.focusPanel p).1 = { l with
          tabs := as ++ { t with
            root := (t.root.activate p).1, activePanel := some p } :: bs
          activeTab := some t.id } := by
  cases hid : l.tabOf p with
  | none =>
      left
      simp only [focusPanel, hid]
  | some id =>
      obtain ⟨as, t, bs, -, htabs, rfl, hfirst, hu⟩ := exists_of_tabOf_tab hid
      refine .inr ⟨as, t, bs, htabs, hu, ?_⟩
      simp only [focusPanel, hid, htabs]
      rw [modifyTab_append rfl hfirst]

theorem closeTab_cases (l : Layout) (id : TabId) :
    (l.closeTab id).1 = l ∨
      ∃ as t bs, l.tabs = as ++ t :: bs ∧
        (l.closeTab id).1 = { l with
          tabs := as ++ bs
          activeTab := activeAfter l.activeTab as t.id (as ++ bs)
          panels := (takeRecords l.panels t.root.panels).1 } := by
  cases ht : l.tab id with
  | none =>
      left
      simp only [closeTab, ht]
  | some t =>
      obtain ⟨as, bs, htabs, rfl, hfirst⟩ := exists_of_tab ht
      refine .inr ⟨as, t, bs, htabs, ?_⟩
      simp only [closeTab, ht]
      rw [closeTabInner_append htabs rfl hfirst]

theorem getElem?_takeRecords (records : Std.ExtTreeMap PanelId Panel) (ids : List PanelId)
    (p : PanelId) :
    (takeRecords records ids).1[p]? = if p ∈ ids then none else records[p]? := by
  induction ids generalizing records with
  | nil => simp [takeRecords]
  | cons id ids ih =>
      rw [takeRecords, ih, Std.ExtTreeMap.getElem?_erase]
      by_cases hin : p ∈ ids
      · simp [hin]
      · by_cases heq : id = p
        · simp [heq]
        · have hne : p ≠ id := fun h => heq h.symm
          simp [hin, heq, hne]

theorem moveTab_perm (l : Layout) (id : TabId) (dest : Nat) :
    ∃ tabs, List.Perm tabs l.tabs ∧ l.moveTab id dest = { l with tabs } := by
  unfold moveTab
  split
  · exact ⟨l.tabs, .refl _, rfl⟩
  · next index _ =>
      split
      · exact ⟨l.tabs, .refl _, rfl⟩
      · next t ht =>
          refine ⟨_, ?_, rfl⟩
          obtain ⟨hlt, rfl⟩ := List.getElem?_eq_some_iff.mp ht
          exact (List.perm_insertIdx _ _ (Nat.min_le_right _ _)).trans
            (List.getElem_cons_eraseIdx_perm hlt)

theorem renameTab_cases {tab : TabId} {title : String} {result : Layout × Bool}
    (h : l.renameTab tab title = some result) :
    result.1 = l ∨
      ∃ as t bs title titleIsCustom, l.tabs = as ++ t :: bs ∧
        result.1 = { l with tabs := as ++ { t with title, titleIsCustom } :: bs } := by
  obtain ⟨⟨title', titleIsCustom⟩, -, rfl⟩ := Option.map_eq_some_iff.mp h
  cases ht : l.tab tab with
  | none =>
      left
      simp only [modifyTab_of_notMem (tab_eq_none.mp ht)]
  | some t =>
      obtain ⟨as, bs, htabs, hid, hfirst⟩ := exists_of_tab ht
      refine .inr ⟨as, t, bs, title', titleIsCustom, htabs, ?_⟩
      simp only [htabs]
      rw [modifyTab_append hid hfirst]

end Layout

end Throng
