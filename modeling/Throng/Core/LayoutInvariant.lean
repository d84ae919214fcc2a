import Throng.Core.LayoutLoad

/-!
# The layout invariant

In a layout that began as the default one, every structure of the workspace fits
the others: `Layout.Sound`. `Loadable` says that each panel has one place and a
record; here the rest is added, which needs the ids of the tabs to be distinct:
the focus (`Arranged`), that no record is without a place (`Held`), and the default
titles (`Titled`).
-/

namespace Throng

namespace Layout

variable {l l' : Layout}

/-- A row of tabs with its focus. -/
structure Arranged (tabs : List Tab) (active : Option TabId) : Prop where
  proper : ∀ t ∈ tabs, t.root.Proper
  distinct : (tabs.map Tab.id).Nodup
  activeNone : active = none ↔ tabs = []
  active : ∀ id, active = some id → ∃ t ∈ tabs, t.id = id
  shown : ∀ t ∈ tabs, ∃ p, t.activePanel = some p ∧ p ∈ t.root.shown

/-- Every record's panel stands somewhere. -/
def Held (l : Layout) : Prop := ∀ p ∈ l.panels, p ∈ l.places

/-- Panels nobody has named have distinct titles. -/
def Titled (panels : Std.ExtTreeMap PanelId Panel) : Prop :=
  ∀ (p q : PanelId) (r s : Panel), panels[p]? = some r → panels[q]? = some s →
    r.titleIsCustom = false → s.titleIsCustom = false → r.title = s.title → p = q

/-! ## The focus -/

namespace Arranged

variable {as bs tabs : List Tab} {t t' : Tab} {active active' : Option TabId}

theorem replace (h : Arranged (as ++ t :: bs) active) (hid : t'.id = t.id)
    (hproper : t'.root.Proper) (hshown : ∃ p, t'.activePanel = some p ∧ p ∈ t'.root.shown)
    (hactive : active' = active ∨ active' = some t.id) :
    Arranged (as ++ t' :: bs) active' := by
  have hin : ∀ u ∈ as ++ t' :: bs, u = t' ∨ u ∈ as ++ t :: bs := by
    intro u hu
    rcases List.mem_append.mp hu with hu | hu
    · exact .inr (List.mem_append_left _ hu)
    · exact (List.mem_cons.mp hu).imp_right fun hu =>
        List.mem_append_right _ (List.mem_cons_of_mem _ hu)
  have hids : (as ++ t' :: bs).map Tab.id = (as ++ t :: bs).map Tab.id := by simp [hid]
  refine ⟨?_, by rw [hids]; exact h.distinct, ?_, ?_, ?_⟩
  · intro u hu
    rcases hin u hu with rfl | hu
    · exact hproper
    · exact h.proper u hu
  · have hsome : active ≠ none := fun hnone => by simpa using h.activeNone.mp hnone
    rcases hactive with rfl | rfl <;> simp [hsome]
  · intro id hid'
    have hold : id ∈ (as ++ t :: bs).map Tab.id := by
      rcases hactive with rfl | rfl
      · obtain ⟨u, hu, rfl⟩ := h.active id hid'
        exact List.mem_map_of_mem hu
      · cases hid'
        simp
    rw [← hids] at hold
    exact List.mem_map.mp hold
  · intro u hu
    rcases hin u hu with rfl | hu
    · exact hshown
    · exact h.shown u hu

theorem push (h : Arranged tabs active) (hfresh : ∀ u ∈ tabs, u.id ≠ t.id)
    (hproper : t.root.Proper) (hshown : ∃ p, t.activePanel = some p ∧ p ∈ t.root.shown) :
    Arranged (tabs ++ [t]) (some t.id) := by
  refine ⟨?_, ?_, by simp, ?_, ?_⟩
  · intro u hu
    rcases List.mem_append.mp hu with hu | hu
    · exact h.proper u hu
    · rwa [List.mem_singleton.mp hu]
  · rw [List.map_append, List.nodup_append']
    refine ⟨h.distinct, List.nodup_singleton _, ?_⟩
    intro id hin hid
    obtain ⟨u, hu, rfl⟩ := List.mem_map.mp hin
    exact hfresh u hu (by simpa using hid)
  · intro id hid
    exact ⟨t, by simp, Option.some.inj hid⟩
  · intro u hu
    rcases List.mem_append.mp hu with hu | hu
    · exact h.shown u hu
    · rwa [List.mem_singleton.mp hu]

/-- The focus moves to the tab before the closed one, or to the first that is left. -/
theorem close (h : Arranged (as ++ t :: bs) active) :
    Arranged (as ++ bs) (activeAfter active as t.id (as ++ bs)) := by
  have hsub : (as ++ bs).Sublist (as ++ t :: bs) := (List.sublist_cons_self t bs).append_left as
  have hnew : ∀ k : Nat, k ≤ as.length - 1 →
      ((as ++ bs)[k]?.map Tab.id = none ↔ as ++ bs = []) := by
    intro k hk
    rw [Option.map_eq_none_iff, List.getElem?_eq_none_iff, ← List.length_eq_zero_iff,
      List.length_append]
    omega
  refine ⟨fun u hu => h.proper u (hsub.subset hu), h.distinct.sublist (hsub.map _), ?_, ?_,
    fun u hu => h.shown u (hsub.subset hu)⟩
  · unfold activeAfter
    split
    · exact hnew _ (by split <;> omega)
    · next hother =>
        obtain ⟨hid, hnone⟩ := not_or.mp hother
        refine iff_of_false hnone fun hnil => ?_
        obtain ⟨id, hactive⟩ := Option.ne_none_iff_exists'.mp hnone
        obtain ⟨u, hu, rfl⟩ := h.active id hactive
        obtain ⟨rfl, rfl⟩ := List.append_eq_nil_iff.mp hnil
        rw [List.mem_singleton.mp hu] at hactive
        exact hid hactive
  · intro id hactive
    unfold activeAfter at hactive
    split at hactive
    · obtain ⟨u, hu, rfl⟩ := Option.map_eq_some_iff.mp hactive
      exact ⟨u, List.mem_of_getElem? hu, rfl⟩
    · next hother =>
        obtain ⟨u, hu, rfl⟩ := h.active id hactive
        refine ⟨u, ?_, rfl⟩
        rcases List.mem_append.mp hu with hu | hu
        · exact List.mem_append_left _ hu
        · rcases List.mem_cons.mp hu with rfl | hu
          · exact absurd (.inl hactive) hother
          · exact List.mem_append_right _ hu

theorem perm (h : Arranged tabs active) {tabs' : List Tab} (hperm : List.Perm tabs' tabs) :
    Arranged tabs' active where
  proper u hu := h.proper u (hperm.mem_iff.mp hu)
  distinct := (hperm.map Tab.id).nodup_iff.mpr h.distinct
  activeNone := by
    rw [h.activeNone]
    constructor
    · rintro rfl
      exact hperm.eq_nil
    · rintro rfl
      exact hperm.symm.eq_nil
  active id hid := by
    obtain ⟨u, hu, heq⟩ := h.active id hid
    exact ⟨u, hperm.mem_iff.mpr hu, heq⟩
  shown u hu := h.shown u (hperm.mem_iff.mp hu)

/-- A panel that stands in a tab of this tab's id stands in this tab. -/
theorem mem_panels (h : Arranged tabs active) (ht : t ∈ tabs) {p : PanelId}
    (hu : ∃ u ∈ tabs, u.id = t.id ∧ p ∈ u.root.panels) : p ∈ t.root.panels := by
  obtain ⟨u, hu, hid, hp⟩ := hu
  rwa [← List.inj_on_of_nodup_map h.distinct hu ht hid]

end Arranged

theorem Arranged.place (h : Arranged l.tabs l.activeTab) {p : PanelId} {anchor : Option PanelId}
    {placement : Placement} {tab : TabId} (hfresh : ∀ t ∈ l.tabs, t.id ≠ tab)
    (hs : l.place p anchor placement tab = some l') :
    Arranged l'.tabs l'.activeTab ∧ List.Perm l'.places (p :: l.places) ∧ l'.panels = l.panels := by
  rcases place_cases hs with hpush | ⟨as, t, bs, a, htabs, -, hu, rfl⟩
  · obtain ⟨title, rfl⟩ := pushTab_eq hpush
    refine ⟨h.push hfresh (SplitTree.proper_leafOf p) ⟨p, rfl, ?_⟩, ?_, rfl⟩
    · exact List.mem_singleton_self p
    · exact places_cons (treePanels_push tab title p l.tabs) rfl
  · have ht : t ∈ l.tabs := by simp [htabs]
    have ha : a ∈ t.root.panels := h.mem_panels ht hu
    have hproper := h.proper t ht
    rw [htabs] at h
    refine ⟨h.replace rfl (SplitTree.proper_insert hproper)
      ⟨p, rfl, SplitTree.mem_shown_insert ha⟩ (.inr rfl), places_cons ?_ rfl, rfl⟩
    rw [htabs]
    exact treePanels_inserted ha

theorem Arranged.detach (h : Arranged l.tabs l.activeTab) (hnodup : (treePanels l.tabs).Nodup)
    (p : PanelId) : Arranged (l.detach p).1.tabs (l.detach p).1.activeTab := by
  rcases detach_cases l p with ⟨hs, -⟩ | ⟨as, t, bs, htabs, hp, ⟨-, hs⟩ | ⟨t', hshrunk, hs⟩⟩
  · rw [hs]
    exact h
  · rw [hs]
    rw [htabs] at h
    exact h.close
  · have ht : t ∈ as ++ t :: bs := by simp
    have hpanels : t.root.panels.Nodup := by
      rw [htabs] at hnodup
      exact ((treePanels_perm as t bs).nodup_iff.mp hnodup).of_append_left
    rw [hs]
    rw [htabs] at h
    refine h.replace hshrunk.id hshrunk.proper (hshrunk.shown hpanels fun q hq => ?_) (.inl rfl)
    obtain ⟨q', hq', hshown⟩ := h.shown t ht
    rw [hq] at hq'
    cases hq'
    exact hshown

/-! ## Titles -/

/-- Titles stay distinct where every record comes from one of the same title. -/
theorem Titled.of_records {panels panels' : Std.ExtTreeMap PanelId Panel} (h : Titled panels)
    (hrecords : ∀ (p : PanelId) (r' : Panel), panels'[p]? = some r' →
      ∃ r : Panel, panels[p]? = some r ∧
      r.title = r'.title ∧ r.titleIsCustom = r'.titleIsCustom) : Titled panels' := by
  intro p q r' s' hp hq hr hs htitle
  obtain ⟨r, hp, hrt, hrc⟩ := hrecords p r' hp
  obtain ⟨s, hq, hst, hsc⟩ := hrecords q s' hq
  exact h p q r s hp hq (hrc.trans hr) (hsc.trans hs) (hrt.trans (htitle.trans hst.symm))

theorem Titled.erase {panels : Std.ExtTreeMap PanelId Panel} (h : Titled panels) (p : PanelId) :
    Titled (panels.erase p) := by
  refine h.of_records fun q r hq => ⟨r, ?_, rfl, rfl⟩
  rw [Std.ExtTreeMap.getElem?_erase] at hq
  split at hq
  · cases hq
  · exact hq

/-- A record may take any place with a title of the user's or an unused default. -/
theorem Titled.insert (h : Titled l.panels) (p : PanelId) {record : Panel}
    (hfresh : record.titleIsCustom = false → l.nextPanelTitle = some record.title) :
    Titled (l.panels.insert p record) := by
  have hother : ∀ (q : PanelId) (s : Panel), l.panels[q]? = some s → record.titleIsCustom = false →
      record.title ≠ s.title := by
    intro q s hq hcustom htitle
    refine nextNumbered_notMem (hfresh hcustom) ?_
    rw [htitle]
    exact List.mem_map.mpr ⟨(q, s), Std.ExtTreeMap.mem_toList_iff_getElem?_eq_some.mpr hq, rfl⟩
  intro q₁ q₂ r s hq₁ hq₂ hr hs htitle
  rw [Std.ExtTreeMap.getElem?_insert] at hq₁ hq₂
  split at hq₁ <;> split at hq₂
  · next h₁ h₂ =>
      exact (Std.LawfulEqCmp.eq_of_compare h₁).symm.trans (Std.LawfulEqCmp.eq_of_compare h₂)
  · cases hq₁
    exact absurd htitle (hother q₂ s hq₂ hr)
  · cases hq₂
    exact absurd htitle.symm (hother q₁ r hq₁ hs)
  · exact h q₁ q₂ r s hq₁ hq₂ hr hs htitle

/-! ## The invariant -/

structure Inv (l : Layout) : Prop where
  loadable : l.Loadable
  arranged : Arranged l.tabs l.activeTab
  held : l.Held
  titled : Titled l.panels

/-- One panel more, which has a record already, is placed. -/
theorem Inv.place {p : PanelId} {anchor : Option PanelId} {placement : Placement} {tab : TabId}
    (hloadable : l.Loadable) (harranged : Arranged l.tabs l.activeTab)
    (hheld : ∀ q ∈ l.panels, q = p ∨ q ∈ l.places) (htitled : Titled l.panels)
    (hp : p ∉ l.places) (hrecord : p ∈ l.panels) (hfresh : ∀ t ∈ l.tabs, t.id ≠ tab)
    (hs : l.place p anchor placement tab = some l') : l'.Inv := by
  obtain ⟨harranged', hplaces, hpanels⟩ := harranged.place hfresh hs
  refine ⟨hloadable.place hp hrecord hs, harranged', fun q hq => ?_, by rwa [hpanels]⟩
  rw [hpanels] at hq
  exact hplaces.mem_iff.mpr (List.mem_cons.mpr (hheld q hq))

theorem Inv.newPanel (h : l.Inv) {project : ProjectId} {kind : PanelKind} {p : PanelId}
    (hs : l.newPanel project kind p = some l') :
    l'.tabs = l.tabs ∧ l'.activeTab = l.activeTab ∧ l'.away = l.away ∧ p ∈ l'.panels ∧
      (∀ q ∈ l'.panels, q = p ∨ q ∈ l.places) ∧ Titled l'.panels := by
  obtain ⟨title, htitle, rfl⟩ := newPanel_eq hs
  refine ⟨rfl, rfl, rfl, Std.ExtTreeMap.mem_insert_self, ?_, h.titled.insert p fun _ => htitle⟩
  intro q hq
  rcases Std.ExtTreeMap.mem_insert.mp hq with heq | hq
  · exact .inl (Std.LawfulEqCmp.eq_of_compare heq).symm
  · exact .inr (h.held q hq)

theorem Inv.addTab (h : l.Inv) {project : ProjectId} {kind : PanelKind} {p : PanelId}
    {tab : TabId} (hp : p ∉ l.panels) (hfresh : ∀ t ∈ l.tabs, t.id ≠ tab)
    (hs : l.addTab project kind p tab = some l') : l'.Inv := by
  obtain ⟨l₁, hnew, hpush⟩ := Option.bind_eq_some_iff.mp hs
  obtain ⟨htabs, hactive, haway, -, hheld, htitled⟩ := h.newPanel hnew
  have harranged := h.arranged
  rw [← htabs, ← hactive] at harranged
  obtain ⟨title, rfl⟩ := pushTab_eq hpush
  refine ⟨h.loadable.addTab hp hs, ?_, fun q hq => ?_, htitled⟩
  · exact harranged.push (by rwa [htabs]) (SplitTree.proper_leafOf p)
      ⟨p, rfl, List.mem_singleton_self p⟩
  · have hpush := (treePanels_push tab title p l₁.tabs).append_right l₁.away
    refine hpush.mem_iff.mpr (List.mem_cons.mpr ((hheld q hq).imp_right fun hin => ?_))
    rw [htabs, haway]
    exact hin

theorem Inv.addPanel (h : l.Inv) {project : ProjectId} {anchor : Option PanelId}
    {placement : Placement} {kind : PanelKind} {p : PanelId} {tab : TabId} (hp : p ∉ l.panels)
    (hfresh : ∀ t ∈ l.tabs, t.id ≠ tab)
    (hs : l.addPanel project anchor placement kind p tab = some l') : l'.Inv := by
  simp only [Layout.addPanel] at hs
  split at hs
  · exact h.addTab hp hfresh hs
  · obtain ⟨l₁, hnew, hplace⟩ := Option.bind_eq_some_iff.mp hs
    have hloadable := h.loadable.newPanel hnew
    obtain ⟨htabs, hactive, haway, hrecord, hheld, htitled⟩ := h.newPanel hnew
    have hplaces : l₁.places = l.places := by rw [places, places, htabs, haway]
    refine Inv.place hloadable ?_ (by rwa [hplaces]) htitled ?_ hrecord (by rwa [htabs]) hplace
    · rw [htabs, hactive]
      exact h.arranged
    · rw [hplaces]
      exact h.loadable.notMem_places hp

theorem Inv.sendAway (h : l.Inv) (p : PanelId) : (l.sendAway p).1.Inv := by
  have hloadable := h.loadable.sendAway p
  have harranged := h.arranged.detach h.loadable.placed.of_append_left p
  unfold Layout.sendAway at hloadable ⊢
  rcases h.loadable.detach p with hnone | ⟨hfound, hpanels, haway, -, hperm⟩
  · rw [hnone]
    exact h
  · simp only [hfound, if_true] at hloadable ⊢
    refine ⟨hloadable, harranged, fun q hq => ?_, by simpa only [hpanels] using h.titled⟩
    rw [show _ = l.panels from hpanels] at hq
    have hin := h.held q hq
    simp only [places, haway, List.mem_append, ← hperm.mem_iff, List.mem_cons] at hin ⊢
    tauto

theorem Inv.removePanel (h : l.Inv) (p : PanelId) : (l.removePanel p).1.Inv := by
  have hloadable := h.loadable.removePanel p
  have harranged := h.arranged.detach h.loadable.placed.of_append_left p
  simp only [Layout.removePanel] at hloadable ⊢
  split at hloadable
  · next hnone =>
      rw [if_pos hnone]
      rcases h.loadable.detach p with hs | ⟨hfound, -⟩
      · rw [hs]
        exact h
      · simp [hfound] at hnone
  · next hfound =>
      rw [if_neg hfound]
      have hpanels : (l.detach p).1.panels = l.panels := by
        rcases h.loadable.detach p with hs | ⟨-, hpanels, -⟩
        · rw [hs]
        · exact hpanels
      refine ⟨hloadable, harranged, fun q hq => ?_, ?_⟩
      · obtain ⟨hne, hq⟩ := Std.ExtTreeMap.mem_erase.mp hq
        rw [hpanels] at hq
        have hqp : q ≠ p := by
          rintro rfl
          exact hne Std.compare_self
        have hin := h.held q hq
        simp only [places, List.mem_append, List.mem_filter, decide_eq_true_eq] at hin ⊢
        rcases h.loadable.detach p with hs | ⟨-, -, haway, -, hperm⟩
        · rw [hs]
          tauto
        · rw [haway]
          rw [← hperm.mem_iff, List.mem_cons] at hin
          tauto
      · simp only [hpanels]
        exact h.titled.erase p

theorem Inv.bringBack (h : l.Inv) {p : PanelId} {tab : TabId} {result : Layout × Bool}
    (hfresh : ∀ t ∈ l.tabs, t.id ≠ tab) (hs : l.bringBack p tab = some result) :
    result.1.Inv := by
  have hloadable := h.loadable.bringBack hs
  unfold Layout.bringBack at hs
  split at hs
  · cases hs
    exact h
  · next index hindex =>
      obtain ⟨back, hplace, rfl⟩ := Option.map_eq_some_iff.mp hs
      have hi : l.away.idxOf p = index := by
        rw [List.idxOf_eq_getD_idxOf?, hindex, Option.getD_some]
      rw [← hi, List.eraseIdx_idxOf_eq_erase] at hplace
      obtain ⟨harranged, hplaces, hpanels⟩ :=
        @Arranged.place { l with away := l.away.erase p } back h.arranged p none .stack tab hfresh
          hplace
      refine ⟨hloadable, harranged, fun q hq => ?_, by rw [hpanels]; exact h.titled⟩
      rw [hpanels] at hq
      have hin := h.held q hq
      refine hplaces.mem_iff.mpr ?_
      by_cases hqp : q = p
      · exact List.mem_cons.mpr (.inl hqp)
      · refine List.mem_cons_of_mem _ ?_
        simp only [places, List.mem_append, List.mem_erase_of_ne hqp] at hin ⊢
        exact hin

theorem Inv.closeTab (h : l.Inv) (tab : TabId) : (l.closeTab tab).1.Inv := by
  have hloadable := h.loadable.closeTab tab
  rcases closeTab_cases l tab with hs | ⟨as, t, bs, htabs, hs⟩
  · rw [hs]
    exact h
  · have harranged := h.arranged
    rw [htabs] at harranged
    rw [hs] at hloadable ⊢
    refine ⟨hloadable, harranged.close, fun q hq => ?_, ?_⟩
    · have hget := Std.ExtTreeMap.mem_iff_isSome_getElem?.mp hq
      rw [getElem?_takeRecords] at hget
      split at hget
      · cases hget
      · next hother =>
          have hin := h.held q (Std.ExtTreeMap.isSome_getElem?_iff_mem.mp hget)
          simp only [places, htabs, List.mem_append, (treePanels_perm as t bs).mem_iff] at hin ⊢
          tauto
    · refine h.titled.of_records fun q r hq => ⟨r, ?_, rfl, rfl⟩
      rw [getElem?_takeRecords] at hq
      split at hq
      · cases hq
      · exact hq

theorem Inv.focusPanel (h : l.Inv) (p : PanelId) : (l.focusPanel p).1.Inv := by
  have hloadable := h.loadable.focusPanel p
  rcases focusPanel_cases l p with hs | ⟨as, t, bs, htabs, hu, hs⟩
  · rw [hs]
    exact h
  · have ht : t ∈ l.tabs := by simp [htabs]
    have hp := h.arranged.mem_panels ht hu
    have hproper := h.arranged.proper t ht
    have harranged := h.arranged
    have hheld := h.held
    rw [htabs] at harranged
    rw [hs] at hloadable ⊢
    refine ⟨hloadable, harranged.replace rfl (SplitTree.proper_activate hproper)
      ⟨p, rfl, SplitTree.mem_shown_activate hp⟩ (.inr rfl), fun q hq => ?_, h.titled⟩
    have hin := hheld q hq
    simpa only [places, htabs, treePanels_append, treePanels_cons, SplitTree.panels_activate]
      using hin

theorem Inv.renameTab (h : l.Inv) {tab : TabId} {title : String} {result : Layout × Bool}
    (hs : l.renameTab tab title = some result) : result.1.Inv := by
  have hloadable := h.loadable.renameTab hs
  rcases renameTab_cases hs with hs | ⟨as, t, bs, title, titleIsCustom, htabs, hs⟩
  · rw [hs]
    exact h
  · have ht : t ∈ l.tabs := by simp [htabs]
    have hproper := h.arranged.proper t ht
    have hshown := h.arranged.shown t ht
    have harranged := h.arranged
    rw [htabs] at harranged
    rw [hs] at hloadable ⊢
    refine ⟨hloadable, harranged.replace rfl hproper hshown (.inl rfl), fun q hq => ?_, h.titled⟩
    have hin := h.held q hq
    simpa only [places, htabs, treePanels_append, treePanels_cons] using hin

theorem Inv.renamePanel (h : l.Inv) {p : PanelId} {title : String} {result : Layout × Bool}
    (hs : l.renamePanel p title = some result) : result.1.Inv := by
  have hloadable := h.loadable.renamePanel hs
  unfold Layout.renamePanel at hs
  split at hs
  · cases hs
    exact h
  · next record hrecord =>
      obtain ⟨⟨title', titleIsCustom⟩, hrenamed, rfl⟩ := Option.map_eq_some_iff.mp hs
      refine ⟨hloadable, h.arranged, fun q hq => ?_, h.titled.insert p fun hcustom => ?_⟩
      · rcases Std.ExtTreeMap.mem_insert.mp hq with heq | hq
        · rw [← Std.LawfulEqCmp.eq_of_compare heq]
          refine h.held p (Std.ExtTreeMap.mem_iff_isSome_getElem?.mpr ?_)
          rw [hrecord]
          rfl
        · exact h.held q hq
      · rw [show titleIsCustom = false from hcustom, renamed] at hrenamed
        split at hrenamed
        · obtain ⟨fresh, hfresh, heq⟩ := Option.map_eq_some_iff.mp hrenamed
          cases heq
          exact hfresh
        · cases hrenamed

theorem Inv.setKind (h : l.Inv) (p : PanelId) (kind : PanelKind) : (l.setKind p kind).1.Inv := by
  refine ⟨h.loadable.setKind p kind, h.arranged,
    fun q hq => h.held q (Std.ExtTreeMap.mem_modify.mp hq), ?_⟩
  refine h.titled.of_records fun q r' hq => ?_
  simp only [Layout.setKind, Std.ExtTreeMap.getElem?_modify] at hq
  split at hq
  · next heq =>
      obtain rfl := Std.LawfulEqCmp.eq_of_compare heq
      obtain ⟨r, hr, rfl⟩ := Option.map_eq_some_iff.mp hq
      exact ⟨r, hr, rfl, rfl⟩
  · exact ⟨r', hq, rfl, rfl⟩

theorem Inv.moveTab (h : l.Inv) (tab : TabId) (dest : Nat) : (l.moveTab tab dest).Inv := by
  have hloadable := h.loadable.moveTab tab dest
  obtain ⟨tabs, hperm, hs⟩ := moveTab_perm l tab dest
  rw [hs] at hloadable ⊢
  refine ⟨hloadable, h.arranged.perm hperm, fun q hq => ?_, h.titled⟩
  exact ((hperm.flatMap_right _).append_right l.away).mem_iff.mpr (h.held q hq)

theorem Inv.pruneOrphans (h : l.Inv) : l.pruneOrphans.1.Inv := by
  refine ⟨h.loadable.pruneOrphans, h.arranged, fun q hq => ?_, ?_⟩
  · obtain ⟨record, hget⟩ :=
      Option.isSome_iff_exists.mp (Std.ExtTreeMap.mem_iff_isSome_getElem?.mp hq)
    exact (getElem?_pruneOrphans.mp hget).2
  · exact h.titled.of_records fun q r hq => ⟨r, (getElem?_pruneOrphans.mp hq).1, rfl, rfl⟩

theorem tab_of_fresh {p : PanelId} {tab : TabId}
    (h : (!l.panels.contains p && l.tabs.all fun t => t.id ≠ tab) = true) :
    ∀ t ∈ l.tabs, t.id ≠ tab := by
  rw [Bool.and_eq_true] at h
  intro t ht
  exact of_decide_eq_true (List.all_eq_true.mp h.2 t ht)

theorem Inv.step {op : Op} (h : l.Inv) (hfresh : l.fresh op) (hs : l.apply op = some l') :
    l'.Inv := by
  cases op with
  | addTab project kind panel tab =>
      exact h.addTab (notMem_of_fresh hfresh) (tab_of_fresh hfresh) hs
  | addPanel project anchor placement kind panel tab =>
      exact h.addPanel (notMem_of_fresh hfresh) (tab_of_fresh hfresh) hs
  | removePanel panel =>
      cases hs
      exact h.removePanel panel
  | sendAway panel =>
      cases hs
      exact h.sendAway panel
  | bringBack panel tab =>
      obtain ⟨result, hback, rfl⟩ := Option.map_eq_some_iff.mp hs
      exact h.bringBack (by simpa [fresh] using hfresh) hback
  | closeTab tab =>
      cases hs
      exact h.closeTab tab
  | focusPanel panel =>
      cases hs
      exact h.focusPanel panel
  | renamePanel panel title =>
      obtain ⟨result, hrename, rfl⟩ := Option.map_eq_some_iff.mp hs
      exact h.renamePanel hrename
  | renameTab tab title =>
      obtain ⟨result, hrename, rfl⟩ := Option.map_eq_some_iff.mp hs
      exact h.renameTab hrename
  | setKind panel kind =>
      cases hs
      exact h.setKind panel kind
  | moveTab tab dest =>
      cases hs
      exact h.moveTab tab dest
  | pruneOrphans =>
      cases hs
      exact h.pruneOrphans

theorem inv_empty : Inv ⟨layoutSchemaVersion, [], none, ∅, []⟩ :=
  ⟨⟨by simp, by simp [places, treePanels], by simp [places, treePanels]⟩,
    ⟨by simp, by simp, by simp, by simp, by simp⟩, by simp [Held], by simp [Titled]⟩

theorem Inv.newDefault {project : ProjectId} {panel : PanelId} {tab : TabId}
    (hs : newDefault project panel tab = some l) : l.Inv :=
  inv_empty.addTab (by simp) (by simp) hs

/-- What holds of a layout in use: `check` accepts it; each record's panel stands in
one place, and nothing else stands anywhere; the trees are well formed; the active
tab and each tab's active panel exist and are on show; default titles are distinct. -/
structure Sound (l : Layout) : Prop where
  checked : l.check = .ok ()
  placed : l.places.Nodup
  recorded : ∀ p, p ∈ l.panels ↔ p ∈ l.places
  proper : ∀ t ∈ l.tabs, t.root.Proper
  activeNone : l.activeTab = none ↔ l.tabs = []
  active : ∀ id, l.activeTab = some id → ∃ t ∈ l.tabs, t.id = id
  shown : ∀ t ∈ l.tabs, ∃ p, t.activePanel = some p ∧ p ∈ t.root.panels ∧ p ∈ t.root.shown
  titled : Titled l.panels

/-- The layouts a new project's workspace can get to. -/
def running : Machine Layout Op :=
  machine fun l => ∃ project panel tab, newDefault project panel tab = some l

theorem inv_of_reach (h : running.Reach Machine.anyStep l) : l.Inv := by
  refine h.invariant ?_ fun l op l' hl _ hs => ?_
  · rintro l ⟨project, panel, tab, hs⟩
    exact .newDefault hs
  · simp only [running, machine, Option.ite_none_right_eq_some] at hs
    exact hl.step hs.1 hs.2

/-- Whatever is done to a new project's layout, it stays sound. -/
theorem sound_of_reach (l : Layout) (h : running.Reach Machine.anyStep l) : l.Sound := by
  have hinv := inv_of_reach h
  refine ⟨hinv.loadable.check, hinv.loadable.placed,
    fun p => ⟨hinv.held p, hinv.loadable.recorded p⟩, hinv.arranged.proper,
    hinv.arranged.activeNone, hinv.arranged.active, fun t ht => ?_, hinv.titled⟩
  obtain ⟨p, hactive, hshown⟩ := hinv.arranged.shown t ht
  exact ⟨p, hactive, SplitTree.mem_panels_of_mem_shown hshown, hshown⟩

/-- A second panel is sent away, and the first one's tab moves behind a new one. -/
theorem sound_sent_away : ∃ l : Layout, l.Sound ∧ l.tabs.length = 2 ∧ l.away = [⟨4⟩] := by
  have hrun : ((newDefault ⟨1⟩ ⟨2⟩ ⟨3⟩).any fun l => (running.exec Machine.anyStep l
      [.addPanel ⟨1⟩ (some ⟨2⟩) .right .untyped ⟨4⟩ ⟨9⟩, .addTab ⟨1⟩ .untyped ⟨5⟩ ⟨6⟩,
        .sendAway ⟨4⟩, .moveTab ⟨3⟩ 7]).any fun l =>
          decide (l.tabs.length = 2 ∧ l.away = [⟨4⟩])) = true := by decide
  cases hinit : newDefault ⟨1⟩ ⟨2⟩ ⟨3⟩ with
  | none =>
      rw [hinit] at hrun
      cases hrun
  | some l₀ =>
      rw [hinit] at hrun
      have hreach : running.Reach Machine.anyStep l₀ := .init ⟨⟨1⟩, ⟨2⟩, ⟨3⟩, hinit⟩
      obtain ⟨l, hreach, hl⟩ := hreach.exists_of_exec _ _ hrun
      exact ⟨l, sound_of_reach l hreach, of_decide_eq_true hl⟩

end Layout

end Throng
