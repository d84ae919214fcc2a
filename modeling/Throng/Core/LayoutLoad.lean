import Throng.Core.LayoutSpec

/-!
# Layouts that can be loaded

`check` decides whether a stored layout is loaded. It looks at the trees only,
while the operations also rely on the panels that are away: `Loadable` is what
they preserve, and a loaded layout has it exactly when its away panels stand in
one place each.
-/

namespace Throng

namespace Layout

variable {l l' : Layout}

/-! ## What `check` accepts -/

theorem checkPanels_eq_ok {records : Std.ExtTreeMap PanelId Panel} {ps seen seen' : List PanelId} :
    checkPanels records ps seen = .ok seen' ↔
      ps.Nodup ∧ (∀ p ∈ ps, p ∉ seen ∧ p ∈ records) ∧ seen' = ps.reverse ++ seen := by
  induction ps generalizing seen with
  | nil => simp [checkPanels, eq_comm]
  | cons p ps ih =>
      rw [checkPanels]
      by_cases hseen : p ∈ seen
      · simp [hseen]
      · by_cases hrecord : p ∈ records
        · simp only [hseen, hrecord, if_false, not_true_eq_false, ih]
          grind
        · simp [hseen, hrecord]

theorem checkTabs_eq_ok {records : Std.ExtTreeMap PanelId Panel} {tabs : List Tab}
    {seen : List PanelId} :
    checkTabs records tabs seen = .ok () ↔
      (∀ t ∈ tabs, t.root.panels ≠ []) ∧ (treePanels tabs).Nodup ∧
        ∀ p ∈ treePanels tabs, p ∉ seen ∧ p ∈ records := by
  induction tabs generalizing seen with
  | nil => simp [checkTabs, treePanels]
  | cons t tabs ih =>
      rw [checkTabs, treePanels_cons, List.nodup_append']
      by_cases hempty : t.root.panels = []
      · simp [hempty]
      · cases hpanels : checkPanels records t.root.panels seen with
        | error e =>
            have hbad : ¬ (t.root.panels.Nodup ∧ ∀ p ∈ t.root.panels, p ∉ seen ∧ p ∈ records) := by
              intro h
              rw [checkPanels_eq_ok.mpr ⟨h.1, h.2, rfl⟩] at hpanels
              cases hpanels
            simp only [hempty, List.isEmpty_iff, if_false, Except.bind]
            constructor
            · intro h
              cases h
            · rintro ⟨-, ⟨hnodup, -, -⟩, hseen⟩
              exact absurd ⟨hnodup, fun p hp => hseen p (List.mem_append_left _ hp)⟩ hbad
        | ok seen' =>
            obtain ⟨hnodup, hseen, rfl⟩ := checkPanels_eq_ok.mp hpanels
            simp only [hempty, List.isEmpty_iff, if_false, Except.bind, ih]
            grind [List.Disjoint]

theorem check_eq_ok : l.check = .ok () ↔
    (∀ t ∈ l.tabs, t.root.panels ≠ []) ∧ (treePanels l.tabs).Nodup ∧
      ∀ p ∈ treePanels l.tabs, p ∈ l.panels := by
  simp [check, checkTabs_eq_ok]

/-- Every place a panel can stand in: the leaves in layout order, then the away list. -/
def places (l : Layout) : List PanelId := treePanels l.tabs ++ l.away

/-- No tab is empty, and every panel has one place and a record. -/
structure Loadable (l : Layout) : Prop where
  nonempty : ∀ t ∈ l.tabs, t.root.panels ≠ []
  placed : l.places.Nodup
  recorded : ∀ p ∈ l.places, p ∈ l.panels

theorem Loadable.check (h : l.Loadable) : l.check = .ok () :=
  check_eq_ok.mpr ⟨h.nonempty, h.placed.of_append_left, fun p hp =>
    h.recorded p (List.mem_append_left _ hp)⟩

/-! ## What the operations preserve -/

/-- The panels that stand somewhere, up to order, decide the rest. -/
theorem Loadable.of_perm {ps : List PanelId} (hnonempty : ∀ t ∈ l'.tabs, t.root.panels ≠ [])
    (hperm : List.Perm l'.places ps) (hplaced : ps.Nodup) (hrecorded : ∀ p ∈ ps, p ∈ l'.panels) :
    Loadable l' where
  nonempty := hnonempty
  placed := hperm.nodup_iff.mpr hplaced
  recorded p hp := hrecorded p (hperm.mem_iff.mp hp)

/-- One more panel in the trees stands before all the others, up to order. -/
theorem places_cons {p : PanelId} (htrees : List.Perm (treePanels l'.tabs) (p :: treePanels l.tabs))
    (haway : l'.away = l.away) : List.Perm l'.places (p :: l.places) := by
  unfold places
  rw [haway]
  exact htrees.append_right l.away

theorem treePanels_push (id : TabId) (title : String) (p : PanelId) (tabs : List Tab) :
    List.Perm (treePanels (tabs ++ [⟨id, title, false, SplitTree.leafOf p, some p⟩]))
      (p :: treePanels tabs) := by
  rw [treePanels_append]
  exact List.perm_append_singleton p (treePanels tabs)

/-- Changing one tab's tree changes its panels alone. -/
theorem treePanels_replace {as bs : List Tab} {t t' : Tab} {qs : List PanelId}
    (h : List.Perm t'.root.panels (qs ++ t.root.panels)) :
    List.Perm (treePanels (as ++ t' :: bs)) (qs ++ treePanels (as ++ t :: bs)) := by
  have hold := treePanels_perm as t bs
  have hnew := treePanels_perm as t' bs
  refine hnew.trans ((h.append_right _).trans ?_)
  rw [List.append_assoc]
  exact hold.symm.append_left qs

theorem treePanels_inserted {as bs : List Tab} {t : Tab} {a p : PanelId} {placement : Placement}
    (ha : a ∈ t.root.panels) :
    List.Perm (treePanels (as ++ { t with
      root := (t.root.insert a p placement).1, activePanel := some p } :: bs))
      (p :: treePanels (as ++ t :: bs)) := by
  have hinsert : List.Perm (t.root.insert a p placement).1.panels ([p] ++ t.root.panels) :=
    SplitTree.panels_insert ha
  exact @treePanels_replace as bs t { t with
    root := (t.root.insert a p placement).1, activePanel := some p } [p] hinsert

theorem nonempty_replace {as bs : List Tab} {t t' : Tab}
    (h : ∀ u ∈ as ++ t :: bs, u.root.panels ≠ [])
    (ht' : t'.root.panels ≠ []) : ∀ u ∈ as ++ t' :: bs, u.root.panels ≠ [] := by
  intro u hu
  rcases List.mem_append.mp hu with hin | hin
  · exact h u (List.mem_append_left _ hin)
  · rcases List.mem_cons.mp hin with rfl | hin
    · exact ht'
    · exact h u (List.mem_append_right _ (List.mem_cons_of_mem _ hin))

theorem Loadable.pushTab (h : l.Loadable) {tab : TabId} {p : PanelId} (hp : p ∉ l.places)
    (hrecord : p ∈ l.panels) (hs : l.pushTab tab p = some l') : l'.Loadable := by
  obtain ⟨title, rfl⟩ := pushTab_eq hs
  refine .of_perm ?_ (places_cons (treePanels_push tab title p l.tabs) rfl)
    (List.nodup_cons.mpr ⟨hp, h.placed⟩) (List.forall_mem_cons.mpr ⟨hrecord, h.recorded⟩)
  intro t ht
  rcases List.mem_append.mp ht with hin | hin
  · exact h.nonempty t hin
  · rw [List.mem_singleton.mp hin]
    exact List.cons_ne_nil p []

theorem Loadable.place (h : l.Loadable) {p : PanelId} {anchor : Option PanelId}
    {placement : Placement} {tab : TabId} (hp : p ∉ l.places) (hrecord : p ∈ l.panels)
    (hs : l.place p anchor placement tab = some l') : l'.Loadable := by
  rcases place_cases hs with hpush | ⟨as, t, bs, a, htabs, -, -, rfl⟩
  · exact h.pushTab hp hrecord hpush
  · have hnonempty := h.nonempty
    rw [htabs] at hnonempty
    have ht : t.root.panels ≠ [] := hnonempty t (by simp)
    by_cases ha : a ∈ t.root.panels
    · have htrees := @treePanels_inserted as bs t a p placement ha
      rw [← htabs] at htrees
      refine .of_perm (nonempty_replace hnonempty fun hnil => ?_) (places_cons htrees rfl)
        (List.nodup_cons.mpr ⟨hp, h.placed⟩) (List.forall_mem_cons.mpr ⟨hrecord, h.recorded⟩)
      have hinsert := @SplitTree.panels_insert t.root a p placement ha
      rw [hnil] at hinsert
      cases hinsert.nil_eq
    · have hsame : (t.root.insert a p placement).1 = t.root := SplitTree.insert_of_notMem ha
      refine .of_perm (nonempty_replace hnonempty (by simpa [hsame] using ht)) (.of_eq ?_) h.placed
        h.recorded
      simp only [places, htabs, hsame, treePanels_append, treePanels_cons]

theorem Loadable.newPanel (h : l.Loadable) {project : ProjectId} {kind : PanelKind} {p : PanelId}
    (hs : l.newPanel project kind p = some l') : l'.Loadable := by
  obtain ⟨title, -, rfl⟩ := newPanel_eq hs
  exact ⟨h.nonempty, h.placed, fun q hq =>
    Std.ExtTreeMap.mem_insert.mpr (.inr (h.recorded q hq))⟩

/-- Taking a panel out of its tab takes it out of its place. -/
theorem Loadable.detach (h : l.Loadable) (p : PanelId) :
    l.detach p = (l, false) ∨
      ((l.detach p).2 = true ∧ (l.detach p).1.panels = l.panels ∧
        (l.detach p).1.away = l.away ∧ (∀ t ∈ (l.detach p).1.tabs, t.root.panels ≠ []) ∧
        List.Perm (p :: treePanels (l.detach p).1.tabs) (treePanels l.tabs)) := by
  have hnonempty := h.nonempty
  rcases detach_cases l p with ⟨hnone, -⟩ | ⟨as, t, bs, htabs, hp, ⟨hrest, hs⟩ | ⟨t', hshrunk, hs⟩⟩
  · exact .inl hnone
  · have hperm := List.perm_cons_erase hp
    rw [hrest] at hperm
    rw [hs, htabs]
    refine .inr ⟨rfl, rfl, rfl, fun u hu => hnonempty u ?_, ?_⟩
    · rw [htabs]
      rcases List.mem_append.mp hu with hin | hin
      · exact List.mem_append_left _ hin
      · exact List.mem_append_right _ (List.mem_cons_of_mem _ hin)
    · exact ((treePanels_perm as t bs).trans (hperm.append_right _)).symm
  · rw [htabs] at hnonempty
    have hperm : List.Perm t.root.panels ([p] ++ t'.root.panels) := by
      rw [hshrunk.panels]
      exact List.perm_cons_erase hp
    rw [hs, htabs]
    refine .inr ⟨rfl, rfl, rfl, nonempty_replace hnonempty hshrunk.proper.panels_ne_nil, ?_⟩
    exact (treePanels_replace hperm).symm

theorem Loadable.sendAway (h : l.Loadable) (p : PanelId) : (l.sendAway p).1.Loadable := by
  unfold Layout.sendAway
  rcases h.detach p with hnone | ⟨hfound, hpanels, haway, hnonempty, hperm⟩
  · rw [hnone]
    exact h
  · simp only [hfound, if_true]
    refine .of_perm hnonempty ?_ h.placed (by simpa only [hpanels] using h.recorded)
    simp only [places, haway]
    refine List.Perm.trans ?_ (hperm.append_right l.away)
    rw [← List.append_assoc]
    exact List.perm_append_singleton _ _

theorem Loadable.removePanel (h : l.Loadable) (p : PanelId) : (l.removePanel p).1.Loadable := by
  -- what is left in the trees once the panel is out of its tab
  have hleft : ∀ {left : Layout}, left.panels = l.panels → left.away = l.away →
      (∀ t ∈ left.tabs, t.root.panels ≠ []) → left.places.Nodup → p ∉ treePanels left.tabs →
      (∀ q ∈ left.places, q ∈ l.panels) →
      Loadable { left with
        away := left.away.filter fun q => q ≠ p, panels := left.panels.erase p } := by
    intro left hpanels haway hnonempty hplaced hp hrecorded
    refine ⟨hnonempty, ?_, ?_⟩
    · exact hplaced.sublist (List.filter_sublist.append_left _)
    · intro q hq
      have hne : q ≠ p := by
        rcases List.mem_append.mp hq with hin | hin
        · rintro rfl
          exact hp hin
        · simpa using (List.mem_filter.mp hin).2
      have hin : q ∈ left.places := (List.filter_sublist.append_left _).subset hq
      rw [hpanels]
      exact Std.ExtTreeMap.mem_erase.mpr ⟨by simpa using hne.symm, hrecorded q hin⟩
  unfold Layout.removePanel
  rcases h.detach p with hnone | ⟨hfound, hpanels, haway, hnonempty, hperm⟩
  · rw [hnone]
    by_cases hin : l.away.contains p = true
    · simp only [hin, Bool.not_true, Bool.and_false, Bool.false_eq_true, if_false]
      refine hleft rfl rfl h.nonempty h.placed (fun htree => ?_) h.recorded
      exact (List.disjoint_of_nodup_append h.placed) htree (by simpa using hin)
    · simp only [Bool.eq_false_iff.mpr hin, Bool.not_false, Bool.and_true, if_true]
      exact h
  · simp only [hfound, Bool.not_true, Bool.false_and, Bool.false_eq_true, if_false]
    have hplaces : List.Perm (p :: (l.detach p).1.places) l.places := by
      unfold places
      rw [haway]
      exact hperm.append_right l.away
    have hnodup := hplaces.nodup_iff.mpr h.placed
    refine hleft hpanels haway hnonempty (List.nodup_cons.mp hnodup).2
      (fun hin => (List.nodup_cons.mp hnodup).1 (List.mem_append_left _ hin)) fun q hq => ?_
    exact h.recorded q (hplaces.mem_iff.mp (List.mem_cons_of_mem _ hq))

theorem Loadable.bringBack (h : l.Loadable) {p : PanelId} {tab : TabId} {result : Layout × Bool}
    (hs : l.bringBack p tab = some result) : result.1.Loadable := by
  unfold Layout.bringBack at hs
  split at hs
  · cases hs
    exact h
  · next index hindex =>
      obtain ⟨back, hplace, rfl⟩ := Option.map_eq_some_iff.mp hs
      have hi : l.away.idxOf p = index := by
        rw [List.idxOf_eq_getD_idxOf?, hindex, Option.getD_some]
      have hin : p ∈ l.away := by
        obtain ⟨hlt, hp, -⟩ := List.idxOf?_eq_some_iff.mp hindex
        exact hp ▸ List.getElem_mem hlt
      have hplaces : List.Perm l.places
          (p :: places { l with away := l.away.eraseIdx index }) := by
        simp only [places, ← hi, List.eraseIdx_idxOf_eq_erase]
        exact ((List.perm_cons_erase hin).append_left _).trans List.perm_middle
      have hnodup := hplaces.nodup_iff.mp h.placed
      have hrest : Loadable { l with away := l.away.eraseIdx index } :=
        ⟨h.nonempty, (List.nodup_cons.mp hnodup).2, fun q hq =>
          h.recorded q (hplaces.mem_iff.mpr (List.mem_cons_of_mem _ hq))⟩
      exact hrest.place (List.nodup_cons.mp hnodup).1
        (h.recorded p (List.mem_append_right _ hin)) hplace

theorem Loadable.closeTab (h : l.Loadable) (tab : TabId) : (l.closeTab tab).1.Loadable := by
  rcases closeTab_cases l tab with hs | ⟨as, t, bs, htabs, hs⟩
  · rw [hs]
    exact h
  · have hplaces : List.Perm l.places (t.root.panels ++ (treePanels (as ++ bs) ++ l.away)) := by
      rw [← List.append_assoc]
      unfold places
      rw [htabs]
      exact (treePanels_perm as t bs).append_right _
    have hnodup := hplaces.nodup_iff.mp h.placed
    rw [hs]
    refine ⟨fun u hu => h.nonempty u ?_, hnodup.of_append_right, fun q hq => ?_⟩
    · rw [htabs]
      rcases List.mem_append.mp hu with hin | hin
      · exact List.mem_append_left _ hin
      · exact List.mem_append_right _ (List.mem_cons_of_mem _ hin)
    · have hrecord := h.recorded q (hplaces.mem_iff.mpr (List.mem_append_right _ hq))
      have hother : q ∉ t.root.panels := fun hin => (List.disjoint_of_nodup_append hnodup) hin hq
      rw [Std.ExtTreeMap.mem_iff_isSome_getElem?, getElem?_takeRecords, if_neg hother]
      exact Std.ExtTreeMap.isSome_getElem?_iff_mem.mpr hrecord

/-- An operation that leaves every tab its panels keeps a layout loadable. -/
theorem Loadable.frame (h : l.Loadable) (htabs : (l'.tabs.map fun t => t.root.panels) =
    l.tabs.map fun t => t.root.panels) (haway : l'.away = l.away)
    (hpanels : ∀ p, p ∈ l.panels → p ∈ l'.panels) : l'.Loadable := by
  have hplaces : l'.places = l.places := by
    simp only [places, treePanels, List.flatMap_def, htabs, haway]
  refine .of_perm (fun t ht => ?_) (.of_eq hplaces) h.placed fun p hp =>
    hpanels p (h.recorded p hp)
  have hin : t.root.panels ∈ l'.tabs.map fun t => t.root.panels := List.mem_map_of_mem ht
  rw [htabs] at hin
  obtain ⟨u, hu, heq⟩ := List.mem_map.mp hin
  rw [← heq]
  exact h.nonempty u hu

theorem Loadable.focusPanel (h : l.Loadable) (p : PanelId) : (l.focusPanel p).1.Loadable := by
  rcases focusPanel_cases l p with hs | ⟨as, t, bs, htabs, -, hs⟩
  · rw [hs]
    exact h
  · rw [hs]
    exact h.frame (by simp [htabs]) rfl fun _ hin => hin

theorem Loadable.renameTab (h : l.Loadable) {tab : TabId} {title : String}
    {result : Layout × Bool} (hs : l.renameTab tab title = some result) :
    result.1.Loadable := by
  rcases renameTab_cases hs with hs | ⟨as, t, bs, title, titleIsCustom, htabs, hs⟩
  · rw [hs]
    exact h
  · rw [hs]
    exact h.frame (by simp [htabs]) rfl fun _ hin => hin

theorem Loadable.renamePanel (h : l.Loadable) {p : PanelId} {title : String}
    {result : Layout × Bool} (hs : l.renamePanel p title = some result) :
    result.1.Loadable := by
  unfold Layout.renamePanel at hs
  split at hs
  · cases hs
    exact h
  · obtain ⟨⟨title', titleIsCustom⟩, -, rfl⟩ := Option.map_eq_some_iff.mp hs
    exact h.frame rfl rfl fun q hq => Std.ExtTreeMap.mem_insert.mpr (.inr hq)

theorem Loadable.setKind (h : l.Loadable) (p : PanelId) (kind : PanelKind) :
    (l.setKind p kind).1.Loadable :=
  h.frame rfl rfl fun _ hq => Std.ExtTreeMap.mem_modify.mpr hq

theorem Loadable.moveTab (h : l.Loadable) (tab : TabId) (dest : Nat) :
    (l.moveTab tab dest).Loadable := by
  obtain ⟨tabs, hperm, hs⟩ := moveTab_perm l tab dest
  rw [hs]
  exact .of_perm (fun t ht => h.nonempty t (hperm.mem_iff.mp ht))
    ((hperm.flatMap_right _).append_right _) h.placed h.recorded

theorem getElem?_pruneOrphans {p : PanelId} {record : Panel} :
    l.pruneOrphans.1.panels[p]? = some record ↔
      l.panels[p]? = some record ∧ p ∈ l.pruneOrphans.1.places := by
  simp only [Layout.pruneOrphans, Std.ExtTreeMap.getElem?_filter', Option.filter_eq_some_iff,
    List.contains_iff_mem, places]

/-- The records that are kept are those of the panels that stand somewhere. -/
theorem recorded_pruneOrphans (hrecorded : ∀ p ∈ treePanels l.tabs, p ∈ l.panels) :
    ∀ p ∈ l.pruneOrphans.1.places, p ∈ l.pruneOrphans.1.panels := by
  intro p hp
  have hrecord : p ∈ l.panels := by
    rcases List.mem_append.mp hp with hin | hin
    · exact hrecorded p hin
    · exact Std.ExtTreeMap.contains_iff_mem.mp (List.mem_filter.mp hin).2
  obtain ⟨record, hget⟩ :=
    Option.isSome_iff_exists.mp (Std.ExtTreeMap.mem_iff_isSome_getElem?.mp hrecord)
  rw [Std.ExtTreeMap.mem_iff_isSome_getElem?, getElem?_pruneOrphans.mpr ⟨hget, hp⟩]
  rfl

theorem Loadable.pruneOrphans (h : l.Loadable) : l.pruneOrphans.1.Loadable where
  nonempty := h.nonempty
  placed := h.placed.sublist (List.filter_sublist.append_left _)
  recorded := recorded_pruneOrphans fun p hp => h.recorded p (List.mem_append_left _ hp)

/-- A new panel goes into a layout in which its id stands nowhere. -/
theorem Loadable.notMem_places (h : l.Loadable) {p : PanelId} (hp : p ∉ l.panels) :
    p ∉ l.places :=
  fun hin => hp (h.recorded p hin)

theorem Loadable.addTab (h : l.Loadable) {project : ProjectId} {kind : PanelKind} {p : PanelId}
    {tab : TabId} (hp : p ∉ l.panels) (hs : l.addTab project kind p tab = some l') :
    l'.Loadable := by
  obtain ⟨l₁, hnew, hpush⟩ := Option.bind_eq_some_iff.mp hs
  have h₁ := h.newPanel hnew
  obtain ⟨title, -, rfl⟩ := newPanel_eq hnew
  exact h₁.pushTab (h.notMem_places hp) Std.ExtTreeMap.mem_insert_self hpush

theorem Loadable.addPanel (h : l.Loadable) {project : ProjectId} {anchor : Option PanelId}
    {placement : Placement} {kind : PanelKind} {p : PanelId} {tab : TabId} (hp : p ∉ l.panels)
    (hs : l.addPanel project anchor placement kind p tab = some l') : l'.Loadable := by
  simp only [Layout.addPanel] at hs
  split at hs
  · exact h.addTab hp hs
  · obtain ⟨l₁, hnew, hplace⟩ := Option.bind_eq_some_iff.mp hs
    have h₁ := h.newPanel hnew
    obtain ⟨title, -, rfl⟩ := newPanel_eq hnew
    exact h₁.place (h.notMem_places hp) Std.ExtTreeMap.mem_insert_self hplace

theorem notMem_of_fresh {p : PanelId} {rest : Bool}
    (h : (!l.panels.contains p && rest) = true) : p ∉ l.panels := by
  intro hin
  rw [Std.ExtTreeMap.contains_iff_mem.mpr hin] at h
  cases h

theorem Loadable.step {op : Op} (h : l.Loadable) (hfresh : l.fresh op)
    (hs : l.apply op = some l') : l'.Loadable := by
  cases op with
  | addTab project kind panel tab =>
      exact h.addTab (notMem_of_fresh hfresh) hs
  | addPanel project anchor placement kind panel tab =>
      exact h.addPanel (notMem_of_fresh hfresh) hs
  | removePanel panel =>
      cases hs
      exact h.removePanel panel
  | sendAway panel =>
      cases hs
      exact h.sendAway panel
  | bringBack panel tab =>
      obtain ⟨result, hback, rfl⟩ := Option.map_eq_some_iff.mp hs
      exact h.bringBack hback
  | closeTab tab =>
      cases hs
      exact h.closeTab tab
  | focusPanel panel =>
      cases hs
      exact h.focusPanel panel
  | renamePanel panel title =>
      obtain ⟨result, hrename, rfl⟩ := Option.map_eq_some_iff.mp hs
      exact h.renamePanel hrename
  | renameTab tab title =>
      obtain ⟨result, hrename, rfl⟩ := Option.map_eq_some_iff.mp hs
      exact h.renameTab hrename
  | setKind panel kind =>
      cases hs
      exact h.setKind panel kind
  | moveTab tab dest =>
      cases hs
      exact h.moveTab tab dest
  | pruneOrphans =>
      cases hs
      exact h.pruneOrphans

theorem Loadable.reach {start : Layout → Prop} (hstart : ∀ l, start l → l.Loadable)
    (h : (machine start).Reach Machine.anyStep l) : l.Loadable := by
  refine h.invariant hstart fun l op l' hl _ hs => ?_
  simp only [machine, Option.ite_none_right_eq_some] at hs
  exact hl.step hs.1 hs.2

end Layout

end Throng
