import Throng.Core.LayoutSpec

/-!
# Records and panels that are away

What the operations do to the records of a layout and to its panels that are away. Where
the panels stand in the tabs plays no part in it, so nothing is asked of the layout.
-/

namespace Throng

namespace Layout

variable {l l' : Layout} {p q : PanelId}

/-- Each record is kept under its own id. -/
def Ids (l : Layout) : Prop :=
  ∀ (p : PanelId) (record : Panel), l.panels[p]? = some record → record.id = p

/-- What a panel shows. -/
def kindOf (l : Layout) (p : PanelId) : Option PanelKind := l.panels[p]?.map Panel.kind

theorem kindOf_of_panels (h : l'.panels = l.panels) : l'.kindOf p = l.kindOf p := by
  rw [kindOf, h, kindOf]

theorem Ids.of_panels (h : l.Ids) (hpanels : l'.panels = l.panels) : l'.Ids := by
  intro p record hrecord
  rw [hpanels] at hrecord
  exact h p record hrecord

theorem kindOf_eq_some {kind : PanelKind} :
    l.kindOf p = some kind ↔ ∃ record, l.panels[p]? = some record ∧ record.kind = kind := by
  rw [kindOf, Option.map_eq_some_iff]

theorem kindOf_eq_none : l.kindOf p = none ↔ p ∉ l.panels := by
  rw [kindOf, Option.map_eq_none_iff, Std.ExtTreeMap.mem_iff_isSome_getElem?,
    Option.not_isSome_iff_eq_none]

theorem getElem?_insert_panel (panels : Std.ExtTreeMap PanelId Panel) (p q : PanelId)
    (record : Panel) :
    (panels.insert p record)[q]? = if q = p then some record else panels[q]? := by
  rw [Std.ExtTreeMap.getElem?_insert]
  by_cases h : q = p
  · rw [if_pos h, if_pos (Std.LawfulEqCmp.compare_eq_iff_eq.mpr h.symm)]
  · rw [if_neg h, if_neg fun heq => h (Std.LawfulEqCmp.compare_eq_iff_eq.mp heq).symm]

theorem getElem?_erase_panel (panels : Std.ExtTreeMap PanelId Panel) (p q : PanelId) :
    (panels.erase p)[q]? = if q = p then none else panels[q]? := by
  rw [Std.ExtTreeMap.getElem?_erase]
  by_cases h : q = p
  · rw [if_pos h, if_pos (Std.LawfulEqCmp.compare_eq_iff_eq.mpr h.symm)]
  · rw [if_neg h, if_neg fun heq => h (Std.LawfulEqCmp.compare_eq_iff_eq.mp heq).symm]

/-! ## Operations that leave the records -/

theorem detach_frame (l : Layout) (p : PanelId) :
    (l.detach p).1.panels = l.panels ∧ (l.detach p).1.away = l.away := by
  rcases detach_cases l p with ⟨hs, -⟩ | ⟨as, t, bs, -, -, ⟨-, hs⟩ | ⟨t', -, hs⟩⟩
  · rw [hs]
    exact ⟨rfl, rfl⟩
  · rw [hs]
    exact ⟨rfl, rfl⟩
  · rw [hs]
    exact ⟨rfl, rfl⟩

theorem place_frame {tab : TabId} {anchor : Option PanelId} {placement : Placement}
    (hs : l.place p anchor placement tab = some l') :
    l'.panels = l.panels ∧ l'.away = l.away := by
  rcases place_cases hs with hpush | ⟨as, u, bs, a, -, -, -, rfl⟩
  · obtain ⟨title, rfl⟩ := pushTab_eq hpush
    exact ⟨rfl, rfl⟩
  · exact ⟨rfl, rfl⟩

theorem focusPanel_frame (l : Layout) (p : PanelId) :
    (l.focusPanel p).1.panels = l.panels ∧ (l.focusPanel p).1.away = l.away := by
  rcases focusPanel_cases l p with hs | ⟨as, t, bs, -, -, hs⟩
  · rw [hs]
    exact ⟨rfl, rfl⟩
  · rw [hs]
    exact ⟨rfl, rfl⟩

theorem moveTab_frame (l : Layout) (tab : TabId) (dest : Nat) :
    (l.moveTab tab dest).panels = l.panels ∧ (l.moveTab tab dest).away = l.away := by
  unfold moveTab
  split
  · exact ⟨rfl, rfl⟩
  · split
    · exact ⟨rfl, rfl⟩
    · exact ⟨rfl, rfl⟩

/-- A panel that is in a tab is away afterwards. -/
theorem sendAway_frame (l : Layout) (p : PanelId) :
    (l.sendAway p).1.panels = l.panels ∧
      ((l.sendAway p).1.away = l.away ∨ (l.sendAway p).1.away = l.away ++ [p]) := by
  obtain ⟨hpanels, haway⟩ := l.detach_frame p
  rw [sendAway]
  split_ifs
  · exact ⟨hpanels, .inr (congrArg (· ++ [p]) haway)⟩
  · exact ⟨hpanels, .inl haway⟩

theorem bringBack_frame {tab : TabId} {result : Layout × Bool}
    (hs : l.bringBack p tab = some result) :
    result.1.panels = l.panels ∧ result.1.away = l.away.erase p := by
  rw [bringBack] at hs
  cases hindex : l.away.idxOf? p with
  | none =>
      rw [hindex] at hs
      cases hs
      exact ⟨rfl, (List.erase_of_not_mem (List.idxOf?_eq_none_iff.mp hindex)).symm⟩
  | some index =>
      rw [hindex] at hs
      obtain ⟨back, hplace, rfl⟩ := Option.map_eq_some_iff.mp hs
      obtain ⟨hpanels, haway⟩ := place_frame hplace
      have hi : l.away.idxOf p = index := by
        rw [List.idxOf_eq_getD_idxOf?, hindex, Option.getD_some]
      refine ⟨hpanels, ?_⟩
      rw [haway, ← hi, List.eraseIdx_idxOf_eq_erase]

/-! ## Operations that change a record -/

/-- `l'` has what `l` has, its records with their ids. -/
structure Same (l l' : Layout) : Prop where
  kinds : ∀ q, l'.kindOf q = l.kindOf q
  ids : l.Ids → l'.Ids
  away : l'.away = l.away

theorem Same.of_frame (h : l'.panels = l.panels ∧ l'.away = l.away) : Same l l' :=
  ⟨fun _ => kindOf_of_panels h.1, fun hids => hids.of_panels h.1, h.2⟩

theorem same_renamePanel {title : String} {result : Layout × Bool}
    (hs : l.renamePanel p title = some result) : Same l result.1 := by
  rw [renamePanel] at hs
  cases hrecord : l.panels[p]? with
  | none =>
      rw [hrecord] at hs
      cases hs
      exact .of_frame ⟨rfl, rfl⟩
  | some record =>
      rw [hrecord] at hs
      obtain ⟨⟨title, custom⟩, -, rfl⟩ := Option.map_eq_some_iff.mp hs
      refine ⟨fun q => ?_, fun hids q r hr => ?_, rfl⟩
      · rw [kindOf, kindOf, getElem?_insert_panel]
        split_ifs with hq
        · rw [hq, hrecord]
          rfl
        · rfl
      · rw [getElem?_insert_panel] at hr
        split_ifs at hr with hq
        · cases hr
          rw [hq]
          exact hids p record hrecord
        · exact hids q r hr

theorem same_renameTab {tab : TabId} {title : String} {result : Layout × Bool}
    (hs : l.renameTab tab title = some result) : Same l result.1 := by
  obtain ⟨⟨title, custom⟩, -, rfl⟩ := Option.map_eq_some_iff.mp hs
  exact .of_frame ⟨rfl, rfl⟩

/-- `l'` has one panel more than `l`. -/
structure Added (p : PanelId) (kind : PanelKind) (l l' : Layout) : Prop where
  kinds : ∀ q, l'.kindOf q = if q = p then some kind else l.kindOf q
  ids : l.Ids → l'.Ids
  away : l'.away = l.away

theorem added_newPanel {project : ProjectId} {kind : PanelKind}
    (hs : l.newPanel project kind p = some l') : Added p kind l l' := by
  obtain ⟨title, -, rfl⟩ := newPanel_eq hs
  refine ⟨fun q => ?_, fun hids q r hr => ?_, rfl⟩
  · rw [kindOf, kindOf, getElem?_insert_panel]
    split_ifs with hq <;> rfl
  · rw [getElem?_insert_panel] at hr
    split_ifs at hr with hq
    · cases hr
      exact hq.symm
    · exact hids q r hr

theorem Added.of_frame {kind : PanelKind} {l'' : Layout} (h : Added p kind l l')
    (hframe : l''.panels = l'.panels ∧ l''.away = l'.away) : Added p kind l l'' where
  kinds q := (kindOf_of_panels hframe.1).trans (h.kinds q)
  ids hids := (h.ids hids).of_panels hframe.1
  away := hframe.2.trans h.away

theorem added_addTab {project : ProjectId} {kind : PanelKind} {tab : TabId}
    (hs : l.addTab project kind p tab = some l') : Added p kind l l' := by
  obtain ⟨l₁, hnew, hpush⟩ := Option.bind_eq_some_iff.mp hs
  obtain ⟨title, rfl⟩ := pushTab_eq hpush
  exact (added_newPanel hnew).of_frame ⟨rfl, rfl⟩

theorem added_addPanel {project : ProjectId} {anchor : Option PanelId} {placement : Placement}
    {kind : PanelKind} {tab : TabId}
    (hs : l.addPanel project anchor placement kind p tab = some l') : Added p kind l l' := by
  rw [addPanel] at hs
  split_ifs at hs
  · exact added_addTab hs
  · obtain ⟨l₁, hnew, hplace⟩ := Option.bind_eq_some_iff.mp hs
    exact (added_newPanel hnew).of_frame (place_frame hplace)

/-- `l'` has another kind of panel in one place. -/
structure Changed (p : PanelId) (kind : PanelKind) (l l' : Layout) : Prop where
  kinds : ∀ q, l'.kindOf q = if q = p then (l.kindOf q).map fun _ => kind else l.kindOf q
  ids : l.Ids → l'.Ids
  away : l'.away = l.away

theorem changed_setKind (l : Layout) (p : PanelId) (kind : PanelKind) :
    Changed p kind l (l.setKind p kind).1 := by
  have hget : ∀ q, (l.setKind p kind).1.panels[q]? =
      if q = p then l.panels[q]?.map fun record => { record with kind } else l.panels[q]? := by
    intro q
    rw [setKind, Std.ExtTreeMap.getElem?_modify]
    by_cases h : q = p
    · rw [if_pos h, if_pos (Std.LawfulEqCmp.compare_eq_iff_eq.mpr h.symm), h]
    · rw [if_neg h, if_neg fun heq => h (Std.LawfulEqCmp.compare_eq_iff_eq.mp heq).symm]
  refine ⟨fun q => ?_, fun hids q r hr => ?_, rfl⟩
  · rw [kindOf, kindOf, hget]
    split_ifs
    · rw [Option.map_map, Option.map_map]
      rfl
    · rfl
  · rw [hget] at hr
    split_ifs at hr
    · obtain ⟨record, hrecord, rfl⟩ := Option.map_eq_some_iff.mp hr
      exact hids q record hrecord
    · exact hids q r hr

/-! ## Operations that drop records -/

/-- A panel that is in a tab or away goes with its record, and another one stays. -/
theorem removePanel_frame (l : Layout) (p : PanelId) :
    ((l.removePanel p).1.panels = l.panels ∧ (l.removePanel p).1.away = l.away ∧ p ∉ l.away) ∨
      ((l.removePanel p).1.panels = l.panels.erase p ∧
        (l.removePanel p).1.away = l.away.filter fun q => q ≠ p) := by
  obtain ⟨hpanels, haway⟩ := l.detach_frame p
  rw [removePanel]
  dsimp only
  split_ifs with hnone
  · rw [Bool.and_eq_true, Bool.not_eq_true', Bool.not_eq_true', List.contains_eq_mem,
      decide_eq_false_iff_not, haway] at hnone
    exact .inl ⟨hpanels, haway, hnone.2⟩
  · refine .inr ⟨congrArg (·.erase p) hpanels, ?_⟩
    exact congrArg (List.filter fun q => q ≠ p) haway

theorem kindOf_removePanel_of_ne (h : q ≠ p) : (l.removePanel p).1.kindOf q = l.kindOf q := by
  rcases l.removePanel_frame p with ⟨hpanels, -, -⟩ | ⟨hpanels, -⟩
  · exact kindOf_of_panels hpanels
  · rw [kindOf, kindOf, hpanels, getElem?_erase_panel, if_neg h]

theorem mem_away_removePanel_iff :
    q ∈ (l.removePanel p).1.away ↔ q ∈ l.away ∧ q ≠ p := by
  rcases l.removePanel_frame p with ⟨-, haway, hp⟩ | ⟨-, haway⟩
  · rw [haway]
    exact ⟨fun hq => ⟨hq, fun heq => hp (heq ▸ hq)⟩, And.left⟩
  · rw [haway, List.mem_filter, decide_eq_true_eq]

theorem Ids.removePanel (h : l.Ids) (p : PanelId) : (l.removePanel p).1.Ids := by
  rcases l.removePanel_frame p with ⟨hpanels, -, -⟩ | ⟨hpanels, -⟩
  · exact h.of_panels hpanels
  · intro q record hq
    rw [hpanels, getElem?_erase_panel] at hq
    split_ifs at hq
    exact h q record hq

theorem getElem?_of_pruneOrphans {record : Panel}
    (h : l.pruneOrphans.1.panels[p]? = some record) : l.panels[p]? = some record := by
  rw [pruneOrphans, Std.ExtTreeMap.getElem?_filter', Option.filter_eq_some_iff] at h
  exact h.1

theorem Ids.pruneOrphans (h : l.Ids) : l.pruneOrphans.1.Ids := by
  intro q record hq
  exact h q record (getElem?_of_pruneOrphans hq)

end Layout

end Throng
