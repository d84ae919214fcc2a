import Throng.Core.LayoutInvariant
import Throng.Core.LayoutRecords

/-!
# Mirrors, and room for panels that come back

A panel that is away is shown by a mirror in another layout. Here is what the operations on
that layout do to its mirrors, and when a panel that is away can come back: its home may need
one tab more, and the numbering of tabs must not have run out.
-/

namespace Throng

namespace Layout

variable {l l' : Layout} {p q : PanelId} {m : MirrorPanelConfig}

/-- A panel of the layout mirrors another layout's panel. -/
def Mirrors (l : Layout) (m : MirrorPanelConfig) : Prop := ∃ q, l.kindOf q = some (.mirror m)

theorem Mirrors.of_kinds (h : l.Mirrors m)
    (hkinds : ∀ q kind, l.kindOf q = some kind → l'.kindOf q = some kind) : l'.Mirrors m := by
  obtain ⟨q, hq⟩ := h
  exact ⟨q, hkinds q _ hq⟩

theorem Mirrors.of_panels (h : l.Mirrors m) (hpanels : l'.panels = l.panels) : l'.Mirrors m :=
  h.of_kinds fun _ _ hq => (kindOf_of_panels hpanels).trans hq

/-- A panel that mirrors another one, or none, may be given a new kind. -/
theorem Mirrors.setKind (h : l.Mirrors m) (hp : l.kindOf p ≠ some (.mirror m)) (kind : PanelKind) :
    (l.setKind p kind).1.Mirrors m := by
  obtain ⟨q, hq⟩ := h
  refine ⟨q, ?_⟩
  rw [(l.changed_setKind p kind).kinds, if_neg]
  · exact hq
  · rintro rfl
    exact hp hq

theorem mirrors_setKind (hp : p ∈ l.panels) : (l.setKind p (.mirror m)).1.Mirrors m := by
  refine ⟨p, ?_⟩
  rw [(l.changed_setKind p _).kinds, if_pos rfl]
  cases hkind : l.kindOf p with
  | none => exact absurd hp (kindOf_eq_none.mp hkind)
  | some kind => rfl

/-- Where every record's panel stands somewhere, a load drops none. -/
theorem Mirrors.pruneOrphans (h : l.Mirrors m) (hheld : l.Held) : l.pruneOrphans.1.Mirrors m := by
  obtain ⟨q, hq⟩ := h
  obtain ⟨record, hrecord, hkind⟩ := kindOf_eq_some.mp hq
  have hq : q ∈ l.panels := Std.ExtTreeMap.mem_iff_isSome_getElem?.mpr (by rw [hrecord]; rfl)
  refine ⟨q, kindOf_eq_some.mpr ⟨record, getElem?_pruneOrphans.mpr ⟨hrecord, ?_⟩, hkind⟩⟩
  rcases List.mem_append.mp (hheld q hq) with htree | haway
  · exact List.mem_append_left _ htree
  · exact List.mem_append_right _
      (List.mem_filter.mpr ⟨haway, Std.ExtTreeMap.contains_iff_mem.mpr hq⟩)

theorem subset_away_pruneOrphans (l : Layout) : ∀ q ∈ l.pruneOrphans.1.away, q ∈ l.away :=
  fun _ hq => List.mem_of_mem_filter hq

/-- With nothing away, a mirror stands in a tab. -/
theorem Inv.exists_mirror (h : l.Inv) (haway : l.away = []) (hmirrors : l.Mirrors m) :
    ∃ q ∈ treePanels l.tabs, l.kindOf q = some (.mirror m) := by
  obtain ⟨q, hq⟩ := hmirrors
  obtain ⟨record, hrecord, -⟩ := kindOf_eq_some.mp hq
  have hplace : q ∈ l.places :=
    h.held q (Std.ExtTreeMap.mem_iff_isSome_getElem?.mpr (by rw [hrecord]; rfl))
  rw [places, haway, List.append_nil] at hplace
  exact ⟨q, hplace, hq⟩

/-! ## Coming back -/

/-- The tabs there are, and those that panels coming back may need, can be numbered. -/
def Roomy (l : Layout) : Prop := l.tabs.length + l.away.length < u64Max

instance (l : Layout) : Decidable l.Roomy := inferInstanceAs (Decidable (_ < _))

theorem Roomy.of_le (h : l.Roomy)
    (hle : l'.tabs.length + l'.away.length ≤ l.tabs.length + l.away.length) : l'.Roomy :=
  Nat.lt_of_le_of_lt hle h

theorem Roomy.pruneOrphans (h : l.Roomy) : l.pruneOrphans.1.Roomy :=
  h.of_le (Nat.add_le_add_left (List.length_filter_le _ _) _)

theorem length_tabs_detach (l : Layout) (p : PanelId) :
    (l.detach p).1.tabs.length ≤ l.tabs.length := by
  rcases detach_cases l p with ⟨hs, -⟩ | ⟨as, t, bs, htabs, -, ⟨-, hs⟩ | ⟨t', -, hs⟩⟩
  · rw [hs]
  · rw [hs, htabs, List.length_append, List.length_append, List.length_cons]
    omega
  · rw [hs, htabs, List.length_append, List.length_append, List.length_cons, List.length_cons]

theorem Roomy.removePanel (h : l.Roomy) (p : PanelId) : (l.removePanel p).1.Roomy := by
  obtain ⟨-, haway⟩ := l.detach_frame p
  have htabs := l.length_tabs_detach p
  refine h.of_le ?_
  rw [Layout.removePanel]
  dsimp only
  split_ifs
  · rw [haway]
    exact Nat.add_le_add_right htabs _
  · rw [haway]
    exact Nat.add_le_add htabs (List.length_filter_le _ _)

theorem length_tabs_place {anchor : Option PanelId} {placement : Placement} {tab : TabId}
    (hs : l.place p anchor placement tab = some l') : l'.tabs.length ≤ l.tabs.length + 1 := by
  rcases place_cases hs with hpush | ⟨as, t, bs, a, htabs, -, -, rfl⟩
  · obtain ⟨title, rfl⟩ := pushTab_eq hpush
    rw [List.length_append, List.length_singleton]
  · rw [htabs, List.length_append, List.length_append, List.length_cons, List.length_cons]
    exact Nat.le_succ _

/-- A panel has a place, if a new tab could be numbered. -/
theorem exists_place {anchor : Option PanelId} {placement : Placement} {tab : TabId}
    (hroom : l.tabs.length < u64Max) : ∃ l', l.place p anchor placement tab = some l' := by
  rw [place]
  split
  · have htitle : (nextNumbered "Tab" (l.tabs.map Tab.title)).isSome = true :=
      nextNumbered_isSome (by rwa [List.length_map])
    obtain ⟨title, htitle⟩ := Option.isSome_iff_exists.mp htitle
    exact ⟨_, Option.map_eq_some_iff.mpr ⟨title, htitle, rfl⟩⟩
  · next a ha =>
      obtain ⟨id, hid⟩ := Option.isSome_iff_exists.mp (Option.filter_eq_some_iff.mp ha).2
      exact ⟨_, Option.map_eq_some_iff.mpr ⟨id, hid, rfl⟩⟩

/-- A panel that is brought back is away no longer, and there is room as before. -/
theorem Roomy.bringBack (h : l.Roomy) (hnodup : l.away.Nodup) (p : PanelId) (tab : TabId) :
    ∃ result, l.bringBack p tab = some result ∧ result.1.Roomy ∧ p ∉ result.1.away := by
  rw [Layout.bringBack]
  cases hindex : l.away.idxOf? p with
  | none => exact ⟨(l, false), rfl, h, List.idxOf?_eq_none_iff.mp hindex⟩
  | some index =>
      have hi : l.away.idxOf p = index := by
        rw [List.idxOf_eq_getD_idxOf?, hindex, Option.getD_some]
      have hmem : p ∈ l.away := List.isSome_idxOf?.mp (by rw [hindex]; rfl)
      have hlength := List.length_erase_add_one hmem
      obtain ⟨back, hback⟩ := @exists_place { l with away := l.away.eraseIdx index } p none .stack
        tab (Nat.lt_of_le_of_lt (Nat.le_add_right _ _) h)
      have htabs := length_tabs_place hback
      have haway := (place_frame hback).2
      dsimp only at htabs haway
      rw [← hi, List.eraseIdx_idxOf_eq_erase] at haway
      refine ⟨(back, true), Option.map_eq_some_iff.mpr ⟨back, hback, rfl⟩, h.of_le ?_, ?_⟩
      · dsimp only
        rw [haway]
        omega
      · dsimp only
        rw [haway]
        exact hnodup.not_mem_erase

theorem roomy_newDefault {project : ProjectId} {tab : TabId}
    (hs : newDefault project p tab = some l) : l.Roomy := by
  rw [newDefault, addTab, Option.bind_eq_some_iff] at hs
  obtain ⟨l₁, hnew, hpush⟩ := hs
  obtain ⟨title, -, rfl⟩ := newPanel_eq hnew
  obtain ⟨title, rfl⟩ := pushTab_eq hpush
  have hone : 1 + 0 < u64Max := by decide
  exact hone

end Layout

end Throng
