import Throng.App.Closing
import Throng.Core.LayoutRecords
import Throng.Lib.Sweep
import Throng.Lib.Views

/-!
# What a close keeps

Editors are views of documents, found by where they are. A panel that is closed is one
view closed, whatever else the close takes along: mirrors are not editors, and a
sub-workspace that goes has none left. So a tab's panels, which are closed one after the
other without asking again, lose what only they show.
-/

namespace Throng

namespace Layout

variable {out : Outside} {l l' : Layout} {p q : PanelId}

/-- What an app's layouts have, beside the invariant of layouts: a record's id is its key,
and the ids drawn for tabs of panels that are away are new ones. -/
structure Regular (out : Outside) (l : Layout) : Prop where
  inv : l.Inv
  ids : ∀ (p : PanelId) (record : Panel), l.panels[p]? = some record → record.id = p
  fresh : ∀ p ∈ l.away, ∀ t ∈ l.tabs, t.id ≠ out.tabId p

theorem Inv.not_recorded (h : l.Inv) (htree : p ∉ treePanels l.tabs) (haway : p ∉ l.away) :
    p ∉ l.panels := by
  intro hp
  have hplace : p ∈ treePanels l.tabs ++ l.away := h.held p hp
  rw [List.mem_append] at hplace
  exact hplace.elim htree haway

theorem Inv.detach_snd (h : l.Inv) (p : PanelId) :
    (l.detach p).2 = true ∨ p ∉ treePanels l.tabs := by
  rcases detach_cases l p with ⟨-, htree⟩ | ⟨as, t, bs, -, -, ⟨-, hs⟩ | ⟨t', -, hs⟩⟩
  · exact .inr (htree h.arranged.distinct)
  · exact .inl (by rw [hs])
  · exact .inl (by rw [hs])

/-- Removing a panel takes its record, and no other. -/
theorem Inv.getElem?_removePanel (h : l.Inv) (p q : PanelId) :
    (l.removePanel p).1.panels[q]? = if q = p then none else l.panels[q]? := by
  obtain ⟨hpanels, haway⟩ := l.detach_frame p
  rw [Layout.removePanel]
  dsimp only
  split
  · next hnone =>
      rw [haway, Bool.and_eq_true, Bool.not_eq_true', Bool.not_eq_true'] at hnone
      have htree : p ∉ treePanels l.tabs := by
        rcases h.detach_snd p with hfound | htree
        · rw [hnone.1] at hfound
          cases hfound
        · exact htree
      have hrecord : p ∉ l.panels :=
        h.not_recorded htree (by simpa using hnone.2)
      rw [hpanels]
      split_ifs with hq
      · rw [hq, Std.ExtTreeMap.getElem?_eq_none hrecord]
      · rfl
  · rw [hpanels, Std.ExtTreeMap.getElem?_erase]
    by_cases hq : q = p
    · simp [hq]
    · have hp : p ≠ q := Ne.symm hq
      simp [hq, hp]

theorem exists_of_mem_detach {t : Tab} (ht : t ∈ (l.detach p).1.tabs) :
    ∃ u ∈ l.tabs, u.id = t.id := by
  rcases detach_cases l p with ⟨hs, -⟩ | ⟨as, u, bs, htabs, -, ⟨-, hs⟩ | ⟨u', hshrunk, hs⟩⟩
  · rw [hs] at ht
    exact ⟨t, ht, rfl⟩
  · rw [hs] at ht
    refine ⟨t, ?_, rfl⟩
    rw [htabs]
    rcases List.mem_append.mp ht with hin | hin
    · exact List.mem_append_left _ hin
    · exact List.mem_append_right _ (.tail _ hin)
  · rw [hs] at ht
    rw [htabs]
    rcases List.mem_append.mp ht with hin | hin
    · exact ⟨t, List.mem_append_left _ hin, rfl⟩
    · rcases List.mem_cons.mp hin with rfl | hin
      · exact ⟨u, by simp, hshrunk.id.symm⟩
      · exact ⟨t, List.mem_append_right _ (.tail _ hin), rfl⟩

theorem exists_of_mem_removePanel {t : Tab} (ht : t ∈ (l.removePanel p).1.tabs) :
    ∃ u ∈ l.tabs, u.id = t.id := by
  rw [Layout.removePanel] at ht
  dsimp only at ht
  split at ht <;> exact exists_of_mem_detach ht

theorem Regular.removePanel (h : l.Regular out) (p : PanelId) :
    (l.removePanel p).1.Regular out := by
  refine ⟨h.inv.removePanel p, ?_, ?_⟩
  · intro q record hq
    rw [h.inv.getElem?_removePanel] at hq
    split at hq
    · cases hq
    · exact h.ids q record hq
  · intro q hq t ht
    obtain ⟨u, hu, hid⟩ := exists_of_mem_removePanel ht
    rw [← hid]
    exact h.fresh q (mem_away_removePanel_iff.mp hq).1 u hu

/-- Nothing stands in a layout without tabs that has nothing away. -/
theorem Inv.not_mem_of_nil (h : l.Inv) (htabs : l.tabs = []) (haway : l.away = [])
    (p : PanelId) : p ∉ l.panels := by
  refine h.not_recorded ?_ ?_
  · rw [htabs]
    exact List.not_mem_nil
  · rw [haway]
    exact List.not_mem_nil

theorem bringBack_of_not_away {tab : TabId} (h : p ∉ l.away) :
    l.bringBack p tab = some (l, false) := by
  rw [Layout.bringBack, List.idxOf?_eq_none_iff.mpr h]

theorem exists_of_mem_place {tab : TabId} {anchor : Option PanelId} {placement : Placement}
    (hs : l.place p anchor placement tab = some l') {t : Tab} (ht : t ∈ l'.tabs) :
    t.id = tab ∨ ∃ u ∈ l.tabs, u.id = t.id := by
  rcases place_cases hs with hpush | ⟨as, u, bs, a, htabs, -, -, rfl⟩
  · obtain ⟨title, rfl⟩ := pushTab_eq hpush
    rcases List.mem_append.mp ht with hin | hin
    · exact .inr ⟨t, hin, rfl⟩
    · rw [List.mem_singleton.mp hin]
      exact .inl rfl
  · right
    rw [htabs]
    rcases List.mem_append.mp ht with hin | hin
    · exact ⟨t, List.mem_append_left _ hin, rfl⟩
    · rcases List.mem_cons.mp hin with rfl | hin
      · exact ⟨u, by simp, rfl⟩
      · exact ⟨t, List.mem_append_right _ (.tail _ hin), rfl⟩

/-- A panel that comes back leaves the records as they are. -/
theorem Regular.bringBack (h : l.Regular out) (hinj : Function.Injective out.tabId)
    {result : Layout × Bool} (hs : l.bringBack p (out.tabId p) = some result) :
    result.1.Regular out ∧ result.1.panels = l.panels ∧ ∀ q ∈ result.1.away, q ∈ l.away := by
  by_cases hp : p ∈ l.away
  · have hinv := h.inv.bringBack (h.fresh p hp) hs
    have hplaced := h.inv.loadable.placed
    rw [Layout.bringBack] at hs
    obtain ⟨index, hindex⟩ : ∃ index, l.away.idxOf? p = some index :=
      Option.isSome_iff_exists.mp (List.isSome_idxOf?.mpr hp)
    rw [hindex] at hs
    obtain ⟨back, hplace, rfl⟩ := Option.map_eq_some_iff.mp hs
    obtain ⟨hpanels, haway⟩ := place_frame hplace
    have hi : l.away.idxOf p = index := by
      rw [List.idxOf_eq_getD_idxOf?, hindex, Option.getD_some]
    have hback : ∀ q ∈ back.away, q ≠ p ∧ q ∈ l.away := by
      intro q hq
      rw [haway] at hq
      dsimp only at hq
      rw [← hi, List.eraseIdx_idxOf_eq_erase] at hq
      exact (List.Nodup.mem_erase_iff hplaced.of_append_right).mp hq
    refine ⟨⟨hinv, ?_, ?_⟩, hpanels, fun q hq => (hback q hq).2⟩
    · intro q record hq
      rw [hpanels] at hq
      exact h.ids q record hq
    · intro q hq t ht
      rcases exists_of_mem_place hplace ht with hid | ⟨u, hu, hid⟩
      · rw [hid]
        exact fun heq => (hback q hq).1 (hinj heq).symm
      · rw [← hid]
        exact h.fresh q (hback q hq).2 u hu
  · rw [bringBack_of_not_away hp] at hs
    cases hs
    exact ⟨h, rfl, fun _ hq => hq⟩

end Layout

namespace AppState

variable {out : Outside} {app app' : AppState} {id : ProjectId} {p q : PanelId}

/-- What holds of the app whenever the user closes something: its layouts are regular, the
sub-workspaces are loaded, being so since the launch or since they were made, and only a
project's panels are ever away. -/
structure Regular (out : Outside) (app : AppState) : Prop where
  layouts : ∀ (id : ProjectId) (l : Layout), app.workspaces[id]? = some l → l.Regular out
  subs : ∀ id ∈ app.subs.map SubWorkspace.id, id ∈ app.workspaces ∧ id ∉ app.projects
  distinct : (app.subs.map SubWorkspace.id).Nodup
  home : ∀ (id : ProjectId) (l : Layout), app.workspaces[id]? = some l → id ∉ app.projects →
    l.away = []

/-- Nothing is left to load for `id`: its workspace is there, or there is no such owner. -/
def Loaded (app : AppState) (id : ProjectId) : Prop :=
  id ∈ app.workspaces ∨ id ∉ app.projects ∧ id ∉ app.subs.map SubWorkspace.id

/-- The projects that mirrors among `closing` come from are loaded. A mirror is closed in its
sub-workspace's window, which resolves its mirrors each time it is drawn. -/
def Resolved (app : AppState) (id : ProjectId) (closing : List PanelId) : Prop :=
  ∀ p ∈ closing, ∀ (record : Panel) (m : MirrorPanelConfig),
    app.record id p = some record → record.kind = .mirror m → app.Loaded m.project

/-- No panel is new, and what was loaded is not to be loaded again. -/
structure Fewer (app app' : AppState) : Prop where
  records : ∀ (id : ProjectId) (p : PanelId) (record : Panel),
    app'.record id p = some record → app.record id p = some record
  loaded : ∀ id, app.Loaded id → app'.Loaded id

theorem Fewer.refl (app : AppState) : Fewer app app :=
  ⟨fun _ _ _ hr => hr, fun _ hid => hid⟩

theorem Fewer.trans {app'' : AppState} (h : Fewer app app') (h' : Fewer app' app'') :
    Fewer app app'' where
  records id p record hr := h.records id p record (h'.records id p record hr)
  loaded id hid := h'.loaded id (h.loaded id hid)

theorem Resolved.fewer {closing : List PanelId} (h : app.Resolved id closing)
    (hfewer : Fewer app app') : app'.Resolved id closing :=
  fun p hp record m hr hm => hfewer.loaded _ (h p hp record m (hfewer.records id p record hr) hm)

/-- The editors of two states are the same, with the documents they show. -/
structure SameEditors (out : Outside) (app app' : AppState) : Prop where
  fewer : Fewer app app'
  projects : app'.projects = app.projects
  docs : app'.docs = app.docs
  recovered : app'.recovered = app.recovered
  editor : ∀ (id : ProjectId) (p : PanelId), app'.editorKey out id p = app.editorKey out id p

theorem SameEditors.refl (app : AppState) : SameEditors out app app :=
  ⟨.refl app, rfl, rfl, rfl, fun _ _ => rfl⟩

theorem SameEditors.trans {app'' : AppState} (h : SameEditors out app app')
    (h' : SameEditors out app' app'') : SameEditors out app app'' where
  fewer := h.fewer.trans h'.fewer
  projects := h'.projects.trans h.projects
  docs := h'.docs.trans h.docs
  recovered := h'.recovered.trans h.recovered
  editor id p := (h'.editor id p).trans (h.editor id p)

theorem record_eq_some {record : Panel} :
    app.record id p = some record ↔
      ∃ l, app.workspaces[id]? = some l ∧ l.panels[p]? = some record := by
  rw [AppState.record, Option.bind_eq_some_iff]

/-! ## Loading changes nothing -/

theorem loadWorkspace_of_mem (h : id ∈ app.workspaces) : app.loadWorkspace out id = app := by
  rw [loadWorkspace, App.loadWorkspace, if_pos (Std.ExtTreeMap.contains_iff_mem.mpr h)]

theorem loadWorkspace_of_unknown
    (h : id ∉ app.projects ∧ id ∉ app.subs.map SubWorkspace.id) :
    app.loadWorkspace out id = app := by
  rw [loadWorkspace, App.loadWorkspace]
  split_ifs <;> rfl

theorem loadWorkspace_of_loaded (h : app.Loaded id) : app.loadWorkspace out id = app :=
  h.elim loadWorkspace_of_mem loadWorkspace_of_unknown

theorem Regular.load (h : app.Regular out) (hid : id ∉ app.projects) :
    app.loadWorkspace out id = app := by
  by_cases hsub : id ∈ app.subs.map SubWorkspace.id
  · exact loadWorkspace_of_mem (h.subs id hsub).1
  · exact loadWorkspace_of_unknown ⟨hid, hsub⟩

/-! ## One layout changes -/

/-- A regular layout with nothing new away may replace one. -/
theorem Regular.put (h : app.Regular out) {l l' : Layout} (hl : app.workspaces[id]? = some l)
    (hl' : l'.Regular out)
    (haway : ∀ q ∈ l'.away, q ∈ l.away) :
    Regular out { app with workspaces := app.workspaces.insert id l' } := by
  have hget : ∀ (other : ProjectId) (k : Layout),
      (app.workspaces.insert id l')[other]? = some k →
        other = id ∧ k = l' ∨ app.workspaces[other]? = some k := by
    intro other k hk
    rw [Std.ExtTreeMap.getElem?_insert] at hk
    split at hk
    · next heq =>
        rw [Std.LawfulEqCmp.compare_eq_iff_eq] at heq
        exact .inl ⟨heq.symm, (Option.some.inj hk).symm⟩
    · exact .inr hk
  constructor
  · intro other k hk
    rcases hget other k hk with ⟨-, rfl⟩ | hk
    · exact hl'
    · exact h.layouts other k hk
  · intro other hother
    exact ⟨Std.ExtTreeMap.mem_insert.mpr (.inr (h.subs other hother).1),
      (h.subs other hother).2⟩
  · exact h.distinct
  · intro other k hk hother
    rcases hget other k hk with ⟨rfl, rfl⟩ | hk
    · have hnil := h.home _ l hl hother
      refine List.eq_nil_iff_forall_not_mem.mpr fun q hq => ?_
      have hold := haway q hq
      rw [hnil] at hold
      cases hold
    · exact h.home other k hk hother

theorem modify_eq_insert {l : Layout} (hl : app.workspaces[id]? = some l) (f : Layout → Layout) :
    app.workspaces.modify id f = app.workspaces.insert id (f l) := by
  refine Std.ExtTreeMap.ext_getElem? fun other => ?_
  rw [Std.ExtTreeMap.getElem?_modify, Std.ExtTreeMap.getElem?_insert]
  split
  · rw [hl]
    rfl
  · rfl

theorem modify_of_none (hl : app.workspaces[id]? = none) (f : Layout → Layout) :
    app.workspaces.modify id f = app.workspaces := by
  refine Std.ExtTreeMap.ext_getElem? fun other => ?_
  rw [Std.ExtTreeMap.getElem?_modify]
  split
  · next heq =>
      rw [Std.LawfulEqCmp.compare_eq_iff_eq] at heq
      rw [← heq, hl]
      rfl
  · rfl

/-- The record of a panel once one layout is replaced. -/
theorem record_put (app : AppState) (id : ProjectId) (l : Layout) (other : ProjectId)
    (q : PanelId) :
    record { app with workspaces := app.workspaces.insert id l } other q =
      if other = id then l.panels[q]? else app.record other q := by
  rw [record]
  dsimp only
  by_cases h : other = id
  · subst h
    rw [Std.ExtTreeMap.getElem?_insert_self, if_pos rfl]
    rfl
  · have hne : compare id other ≠ .eq := by
      rw [Ne, Std.LawfulEqCmp.compare_eq_iff_eq]
      exact Ne.symm h
    rw [Std.ExtTreeMap.getElem?_insert, if_neg hne, if_neg h]
    rfl

/-- A layout with some of the records replaces one. -/
theorem Fewer.put {l l' : Layout} (hl : app.workspaces[id]? = some l)
    (hrecords : ∀ (q : PanelId) (r : Panel), l'.panels[q]? = some r → l.panels[q]? = some r) :
    Fewer app { app with workspaces := app.workspaces.insert id l' } where
  records other q r hr := by
    rw [record_put] at hr
    split_ifs at hr with hother
    · rw [hother, record, hl]
      exact hrecords q r hr
    · exact hr
  loaded other hother := hother.imp_left fun hmem => Std.ExtTreeMap.mem_insert.mpr (.inr hmem)

/-- A layout whose records differ in no editor may replace one unseen. -/
theorem SameEditors.put {l l' : Layout} (hl : app.workspaces[id]? = some l)
    (hrecords : ∀ (q : PanelId), l'.panels[q]? = l.panels[q]? ∨
      l'.panels[q]? = none ∧ app.editorKey out id q = none) :
    SameEditors out app { app with workspaces := app.workspaces.insert id l' } := by
  refine ⟨.put hl fun q r hr => ?_, rfl, rfl, rfl, fun other q => ?_⟩
  · rcases hrecords q with hq | ⟨hq, -⟩
    · exact hq ▸ hr
    · rw [hq] at hr
      cases hr
  rw [editorKey, record_put]
  split_ifs with h
  · subst h
    rcases hrecords q with hq | ⟨hq, hkey⟩
    · rw [hq, editorKey, record, hl]
      rfl
    · rw [hq, hkey]
      rfl
  · rfl

/-! ## What goes along with a panel -/

theorem Regular.returnHome (h : app.Regular out) (hinj : Function.Injective out.tabId)
    {project : ProjectId} (hproject : app.Loaded project) (p : PanelId) :
    (app.returnHome out project p).Regular out ∧
      SameEditors out app (app.returnHome out project p) := by
  rw [AppState.returnHome, loadWorkspace_of_loaded hproject]
  cases hl : app.workspaces[project]? with
  | none =>
      rw [modify_of_none hl]
      exact ⟨h, .refl app⟩
  | some l =>
      rw [modify_eq_insert hl]
      cases hback : l.bringBack p (out.tabId p) with
      | none =>
          exact ⟨h.put hl (h.layouts project l hl) (fun _ => id), .put hl fun q => .inl rfl⟩
      | some back =>
          obtain ⟨hregular, hpanels, haway⟩ := (h.layouts project l hl).bringBack hinj hback
          exact ⟨h.put hl hregular haway, .put hl fun q => .inl (by rw [hpanels])⟩

theorem map_eraseP_subs (subs : List SubWorkspace) (id : ProjectId) :
    (subs.eraseP fun sub => sub.id = id).map SubWorkspace.id =
      (subs.map SubWorkspace.id).erase id := by
  induction subs with
  | nil => rfl
  | cons sub subs ih =>
      by_cases h : sub.id = id
      · simp [h]
      · simp [h, List.erase_cons_tail, ih]

/-- A sub-workspace left with no tab has no panels: it just goes. -/
theorem Regular.removeSub (h : app.Regular out) (hid : id ∉ app.projects) {l : Layout}
    (hl : app.workspaces[id]? = some l) (htabs : l.tabs = []) :
    (app.removeSub out id).Regular out ∧ SameEditors out app (app.removeSub out id) := by
  have hempty : ∀ q : PanelId, q ∉ l.panels :=
    (h.layouts id l hl).inv.not_mem_of_nil htabs (h.home id l hl hid)
  have hnil : l.panels.toList = [] := by
    refine List.eq_nil_iff_forall_not_mem.mpr fun entry hentry => ?_
    obtain ⟨q, r⟩ := entry
    have hq := Std.ExtTreeMap.mem_toList_iff_getElem?_eq_some.mp hentry
    rw [Std.ExtTreeMap.getElem?_eq_none (hempty q)] at hq
    cases hq
  have hrecord : ∀ q, app.record id q = none := by
    intro q
    rw [record, hl, Option.bind_some, Std.ExtTreeMap.getElem?_eq_none (hempty q)]
  have hremoved : app.removeSub out id =
      { app with
        workspaces := app.workspaces.erase id
        subs := app.subs.eraseP fun sub => sub.id = id } := by
    rw [AppState.removeSub, h.load hid]
    simp only [hl, hnil]
    rfl
  have hget : ∀ other q, record { app with
      workspaces := app.workspaces.erase id
      subs := app.subs.eraseP fun sub => sub.id = id } other q = app.record other q := by
    intro other q
    by_cases hother : other = id
    · subst hother
      rw [hrecord, record]
      simp
    · have hne : id ≠ other := Ne.symm hother
      simp [record, Std.ExtTreeMap.getElem?_erase, hne]
  rw [hremoved]
  refine ⟨⟨?_, ?_, ?_, ?_⟩, ⟨fun other q r hr => ?_, fun other hother => ?_⟩, rfl, rfl, rfl,
    fun other q => ?_⟩
  · intro other k hk
    rw [Std.ExtTreeMap.getElem?_erase] at hk
    split at hk
    · cases hk
    · exact h.layouts other k hk
  · intro other hother
    dsimp only at hother
    rw [map_eraseP_subs, h.distinct.mem_erase_iff] at hother
    refine ⟨?_, (h.subs other hother.2).2⟩
    rw [Std.ExtTreeMap.mem_erase, Ne, Std.LawfulEqCmp.compare_eq_iff_eq]
    exact ⟨Ne.symm hother.1, (h.subs other hother.2).1⟩
  · dsimp only
    rw [map_eraseP_subs]
    exact h.distinct.erase id
  · intro other k hk hother
    rw [Std.ExtTreeMap.getElem?_erase] at hk
    split at hk
    · cases hk
    · exact h.home other k hk hother
  · rwa [hget] at hr
  · rw [Loaded]
    dsimp only
    rw [map_eraseP_subs, h.distinct.mem_erase_iff, Std.ExtTreeMap.mem_erase, Ne,
      Std.LawfulEqCmp.compare_eq_iff_eq]
    by_cases heq : other = id
    · right
      rw [heq]
      exact ⟨hid, fun hin => hin.1 rfl⟩
    · rcases hother with hmem | ⟨hproject, hsub⟩
      · exact .inl ⟨Ne.symm heq, hmem⟩
      · exact .inr ⟨hproject, fun hin => hsub hin.2⟩
  · rw [editorKey, hget]
    rfl

/-- Removing panels one after the other takes their records. -/
theorem removePanels_spec {l : Layout} (h : l.Regular out) (removed : List PanelId) :
    (removed.foldl (fun l p => (l.removePanel p).1) l).Regular out ∧
      (∀ q ∈ (removed.foldl (fun l p => (l.removePanel p).1) l).away, q ∈ l.away) ∧
        ∀ q : PanelId, (removed.foldl (fun l p => (l.removePanel p).1) l).panels[q]? =
          if q ∈ removed then none else l.panels[q]? := by
  induction removed generalizing l with
  | nil => exact ⟨h, fun _ => id, fun q => by simp⟩
  | cons p removed ih =>
      obtain ⟨hregular, haway, hpanels⟩ := ih (h.removePanel p)
      refine ⟨hregular, fun q hq => ?_, fun q => ?_⟩
      · exact (Layout.mem_away_removePanel_iff.mp (haway q hq)).1
      · rw [List.foldl_cons, hpanels, h.inv.getElem?_removePanel]
        by_cases hq : q = p <;> simp [hq]

theorem mem_mirrorsOf {l : Layout} (h : l.Regular out) {project : ProjectId}
    {panel : Option PanelId} (hq : q ∈ l.mirrorsOf project panel) :
    ∃ record m, l.panels[q]? = some record ∧ record.kind = .mirror m := by
  rw [Layout.mirrorsOf, List.mem_filterMap] at hq
  obtain ⟨⟨p, record⟩, hmem, hq⟩ := hq
  have hrecord := Std.ExtTreeMap.mem_toList_iff_getElem?_eq_some.mp hmem
  dsimp only at hq
  split at hq
  · next m hm =>
      rw [Option.ite_none_right_eq_some] at hq
      obtain ⟨-, hid⟩ := hq
      have hp : record.id = p := h.ids p record hrecord
      rw [Option.some.inj hid] at hp
      exact ⟨record, m, hp ▸ hrecord, hm⟩
  · cases hq

theorem Regular.dropMirrorsIn (h : app.Regular out) (project : ProjectId)
    (panel : Option PanelId) (hid : id ∉ app.projects) :
    (app.dropMirrorsIn out project panel id).Regular out ∧
      SameEditors out app (app.dropMirrorsIn out project panel id) := by
  rw [AppState.dropMirrorsIn, h.load hid]
  cases hl : app.workspaces[id]? with
  | none => exact ⟨h, .refl app⟩
  | some l =>
      have hlayout := h.layouts id l hl
      have hspec := removePanels_spec hlayout (l.mirrorsOf project panel)
      dsimp only
      generalize (l.mirrorsOf project panel).foldl (fun l p => (l.removePanel p).1) l = left
        at hspec ⊢
      obtain ⟨hregular, haway, hpanels⟩ := hspec
      have hput : Regular out { app with workspaces := app.workspaces.insert id left } :=
        h.put hl hregular haway
      have hsame : SameEditors out app
          { app with workspaces := app.workspaces.insert id left } := by
        refine .put hl fun q => ?_
        rw [hpanels]
        split_ifs with hq
        · right
          obtain ⟨record, m, hrecord, hm⟩ := mem_mirrorsOf hlayout hq
          refine ⟨rfl, ?_⟩
          rw [editorKey, record_eq_some.mpr ⟨l, hl, hrecord⟩, Option.bind_some, hm]
        · exact .inl rfl
      split_ifs with hmirrors htabs
      · exact ⟨h, .refl app⟩
      · obtain ⟨hremoved, hsame'⟩ := hput.removeSub hid Std.ExtTreeMap.getElem?_insert_self
          (List.isEmpty_iff.mp htabs)
        exact ⟨hremoved, hsame.trans hsame'⟩
      · exact ⟨hput, hsame⟩

theorem Regular.dropMirrors (h : app.Regular out) (project : ProjectId)
    (panel : Option PanelId) :
    (app.dropMirrors out project panel).Regular out ∧
      SameEditors out app (app.dropMirrors out project panel) := by
  refine List.foldl_keeps (P := fun app' : AppState => app'.Regular out ∧ SameEditors out app app')
    ?_ ⟨h, .refl app⟩
  rintro app' id hid ⟨h', hsame⟩
  have hproject : id ∉ app'.projects := by
    rw [hsame.projects]
    exact (h.subs id hid).2
  obtain ⟨hdropped, hsame'⟩ := h'.dropMirrorsIn project panel hproject
  exact ⟨hdropped, hsame.trans hsame'⟩

theorem Regular.withoutPanel (h : app.Regular out) (id : ProjectId) (p : PanelId) :
    (app.withoutPanel id p).Regular out ∧ Fewer app (app.withoutPanel id p) ∧
      ∀ other q, (app.withoutPanel id p).editorKey out other q =
        if (other, q) = (id, p) then none else app.editorKey out other q := by
  rw [AppState.withoutPanel]
  cases hl : app.workspaces[id]? with
  | none =>
      rw [modify_of_none hl]
      refine ⟨h, .refl app, fun other q => ?_⟩
      split_ifs with heq
      · cases heq
        rw [editorKey, record, hl]
        rfl
      · rfl
  | some l =>
      have hlayout := h.layouts id l hl
      have hpanels := hlayout.inv.getElem?_removePanel p
      rw [modify_eq_insert hl]
      refine ⟨h.put hl (hlayout.removePanel p)
        (fun q hq => (Layout.mem_away_removePanel_iff.mp hq).1), .put hl fun q r hq => ?_,
        fun other q => ?_⟩
      · rw [hpanels] at hq
        split at hq
        · cases hq
        · exact hq
      · rw [editorKey, record_put, hpanels]
        by_cases hother : other = id
        · subst hother
          by_cases hq : q = p
          · subst hq
            rw [if_pos rfl, if_pos rfl, if_pos rfl]
            rfl
          · rw [if_pos rfl, if_neg hq, if_neg (fun heq => hq (congrArg Prod.snd heq)), editorKey,
              record, hl]
            rfl
        · rw [if_neg hother, if_neg (fun heq => hother (congrArg Prod.fst heq)), editorKey]

/-- A panel taken from its layout takes no other editor along. -/
theorem Regular.takePanel (h : app.Regular out) (id : ProjectId) (p : PanelId) :
    (app.takePanel out id p).Regular out ∧ Fewer app (app.takePanel out id p) ∧
      (app.takePanel out id p).docs = app.docs ∧
      (app.takePanel out id p).recovered = app.recovered ∧
        ∀ other q, (app.takePanel out id p).editorKey out other q =
          if (other, q) = (id, p) then none else app.editorKey out other q := by
  obtain ⟨hleft, hfewer, hkeys⟩ := h.withoutPanel id p
  have hfollow : ∀ after : AppState,
      after.Regular out ∧ SameEditors out (app.withoutPanel id p) after →
        after.Regular out ∧ Fewer app after ∧ after.docs = app.docs ∧
          after.recovered = app.recovered ∧ ∀ other q, after.editorKey out other q =
            if (other, q) = (id, p) then none else app.editorKey out other q := by
    rintro after ⟨hafter, hsame⟩
    refine ⟨hafter, hfewer.trans hsame.fewer, hsame.docs, hsame.recovered, fun other q => ?_⟩
    rw [hsame.editor, hkeys]
  refine hfollow _ ?_
  rw [AppState.takePanel]
  split_ifs with hsub htabs
  · rw [Option.any_eq_true] at htabs
    obtain ⟨l, hl, htabs⟩ := htabs
    exact hleft.removeSub (hleft.subs id (List.contains_iff_mem.mp hsub)).2 hl
      (List.isEmpty_iff.mp htabs)
  · exact ⟨hleft, .refl _⟩
  · exact hleft.dropMirrors id (some p)

/-! ## Counting editors -/

theorem mem_panels {record : Panel} :
    ((id, p), record) ∈ app.panels ↔ app.record id p = some record := by
  rw [AppState.panels, List.mem_flatMap, record_eq_some]
  constructor
  · rintro ⟨⟨other, l⟩, hl, hmem⟩
    obtain ⟨⟨q, r⟩, hr, heq⟩ := List.mem_map.mp hmem
    cases heq
    exact ⟨l, Std.ExtTreeMap.mem_toList_iff_getElem?_eq_some.mp hl,
      Std.ExtTreeMap.mem_toList_iff_getElem?_eq_some.mp hr⟩
  · rintro ⟨l, hl, hr⟩
    refine ⟨(id, l), Std.ExtTreeMap.mem_toList_iff_getElem?_eq_some.mpr hl, ?_⟩
    exact List.mem_map.mpr ⟨(p, record), Std.ExtTreeMap.mem_toList_iff_getElem?_eq_some.mpr hr, rfl⟩

theorem nodup_panels (app : AppState) : app.panels.Nodup := by
  have hdistinct : ∀ {κ α : Type} [Ord κ] [Std.TransOrd κ] [Std.LawfulEqOrd κ]
      (m : Std.ExtTreeMap κ α), m.toList.Pairwise fun a b => a.1 ≠ b.1 := by
    intro κ α _ _ _ m
    refine List.Pairwise.imp ?_ Std.ExtTreeMap.distinct_keys_toList
    intro a b hne heq
    exact hne (Std.LawfulEqCmp.compare_eq_iff_eq.mpr heq)
  rw [AppState.panels, List.nodup_flatMap]
  constructor
  · rintro ⟨other, l⟩ -
    refine List.pairwise_map.mpr (List.Pairwise.imp ?_ (hdistinct l.panels))
    intro a b hne heq
    exact hne (congrArg (fun entry => entry.1.2) heq)
  · refine List.Pairwise.imp ?_ (hdistinct app.workspaces)
    intro a b hne entry ha hb
    obtain ⟨x, -, rfl⟩ := List.mem_map.mp ha
    obtain ⟨y, -, heq⟩ := List.mem_map.mp hb
    exact hne (congrArg (fun entry => entry.1.1) heq).symm

theorem Regular.document_eq (h : app.Regular out) {record : Panel}
    (hrecord : app.record id p = some record) :
    record.document out.keyFor = app.editorKey out id p := by
  obtain ⟨l, hl, hp⟩ := record_eq_some.mp hrecord
  rw [editorKey, hrecord, Option.bind_some, Panel.document, (h.layouts id l hl).ids p record hp]

theorem Regular.mem_showing (h : app.Regular out) {record : Panel} {key : DocKey} :
    ((id, p), record) ∈ app.panels.filter (fun entry => entry.2.document out.keyFor = some key) ↔
      app.record id p = some record ∧ app.editorKey out id p = some key := by
  rw [List.mem_filter, mem_panels, decide_eq_true_eq]
  constructor
  · rintro ⟨hrecord, hkey⟩
    exact ⟨hrecord, h.document_eq hrecord ▸ hkey⟩
  · rintro ⟨hrecord, hkey⟩
    exact ⟨hrecord, (h.document_eq hrecord).trans hkey⟩

/-- The editors as views of the open documents. -/
def views (out : Outside) (app : AppState) : Views (ProjectId × PanelId) DocKey Document where
  shown place := app.editorKey out place.1 place.2
  item key := app.docs[key]?

/-- An editor is counted as the last one of its document exactly if no other shows it. -/
theorem Regular.panelsShowing_le_one (h : app.Regular out) {key : DocKey}
    (hkey : app.editorKey out id p = some key) :
    app.panelsShowing out key ≤ 1 ↔ (app.views out).Sole (id, p) key := by
  obtain ⟨record, hrecord, -⟩ := Option.bind_eq_some_iff.mp hkey
  have hmem := h.mem_showing.mpr ⟨hrecord, hkey⟩
  rw [panelsShowing, List.countP_eq_length_filter]
  constructor
  · intro hle
    refine ⟨hkey, ?_⟩
    rintro ⟨other, q⟩ hother
    obtain ⟨record', hrecord', -⟩ := Option.bind_eq_some_iff.mp hother
    have hmem' := h.mem_showing.mpr ⟨hrecord', hother⟩
    obtain ⟨entry, hentry⟩ := List.length_eq_one_iff.mp
      (Nat.le_antisymm hle (List.length_pos_of_mem hmem))
    rw [hentry, List.mem_singleton] at hmem hmem'
    exact congrArg Prod.fst (hmem'.trans hmem.symm)
  · rintro ⟨-, hsole⟩
    have hsubset : app.panels.filter (fun entry => entry.2.document out.keyFor = some key) ⊆
        [((id, p), record)] := by
      rintro ⟨⟨other, q⟩, record'⟩ hmem'
      obtain ⟨hrecord', hother⟩ := h.mem_showing.mp hmem'
      have heq := hsole (other, q) hother
      cases heq
      rw [hrecord] at hrecord'
      cases hrecord'
      exact .head _
    exact (List.subperm_of_subset ((nodup_panels app).filter _) hsubset).length_le

/-! ## Closing a panel is closing a view -/

/-- What closing the panel `p` of `id` without a question leaves. -/
structure Closed (out : Outside) (app : AppState) (id : ProjectId) (p : PanelId)
    (app' : AppState) : Prop where
  regular : app'.Regular out
  fewer : Fewer app app'
  recovered : app'.recovered = app.recovered
  views : app'.views out = (app.views out).close (id, p)

theorem views_eq_close
    (hkeys : ∀ other q, app'.editorKey out other q =
      if (other, q) = (id, p) then none else app.editorKey out other q)
    (hlost : ∀ key, (app.views out).Sole (id, p) key → app'.docs[key]? = none)
    (hkept : ∀ key, ¬ (app.views out).Sole (id, p) key → app'.docs[key]? = app.docs[key]?) :
    app'.views out = (app.views out).close (id, p) := by
  rw [views, Views.close, Views.mk.injEq]
  constructor
  · funext place
    have hplace : app'.editorKey out place.1 place.2 =
        if place = (id, p) then none else app.editorKey out place.1 place.2 :=
      hkeys place.1 place.2
    rw [hplace]
    split_ifs <;> rfl
  · funext key
    split_ifs with hsole
    · exact hlost key hsole
    · exact hkept key hsole

/-- A panel that shows no document goes alone. -/
theorem closed_other (hkey : app.editorKey out id p = none)
    (h' : app'.Regular out) (hsame : SameEditors out app app') :
    Closed out app id p (app'.takePanel out id p) := by
  obtain ⟨hregular, hfewer, hdocs, hrecovered, hkeys⟩ := h'.takePanel id p
  refine ⟨hregular, hsame.fewer.trans hfewer, hrecovered.trans hsame.recovered,
    views_eq_close ?_ ?_ ?_⟩
  · intro other q
    rw [hkeys, hsame.editor]
  · rintro key ⟨hshown, -⟩
    have hshown' : app.editorKey out id p = some key := hshown
    rw [hkey] at hshown'
    cases hshown'
  · intro key _
    rw [hdocs, hsame.docs]

theorem Regular.setDocs (h : app.Regular out) (docs : Std.ExtTreeMap DocKey Document) :
    Regular out { app with docs := docs } :=
  ⟨h.layouts, h.subs, h.distinct, h.home⟩

theorem Regular.closed_editor (h : app.Regular out) {key : DocKey}
    (hkey : app.editorKey out id p = some key) (lastView : Bool)
    (hlast : lastView = true ↔ (app.views out).Sole (id, p) key) :
    Closed out app id p (AppState.takePanel out
      (if lastView then { app with docs := app.docs.erase key } else app) id p) := by
  have hsole : ∀ other, (app.views out).Sole (id, p) other → other = key := by
    rintro other ⟨hshown, -⟩
    have hshown' : app.editorKey out id p = some other := hshown
    rw [hkey] at hshown'
    exact (Option.some.inj hshown').symm
  cases lastView with
  | true =>
      obtain ⟨hregular, hfewer, hdocs, hrecovered, hkeys⟩ :=
        (h.setDocs (app.docs.erase key)).takePanel id p
      refine ⟨hregular, ⟨hfewer.records, hfewer.loaded⟩, hrecovered, views_eq_close hkeys ?_ ?_⟩
      · intro other hother
        rw [if_pos rfl, hdocs, hsole other hother, Std.ExtTreeMap.getElem?_erase_self]
      · intro other hother
        have hne : compare key other ≠ .eq := by
          rw [Ne, Std.LawfulEqCmp.compare_eq_iff_eq]
          rintro rfl
          exact hother (hlast.mp rfl)
        rw [if_pos rfl, hdocs, Std.ExtTreeMap.getElem?_erase, if_neg hne]
  | false =>
      obtain ⟨hregular, hfewer, hdocs, hrecovered, hkeys⟩ := h.takePanel id p
      refine ⟨hregular, hfewer, hrecovered, views_eq_close hkeys ?_ ?_⟩
      · intro other hother
        rw [hsole other hother] at hother
        cases hlast.mpr hother
      · intro other _
        rw [if_neg Bool.false_ne_true, hdocs]

/-- The user is asked about a panel that alone shows a document with unsaved text. -/
def SoleDirty (out : Outside) (app : AppState) (id : ProjectId) (p : PanelId) : Prop :=
  ∃ key, (app.views out).Sole (id, p) key ∧ app.isDirty key = true

theorem Regular.closed_panel (h : app.Regular out) (hinj : Function.Injective out.tabId)
    (id : ProjectId) (p : PanelId) (hresolved : app.Resolved id [p]) (force : Bool)
    (hforce : force = true ∨ ¬ SoleDirty out app id p) :
    (app.closePanel out id p force).2 = none ∧
      Closed out app id p (app.closePanel out id p force).1 := by
  rw [closePanel]
  cases hrecord : app.record id p with
  | none =>
      have hkey : app.editorKey out id p = none := by rw [editorKey, hrecord, Option.bind_none]
      refine ⟨rfl, h, .refl app, rfl, views_eq_close ?_ ?_ fun _ _ => rfl⟩
      · intro other q
        split_ifs with heq
        · cases heq
          exact hkey
        · rfl
      · rintro key ⟨hshown, -⟩
        have hshown' : app.editorKey out id p = some key := hshown
        rw [hkey] at hshown'
        cases hshown'
  | some record =>
      have hother : ∀ {kind : PanelKind}, record.kind = kind →
          (∀ config, kind ≠ .editor config) → app.editorKey out id p = none := by
        intro kind hkind hne
        rw [editorKey, hrecord, Option.bind_some]
        split
        · next config hconfig => exact absurd (hkind.symm.trans hconfig) (hne config)
        · rfl
      dsimp only
      split
      · next config hkind =>
          have hkey : app.editorKey out id p =
              some (Documents.panelKey out.keyFor p config.path) := by
            rw [editorKey, hrecord, Option.bind_some, hkind]
          have hlast := h.panelsShowing_le_one hkey
          rw [if_neg]
          · have hlast' := decide_eq_true_iff.trans hlast
            exact ⟨rfl, h.closed_editor hkey _ hlast'⟩
          · rw [Bool.and_eq_true, Bool.and_eq_true, decide_eq_true_eq, hlast]
            rintro ⟨⟨hdirty, hsole⟩, hasked⟩
            rcases hforce with rfl | hforce
            · cases hasked
            · exact hforce ⟨_, hsole, hdirty⟩
      · next m hkind =>
          have hkey := hother hkind fun config => by simp
          have hloaded : app.Loaded m.project :=
            hresolved p (List.mem_singleton_self p) record m hrecord hkind
          obtain ⟨hback, hsame⟩ := h.returnHome hinj hloaded m.panel
          exact ⟨rfl, closed_other hkey hback hsame⟩
      · next hnot _ =>
          have hkey := hother rfl hnot
          exact ⟨rfl, closed_other hkey h (.refl app)⟩

theorem Regular.closed_panels (h : app.Regular out) (hinj : Function.Injective out.tabId)
    (id : ProjectId) (closed : List PanelId) (hresolved : app.Resolved id closed) :
    (closed.foldl (fun app p => (app.closePanel out id p true).1) app).recovered =
        app.recovered ∧
      (closed.foldl (fun app p => (app.closePanel out id p true).1) app).views out =
        (app.views out).closeAll (closed.map fun p => (id, p)) := by
  induction closed generalizing app with
  | nil => exact ⟨rfl, rfl⟩
  | cons p closed ih =>
      have hp : app.Resolved id [p] := fun q hq =>
        hresolved q (List.mem_singleton.mp hq ▸ .head closed)
      obtain ⟨-, hclosed⟩ := h.closed_panel hinj id p hp true (.inl rfl)
      have hrest : app.Resolved id closed := fun q hq => hresolved q (.tail p hq)
      obtain ⟨hrecovered, hviews⟩ := ih hclosed.regular (hrest.fewer hclosed.fewer)
      refine ⟨hrecovered.trans hclosed.recovered, ?_⟩
      rw [List.foldl_cons, hviews, hclosed.views, List.map_cons, Views.closeAll_cons]

/-! ## What the user is asked -/

/-- Some panel to be closed alone shows a document with unsaved text. -/
def Asks (out : Outside) (app : AppState) (id : ProjectId) (c : Close) : Prop :=
  ∃ p ∈ app.closing id c, SoleDirty out app id p

theorem exists_doc_of_isDirty {key : DocKey} (h : app.isDirty key = true) :
    ∃ doc, app.docs[key]? = some doc := by
  rw [isDirty, Option.any_eq_true] at h
  obtain ⟨doc, hdoc, -⟩ := h
  exact ⟨doc, hdoc⟩

theorem Regular.unsavedName_iff (h : app.Regular out) :
    (∃ name, app.unsavedName out id p = some name) ↔ SoleDirty out app id p := by
  rw [unsavedName]
  cases hkey : app.editorKey out id p with
  | none =>
      refine iff_of_false (by simp) ?_
      rintro ⟨key, ⟨hshown, -⟩, -⟩
      have hshown' : app.editorKey out id p = some key := hshown
      rw [hkey] at hshown'
      cases hshown'
  | some key =>
      have hlast := h.panelsShowing_le_one hkey
      dsimp only
      constructor
      · rintro ⟨name, hname⟩
        rw [Option.ite_none_right_eq_some] at hname
        exact ⟨key, hlast.mp hname.1.1, hname.1.2⟩
      · rintro ⟨other, hsole, hdirty⟩
        have hshown : app.editorKey out id p = some other := hsole.1
        rw [hkey] at hshown
        cases hshown
        obtain ⟨doc, hdoc⟩ := exists_doc_of_isDirty hdirty
        exact ⟨doc.name, by rw [if_pos ⟨hlast.mpr hsole, hdirty⟩, hdoc, Option.map_some]⟩

/-- The user is asked, and nothing happens meanwhile. -/
theorem Regular.close_asked (h : app.Regular out) {c : Close} (hasks : Asks out app id c) :
    ∃ question, app.close out id c = (app, some question) := by
  obtain ⟨p, hp, hsole⟩ := hasks
  cases c with
  | panel panel =>
      rw [closing, List.mem_singleton] at hp
      subst hp
      obtain ⟨key, hsole, hdirty⟩ := hsole
      have hkey : app.editorKey out id p = some key := hsole.1
      obtain ⟨record, hrecord, hconfig⟩ := Option.bind_eq_some_iff.mp hkey
      rw [close, closePanel, hrecord]
      dsimp only
      split at hconfig
      · next config hkind =>
          cases hconfig
          rw [hkind]
          dsimp only
          rw [if_pos]
          · exact ⟨_, rfl⟩
          · have hlast := (h.panelsShowing_le_one hkey).mpr hsole
            simp only [hdirty, hlast, decide_true, Bool.not_false, Bool.and_self]
      · cases hconfig
  | tab tab =>
      obtain ⟨name, hname⟩ := h.unsavedName_iff.mpr hsole
      have hmem : name ∈ (app.tabPanels id tab).filterMap fun p => app.unsavedName out id p :=
        List.mem_filterMap.mpr ⟨p, hp, hname⟩
      rw [close, closeTab]
      rw [if_neg]
      · exact ⟨_, rfl⟩
      · rw [List.isEmpty_iff]
        intro hnil
        rw [hnil] at hmem
        cases hmem

/-- Nobody is asked, and every panel is closed. -/
theorem Regular.close_unasked (h : app.Regular out) (hinj : Function.Injective out.tabId)
    {c : Close} (hresolved : app.Resolved id (app.closing id c)) (hasks : ¬ Asks out app id c) :
    (app.close out id c).2 = none ∧ (app.close out id c).1.recovered = app.recovered ∧
      (app.close out id c).1.views out =
        (app.views out).closeAll ((app.closing id c).map fun p => (id, p)) := by
  cases c with
  | panel panel =>
      have hsole : ¬ SoleDirty out app id panel := fun hsole =>
        hasks ⟨panel, List.mem_singleton_self panel, hsole⟩
      obtain ⟨hnone, hclosed⟩ := h.closed_panel hinj id panel hresolved false (.inr hsole)
      exact ⟨hnone, hclosed.recovered, hclosed.views⟩
  | tab tab =>
      have hnil : ((app.tabPanels id tab).filterMap fun p => app.unsavedName out id p) = [] := by
        refine List.eq_nil_iff_forall_not_mem.mpr fun name hname => ?_
        obtain ⟨p, hp, hname⟩ := List.mem_filterMap.mp hname
        exact hasks ⟨p, hp, h.unsavedName_iff.mp ⟨name, hname⟩⟩
      rw [close, closeTab]
      rw [if_pos (by rw [hnil]; rfl)]
      exact ⟨rfl, h.closed_panels hinj id (app.tabPanels id tab) hresolved⟩

/-! ## What is kept -/

/-- Text that is not on disk: of an open document, or of a record that waits for its editor. -/
def Unsaved (app : AppState) (key : DocKey) : Prop :=
  app.isDirty key = true ∨ key ∈ app.recovered

/-- Every unsaved text that an editor showed is still there, and an editor shows it. -/
def TextKept (out : Outside) (app app' : AppState) : Prop :=
  ∀ key, app.Unsaved key → (∃ id p, app.editorKey out id p = some key) →
    app'.docs[key]? = app.docs[key]? ∧ app'.recovered[key]? = app.recovered[key]? ∧
      ∃ id p, app'.editorKey out id p = some key

/-- A close asks the user, with nothing done, or keeps all unsaved text. -/
def NothingDropped (out : Outside) (app : AppState) (id : ProjectId) (c : Close) : Prop :=
  (app.close out id c).2.isSome = true ∧ (app.close out id c).1 = app ∨
    TextKept out app (app.close out id c).1

/-- What a panel to be closed shows of unsaved text, one that stays shows too. -/
def Covered (out : Outside) (app : AppState) (id : ProjectId) (c : Close) : Prop :=
  ∀ key, app.Unsaved key → (∃ p ∈ app.closing id c, app.editorKey out id p = some key) →
    ∃ other q, ¬ (other = id ∧ q ∈ app.closing id c) ∧ app.editorKey out other q = some key

theorem Regular.textKept_iff (h : app.Regular out) (hinj : Function.Injective out.tabId)
    {c : Close} (hresolved : app.Resolved id (app.closing id c)) (hasks : ¬ Asks out app id c) :
    TextKept out app (app.close out id c).1 ↔ Covered out app id c := by
  obtain ⟨-, hrecovered, hviews⟩ := h.close_unasked hinj hresolved hasks
  have hkept := (app.views out).kept_closeAll_iff ((app.closing id c).map fun p => (id, p))
    app.Unsaved
  rw [← hviews] at hkept
  constructor
  · intro htext key hunsaved hclosed
    have hcovered := hkept.mp (fun key hunsaved hshown => by
      obtain ⟨⟨other, q⟩, hshown⟩ := hshown
      obtain ⟨hdocs, -, id', p', hstill⟩ := htext key hunsaved ⟨other, q, hshown⟩
      exact ⟨hdocs, (id', p'), hstill⟩) key hunsaved
    obtain ⟨p, hp, hkey⟩ := hclosed
    obtain ⟨⟨other, q⟩, hstays, hshown⟩ := hcovered ⟨(id, p), List.mem_map_of_mem hp, hkey⟩
    refine ⟨other, q, ?_, hshown⟩
    rintro ⟨rfl, hq⟩
    exact hstays (List.mem_map_of_mem hq)
  · intro hcovered key hunsaved hshown
    have hstays := hkept.mpr (fun key hunsaved hclosed => by
      obtain ⟨place, hplace, hkey⟩ := hclosed
      obtain ⟨p, hp, rfl⟩ := List.mem_map.mp hplace
      obtain ⟨other, q, hstays, hother⟩ := hcovered key hunsaved ⟨p, hp, hkey⟩
      refine ⟨(other, q), fun hmem => hstays ?_, hother⟩
      obtain ⟨p', hp', heq⟩ := List.mem_map.mp hmem
      cases heq
      exact ⟨rfl, hp'⟩) key hunsaved
    obtain ⟨other, q, hshown⟩ := hshown
    obtain ⟨hdocs, ⟨id', p'⟩, hstill⟩ := hstays ⟨(other, q), hshown⟩
    exact ⟨hdocs, by rw [hrecovered], id', p', hstill⟩

/-- A close never silently drops unsaved text exactly if it asks, because a panel to be
closed alone shows a document with unsaved text, or if what it closes of unsaved text,
documents and waiting records, is shown by a panel that stays. -/
theorem nothingDropped_iff (out : Outside) (hinj : Function.Injective out.tabId)
    (app : AppState) (h : app.Regular out) (id : ProjectId) (c : Close)
    (hresolved : app.Resolved id (app.closing id c)) :
    NothingDropped out app id c ↔ Asks out app id c ∨ Covered out app id c := by
  by_cases hasks : Asks out app id c
  · obtain ⟨question, hclose⟩ := h.close_asked hasks
    refine iff_of_true (.inl ?_) (.inl hasks)
    rw [hclose]
    exact ⟨rfl, rfl⟩
  · obtain ⟨hnone, -, -⟩ := h.close_unasked hinj hresolved hasks
    rw [NothingDropped, hnone, or_iff_right hasks, ← h.textKept_iff hinj hresolved hasks]
    constructor
    · rintro (⟨hsome, -⟩ | htext)
      · cases hsome
      · exact htext
    · exact .inr

/-! ## Two editors of one document, and a record that waits -/

/-- A project with `/a` in both panels of its first tab, and an untitled editor in a second. -/
def editing : Layout :=
  ((Layout.newDefault ⟨1⟩ ⟨2⟩ ⟨3⟩).bind fun l => Layout.running.exec Machine.anyStep l
    [.setKind ⟨2⟩ (.editor ⟨some "/a"⟩),
      .addPanel ⟨1⟩ (some ⟨2⟩) .right (.editor ⟨some "/a"⟩) ⟨4⟩ ⟨9⟩,
      .addTab ⟨1⟩ (.editor ⟨none⟩) ⟨5⟩ ⟨6⟩]).getD ⟨layoutSchemaVersion, [], none, ∅, []⟩

def unopened : Record :=
  { format := 1, path := none, untitled := some ⟨5⟩, text := ['n'], history := none
    language := none, wrap := none }

/-- `/a` is open with unsaved text, and the untitled editor has not been drawn yet. -/
def edited : AppState :=
  { projects := [⟨1⟩], active := some ⟨1⟩, subs := [], workspaces := (∅ : Std.ExtTreeMap ProjectId
      Layout).insert ⟨1⟩ editing
    folder := ∅, recovery := .new
    recovered := (∅ : Std.ExtTreeMap DocKey Record).insert (.untitled ⟨5⟩) unopened
    docs := (∅ : Std.ExtTreeMap DocKey Document).insert (.file "/a")
      ({ Document.untitled .lf with path := some "/a" }.restoreUnsaved ['k']) }

def nowhere : Outside :=
  { keyFor := fun path => path
    store := { layout := fun _ => .ok .missing, subWorkspaces := .ok none }
    fresh := fun _ => editing
    tabId := fun p => ⟨p.uuid⟩ }

theorem inv_editing : editing.Inv := by
  have hrun : ((Layout.newDefault ⟨1⟩ ⟨2⟩ ⟨3⟩).bind fun l =>
      Layout.running.exec Machine.anyStep l
        [.setKind ⟨2⟩ (.editor ⟨some "/a"⟩),
          .addPanel ⟨1⟩ (some ⟨2⟩) .right (.editor ⟨some "/a"⟩) ⟨4⟩ ⟨9⟩,
          .addTab ⟨1⟩ (.editor ⟨none⟩) ⟨5⟩ ⟨6⟩]).isSome = true := by decide +kernel
  obtain ⟨l, hl⟩ := Option.isSome_iff_exists.mp hrun
  have hediting : editing = l := by rw [editing, hl, Option.getD_some]
  obtain ⟨l₀, hinit, hexec⟩ := Option.bind_eq_some_iff.mp hl
  rw [hediting]
  exact Layout.inv_of_reach (Machine.Reach.exec (.init ⟨⟨1⟩, ⟨2⟩, ⟨3⟩, hinit⟩) hexec)

theorem editing_records {record : Panel} (hp : editing.panels[p]? = some record) :
    record.id = p ∧ record.document nowhere.keyFor ≠ none := by
  have hrecords : editing.panels.toList.all (fun entry => entry.2.id = entry.1 ∧
      entry.2.document nowhere.keyFor ≠ none) = true := by decide +kernel
  have hmem := Std.ExtTreeMap.mem_toList_iff_getElem?_eq_some.mpr hp
  simpa using List.all_eq_true.mp hrecords _ hmem

theorem edited_workspaces {l : Layout} (hl : edited.workspaces[id]? = some l) :
    id = ⟨1⟩ ∧ l = editing := by
  rw [edited, Std.ExtTreeMap.getElem?_insert] at hl
  split at hl
  · next heq =>
      rw [Std.LawfulEqCmp.compare_eq_iff_eq] at heq
      exact ⟨heq.symm, (Option.some.inj hl).symm⟩
  · simp at hl

theorem regular_edited : edited.Regular nowhere := by
  constructor
  · intro id l hl
    obtain ⟨-, rfl⟩ := edited_workspaces hl
    refine ⟨inv_editing, fun p record hp => (editing_records hp).1, fun p hp => ?_⟩
    have haway : editing.away = [] := by decide +kernel
    rw [haway] at hp
    cases hp
  · intro id hid
    cases hid
  · exact List.nodup_nil
  · intro id l hl hid
    obtain ⟨rfl, -⟩ := edited_workspaces hl
    exact absurd (List.mem_singleton_self _) hid

/-- There is no mirror in it. -/
theorem resolved_edited (closing : List PanelId) : edited.Resolved id closing := by
  intro p _ record m hrecord hm
  obtain ⟨l, hl, hp⟩ := record_eq_some.mp hrecord
  obtain ⟨-, rfl⟩ := edited_workspaces hl
  refine absurd ?_ (editing_records hp).2
  rw [Panel.document, hm]

/-- One of two editors of a document is closed. -/
theorem nothingDropped_one : NothingDropped nowhere edited ⟨1⟩ (.panel ⟨4⟩) := by
  refine (nothingDropped_iff nowhere ?_ edited regular_edited ⟨1⟩ (.panel ⟨4⟩)
    (resolved_edited _)).mpr (.inr ?_)
  · intro p q heq
    obtain ⟨p⟩ := p
    obtain ⟨q⟩ := q
    cases heq
    rfl
  · rintro key - ⟨p, hp, hkey⟩
    refine ⟨⟨1⟩, ⟨2⟩, ?_, ?_⟩
    · rintro ⟨-, hmem⟩
      exact absurd hmem (by decide)
    · rw [closing, List.mem_singleton] at hp
      subst hp
      rw [← hkey]
      decide +kernel

theorem eq_of_editorKey {q : PanelId} (h : app.editorKey out id p = some (.untitled q)) :
    p = q := by
  obtain ⟨record, -, hkey⟩ := Option.bind_eq_some_iff.mp h
  split at hkey
  · next config _ =>
      cases hpath : config.path with
      | some path =>
          rw [hpath] at hkey
          cases hkey
      | none =>
          rw [hpath] at hkey
          cases hkey
          rfl
  · cases hkey

/-- Closing the tab drops the document that both of its panels show, and closing the
untitled editor the record that waits for it. -/
theorem not_nothingDropped : edited.Regular nowhere ∧
    ¬ NothingDropped nowhere edited ⟨1⟩ (.tab ⟨3⟩) ∧
      ¬ NothingDropped nowhere edited ⟨1⟩ (.panel ⟨5⟩) := by
  refine ⟨regular_edited, ?_, ?_⟩
  · rintro (⟨hasked, -⟩ | hkept)
    · exact absurd hasked (by decide +kernel)
    · obtain ⟨hdocs, -, -⟩ := hkept (.file "/a") (.inl (by decide +kernel))
        ⟨⟨1⟩, ⟨2⟩, by decide +kernel⟩
      have hsome := congrArg Option.isSome hdocs
      exact absurd hsome (by decide +kernel)
  · rintro (⟨hasked, -⟩ | hkept)
    · exact absurd hasked (by decide +kernel)
    · obtain ⟨-, -, id, p, hkey⟩ := hkept (.untitled ⟨5⟩)
        (.inr (Std.ExtTreeMap.contains_iff_mem.mp (by decide +kernel)))
        ⟨⟨1⟩, ⟨5⟩, by decide +kernel⟩
      have hp := eq_of_editorKey hkey
      obtain ⟨record, hrecord, -⟩ := Option.bind_eq_some_iff.mp hkey
      have hleft : (edited.close nowhere ⟨1⟩ (.panel ⟨5⟩)).1.panels.all
          (fun entry => entry.1.2 ≠ ⟨5⟩) = true := by decide +kernel
      have hne := List.all_eq_true.mp hleft _ (mem_panels.mpr hrecord)
      exact of_decide_eq_true hne hp

end AppState

end Throng
