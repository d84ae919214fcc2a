import Throng.App.DeskMoved
import Throng.App.DeskRun

/-!
# Moved panels over runs of the desk

A project's list of panels that are away and the mirrors in the sub-workspaces are parts of
layouts that are stored one by one. In every run a panel that is away has a mirror, as long
as mirrors keep their kind, the app starts again after all was saved, and no sub-workspace
with a moved panel is lost then.
-/

namespace Throng

deriving instance DecidableEq for Layout

namespace Desk

open AppState

variable {keyFor : PathBuf → String} {desk desk' : Desk} {id : ProjectId} {p : PanelId}
  {m : MirrorPanelConfig} {l : Layout}

/-! ## What a run keeps -/

/-- The layouts that are stored. -/
def layouts (desk : Desk) (id : ProjectId) : Option Layout := desk.saved[id]?

structure Tended (desk : Desk) : Prop where
  ids : ∀ (id : ProjectId) (l : Layout), desk.app.workspaces[id]? = some l → l.Ids
  home : ∀ (id : ProjectId) (l : Layout), desk.app.workspaces[id]? = some l →
    id ∉ desk.app.projects → l.away = []
  loadable : ∀ (id : ProjectId) (l : Layout), desk.app.workspaces[id]? = some l → l.Loadable
  inv : ∀ (id : ProjectId) (l : Layout), desk.app.workspaces[id]? = some l →
    id ∉ desk.app.projects → l.Inv
  saved : ∀ (id : ProjectId) (l : Layout), desk.saved[id]? = some l →
    (l.Ids ∧ l.Loadable) ∧ (desk.IsSub id → l.away = [] ∧ l.Inv)
  apart : ∀ id, desk.IsSub id → id ∉ desk.app.projects
  distinct : (desk.app.subs.map SubWorkspace.id).Nodup
  savedDistinct : (desk.savedSubs.map SubWorkspace.id).Nodup
  projects : desk.app.projects.Nodup
  homed : desk.app.Homed desk.layouts

theorem tended_first : Tended first where
  ids id l hl := by simp [first] at hl
  home id l hl := by simp [first] at hl
  loadable id l hl := by simp [first] at hl
  inv id l hl := by simp [first] at hl
  saved id l hl := by simp [first] at hl
  apart id hid := by simp [first]
  distinct := List.nodup_nil
  savedDistinct := List.nodup_nil
  projects := List.nodup_nil
  homed m hm := by
    have hproject := hm.1
    simp [first] at hproject

theorem inv_fallback (isProject : Bool) (id : ProjectId) (panel : PanelId) (tab : TabId) :
    (Layout.fallback isProject id panel tab).Inv := by
  rw [Layout.fallback]
  cases hs : Layout.newDefault id panel tab with
  | none => exact Layout.inv_empty
  | some l =>
      dsimp only
      split_ifs
      · exact (Layout.Inv.newDefault hs).setKind _ _
      · exact Layout.Inv.newDefault hs

theorem roomy_fallback (isProject : Bool) (id : ProjectId) (panel : PanelId) (tab : TabId) :
    (Layout.fallback isProject id panel tab).Roomy := by
  rw [Layout.fallback]
  cases hs : Layout.newDefault id panel tab with
  | none => exact (by decide : 0 < u64Max)
  | some l =>
      have hroomy := Layout.roomy_newDefault hs
      dsimp only
      split_ifs
      · exact hroomy
      · exact hroomy

theorem Tended.fit (h : Tended desk) (draw : Draw) :
    Fit (desk.outside keyFor draw) desk.MayBeSub desk.layouts desk.app where
  ids := h.ids
  home := h.home
  stored id l hl := by
    have hsaved := saved_of_layout hl
    refine ⟨(h.saved id l hsaved).1.1, ?_⟩
    rintro (hsub | hnew)
    · exact ((h.saved id l hsaved).2 hsub).1
    · exact absurd (Std.ExtTreeMap.mem_iff_isSome_getElem?.mpr (by rw [hsaved]; rfl))
        (isNew_iff.mp hnew).2.2.2
  fresh id := Layout.fallback_frame _ _ _ _
  subs id hid := .inl (.inl hid)
  apart := by
    rintro id (hsub | hnew)
    · exact h.apart id hsub
    · exact (isNew_iff.mp hnew).1
  distinct := h.distinct
  loadable := h.loadable
  inv := h.inv
  kept id l hl := by
    have hsaved := saved_of_layout hl
    refine ⟨hsaved, (h.saved id l hsaved).1.2, ?_⟩
    rintro (hsub | hnew)
    · exact ((h.saved id l hsaved).2 hsub).2
    · exact absurd (Std.ExtTreeMap.mem_iff_isSome_getElem?.mpr (by rw [hsaved]; rfl))
        (isNew_iff.mp hnew).2.2.2
  made id := inv_fallback _ _ _ _

theorem Tended.put (h : Tended desk) {draw : Draw} {app : AppState}
    (hfit : Fit (desk.outside keyFor draw) desk.MayBeSub desk.layouts app)
    (hprojects : app.projects.Nodup) (hhomed : app.Homed desk.layouts) :
    Tended { desk with app } where
  ids := hfit.ids
  home := hfit.home
  loadable := hfit.loadable
  inv := hfit.inv
  saved id l hl := by
    have hl' : desk.saved[id]? = some l := hl
    refine ⟨(h.saved id l hl').1, ?_⟩
    rintro (hsub | hsub)
    · rcases hfit.subs id hsub with hold | hnew
      · exact (h.saved id l hl').2 hold
      · exact absurd (Std.ExtTreeMap.mem_iff_isSome_getElem?.mpr (by rw [hl']; rfl))
          (isNew_iff.mp hnew).2.2.2
    · exact (h.saved id l hl').2 (.inr hsub)
  apart id hid := by
    rcases hid with hsub | hsub
    · exact hfit.apart id (hfit.subs id hsub)
    · exact hfit.apart id (.inl (.inr hsub))
  distinct := hfit.distinct
  savedDistinct := h.savedDistinct
  projects := hprojects
  homed := hhomed

theorem Tended.tend (h : Tended desk) {draw : Draw} {app : AppState}
    (htends : Tends (desk.outside keyFor draw) desk.MayBeSub desk.layouts (fun _ => False)
      desk.app app) : Tended { desk with app } :=
  h.put htends.fit (htends.projects ▸ h.projects) (htends.homed h.homed)

/-! ## What is stored -/

theorem Tended.create (h : Tended desk) (hnew : desk.isNew id = true) :
    Tended { desk with app := { desk.app with projects := desk.app.projects ++ [id] } } :=
  { h with
    home := fun other l hl hother =>
      h.home other l hl fun hmem => hother (List.mem_append_left _ hmem)
    inv := fun other l hl hother =>
      h.inv other l hl fun hmem => hother (List.mem_append_left _ hmem)
    apart := by
      intro other hsub hmem
      rcases List.mem_append.mp hmem with hmem | hmem
      · exact h.apart other hsub hmem
      · rw [List.mem_singleton.mp hmem] at hsub
        exact (isNew_iff.mp hnew).2.1 hsub
    projects := h.projects.append (List.nodup_singleton id)
      (List.disjoint_singleton.mpr (isNew_iff.mp hnew).1)
    homed := by
      -- The project that comes has no layout, loaded or stored.
      intro m haway
      obtain ⟨hproject, l, hl, hpanel⟩ := haway
      rcases List.mem_append.mp hproject with hmem | hmem
      · exact h.homed m ⟨hmem, l, hl, hpanel⟩
      · rw [List.mem_singleton.mp hmem, layoutOf, layouts] at hl
        obtain ⟨-, -, hloaded, hsaved⟩ := isNew_iff.mp hnew
        rw [Std.ExtTreeMap.getElem?_eq_none hloaded, Std.ExtTreeMap.getElem?_eq_none hsaved] at hl
        cases hl }

theorem saved_saveLayout (desk : Desk) (id other : ProjectId) :
    (desk.saveLayout id).saved[other]? =
      if other = id then (desk.app.workspaces[id]?).or desk.saved[id]? else desk.saved[other]? := by
  rw [saveLayout]
  split
  · next l hl =>
      dsimp only
      rw [getElem?_insert_layout, hl, Option.some_or]
  · next hl =>
      rw [hl, Option.none_or]
      split_ifs with heq
      · rw [heq]
      · rfl

theorem app_saveLayout (desk : Desk) (id : ProjectId) :
    (desk.saveLayout id).app = desk.app ∧ (desk.saveLayout id).savedSubs = desk.savedSubs := by
  rw [saveLayout]
  split
  · exact ⟨rfl, rfl⟩
  · exact ⟨rfl, rfl⟩

theorem Tended.saveLayout (h : Tended desk) (id : ProjectId) : Tended (desk.saveLayout id) := by
  obtain ⟨happ, hsubs⟩ := desk.app_saveLayout id
  have hisSub : ∀ other, (desk.saveLayout id).IsSub other ↔ desk.IsSub other := by
    intro other
    rw [IsSub, happ, hsubs, IsSub]
  exact
    { ids := by rw [happ]; exact h.ids
      home := by rw [happ]; exact h.home
      loadable := by rw [happ]; exact h.loadable
      inv := by rw [happ]; exact h.inv
      saved := by
        intro other l hl
        rw [saved_saveLayout] at hl
        rw [hisSub]
        split_ifs at hl with heq
        · subst heq
          rcases Option.or_eq_some_iff.mp hl with hl | ⟨-, hl⟩
          · refine ⟨⟨h.ids other l hl, h.loadable other l hl⟩, fun hsub => ?_⟩
            exact ⟨h.home other l hl (h.apart other hsub), h.inv other l hl (h.apart other hsub)⟩
          · exact h.saved other l hl
        · exact h.saved other l hl
      apart := by
        intro other hsub
        rw [happ]
        exact h.apart other ((hisSub other).mp hsub)
      distinct := by rw [happ]; exact h.distinct
      savedDistinct := by rw [hsubs]; exact h.savedDistinct
      projects := by rw [happ]; exact h.projects
      homed := by
        rw [happ]
        rintro m ⟨hproject, l, hl, hpanel⟩
        refine h.homed m ⟨hproject, l, ?_, hpanel⟩
        -- A layout that is loaded is saved as it is.
        rw [layoutOf, layouts] at hl ⊢
        rw [saved_saveLayout] at hl
        split_ifs at hl with heq
        · rw [heq] at hl ⊢
          rwa [← Option.or_assoc, Option.or_self] at hl
        · exact hl }

theorem Tended.saveSubs (h : Tended desk) : Tended { desk with savedSubs := desk.app.subs } :=
  { h with
    saved := fun id l hl => ⟨(h.saved id l hl).1, fun hsub => (h.saved id l hl).2 (.inl (by
      rcases hsub with hsub | hsub <;> exact hsub))⟩
    apart := fun id hsub => h.apart id (.inl (by rcases hsub with hsub | hsub <;> exact hsub))
    savedDistinct := h.distinct }

theorem Tended.forget (h : Tended desk) (hid : id ∉ desk.app.projects) :
    Tended { desk with saved := desk.saved.erase id } :=
  { h with
    saved := by
      intro other l hl
      rw [getElem?_erase_layout] at hl
      split_ifs at hl
      exact h.saved other l hl
    homed := by
      rintro m ⟨hproject, l, hl, hpanel⟩
      refine h.homed m ⟨hproject, l, ?_, hpanel⟩
      rw [layoutOf, layouts] at hl ⊢
      dsimp only at hl
      rwa [getElem?_erase_layout, if_neg] at hl
      rintro heq
      exact hid (heq ▸ hproject) }

/-! ## Starting again -/

/-- All that is open is saved. -/
def AllSaved (desk : Desk) : Prop :=
  desk.savedSubs.map SubWorkspace.id = desk.app.subs.map SubWorkspace.id ∧
    ∀ entry ∈ desk.app.workspaces.toList, desk.saved[entry.1]? = some entry.2

instance (desk : Desk) : Decidable desk.AllSaved := inferInstanceAs (Decidable (_ ∧ _))

/-- The panel is a project's, which is stored with it away. -/
def storedAway (desk : Desk) (m : MirrorPanelConfig) : Bool :=
  desk.app.projects.contains m.project &&
    desk.saved[m.project]?.any fun home => home.away.contains m.panel

/-- A mirror of the layout shows a moved panel. -/
def showsMoved (desk : Desk) (l : Layout) : Bool :=
  l.panels.toList.any fun entry =>
    match entry.2.kind with
    | .mirror m => desk.storedAway m
    | _ => false

/-- The sub-workspace is there after the app starts again, or it shows no moved panel. -/
def survives (desk : Desk) (draw : Draw) (readable : Bool) (sub : SubWorkspace) : Bool :=
  (readable && match draw.answer sub.id with
    | .stored => true
    | _ => false) ||
    desk.saved[sub.id]?.all fun l => !desk.showsMoved l

theorem showsMoved_of_mirrors (hm : l.Mirrors m) (haway : desk.storedAway m = true) :
    desk.showsMoved l = true := by
  obtain ⟨q, hq⟩ := hm
  obtain ⟨record, hrecord, hkind⟩ := Layout.kindOf_eq_some.mp hq
  refine List.any_eq_true.mpr
    ⟨(q, record), Std.ExtTreeMap.mem_toList_iff_getElem?_eq_some.mpr hrecord, ?_⟩
  rw [hkind]
  exact haway

/-- A load gives the stored layout, or leaves what is loaded. -/
theorem holds_load {out : Outside} {app : AppState} {sub : ProjectId}
    (hsub : sub ∈ app.subs.map SubWorkspace.id) (hl : out.store.layout sub = .ok (.loaded l))
    (hprune : l.pruneOrphans.1.Mirrors m)
    (h : app.workspaces[sub]? = none ∨ app.Holds sub fun l => l.Mirrors m) :
    (app.loadWorkspace out sub).Holds sub fun l => l.Mirrors m := by
  rcases h with hnone | hholds
  · rcases app.load_cases out sub with ⟨-, hloaded | hnot⟩ | ⟨-, -, l', heq, hl'⟩
    · rw [Std.ExtTreeMap.mem_iff_isSome_getElem?, hnone] at hloaded
      cases hloaded
    · exact absurd hsub hnot.2
    · rw [heq]
      refine ⟨l', by rw [getElem?_insert_layout, if_pos rfl], ?_⟩
      rcases hl' with ⟨hnot, -⟩ | ⟨k, hk, rfl⟩
      · exact absurd hl (hnot l)
      · cases hl.symm.trans hk
        exact hprune
  · exact hholds.loadWorkspace out sub

/-- A sub-workspace whose layout is read shows what it did. -/
theorem holds_loadAll {out : Outside} {app : AppState} {sub : ProjectId} {ids : List ProjectId}
    (hmem : sub ∈ ids) (hsub : sub ∈ app.subs.map SubWorkspace.id)
    (hl : out.store.layout sub = .ok (.loaded l)) (hprune : l.pruneOrphans.1.Mirrors m)
    (hnone : app.workspaces[sub]? = none) :
    (ids.foldl (fun (app : AppState) id => app.loadWorkspace out id) app).Holds sub
      fun l => l.Mirrors m := by
  have hnext : ∀ (app : AppState) (id : ProjectId), sub ∈ app.subs.map SubWorkspace.id →
      (app.workspaces[sub]? = none ∨ app.Holds sub fun l => l.Mirrors m) →
        (app.loadWorkspace out id).workspaces[sub]? = none ∨
          (app.loadWorkspace out id).Holds sub fun l => l.Mirrors m := by
    intro app id hsub h
    by_cases heq : id = sub
    · subst heq
      exact .inr (holds_load hsub hl hprune h)
    · rcases h with hnone | hholds
      · left
        rcases app.load_cases out id with ⟨hsame, -⟩ | ⟨-, -, l', hload, -⟩
        · rw [hsame]
          exact hnone
        · rw [hload, getElem?_insert_layout, if_neg (Ne.symm heq)]
          exact hnone
      · exact .inr (hholds.loadWorkspace out id)
  refine List.foldl_settles_of (I := fun app : AppState => sub ∈ app.subs.map SubWorkspace.id ∧
    (app.workspaces[sub]? = none ∨ app.Holds sub fun l => l.Mirrors m))
    (P := fun app : AppState => app.Holds sub fun l => l.Mirrors m) hmem ?_ ?_ ?_
      ⟨hsub, .inl hnone⟩
  · rintro app id - ⟨hsub, h⟩
    exact ⟨by rw [subs_loadWorkspace]; exact hsub, hnext app id hsub h⟩
  · intro app id _ hholds
    exact hholds.loadWorkspace out id
  · rintro app ⟨hsub, h⟩
    exact holds_load hsub hl hprune h

/-- The app before any workspace is loaded. -/
def blank (desk : Desk) (readable : Bool) (recovered : Std.ExtTreeMap DocKey Record) : AppState :=
  { desk.app with
    subs := if readable then desk.savedSubs else [], workspaces := ∅, docs := ∅, recovered }

theorem restart_eq (desk : Desk) (out : Outside) (readable : Bool)
    (recovered : Std.ExtTreeMap DocKey Record) :
    ∃ more, desk.restart out readable recovered =
      ((desk.blank readable recovered).subs.map SubWorkspace.id ++ more).foldl
        (fun (app : AppState) id => app.loadWorkspace out id) (desk.blank readable recovered) := by
  rw [Desk.restart, ← blank]
  split
  · next id _ => exact ⟨[id], by rw [List.foldl_append, List.foldl_cons, List.foldl_nil]⟩
  · exact ⟨[], by rw [List.append_nil]⟩

theorem Tended.fit_blank (h : Tended desk) (draw : Draw) (readable : Bool)
    (recovered : Std.ExtTreeMap DocKey Record) :
    Fit (desk.outside keyFor draw) desk.MayBeSub desk.layouts (desk.blank readable recovered) :=
  { @Tended.fit keyFor desk h draw with
    ids := fun id l hl => by simp [blank] at hl
    home := fun id l hl => by simp [blank] at hl
    loadable := fun id l hl => by simp [blank] at hl
    inv := fun id l hl => by simp [blank] at hl
    subs := by
      intro id hid
      cases readable with
      | true => exact .inl (.inr hid)
      | false => cases hid
    distinct := by
      cases readable with
      | true => exact h.savedDistinct
      | false => exact List.nodup_nil }

/-- What is away before any workspace is loaded was away when all was saved. -/
theorem away_of_blank {readable : Bool} {recovered : Std.ExtTreeMap DocKey Record}
    (hsaved : desk.AllSaved) (haway : (desk.blank readable recovered).Away desk.layouts m) :
    desk.app.Away desk.layouts m ∧ desk.storedAway m = true := by
  obtain ⟨hproject, l, hl, hpanel⟩ := haway
  have hl' : desk.saved[m.project]? = some l := by
    rw [layoutOf, blank] at hl
    dsimp only at hl
    rwa [Std.ExtTreeMap.getElem?_empty, Option.none_or] at hl
  refine ⟨⟨hproject, l, ?_, hpanel⟩, ?_⟩
  · rw [layoutOf]
    cases hloaded : desk.app.workspaces[m.project]? with
    | none => rw [Option.none_or, layouts, hl']
    | some k =>
        have hsame := hsaved.2 (m.project, k)
          (Std.ExtTreeMap.mem_toList_iff_getElem?_eq_some.mpr hloaded)
        rw [Option.some_or, ← hsame, hl']
  · rw [storedAway, hl', Bool.and_eq_true, List.contains_iff_mem]
    exact ⟨hproject, by rw [Option.any_some, List.contains_iff_mem]; exact hpanel⟩

/-- After all was saved the app starts again as it was, but for the sub-workspaces that are
lost, and no moved panel was there. -/
theorem Tended.restart (h : Tended desk) {draw : Draw} {readable : Bool}
    (recovered : Std.ExtTreeMap DocKey Record) (hsaved : desk.AllSaved)
    (hkept : ∀ sub ∈ desk.savedSubs, desk.survives draw readable sub = true) :
    Tended { desk with app := desk.restart (desk.outside keyFor draw) readable recovered } := by
  obtain ⟨more, heq⟩ := desk.restart_eq (desk.outside keyFor draw) readable recovered
  have htends : Tends (desk.outside keyFor draw) desk.MayBeSub desk.layouts (fun _ => False)
      (desk.blank readable recovered)
      (desk.restart (desk.outside keyFor draw) readable recovered) := by
    rw [heq]
    exact tends_foldl _ (fun app id _ h => h.tends_load id) (h.fit_blank draw readable recovered)
  refine h.put htends.fit (htends.projects ▸ h.projects) fun m haway => ?_
  -- The panel was away before, and had a mirror in a sub-workspace that is still there.
  obtain ⟨hbefore, hmoved⟩ := away_of_blank hsaved (htends.away m haway)
  obtain ⟨sub, hsub, k, hk, hkm⟩ := h.homed m hbefore
  have hstored : desk.saved[sub]? = some k :=
    hsaved.2 (sub, k) (Std.ExtTreeMap.mem_toList_iff_getElem?_eq_some.mpr hk)
  have hinv : k.Inv := h.inv sub k hk (h.apart sub (.inl hsub))
  rw [← hsaved.1] at hsub
  obtain ⟨known, hknown, rfl⟩ := List.mem_map.mp hsub
  have hread := hkept known hknown
  rw [survives, hstored, Option.all_some, showsMoved_of_mirrors hkm hmoved, Bool.not_true,
    Bool.or_false, Bool.and_eq_true] at hread
  obtain ⟨rfl, hanswer⟩ := hread
  have hlayout : (desk.outside keyFor draw).store.layout known.id = .ok (.loaded k) := by
    dsimp only [outside]
    split at hanswer
    · next hstore => rw [hstore, hstored]
    · cases hanswer
  have hholds := @holds_loadAll m k (desk.outside keyFor draw) (desk.blank true recovered) known.id
    ((desk.blank true recovered).subs.map SubWorkspace.id ++ more) (List.mem_append_left _ hsub)
      hsub hlayout (hkm.pruneOrphans hinv.held) (by simp [blank])
  rw [heq]
  refine ⟨known.id, ?_, hholds⟩
  have hsubs := List.foldl_keeps (P := fun app : AppState => app.subs = desk.savedSubs)
    (l := (desk.blank true recovered).subs.map SubWorkspace.id ++ more)
    (f := fun (app : AppState) id => app.loadWorkspace (desk.outside keyFor draw) id)
    (s := desk.blank true recovered) (fun app id _ h => (app.subs_loadWorkspace id).trans h) rfl
  rw [hsubs]
  exact hsub

/-! ## Runs -/

/-- Panels can come back to every layout, loaded or stored, without its tabs' numbers running
out. -/
def Roomy (desk : Desk) : Prop :=
  (∀ entry ∈ desk.app.workspaces.toList, entry.2.Roomy) ∧
    ∀ entry ∈ desk.saved.toList, entry.2.Roomy

instance (desk : Desk) : Decidable desk.Roomy := inferInstanceAs (Decidable (_ ∧ _))

def isMirror (desk : Desk) (id : ProjectId) (p : PanelId) : Bool :=
  (desk.app.kindOf id p).any PanelKind.isMirror

/-- Mirrors keep their kind, panels that come back have room, only projects are deleted as
projects, and the app starts again when all is saved and loses no sub-workspace with a moved
panel. -/
def careful (desk : Desk) : Draw × Action → Bool
  | (_, .alter id (.setKind p _)) | (_, .openHere id p _ _ _) | (_, .dropFile id p _ _ _) =>
      !desk.isMirror id p
  | (_, .closePanel _ _ _) | (_, .closeTab _ _) | (_, .removeSub _) => decide desk.Roomy
  | (_, .deleteProject id) => desk.app.projects.contains id && decide desk.Roomy
  | (draw, .restart readable _) =>
      decide desk.AllSaved && desk.savedSubs.all fun sub => desk.survives draw readable sub
  | _ => true

def Careful (desk : Desk) (choice : Draw × Action) : Prop := desk.careful choice = true

instance : DecidableRel Careful := fun _ _ => inferInstanceAs (Decidable (_ = true))

theorem not_mirror (h : (!desk.isMirror id p) = true) (m : MirrorPanelConfig) :
    desk.app.kindOf id p ≠ some (.mirror m) := by
  intro hm
  rw [isMirror, hm] at h
  cases h

theorem Roomy.room (h : desk.Roomy) (draw : Draw) : Room (desk.outside keyFor draw) desk.app where
  loaded id l hl := h.1 (id, l) (Std.ExtTreeMap.mem_toList_iff_getElem?_eq_some.mpr hl)
  stored id l hl :=
    h.2 (id, l) (Std.ExtTreeMap.mem_toList_iff_getElem?_eq_some.mpr (saved_of_layout hl))
  fresh _ := roomy_fallback _ _ _ _

theorem Tended.alter (h : Tended desk) (keyFor : PathBuf → String) (draw : Draw) {op : Layout.Op}
    (hok : Careful desk (draw, .alter id op)) (hplain : desk.plain id op = true) {app : AppState}
    (hs : desk.app.alter id op = some app) : Tended { desk with app } := by
  have hfit := @Tended.fit keyFor desk h draw
  by_cases hgrows : op.grows = true
  · exact h.tend (hfit.tends_alter hgrows hs)
  · cases op with
    | setKind p kind => exact h.tend (hfit.tends_setKind (not_mirror hok) hs)
    | addTab | addPanel | focusPanel | renamePanel | renameTab | moveTab => exact absurd rfl hgrows
    | removePanel | sendAway | bringBack | closeTab | pruneOrphans => cases hplain

theorem Tended.step {choice : Draw × Action} (h : Tended desk) (hok : Careful desk choice)
    (hs : Desk.step keyFor desk choice = some desk') : Tended desk' := by
  obtain ⟨draw, action⟩ := choice
  have hfit := @Tended.fit keyFor desk h draw
  cases action with
  | create id =>
      rw [Desk.step] at hs
      split_ifs at hs with hnew
      cases hs
      exact h.create hnew
  | switch id =>
      cases hs
      exact h.tend (hfit.tends_switchProject id)
  | alter id op =>
      rw [Desk.step] at hs
      split_ifs at hs with hplain
      obtain ⟨app, halter, rfl⟩ := Option.map_eq_some_iff.mp hs
      exact h.alter keyFor draw hok hplain halter
  | openInEditor id path anchor new =>
      obtain ⟨app, happ, rfl⟩ := Option.map_eq_some_iff.mp hs
      obtain ⟨result, hopen, rfl⟩ := Option.map_eq_some_iff.mp happ
      exact h.tend (hfit.tends_openInEditor hopen)
  | openAt id path anchor new reading =>
      obtain ⟨app, hopen, rfl⟩ := Option.map_eq_some_iff.mp hs
      exact h.tend (hfit.tends_openAt hopen)
  | openAtLine id path anchor new reading =>
      rw [Desk.step] at hs
      split_ifs at hs
      obtain ⟨app, hopen, rfl⟩ := Option.map_eq_some_iff.mp hs
      exact h.tend (hfit.tends_openAtLine hopen)
  | openHere id panel path anchor new =>
      obtain ⟨app, hopen, rfl⟩ := Option.map_eq_some_iff.mp hs
      exact h.tend (hfit.tends_openHere (not_mirror hok) hopen)
  | dropFile id panel path anchor new =>
      rw [Desk.step] at hs
      split_ifs at hs
      obtain ⟨app, hdrop, rfl⟩ := Option.map_eq_some_iff.mp hs
      exact h.tend (hfit.tends_dropFile (not_mirror hok) hdrop)
  | draw id panel reading =>
      cases hs
      exact h.tend (hfit.tends_draw id panel reading)
  | syncTo id panel sub tab moved new =>
      rw [Desk.step] at hs
      split_ifs at hs with hasked
      rw [Bool.and_eq_true, Bool.or_eq_true, List.contains_iff_mem] at hasked
      obtain ⟨app, happ, rfl⟩ := Option.map_eq_some_iff.mp hs
      obtain ⟨result, hsync, rfl⟩ := Option.map_eq_some_iff.mp happ
      obtain ⟨hafter, hhomed, hprojects⟩ := hfit.syncTo h.homed hasked.1 (.inr hasked.2) hsync
      exact h.put hafter (hprojects ▸ h.projects) hhomed
  | moveTab id tab new =>
      rw [Desk.step] at hs
      split_ifs at hs with hasked
      rw [Bool.and_eq_true, Bool.or_eq_true, List.contains_iff_mem, List.all_eq_true] at hasked
      obtain ⟨app, hmove, rfl⟩ := Option.map_eq_some_iff.mp hs
      obtain ⟨hafter, hhomed, hprojects⟩ :=
        hfit.moveTab h.homed hasked.1 (fun p hp => .inr (hasked.2 p hp)) hmove
      exact h.put hafter (hprojects ▸ h.projects) hhomed
  | closePanel id panel force =>
      cases hs
      exact h.tend (hfit.clears_closePanel ((of_decide_eq_true hok).room draw) id panel
        force).toTends
  | closeTab id tab =>
      cases hs
      exact h.tend (hfit.clears_closeTab ((of_decide_eq_true hok).room draw) id tab).toTends
  | removeSub id =>
      rw [Desk.step] at hs
      split_ifs at hs with hsub
      cases hs
      have hid : id ∉ desk.app.projects := h.apart id (.inl (isSub_iff.mp hsub))
      exact h.tend (hfit.clears_removeSub ((of_decide_eq_true hok).room draw) hid).toTends
  | deleteProject id =>
      cases hs
      obtain ⟨hid, hroomy⟩ := Bool.and_eq_true_iff.mp hok
      obtain ⟨hafter, hhomed, hprojects⟩ := hfit.deleteProject
        ((of_decide_eq_true hroomy).room draw) h.homed (List.contains_iff_mem.mp hid) h.projects
      exact h.put hafter (hprojects ▸ h.projects.erase id) hhomed
  | save ids =>
      cases hs
      exact List.foldl_keeps (P := Tended) (fun desk id _ h => h.saveLayout id) h
  | saveSubs =>
      cases hs
      exact h.saveSubs
  | forget id =>
      rw [Desk.step] at hs
      split_ifs at hs with hgone
      cases hs
      rw [Bool.or_eq_true, not_or, List.contains_iff_mem] at hgone
      exact h.forget hgone.1
  | restart readable recovered =>
      cases hs
      obtain ⟨hsaved, hkept⟩ := Bool.and_eq_true_iff.mp hok
      exact h.restart recovered (of_decide_eq_true hsaved) (List.all_eq_true.mp hkept)

/-- A tab of a sub-workspace has a panel, at `place`, that mirrors `m`. -/
def ShownAt (desk : Desk) (m : MirrorPanelConfig) (place : ProjectId × PanelId) : Prop :=
  place.1 ∈ desk.app.subs.map SubWorkspace.id ∧ ∃ l, desk.app.workspaces[place.1]? = some l ∧
    place.2 ∈ treePanels l.tabs ∧ l.kindOf place.2 = some (.mirror m)

/-- The panel is away from a project whose layout is loaded. -/
def MovedAway (desk : Desk) (m : MirrorPanelConfig) : Prop :=
  m.project ∈ desk.app.projects ∧
    ∃ l, desk.app.workspaces[m.project]? = some l ∧ m.panel ∈ l.away

/-- Every moved panel is shown by one mirror. -/
def OneMirror (desk : Desk) : Prop := ∀ m, desk.MovedAway m → ∃! place, desk.ShownAt m place

def NoneStranded (desk : Desk) : Prop := ∀ m, desk.MovedAway m → ∃ place, desk.ShownAt m place

/-- As long as mirrors keep their kind, numbers for tabs do not run out, and the app starts
again when all is saved, losing no sub-workspace with a moved panel, every moved panel is
shown by a mirror in a sub-workspace. -/
theorem noneStranded_of_careful (keyFor : PathBuf → String) (desk : Desk)
    (h : (machine keyFor).Reach Careful desk) : desk.NoneStranded := by
  have hinv : Tended desk := by
    refine h.invariant (fun desk hinit => ?_) fun desk choice desk' h hok hs => h.step hok hs
    rw [show desk = first from hinit]
    exact tended_first
  rintro m ⟨hproject, l, hl, hpanel⟩
  obtain ⟨sub, hsub, k, hk, hkm⟩ := hinv.homed m
    ⟨hproject, l, by rw [layoutOf, hl, Option.some_or], hpanel⟩
  have hnot := hinv.apart sub (.inl hsub)
  obtain ⟨q, htree, hq⟩ := (hinv.inv sub k hk hnot).exists_mirror (hinv.home sub k hk hnot) hkm
  exact ⟨(sub, q), hsub, k, hk, htree, hq⟩

/-! ## A panel with two mirrors, and one with none -/

/-- A project whose terminal is moved to a sub-workspace, and everything is saved. -/
def movedOver : List (Draw × Action) :=
  [(plainDraw, .create ⟨1⟩), (plainDraw, .switch ⟨1⟩),
    (plainDraw, .syncTo ⟨1⟩ ⟨1⟩ none none true ⟨⟨11⟩, ⟨12⟩, ⟨⟨10⟩, "Workspace 1"⟩⟩),
    (plainDraw, .save [⟨1⟩, ⟨10⟩]), (plainDraw, .saveSubs)]

def awayFrom (desk : Desk) (m : MirrorPanelConfig) : Bool :=
  desk.app.projects.contains m.project &&
    desk.app.workspaces[m.project]?.any fun l => l.away.contains m.panel

def shows (desk : Desk) (m : MirrorPanelConfig) (place : ProjectId × PanelId) : Bool :=
  desk.app.isSub place.1 && desk.app.workspaces[place.1]?.any fun l =>
    (treePanels l.tabs).contains place.2 && decide (l.kindOf place.2 = some (.mirror m))

theorem movedAway_of_awayFrom (h : desk.awayFrom m = true) : desk.MovedAway m := by
  rw [awayFrom, Bool.and_eq_true, List.contains_iff_mem, Option.any_eq_true] at h
  obtain ⟨hproject, l, hl, hpanel⟩ := h
  exact ⟨hproject, l, hl, List.contains_iff_mem.mp hpanel⟩

theorem shownAt_of_shows {place : ProjectId × PanelId} (h : desk.shows m place = true) :
    desk.ShownAt m place := by
  rw [shows, Bool.and_eq_true, isSub_iff, Option.any_eq_true] at h
  obtain ⟨hsub, l, hl, hshown⟩ := h
  rw [Bool.and_eq_true, decide_eq_true_eq] at hshown
  exact ⟨hsub, l, hl, List.contains_iff_mem.mp hshown.1, hshown.2⟩

/-- The app starts again, and the layout of another project cannot be read. -/
theorem noneStranded_of_careful_again : ∃ desk : Desk, desk.NoneStranded ∧
    desk.MovedAway ⟨⟨1⟩, ⟨1⟩⟩ ∧ desk.app.projects = [⟨1⟩, ⟨2⟩] := by
  obtain ⟨desk, hreach, hdesk⟩ := (Machine.Reach.init rfl :
    (machine id).Reach Careful first).exists_of_exec
      (movedOver ++ [(plainDraw, .create ⟨2⟩), (plainDraw, .restart true ∅),
        ({ plainDraw with answer := fun _ => .failed "locked" }, .switch ⟨2⟩)])
      (fun desk => desk.awayFrom ⟨⟨1⟩, ⟨1⟩⟩ && decide (desk.app.projects = [⟨1⟩, ⟨2⟩]))
      (by decide +kernel)
  rw [Bool.and_eq_true] at hdesk
  exact ⟨desk, noneStranded_of_careful id desk hreach, movedAway_of_awayFrom hdesk.1,
    of_decide_eq_true hdesk.2⟩

/-- Panels are shown in sub-workspaces, moved and sent back, panels, tabs and sub-workspaces are
closed, and all is saved before the app starts again. -/
def shifting (desk : Desk) : Draw × Action → Bool
  | (_, .create _) | (_, .switch _) | (_, .syncTo _ _ _ _ _ _) | (_, .moveTab _ _ _)
  | (_, .closePanel _ _ _) | (_, .closeTab _ _) | (_, .removeSub _) | (_, .save _)
  | (_, .saveSubs) => true
  | (_, .restart _ _) => decide desk.AllSaved
  | _ => false

def Shifting (desk : Desk) (choice : Draw × Action) : Prop := desk.shifting choice = true

instance : DecidableRel Shifting := fun _ _ => inferInstanceAs (Decidable (_ = true))

/-- A panel that one sub-workspace shows is moved to another one, so two mirrors show it; and
after a start without the list of sub-workspaces nothing shows it. -/
theorem not_oneMirror :
    (¬ ∀ (keyFor : PathBuf → String) (desk : Desk), (machine keyFor).Reach Shifting desk →
      desk.OneMirror) ∧
    ¬ ∀ (keyFor : PathBuf → String) (desk : Desk), (machine keyFor).Reach Shifting desk →
      desk.NoneStranded := by
  constructor
  · intro h
    obtain ⟨desk, hreach, hdesk⟩ := (Machine.Reach.init rfl :
      (machine id).Reach Shifting first).exists_of_exec
        ((plainDraw, .create ⟨1⟩) :: (plainDraw, .switch ⟨1⟩) ::
          (plainDraw, .syncTo ⟨1⟩ ⟨1⟩ none none false ⟨⟨21⟩, ⟨22⟩, ⟨⟨20⟩, "Workspace 2"⟩⟩) ::
            movedOver.drop 2)
        (fun desk => desk.awayFrom ⟨⟨1⟩, ⟨1⟩⟩ && (desk.shows ⟨⟨1⟩, ⟨1⟩⟩ (⟨10⟩, ⟨11⟩) &&
          desk.shows ⟨⟨1⟩, ⟨1⟩⟩ (⟨20⟩, ⟨21⟩)))
        (by decide +kernel)
    rw [Bool.and_eq_true, Bool.and_eq_true] at hdesk
    obtain ⟨place, -, hunique⟩ := h id desk hreach _ (movedAway_of_awayFrom hdesk.1)
    have hfirst := hunique _ (shownAt_of_shows hdesk.2.1)
    have hsecond := hunique _ (shownAt_of_shows hdesk.2.2)
    exact absurd (hfirst.trans hsecond.symm) (by decide)
  · intro h
    obtain ⟨desk, hreach, hdesk⟩ := (Machine.Reach.init rfl :
      (machine id).Reach Shifting first).exists_of_exec
        (movedOver ++ [(plainDraw, .restart false ∅)])
        (fun desk => desk.awayFrom ⟨⟨1⟩, ⟨1⟩⟩ && desk.app.subs.isEmpty) (by decide +kernel)
    rw [Bool.and_eq_true, List.isEmpty_iff] at hdesk
    obtain ⟨place, hsub, -⟩ := h id desk hreach _ (movedAway_of_awayFrom hdesk.1)
    rw [hdesk.2] at hsub
    cases hsub

end Desk

end Throng
