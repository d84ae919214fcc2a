import Throng.App.DeskShown
import Throng.Core.LayoutMirrors

/-!
# Panels that are away have mirrors

A panel that was moved is away: its project has it in no tab, and a sub-workspace has a
mirror of it. Where an operation takes a mirror, its panel comes back, or goes, or is excused;
where it sends a panel away, the mirror is there before.
-/

namespace Throng

namespace AppState

variable {out : Outside} {S : ProjectId → Prop} {T : ProjectId → Option Layout}
  {E E' : MirrorPanelConfig → Prop} {app app' app'' : AppState} {id project : ProjectId}
  {p : PanelId} {m : MirrorPanelConfig} {l : Layout}

/-- The layout of a workspace, where `T` has those that are not loaded. -/
def layoutOf (T : ProjectId → Option Layout) (app : AppState) (id : ProjectId) : Option Layout :=
  app.workspaces[id]?.or (T id)

/-- A project has its panel away. -/
def Away (T : ProjectId → Option Layout) (app : AppState) (m : MirrorPanelConfig) : Prop :=
  m.project ∈ app.projects ∧ ∃ l, app.layoutOf T m.project = some l ∧ m.panel ∈ l.away

/-- A sub-workspace has a mirror of the panel. -/
def Mirrored (app : AppState) (m : MirrorPanelConfig) : Prop :=
  ∃ sub ∈ app.subs.map SubWorkspace.id, app.Holds sub fun l => l.Mirrors m

def Homed (T : ProjectId → Option Layout) (app : AppState) : Prop :=
  ∀ m, app.Away T m → app.Mirrored m

/-- What is held of layouts so that mirrors are not lost: those of sub-workspaces satisfy the
invariant, and the others are such as are loaded. -/
structure Fit (out : Outside) (S : ProjectId → Prop) (T : ProjectId → Option Layout)
    (app : AppState) : Prop extends Sound out S app where
  loadable : ∀ (id : ProjectId) (l : Layout), app.workspaces[id]? = some l → l.Loadable
  inv : ∀ (id : ProjectId) (l : Layout), app.workspaces[id]? = some l → id ∉ app.projects → l.Inv
  kept : ∀ (id : ProjectId) (l : Layout), out.store.layout id = .ok (.loaded l) →
    T id = some l ∧ l.Loadable ∧ (S id → l.Inv)
  made : ∀ id, (out.fresh id).Inv

/-- `app'` comes from `app` by something that sends no panel away. Where it takes the last
mirror of a panel, the panel is not away afterwards, or it is one of `E`. -/
structure Tends (out : Outside) (S : ProjectId → Prop) (T : ProjectId → Option Layout)
    (E : MirrorPanelConfig → Prop) (app app' : AppState) : Prop where
  fit : Fit out S T app'
  projects : app'.projects = app.projects
  away : ∀ m, app'.Away T m → app.Away T m
  mirrored : ∀ m, app.Mirrored m → app'.Mirrored m ∨ E m ∨ ¬ app'.Away T m

theorem Tends.refl (h : Fit out S T app) : Tends out S T E app app :=
  ⟨h, rfl, fun _ haway => haway, fun _ hmirrored => .inl hmirrored⟩

theorem Tends.trans (h : Tends out S T E app app') (h' : Tends out S T E app' app'') :
    Tends out S T E app app'' where
  fit := h'.fit
  projects := h'.projects.trans h.projects
  away m haway := h.away m (h'.away m haway)
  mirrored m hmirrored := by
    rcases h.mirrored m hmirrored with hstill | hexcused | hback
    · exact h'.mirrored m hstill
    · exact .inr (.inl hexcused)
    · exact .inr (.inr fun haway => hback (h'.away m haway))

/-- A panel that is not away needs no excuse. -/
theorem Tends.excuse (h : Tends out S T E' app app') (hE : ∀ m, E' m → ¬ app.Away T m) :
    Tends out S T E app app' :=
  { h with
    mirrored := by
      intro m hmirrored
      rcases h.mirrored m hmirrored with hstill | hexcused | hback
      · exact .inl hstill
      · exact .inr (.inr fun haway => hE m hexcused (h.away m haway))
      · exact .inr (.inr hback) }

theorem Tends.homed (h : Tends out S T (fun _ => False) app app') (hhomed : app.Homed T) :
    app'.Homed T := by
  intro m haway
  rcases h.mirrored m (hhomed m (h.away m haway)) with hstill | hexcused | hback
  · exact hstill
  · cases hexcused
  · exact absurd haway hback

theorem tends_foldl {α : Type} {f : AppState → α → AppState} (as : List α)
    (hf : ∀ app, ∀ a ∈ as, Fit out S T app → Tends out S T E app (f app a))
    (h : Fit out S T app) : Tends out S T E app (as.foldl f app) :=
  List.foldl_keeps (P := fun app' => Tends out S T E app app')
    (fun app' a ha h' => h'.trans (hf app' a ha h'.fit)) (.refl h)

/-- Documents are no matter. -/
theorem Fit.tends_same (h : Fit out S T app) (hworkspaces : app'.workspaces = app.workspaces)
    (hprojects : app'.projects = app.projects) (hsubs : app'.subs = app.subs) :
    Tends out S T E app app' where
  fit :=
    { ids := by rw [hworkspaces]; exact h.ids
      home := by rw [hworkspaces, hprojects]; exact h.home
      stored := h.stored
      fresh := h.fresh
      subs := by rw [hsubs]; exact h.subs
      apart := by rw [hprojects]; exact h.apart
      distinct := by rw [hsubs]; exact h.distinct
      loadable := by rw [hworkspaces]; exact h.loadable
      inv := by rw [hworkspaces, hprojects]; exact h.inv
      kept := h.kept
      made := h.made }
  projects := hprojects
  away m haway := by
    rw [Away, layoutOf, hworkspaces, hprojects] at haway
    exact haway
  mirrored m hmirrored := by
    left
    rw [Mirrored, hsubs]
    obtain ⟨sub, hsub, k, hk, hm⟩ := hmirrored
    exact ⟨sub, hsub, k, by rw [hworkspaces]; exact hk, hm⟩

theorem layoutOf_insert (l' : Layout) (other : ProjectId) :
    layoutOf T { app with workspaces := app.workspaces.insert id l' } other =
      if other = id then some l' else app.layoutOf T other := by
  rw [layoutOf, layoutOf]
  dsimp only
  rw [getElem?_insert_layout]
  split_ifs
  · exact Option.some_or
  · rfl

theorem Fit.insert_layout (h : Fit out S T app) {l' : Layout} (hids : l'.Ids)
    (hloadable : l'.Loadable) (hsub : id ∉ app.projects → l'.Inv ∧ l'.away = []) :
    Fit out S T { app with workspaces := app.workspaces.insert id l' } where
  toSound := h.toSound.insert_layout hids fun hproject => (hsub hproject).2
  loadable other k hk := by
    rw [getElem?_insert_layout] at hk
    split_ifs at hk
    · cases hk
      exact hloadable
    · exact h.loadable other k hk
  inv other k hk hother := by
    rw [getElem?_insert_layout] at hk
    split_ifs at hk with heq
    · cases hk
      exact (hsub (heq ▸ hother)).1
    · exact h.inv other k hk hother
  kept := h.kept
  made := h.made

/-- One layout becomes another that has no other panel away. -/
theorem Fit.tends_insert (h : Fit out S T app) {l' : Layout} (hids : l'.Ids)
    (hloadable : l'.Loadable) (hsub : id ∉ app.projects → l'.Inv ∧ l'.away = [])
    (haway : ∀ q ∈ l'.away, ∃ l, app.layoutOf T id = some l ∧ q ∈ l.away)
    (hmirrors : id ∈ app.subs.map SubWorkspace.id → ∀ l m, app.workspaces[id]? = some l →
      l.Mirrors m → l'.Mirrors m ∨ E m) :
    Tends out S T E app { app with workspaces := app.workspaces.insert id l' } where
  fit := h.insert_layout hids hloadable hsub
  projects := rfl
  away m hm := by
    obtain ⟨hproject, k, hk, hpanel⟩ := hm
    rw [layoutOf_insert] at hk
    refine ⟨hproject, ?_⟩
    split_ifs at hk with heq
    · cases hk
      rw [heq]
      exact haway m.panel hpanel
    · exact ⟨k, hk, hpanel⟩
  mirrored m hm := by
    obtain ⟨sub, hmem, k, hk, hkm⟩ := hm
    by_cases heq : sub = id
    · subst heq
      rcases hmirrors hmem k m hk hkm with hstill | hexcused
      · exact .inl ⟨sub, hmem, l', by rw [getElem?_insert_layout, if_pos rfl], hstill⟩
      · exact .inr (.inl hexcused)
    · refine .inl ⟨sub, hmem, k, ?_, hkm⟩
      rw [getElem?_insert_layout, if_neg heq]
      exact hk

/-! ## Loading -/

theorem load_cases (out : Outside) (app : AppState) (id : ProjectId) :
    app.loadWorkspace out id = app ∧
        (id ∈ app.workspaces ∨ id ∉ app.projects ∧ id ∉ app.subs.map SubWorkspace.id) ∨
      app.workspaces[id]? = none ∧ (id ∈ app.projects ∨ id ∈ app.subs.map SubWorkspace.id) ∧
        ∃ l', app.loadWorkspace out id =
            { app with workspaces := app.workspaces.insert id l' } ∧
          ((∀ l, out.store.layout id ≠ .ok (.loaded l)) ∧ l' = out.fresh id ∨
            ∃ l, out.store.layout id = .ok (.loaded l) ∧ l' = l.pruneOrphans.1) := by
  rw [loadWorkspace, App.loadWorkspace]
  split_ifs with hloaded hknown
  · exact .inl ⟨rfl, .inl (Std.ExtTreeMap.contains_iff_mem.mp hloaded)⟩
  · exact .inl ⟨rfl, .inr hknown⟩
  · refine .inr ⟨?_, ?_, _, rfl, ?_⟩
    · rw [Std.ExtTreeMap.contains_iff_mem] at hloaded
      exact Std.ExtTreeMap.getElem?_eq_none hloaded
    · rwa [not_and_or, not_not, not_not] at hknown
    · split
      · next l hl => exact .inr ⟨l, hl, rfl⟩
      · next hnot => exact .inl ⟨hnot, rfl⟩

/-- A workspace that there is is loaded. -/
theorem exists_of_load (hknown : id ∈ app.projects ∨ id ∈ app.subs.map SubWorkspace.id) :
    ∃ l, (app.loadWorkspace out id).workspaces[id]? = some l := by
  rcases app.load_cases out id with ⟨heq, hloaded | hnot⟩ | ⟨-, -, l', heq, -⟩
  · rw [heq]
    exact Option.isSome_iff_exists.mp (Std.ExtTreeMap.mem_iff_isSome_getElem?.mp hloaded)
  · exact absurd hknown (not_or.mpr hnot)
  · rw [heq]
    exact ⟨l', by rw [getElem?_insert_layout, if_pos rfl]⟩

theorem Fit.tends_load (h : Fit out S T app) (id : ProjectId) :
    Tends out S T E app (app.loadWorkspace out id) := by
  rcases app.load_cases out id with ⟨heq, -⟩ | ⟨hnone, hknown, l', heq, hl'⟩
  · rw [heq]
    exact .refl h
  · rw [heq]
    have hsub : id ∉ app.projects → S id := fun hproject => h.subs id (hknown.resolve_left hproject)
    have hmirrors : id ∈ app.subs.map SubWorkspace.id → ∀ l m, app.workspaces[id]? = some l →
        l.Mirrors m → l'.Mirrors m ∨ E m := by
      intro _ l m hl
      rw [hnone] at hl
      cases hl
    rcases hl' with ⟨-, rfl⟩ | ⟨l, hl, rfl⟩
    · obtain ⟨hids, haway⟩ := h.fresh id
      refine h.tends_insert hids (h.made id).loadable (fun _ => ⟨h.made id, haway⟩) ?_ hmirrors
      rw [haway]
      intro q hq
      cases hq
    · obtain ⟨hids, haway⟩ := h.stored id l hl
      obtain ⟨hT, hloadable, hinv⟩ := h.kept id l hl
      refine h.tends_insert hids.pruneOrphans hloadable.pruneOrphans (fun hproject => ?_)
        (fun q hq => ?_) hmirrors
      · refine ⟨(hinv (hsub hproject)).pruneOrphans, ?_⟩
        rw [Layout.pruneOrphans, haway (hsub hproject)]
        rfl
      · refine ⟨l, ?_, l.subset_away_pruneOrphans q hq⟩
        rw [layoutOf, hnone, Option.none_or, hT]

/-! ## Closing -/

/-- Panels can come back to every layout there is, and to those that are stored. -/
structure Room (out : Outside) (app : AppState) : Prop where
  loaded : ∀ (id : ProjectId) (l : Layout), app.workspaces[id]? = some l → l.Roomy
  stored : ∀ (id : ProjectId) (l : Layout), out.store.layout id = .ok (.loaded l) → l.Roomy
  fresh : ∀ id, (out.fresh id).Roomy

theorem Room.insert_layout (h : Room out app) {l' : Layout} (hl' : l'.Roomy) :
    Room out { app with workspaces := app.workspaces.insert id l' } :=
  { h with
    loaded := by
      intro other k hk
      rw [getElem?_insert_layout] at hk
      split_ifs at hk
      · cases hk
        exact hl'
      · exact h.loaded other k hk }

theorem Room.erase_layout (h : Room out app) (id : ProjectId) :
    Room out { app with workspaces := app.workspaces.erase id } :=
  { h with
    loaded := by
      intro other k hk
      rw [getElem?_erase_layout] at hk
      split_ifs at hk
      exact h.loaded other k hk }

theorem Room.of_workspaces (h : Room out app) (hworkspaces : app'.workspaces = app.workspaces) :
    Room out app' :=
  { h with loaded := by rw [hworkspaces]; exact h.loaded }

/-- `Tends`, and there is room as before. -/
structure Clears (out : Outside) (S : ProjectId → Prop) (T : ProjectId → Option Layout)
    (E : MirrorPanelConfig → Prop) (app app' : AppState) : Prop
    extends Tends out S T E app app' where
  room : Room out app'

theorem Clears.refl (h : Fit out S T app) (hroom : Room out app) : Clears out S T E app app :=
  ⟨.refl h, hroom⟩

theorem Clears.trans (h : Clears out S T E app app') (h' : Clears out S T E app' app'') :
    Clears out S T E app app'' :=
  ⟨h.toTends.trans h'.toTends, h'.room⟩

theorem Clears.excuse (h : Clears out S T E' app app') (hE : ∀ m, E' m → ¬ app.Away T m) :
    Clears out S T E app app' :=
  ⟨h.toTends.excuse hE, h.room⟩

theorem clears_foldl {α : Type} {f : AppState → α → AppState} (as : List α)
    (hf : ∀ app, ∀ a ∈ as, Fit out S T app → Room out app → Clears out S T E app (f app a))
    (h : Fit out S T app) (hroom : Room out app) : Clears out S T E app (as.foldl f app) :=
  List.foldl_keeps (P := fun app' => Clears out S T E app app')
    (fun app' a ha h' => h'.trans (hf app' a ha h'.fit h'.room)) (.refl h hroom)

theorem Fit.clears_load (h : Fit out S T app) (hroom : Room out app) (id : ProjectId) :
    Clears out S T E app (app.loadWorkspace out id) := by
  refine ⟨h.tends_load id, ?_⟩
  rcases app.load_cases out id with ⟨heq, -⟩ | ⟨-, -, l', heq, ⟨-, rfl⟩ | ⟨l, hl, rfl⟩⟩
  · rw [heq]
    exact hroom
  · rw [heq]
    exact hroom.insert_layout (hroom.fresh id)
  · rw [heq]
    exact hroom.insert_layout (hroom.stored id l hl).pruneOrphans

/-- A panel that comes back is away no longer. -/
theorem Fit.clears_returnHome (h : Fit out S T app) (hroom : Room out app) (project : ProjectId)
    (p : PanelId) : Clears out S T E app (app.returnHome out project p) ∧
      ¬ (app.returnHome out project p).Away T ⟨project, p⟩ := by
  have hload : Clears out S T E app (app.loadWorkspace out project) :=
    h.clears_load hroom project
  have hknown : project ∈ app.projects →
      ∃ l, (app.loadWorkspace out project).workspaces[project]? = some l :=
    fun hproject => exists_of_load (.inl hproject)
  have hprojects := hload.projects
  have hfit := hload.fit
  have hroom₁ := hload.room
  rw [returnHome]
  generalize app.loadWorkspace out project = app₁ at hload hknown hprojects hfit hroom₁ ⊢
  cases hl : app₁.workspaces[project]? with
  | none =>
      rw [modify_of_none hl]
      refine ⟨hload, fun haway => ?_⟩
      obtain ⟨l, hl'⟩ := hknown (hprojects ▸ haway.1)
      rw [hl] at hl'
      cases hl'
  | some l =>
      rw [modify_eq_insert hl]
      have hloadable := hfit.loadable project l hl
      obtain ⟨back, hback, hroomy, haway⟩ :=
        (hroom₁.loaded project l hl).bringBack hloadable.placed.of_append_right p (out.tabId p)
      obtain ⟨hpanels, hleft⟩ := Layout.bringBack_frame hback
      rw [hback]
      dsimp only
      refine ⟨hload.trans ⟨hfit.tends_insert ((hfit.ids project l hl).of_panels hpanels)
        (hloadable.bringBack hback) (fun hproject => ?_) (fun q hq => ?_) fun _ k m hk hm => ?_,
        hroom₁.insert_layout hroomy⟩, ?_⟩
      · have hnil := hfit.home project l hl hproject
        have hsame : l.bringBack p (out.tabId p) = some (l, false) :=
          Layout.bringBack_of_not_away (by rw [hnil]; exact List.not_mem_nil)
        rw [hback] at hsame
        cases hsame
        exact ⟨hfit.inv project l hl hproject, hnil⟩
      · refine ⟨l, by rw [layoutOf, hl, Option.some_or], ?_⟩
        rw [hleft] at hq
        exact List.mem_of_mem_erase hq
      · cases hl.symm.trans hk
        exact .inl (hm.of_panels hpanels)
      · rintro ⟨-, k, hk, hp⟩
        rw [layoutOf_insert, if_pos rfl] at hk
        cases hk
        exact haway hp

theorem Fit.clears_returnMirrored (h : Fit out S T app) (hroom : Room out app) (panel : Panel) :
    Clears out S T E app (app.returnMirrored out panel) := by
  rw [returnMirrored]
  split
  · exact (h.clears_returnHome hroom _ _).1
  · exact .refl h hroom

theorem Fit.clears_same (h : Fit out S T app) (hroom : Room out app)
    (hworkspaces : app'.workspaces = app.workspaces) (hprojects : app'.projects = app.projects)
    (hsubs : app'.subs = app.subs) : Clears out S T E app app' :=
  ⟨h.tends_same hworkspaces hprojects hsubs, hroom.of_workspaces hworkspaces⟩

theorem frame_dropUnshown (app : AppState) (panel : Panel) :
    (app.dropUnshown out panel).projects = app.projects ∧
      (app.dropUnshown out panel).subs = app.subs := by
  rw [dropUnshown]
  split
  · split_ifs
    · exact ⟨rfl, rfl⟩
    · exact ⟨rfl, rfl⟩
  · exact ⟨rfl, rfl⟩

theorem Fit.clears_dropUnshown (h : Fit out S T app) (hroom : Room out app) (panel : Panel) :
    Clears out S T E app (app.dropUnshown out panel) :=
  h.clears_same hroom (workspaces_dropUnshown app panel) (frame_dropUnshown app panel).1
    (frame_dropUnshown app panel).2

theorem Fit.erase_layout (h : Fit out S T app) (id : ProjectId) :
    Fit out S T { app with workspaces := app.workspaces.erase id } where
  toSound := h.toSound.erase_layout id
  loadable other k hk := by
    rw [getElem?_erase_layout] at hk
    split_ifs at hk
    exact h.loadable other k hk
  inv other k hk := by
    rw [getElem?_erase_layout] at hk
    split_ifs at hk
    exact h.inv other k hk
  kept := h.kept
  made := h.made

theorem indifferent_mirrors (m : MirrorPanelConfig) : Indifferent fun l => l.Mirrors m :=
  fun _ _ _ _ hback hm => hm.of_panels (Layout.bringBack_frame hback).1

/-- The layout of a sub-workspace goes. -/
theorem Fit.clears_erase (h : Fit out S T app) (hroom : Room out app) (hid : id ∉ app.projects) :
    Clears out S T (fun _ => True) app { app with workspaces := app.workspaces.erase id } where
  fit := h.erase_layout id
  projects := rfl
  away m haway := by
    obtain ⟨hproject, l, hl, hpanel⟩ := haway
    refine ⟨hproject, l, ?_, hpanel⟩
    rw [layoutOf] at hl ⊢
    dsimp only at hl
    rwa [getElem?_erase_layout, if_neg] at hl
    rintro rfl
    exact hid hproject
  mirrored _ _ := .inr (.inl trivial)
  room := hroom.erase_layout id

theorem Fit.clears_eraseSub (h : Fit out S T app) (hroom : Room out app) (id : ProjectId) :
    Clears out S T (fun _ => True) app
      { app with subs := app.subs.eraseP fun sub => sub.id = id } where
  fit :=
    { (h.toSound.eraseSub id).sound with
      loadable := h.loadable
      inv := h.inv
      kept := h.kept
      made := h.made }
  projects := rfl
  away _ haway := haway
  mirrored _ _ := .inr (.inl trivial)
  room := hroom.of_workspaces rfl

theorem subs_loadWorkspace (app : AppState) (id : ProjectId) :
    (app.loadWorkspace out id).subs = app.subs := by
  rcases app.load_cases out id with ⟨heq, -⟩ | ⟨-, -, l', heq, -⟩ <;> rw [heq]

theorem subs_returnMirrored (app : AppState) (panel : Panel) :
    (app.returnMirrored out panel).subs = app.subs := by
  rw [returnMirrored]
  split
  · next m _ => exact app.subs_loadWorkspace m.project
  · rfl

theorem subs_foldl {f : AppState → Panel → AppState}
    (hf : ∀ app panel, (f app panel).subs = app.subs)
    (panels : List Panel) (app : AppState) : (panels.foldl f app).subs = app.subs :=
  List.foldl_keeps (P := fun app' : AppState => app'.subs = app.subs)
    (fun app' panel _ h => (hf app' panel).trans h) rfl

/-- Of the panels whose mirrors are returned none is away afterwards. -/
theorem Fit.returned (h : Fit out S T app) (hroom : Room out app) {panels : List Panel}
    {record : Panel} (hmem : record ∈ panels) (hkind : record.kind = .mirror m) :
    ¬ (panels.foldl (fun (app : AppState) panel => app.returnMirrored out panel) app).Away T m := by
  have hstep : ∀ (app : AppState) (panel : Panel), Fit out S T app → Room out app →
      Clears out S T (fun _ => True) app (app.returnMirrored out panel) :=
    fun app panel hfit hroom => hfit.clears_returnMirrored hroom panel
  refine (List.foldl_settles_of (I := fun app => Fit out S T app ∧ Room out app)
    (P := fun app => (Fit out S T app ∧ Room out app) ∧ ¬ app.Away T m) hmem ?_ ?_ ?_ ⟨h, hroom⟩).2
  · rintro app panel _ ⟨hfit, hroom⟩
    exact ⟨(hstep app panel hfit hroom).fit, (hstep app panel hfit hroom).room⟩
  · rintro app panel _ ⟨⟨hfit, hroom⟩, haway⟩
    have hnext := hstep app panel hfit hroom
    exact ⟨⟨hnext.fit, hnext.room⟩, fun haway' => haway (hnext.away m haway')⟩
  · rintro app ⟨hfit, hroom⟩
    have hnext := hstep app record hfit hroom
    refine ⟨⟨hnext.fit, hnext.room⟩, ?_⟩
    rw [returnMirrored, hkind]
    exact (@Fit.clears_returnHome out S T (fun _ => True) app hfit hroom m.project m.panel).2

/-- A sub-workspace that is destroyed sends home the panels that it has mirrors of. -/
theorem Fit.clears_removeSub (h : Fit out S T app) (hroom : Room out app)
    (hid : id ∉ app.projects) : Clears out S T E app (app.removeSub out id) := by
  have hload : Clears out S T (fun _ => True) app (app.loadWorkspace out id) :=
    h.clears_load hroom id
  have hholds : ∀ other m, other ≠ id → app.Holds other (fun l => l.Mirrors m) →
      (app.removeSub out id).Holds other fun l => l.Mirrors m :=
    fun other m hne hholds => hholds.removeSub (indifferent_mirrors m) hne
  have hsame : ∀ m, app.Holds id (fun l => l.Mirrors m) →
      (app.loadWorkspace out id).Holds id fun l => l.Mirrors m :=
    fun m hholds => hholds.loadWorkspace out id
  have hsubs := @subs_loadWorkspace out app id
  have hfit := hload.fit
  have hroom₁ := hload.room
  have hid₁ : id ∉ (app.loadWorkspace out id).projects := hload.projects ▸ hid
  -- What goes from the list is the sub-workspace alone.
  have hleft : ∀ subs : List SubWorkspace, subs = app.subs → ∀ other ≠ id,
      other ∈ app.subs.map SubWorkspace.id →
        other ∈ (subs.eraseP fun sub => sub.id = id).map SubWorkspace.id := by
    rintro subs rfl other hne hother
    rw [map_eraseP_subs]
    exact (List.mem_erase_of_ne hne).mpr hother
  rw [removeSub] at hholds ⊢
  generalize app.loadWorkspace out id = app₁ at hload hholds hsame hsubs hfit hroom₁ hid₁ ⊢
  dsimp only at hholds ⊢
  cases hl : app₁.workspaces[id]? with
  | none =>
      rw [hl] at hholds
      have herase := hload.trans (hfit.clears_eraseSub hroom₁ id)
      refine { herase with mirrored := fun m hm => .inl ?_ }
      obtain ⟨other, hother, hholds'⟩ := hm
      have hne : other ≠ id := by
        rintro rfl
        obtain ⟨k, hk, -⟩ := hsame m hholds'
        rw [hl] at hk
        cases hk
      exact ⟨other, hleft app₁.subs hsubs other hne hother, hholds other m hne hholds'⟩
  | some l =>
      rw [hl] at hholds
      dsimp only at hholds ⊢
      have herase := hfit.clears_erase hroom₁ hid₁
      have hback : ∀ m, l.Mirrors m → ¬ ((l.panels.toList.map Prod.snd).foldl
          (fun (app : AppState) panel => app.returnMirrored out panel)
            { app₁ with workspaces := app₁.workspaces.erase id }).Away T m := by
        intro m hm
        obtain ⟨q, hq⟩ := hm
        obtain ⟨record, hrecord, hkind⟩ := Layout.kindOf_eq_some.mp hq
        refine herase.fit.returned herase.room (List.mem_map.mpr ⟨(q, record), ?_, rfl⟩) hkind
        exact Std.ExtTreeMap.mem_toList_iff_getElem?_eq_some.mpr hrecord
      have hsubs₃ := subs_foldl (@subs_returnMirrored out) (l.panels.toList.map Prod.snd)
        { app₁ with workspaces := app₁.workspaces.erase id }
      have hreturn : Clears out S T (fun _ => True) _ ((l.panels.toList.map Prod.snd).foldl
          (fun (app : AppState) panel => app.returnMirrored out panel)
            { app₁ with workspaces := app₁.workspaces.erase id }) :=
        clears_foldl _ (fun app panel _ h hroom => h.clears_returnMirrored hroom panel)
          herase.fit herase.room
      generalize (l.panels.toList.map Prod.snd).foldl
        (fun (app : AppState) panel => app.returnMirrored out panel)
          { app₁ with workspaces := app₁.workspaces.erase id } = app₃
        at hholds hback hsubs₃ hreturn ⊢
      have hsubs₄ := subs_foldl (f := fun app panel => app.dropUnshown out panel)
        (fun app panel => (frame_dropUnshown app panel).2) (l.panels.toList.map Prod.snd) app₃
      have hdrop : Clears out S T (fun _ => True) app₃ ((l.panels.toList.map Prod.snd).foldl
          (fun (app : AppState) panel => app.dropUnshown out panel) app₃) :=
        clears_foldl _ (fun app panel _ h hroom => h.clears_dropUnshown hroom panel)
          hreturn.fit hreturn.room
      generalize (l.panels.toList.map Prod.snd).foldl
        (fun (app : AppState) panel => app.dropUnshown out panel) app₃ = app₄
        at hholds hsubs₄ hdrop ⊢
      have hsub := hdrop.fit.clears_eraseSub hdrop.room id
      have hall := hload.trans (herase.trans (hreturn.trans (hdrop.trans hsub)))
      refine { hall with mirrored := fun m hm => ?_ }
      obtain ⟨other, hother, hholds'⟩ := hm
      by_cases heq : other = id
      · subst heq
        obtain ⟨k, hk, hkm⟩ := hsame m hholds'
        cases hl.symm.trans hk
        exact .inr (.inr fun haway => hback m hkm (hdrop.away m (hsub.away m haway)))
      · refine .inl ⟨other, ?_, hholds other m heq hholds'⟩
        exact hleft app₄.subs (hsubs₄.trans (hsubs₃.trans hsubs)) other heq hother

/-! ## Mirrors that are taken -/

/-- The mirrors of a project's panels go from a layout. -/
theorem Fit.clears_removePanels (h : Fit out S T app) (hroom : Room out app)
    (hl : app.workspaces[id]? = some l) (removed : List PanelId)
    (hE : ∀ q ∈ removed, ∀ m, l.kindOf q = some (.mirror m) → E m) :
    Clears out S T E app { app with
      workspaces := app.workspaces.insert id
        (removed.foldl (fun l q => (l.removePanel q).1) l) } := by
  obtain ⟨hids, haway, hkinds⟩ := l.removePanels_frame removed
  have hloadable : (removed.foldl (fun l q => (l.removePanel q).1) l).Loadable :=
    List.foldl_keeps (P := Layout.Loadable) (fun l q _ h => h.removePanel q)
      (h.loadable id l hl)
  have hroomy : (removed.foldl (fun l q => (l.removePanel q).1) l).Roomy :=
    List.foldl_keeps (P := Layout.Roomy) (fun l q _ h => h.removePanel q) (hroom.loaded id l hl)
  refine ⟨h.tends_insert (hids (h.ids id l hl)) hloadable (fun hproject => ⟨?_, ?_⟩)
    (fun q hq => ?_) (fun _ k m hk hm => ?_), hroom.insert_layout hroomy⟩
  · exact List.foldl_keeps (P := Layout.Inv) (fun l q _ h => h.removePanel q)
      (h.inv id l hl hproject)
  · refine List.eq_nil_iff_forall_not_mem.mpr fun q hq => ?_
    have hmem := ((haway q).mp hq).1
    rw [h.home id l hl hproject] at hmem
    cases hmem
  · exact ⟨l, by rw [layoutOf, hl, Option.some_or], ((haway q).mp hq).1⟩
  · cases hl.symm.trans hk
    obtain ⟨q, hq⟩ := hm
    by_cases hmem : q ∈ removed
    · exact .inr (hE q hmem m hq)
    · exact .inl ⟨q, (hkinds q hmem).trans hq⟩

theorem Fit.clears_dropMirrorsIn (h : Fit out S T app) (hroom : Room out app)
    (panel : Option PanelId) (hid : id ∉ app.projects)
    (hE : ∀ m : MirrorPanelConfig, m.project = project →
      (panel.all fun panel => panel = m.panel) = true → E m) :
    Clears out S T E app (app.dropMirrorsIn out project panel id) := by
  have hload : Clears out S T E app (app.loadWorkspace out id) := h.clears_load hroom id
  have hid₁ : id ∉ (app.loadWorkspace out id).projects := hload.projects ▸ hid
  refine hload.trans ?_
  have hfit := hload.fit
  have hroom₁ := hload.room
  rw [dropMirrorsIn]
  generalize app.loadWorkspace out id = app₁ at hfit hroom₁ hid₁ ⊢
  dsimp only
  cases hl : app₁.workspaces[id]? with
  | none => exact .refl hfit hroom₁
  | some l =>
      dsimp only
      have hremove : Clears out S T E app₁ _ := hfit.clears_removePanels hroom₁ hl
        (l.mirrorsOf project panel) fun q hq m hm => by
          obtain ⟨m', hm', hproject, hpanel⟩ :=
            (Layout.mem_mirrorsOf (hfit.ids id l hl)).mp hq
          cases hm.symm.trans hm'
          exact hE m hproject hpanel
      split_ifs
      · exact .refl hfit hroom₁
      · exact hremove.trans (hremove.fit.clears_removeSub hremove.room hid₁)
      · exact hremove

theorem Fit.clears_dropMirrors (h : Fit out S T app) (hroom : Room out app)
    (panel : Option PanelId) (hE : ∀ m : MirrorPanelConfig, m.project = project →
      (panel.all fun panel => panel = m.panel) = true → E m) :
    Clears out S T E app (app.dropMirrors out project panel) :=
  clears_foldl _ (fun _ id hid h' hroom => h'.clears_dropMirrorsIn hroom panel
    (h'.apart id (h.subs id hid)) hE) h hroom

theorem Fit.clears_withoutPanel (h : Fit out S T app) (hroom : Room out app) (id : ProjectId)
    (p : PanelId) (hE : ∀ m, app.kindOf id p = some (.mirror m) → E m) :
    Clears out S T E app (app.withoutPanel id p) := by
  rw [withoutPanel]
  cases hl : app.workspaces[id]? with
  | none =>
      rw [modify_of_none hl]
      exact .refl h hroom
  | some l =>
      rw [modify_eq_insert hl]
      refine h.clears_removePanels hroom hl [p] fun q hq m hm => ?_
      rw [List.mem_singleton.mp hq] at hm
      exact hE m (kindOf_eq_some.mpr ⟨l, hl, hm⟩)

/-- A panel that is taken is away no longer, where it was loaded. -/
theorem not_away_withoutPanel (hl : app.workspaces[id]? = some l) (p : PanelId) :
    ¬ (app.withoutPanel id p).Away T ⟨id, p⟩ := by
  rintro ⟨-, k, hk, hp⟩
  rw [withoutPanel, modify_eq_insert hl, layoutOf_insert, if_pos rfl] at hk
  cases hk
  exact (Layout.mem_away_removePanel_iff.mp hp).2 rfl

theorem Fit.clears_takePanel (h : Fit out S T app) (hroom : Room out app)
    (hl : app.workspaces[id]? = some l) (p : PanelId)
    (hE : ∀ m, app.kindOf id p = some (.mirror m) → E m) :
    Clears out S T E app (app.takePanel out id p) := by
  have hwithout : Clears out S T E app (app.withoutPanel id p) :=
    h.clears_withoutPanel hroom id p hE
  have hgone := @not_away_withoutPanel T app id l hl p
  refine hwithout.trans ?_
  have hfit := hwithout.fit
  have hroom₁ := hwithout.room
  rw [takePanel]
  generalize app.withoutPanel id p = app₁ at hgone hfit hroom₁ ⊢
  split_ifs with hsub
  · refine hfit.clears_removeSub hroom₁ (hfit.apart id (hfit.subs id ?_))
    exact List.contains_iff_mem.mp hsub
  · exact .refl hfit hroom₁
  · -- The mirrors that go are those of the panel itself.
    have hdrop : Clears out S T (fun m => m = ⟨id, p⟩) app₁ (app₁.dropMirrors out id (some p)) := by
      refine hfit.clears_dropMirrors hroom₁ (some p) fun m hproject hpanel => ?_
      have hp : p = m.panel := by simpa using hpanel
      rw [hp, ← hproject]
    exact hdrop.excuse fun m hm => hm ▸ hgone

theorem Fit.clears_closePanel (h : Fit out S T app) (hroom : Room out app) (id : ProjectId)
    (p : PanelId) (force : Bool) : Clears out S T E app (app.closePanel out id p force).1 := by
  rw [closePanel]
  cases hrecord : app.record id p with
  | none => exact .refl h hroom
  | some record =>
      have hp := kindOf_of_record hrecord
      obtain ⟨l, hl, -⟩ := kindOf_eq_some.mp hp
      have hsame : ∀ docs, Clears out S T E app { app with docs } :=
        fun docs => h.clears_same hroom rfl rfl rfl
      have hother : ∀ app' : AppState, app'.workspaces = app.workspaces →
          (∀ m, record.kind ≠ .mirror m) → Fit out S T app' → Room out app' →
            Clears out S T E app' (app'.takePanel out id p) := by
        intro app' hworkspaces hkind hfit hroom
        refine hfit.clears_takePanel hroom (by rw [hworkspaces]; exact hl) p fun m hm => ?_
        rw [kindOf, hworkspaces] at hm
        exact absurd (Option.some.inj (hp.symm.trans hm)) (hkind m)
      dsimp only
      split
      · next config hkind =>
          have hnot : ∀ m, record.kind ≠ .mirror m := by
            intro m hm
            cases hkind.symm.trans hm
          split
          · exact .refl h hroom
          · dsimp only
            split_ifs
            · have hdocs := hsame (app.docs.erase (Documents.panelKey out.keyFor p config.path))
              exact hdocs.trans (hother _ rfl hnot hdocs.fit hdocs.room)
            · exact hother app rfl hnot h hroom
      · next m hkind =>
          obtain ⟨hreturn, hback⟩ := @Fit.clears_returnHome out S T E app h hroom m.project m.panel
          have hstill : (app.returnHome out m.project m.panel).kindOf id p = some (.mirror m) :=
            kindOf_returnHome (hkind ▸ hp) m.project m.panel
          obtain ⟨k, hk, -⟩ := kindOf_eq_some.mp hstill
          have htake : Clears out S T (fun other => other = m)
              (app.returnHome out m.project m.panel)
                ((app.returnHome out m.project m.panel).takePanel out id p) := by
            refine hreturn.fit.clears_takePanel hreturn.room hk p fun other hother => ?_
            cases hstill.symm.trans hother
            rfl
          exact hreturn.trans (htake.excuse fun other hother => hother ▸ hback)
      · next hnone => exact hother app rfl hnone h hroom

theorem Fit.clears_closeTab (h : Fit out S T app) (hroom : Room out app) (id : ProjectId)
    (tab : TabId) : Clears out S T E app (app.closeTab out id tab).1 := by
  rw [closeTab]
  split_ifs
  · exact clears_foldl _ (fun app p _ h hroom => h.clears_closePanel hroom id p true) h hroom
  · exact .refl h hroom

end AppState

end Throng
