import Throng.App.DeskAway

/-!
# What sends panels away, and what leaves them

Opening and drawing change no mirror. A panel is sent away when a sub-workspace has a mirror
of it, and a deleted project takes the mirrors of its panels along.
-/

namespace Throng

namespace AppState

variable {out : Outside} {S : ProjectId → Prop} {T : ProjectId → Option Layout}
  {E : MirrorPanelConfig → Prop} {app app' : AppState} {id pid : ProjectId}
  {p : PanelId} {m : MirrorPanelConfig} {l : Layout}

/-! ## Operations on a layout -/

theorem Fit.tends_alter (h : Fit out S T app) {op : Layout.Op} (hop : op.grows = true)
    (hs : app.alter id op = some app') : Tends out S T E app app' := by
  rcases alter_cases hs with ⟨-, rfl⟩ | ⟨l, l', hl, hfresh, hl', rfl⟩
  · exact .refl h
  · have hgrows := Layout.grows_apply hop hfresh hl'
    refine h.tends_insert (hgrows.ids (h.ids id l hl)) ((h.loadable id l hl).step hfresh hl')
      (fun hproject => ?_) (fun q hq => ?_) fun _ k m hk hm => ?_
    · exact ⟨(h.inv id l hl hproject).step hfresh hl',
        hgrows.away.trans (h.home id l hl hproject)⟩
    · exact ⟨l, by rw [layoutOf, hl, Option.some_or], hgrows.away ▸ hq⟩
    · cases hl.symm.trans hk
      exact .inl (hm.of_kinds hgrows.kinds)

/-- A panel that is no mirror is given another kind. -/
theorem Fit.tends_setKind (h : Fit out S T app) {kind : PanelKind}
    (hp : ∀ m, app.kindOf id p ≠ some (.mirror m))
    (hs : app.alter id (.setKind p kind) = some app') : Tends out S T E app app' := by
  rcases alter_cases hs with ⟨-, rfl⟩ | ⟨l, l', hl, -, hl', rfl⟩
  · exact .refl h
  · cases hl'
    have hchanged := l.changed_setKind p kind
    refine h.tends_insert (hchanged.ids (h.ids id l hl)) ((h.loadable id l hl).setKind p kind)
      (fun hproject => ?_) (fun q hq => ?_) fun _ k m hk hm => ?_
    · exact ⟨(h.inv id l hl hproject).setKind p kind,
        hchanged.away.trans (h.home id l hl hproject)⟩
    · exact ⟨l, by rw [layoutOf, hl, Option.some_or], hchanged.away ▸ hq⟩
    · cases hl.symm.trans hk
      exact .inl (hm.setKind (fun hmirror => hp m (kindOf_eq_some.mpr ⟨l, hl, hmirror⟩)) kind)

theorem Fit.tends_openInEditor (h : Fit out S T app) {path : PathBuf} {anchor : Option PanelId}
    {new : PanelId × TabId} {result : AppState × Option PanelId}
    (hs : app.openInEditor out id path anchor new = some result) :
    Tends out S T E app result.1 := by
  rw [AppState.openInEditor] at hs
  split at hs
  · cases hs
    exact .refl h
  · split at hs
    · obtain ⟨app', halter, rfl⟩ := Option.map_eq_some_iff.mp hs
      exact h.tends_alter rfl halter
    · obtain ⟨app', halter, rfl⟩ := Option.map_eq_some_iff.mp hs
      exact h.tends_alter rfl halter

theorem Fit.tends_openAt (h : Fit out S T app) {path : PathBuf} {anchor : Option PanelId}
    {new : PanelId × TabId} {reading : Reading}
    (hs : app.openAt out id path anchor new reading = some app') : Tends out S T E app app' := by
  rw [AppState.openAt, Option.map_eq_some_iff] at hs
  obtain ⟨⟨app₁, panel⟩, hopen, rfl⟩ := hs
  have hstep : Tends out S T E app app₁ := h.tends_openInEditor hopen
  cases panel with
  | none => exact hstep
  | some panel => exact hstep.trans (hstep.fit.tends_same rfl rfl rfl)

theorem Fit.tends_openAtLine (h : Fit out S T app) {path : PathBuf} {anchor : Option PanelId}
    {new : PanelId × TabId} {reading : Reading}
    (hs : app.openAtLine out id path anchor new reading = some app') :
    Tends out S T E app app' := by
  have hread : Tends out S T E app (app.ensureFile out path reading) := h.tends_same rfl rfl rfl
  exact hread.trans (hread.fit.tends_openAt hs)

theorem Fit.tends_becomeEditor (h : Fit out S T app) {path : PathBuf}
    (hp : ∀ m, app.kindOf id p ≠ some (.mirror m))
    (hs : app.becomeEditor id p path = some app') : Tends out S T E app app' := by
  obtain ⟨app₁, hkind, hfocus⟩ := Option.bind_eq_some_iff.mp hs
  have hset : Tends out S T E app app₁ := h.tends_setKind hp hkind
  exact hset.trans (hset.fit.tends_alter rfl hfocus)

theorem Fit.tends_openHere (h : Fit out S T app) {path : PathBuf} {anchor : Option PanelId}
    {new : PanelId × TabId} (hp : ∀ m, app.kindOf id p ≠ some (.mirror m))
    (hs : app.openHere out id p path anchor new = some app') : Tends out S T E app app' := by
  rw [openHere] at hs
  split at hs
  · exact h.tends_becomeEditor hp hs
  · next key _ =>
      dsimp only at hs
      split at hs
      · obtain ⟨result, hopen, rfl⟩ := Option.map_eq_some_iff.mp hs
        exact h.tends_openInEditor hopen
      · split_ifs at hs
        · have hdocs : Tends out S T E app { app with docs := app.docs.erase key } :=
            h.tends_same rfl rfl rfl
          exact hdocs.trans (hdocs.fit.tends_becomeEditor hp hs)
        · exact h.tends_becomeEditor hp hs

theorem Fit.tends_dropFile (h : Fit out S T app) {path : PathBuf} {anchor : Option PanelId}
    {new : PanelId × TabId} (hp : ∀ m, app.kindOf id p ≠ some (.mirror m))
    (hs : app.dropFile out id p path anchor new = some app') : Tends out S T E app app' := by
  rw [dropFile] at hs
  split at hs
  · obtain ⟨result, hopen, rfl⟩ := Option.map_eq_some_iff.mp hs
    exact h.tends_openInEditor hopen
  · exact h.tends_becomeEditor hp hs

theorem Fit.tends_showEditor (h : Fit out S T app) (p : PanelId) (kind : PanelKind)
    (reading : Reading) : Tends out S T E app (app.showEditor out p kind reading) := by
  rw [AppState.showEditor.eq_def]
  split
  · exact h.tends_same rfl rfl rfl
  · exact h.tends_same rfl rfl rfl
  · exact .refl h

theorem Fit.tends_draw (h : Fit out S T app) (id : ProjectId) (p : PanelId) (reading : Reading) :
    Tends out S T E app (app.draw out id p reading) := by
  rw [draw]
  split
  · exact .refl h
  · split
    · next m _ =>
        split_ifs
        · have hload : Tends out S T E app (app.loadWorkspace out m.project) :=
            h.tends_load m.project
          dsimp only
          split
          · exact hload.trans (hload.fit.tends_showEditor _ _ _)
          · exact hload
        · exact .refl h
    · exact h.tends_showEditor _ _ _

/-! ## Moving -/

/-- A panel leaves its project when it has a mirror. -/
theorem Fit.leaveHome (h : Fit out S T app) (hpid : pid ∈ app.projects)
    (hmirrored : app.Mirrored ⟨pid, p⟩) (hhomed : app.Homed T) (moved : Bool) :
    Fit out S T (app.leaveHome pid p moved) ∧ (app.leaveHome pid p moved).Homed T := by
  rw [AppState.leaveHome]
  split_ifs
  · cases hl : app.workspaces[pid]? with
    | none =>
        rw [modify_of_none hl]
        exact ⟨h, hhomed⟩
    | some l =>
        obtain ⟨hpanels, haway⟩ := l.sendAway_frame p
        rw [modify_eq_insert hl]
        refine ⟨h.insert_layout ((h.ids pid l hl).of_panels hpanels)
          ((h.loadable pid l hl).sendAway p) (fun hproject => absurd hpid hproject), ?_⟩
        intro m hm
        have hold : app.Mirrored m := by
          obtain ⟨hproject, k, hk, hpanel⟩ := hm
          rw [layoutOf_insert] at hk
          split_ifs at hk with heq
          · cases hk
            have hbefore : m.panel ∈ l.away → app.Mirrored m := fun hmem =>
              hhomed m ⟨hproject, l, by rw [heq, layoutOf, hl, Option.some_or], hmem⟩
            rcases haway with haway | haway
            · exact hbefore (haway ▸ hpanel)
            · rw [haway] at hpanel
              rcases List.mem_append.mp hpanel with hmem | hmem
              · exact hbefore hmem
              · have hm : m = ⟨pid, p⟩ := by rw [← List.mem_singleton.mp hmem, ← heq]
                exact hm ▸ hmirrored
          · exact hhomed m ⟨hproject, k, hk, hpanel⟩
        obtain ⟨sub, hsub, k, hk, hkm⟩ := hold
        refine ⟨sub, hsub, k, ?_, hkm⟩
        rw [getElem?_insert_layout, if_neg]
        · exact hk
        · rintro rfl
          exact h.apart sub (h.subs sub hsub) hpid
  · exact ⟨h, hhomed⟩

theorem projects_leaveHome (app : AppState) (id : ProjectId) (p : PanelId) (moved : Bool) :
    (app.leaveHome id p moved).projects = app.projects := by
  rw [AppState.leaveHome]
  split_ifs <;> rfl

theorem mirrors_mirrorOp {tab : Option TabId} {new : NewMirror} {l' : Layout}
    (hs : l.apply (mirrorOp l id tab (.mirror m) new) = some l') : l'.Mirrors m := by
  rw [mirrorOp] at hs
  split at hs
  · exact ⟨new.panel, by rw [(Layout.added_addPanel hs).kinds, if_pos rfl]⟩
  · exact ⟨new.panel, by rw [(Layout.added_addTab hs).kinds, if_pos rfl]⟩

/-- A new sub-workspace comes with a mirror. -/
theorem Fit.newSub (h : Fit out S T app) {new : NewMirror} (hS : S new.sub.id)
    (hnew : ¬ app.knows new.sub.id = true)
    (hl : Layout.newDefault new.sub.id new.panel new.tab = some l) (m : MirrorPanelConfig) :
    let app' := { app with
      subs := app.subs ++ [new.sub]
      workspaces := app.workspaces.insert new.sub.id (l.setKind new.panel (.mirror m)).1 }
    Tends out S T E app app' ∧ app'.Mirrored m := by
  have hfollows := (h.toSound.follows_newSub hS hnew hl (.mirror m)).sound
  have hadded := Layout.added_newDefault hl
  have hchanged := l.changed_setKind new.panel (.mirror m)
  have haway : (l.setKind new.panel (.mirror m)).1.away = [] := hchanged.away.trans hadded.away
  have hinv := (Layout.Inv.newDefault hl).setKind new.panel (.mirror m)
  have hids := hchanged.ids (hadded.ids Layout.ids_empty)
  rw [knows, Bool.or_eq_true, Bool.or_eq_true, not_or, not_or, isSub_iff] at hnew
  have hput : Tends out S T E app { app with
      workspaces := app.workspaces.insert new.sub.id (l.setKind new.panel (.mirror m)).1 } := by
    refine h.tends_insert hids hinv.loadable (fun _ => ⟨hinv, haway⟩) (fun q hq => ?_)
      fun hsub => absurd hsub hnew.1.2
    rw [haway] at hq
    cases hq
  refine ⟨⟨{ hput.fit with toSound := hfollows }, rfl, hput.away, fun k hk => ?_⟩, ?_⟩
  · rcases hput.mirrored k hk with ⟨sub, hsub, hholds⟩ | hrest
    · refine .inl ⟨sub, ?_, hholds⟩
      rw [List.map_append]
      exact List.mem_append_left _ hsub
    · exact .inr hrest
  · refine ⟨new.sub.id, ?_, (l.setKind new.panel (.mirror m)).1, ?_, Layout.mirrors_setKind ?_⟩
    · rw [List.map_append]
      exact List.mem_append_right _ (List.mem_singleton_self _)
    · rw [getElem?_insert_layout, if_pos rfl]
    · have hkind : l.kindOf new.panel ≠ none := by
        rw [hadded.kinds, if_pos rfl]
        exact Option.some_ne_none _
      by_contra hnot
      exact hkind (Layout.kindOf_eq_none.mpr hnot)

theorem Fit.syncTo (h : Fit out S T app) (hhomed : app.Homed T) {sub : Option ProjectId}
    {tab : Option TabId} {moved : Bool} {new : NewMirror}
    (hpid : pid ∈ app.projects ∨ app.isSub pid = true) (hS : S new.sub.id)
    {result : AppState × Option ProjectId}
    (hs : app.syncTo out pid p sub tab moved new = some result) :
    Fit out S T result.1 ∧ result.1.Homed T ∧ result.1.projects = app.projects := by
  rw [AppState.syncTo] at hs
  by_cases hsub : app.isSub pid = true
  · rw [if_pos hsub] at hs
    cases hs
    exact ⟨h, hhomed, rfl⟩
  · rw [if_neg hsub] at hs
    have hproject : pid ∈ app.projects := hpid.resolve_right hsub
    split at hs
    · cases hs
      exact ⟨h, hhomed, rfl⟩
    · dsimp only at hs
      split at hs
      · next id hid =>
          have hload : Tends out S T (fun _ => False) app (app.loadWorkspace out id) :=
            h.tends_load id
          have hin : id ∈ (app.loadWorkspace out id).subs.map SubWorkspace.id := by
            rw [subs_loadWorkspace]
            exact isSub_iff.mp (Option.filter_eq_some_iff.mp hid).2
          split at hs
          · cases hs
            exact ⟨hload.fit, hload.homed hhomed, hload.projects⟩
          · next l hl =>
              obtain ⟨app', halter, rfl⟩ := Option.map_eq_some_iff.mp hs
              have hput : Tends out S T (fun _ => False) app app' :=
                hload.trans (hload.fit.tends_alter (grows_mirrorOp _ _ _ _ _) halter)
              have hmirrored : app'.Mirrored ⟨pid, p⟩ := by
                rcases alter_cases halter with ⟨hnone, -⟩ | ⟨k, k', hk, -, hk', rfl⟩
                · cases hl.symm.trans hnone
                · cases hl.symm.trans hk
                  refine ⟨id, hin, k', ?_, mirrors_mirrorOp hk'⟩
                  rw [getElem?_insert_layout, if_pos rfl]
              obtain ⟨hfit, hleft⟩ := hput.fit.leaveHome (hput.projects ▸ hproject)
                hmirrored (hput.homed hhomed) moved
              exact ⟨hfit, hleft, (app'.projects_leaveHome pid p moved).trans hput.projects⟩
      · split at hs
        · cases hs
        · next hknown =>
            obtain ⟨l, hl, rfl⟩ := Option.map_eq_some_iff.mp hs
            obtain ⟨hput, hmirrored⟩ :=
              @Fit.newSub out S T (fun _ => False) app l h new hS hknown hl ⟨pid, p⟩
            obtain ⟨hfit, hleft⟩ := hput.fit.leaveHome hproject hmirrored (hput.homed hhomed)
              moved
            exact ⟨hfit, hleft, (projects_leaveHome _ pid p moved).trans hput.projects⟩

theorem Fit.moveTab (h : Fit out S T app) (hhomed : app.Homed T) {tab : TabId}
    {new : PanelId → NewMirror} (hpid : pid ∈ app.projects ∨ app.isSub pid = true)
    (hS : ∀ p ∈ app.tabPanels pid tab, S (new p).sub.id)
    (hs : app.moveTab out pid tab new = some app') :
    Fit out S T app' ∧ app'.Homed T ∧ app'.projects = app.projects := by
  rw [AppState.moveTab, Option.map_eq_some_iff] at hs
  obtain ⟨last, hs, rfl⟩ := hs
  refine (List.foldlM_keeps (P := fun state : AppState × Option (ProjectId × TabId) =>
    (Fit out S T state.1 ∧ state.1.Homed T ∧ state.1.projects = app.projects) ∧
      (pid ∈ state.1.projects ∨ state.1.isSub pid = true)) ?_ hs ⟨⟨h, hhomed, rfl⟩, hpid⟩).1
  rintro state p hp state' hstate ⟨⟨hfit, hhomed, hprojects⟩, hpid⟩
  obtain ⟨result, hsync, rfl⟩ := Option.map_eq_some_iff.mp hstate
  obtain ⟨hfit', hhomed', hprojects'⟩ := hfit.syncTo hhomed hpid (hS p hp) hsync
  have hresult : (Fit out S T result.1 ∧ result.1.Homed T ∧ result.1.projects = app.projects) ∧
      (pid ∈ result.1.projects ∨ result.1.isSub pid = true) := by
    refine ⟨⟨hfit', hhomed', hprojects'.trans hprojects⟩, ?_⟩
    rcases hpid with hproject | hsub
    · exact .inl (hprojects' ▸ hproject)
    · rw [syncTo_of_isSub hsub] at hsync
      cases hsync
      exact .inr hsub
  obtain ⟨app₁, sub⟩ := result
  dsimp only
  split <;> exact hresult

/-! ## Projects -/

theorem Fit.tends_switchProject (h : Fit out S T app) (id : ProjectId) :
    Tends out S T E app (app.switchProject out id) := by
  rw [switchProject]
  split_ifs
  · have hactive : Tends out S T E app { app with active := some id } := h.tends_same rfl rfl rfl
    exact hactive.trans (hactive.fit.tends_load id)
  · exact .refl h

theorem Fit.eraseProject (h : Fit out S T app) (hgone : app.workspaces[id]? = none)
    (active : Option ProjectId) :
    Fit out S T { app with projects := app.projects.erase id, active } where
  toSound := h.toSound.eraseProject hgone active
  loadable := h.loadable
  inv other l hl hother := by
    have hne : other ≠ id := by
      rintro rfl
      rw [hgone] at hl
      cases hl
    exact h.inv other l hl fun hmem => hother ((List.mem_erase_of_ne hne).mpr hmem)
  kept := h.kept
  made := h.made

/-- The mirrors of a project's panels go with it. -/
theorem Fit.deleteProject (h : Fit out S T app) (hroom : Room out app) (hhomed : app.Homed T)
    (hid : id ∈ app.projects) (hnodup : app.projects.Nodup) :
    Fit out S T (app.deleteProject out id) ∧ (app.deleteProject out id).Homed T ∧
      (app.deleteProject out id).projects = app.projects.erase id := by
  have hdrop : Clears out S T (fun m => m.project = id) app (app.dropMirrors out id none) :=
    h.clears_dropMirrors hroom none fun m hproject _ => hproject
  have hload := hdrop.toTends.trans (hdrop.fit.tends_load id)
  rw [AppState.deleteProject]
  generalize (app.dropMirrors out id none).loadWorkspace out id = app₁ at hload ⊢
  have hmem : id ∈ app₁.projects := hload.projects ▸ hid
  have herase := hload.fit.erase_layout id
  have hgone : (app₁.workspaces.erase id)[id]? = none := by
    rw [getElem?_erase_layout, if_pos rfl]
  -- Of the other projects nothing is away that was not, and their mirrors are left.
  have hleft : ∀ active, Homed T { app₁ with
      workspaces := app₁.workspaces.erase id, projects := app₁.projects.erase id, active } := by
    rintro active m ⟨hproject, l, hl, hpanel⟩
    have hne : m.project ≠ id := by
      rintro rfl
      rw [hload.projects] at hproject
      exact hnodup.not_mem_erase hproject
    have haway : app₁.Away T m := by
      refine ⟨List.mem_of_mem_erase hproject, l, ?_, hpanel⟩
      rw [layoutOf] at hl ⊢
      dsimp only at hl
      rwa [getElem?_erase_layout, if_neg hne] at hl
    have hstill : app₁.Mirrored m := by
      rcases hload.mirrored m (hhomed m (hload.away m haway)) with hstill | heq | hback
      · exact hstill
      · exact absurd heq hne
      · exact absurd haway hback
    obtain ⟨sub, hsub, k, hk, hkm⟩ := hstill
    refine ⟨sub, hsub, k, ?_, hkm⟩
    rw [getElem?_erase_layout, if_neg]
    · exact hk
    · rintro rfl
      exact hload.fit.apart sub (hload.fit.subs sub hsub) hmem
  dsimp only
  rw [if_pos (List.contains_iff_mem.mpr hmem), ← hload.projects]
  split_ifs
  · have hproject := herase.eraseProject hgone (app₁.projects.erase id).head?
    split
    · next next _ =>
        have hswitch : Tends out S T (fun _ => False) _ _ := hproject.tends_switchProject next
        exact ⟨hswitch.fit, hswitch.homed (hleft _), hswitch.projects⟩
    · exact ⟨hproject, hleft _, rfl⟩
  · exact ⟨herase.eraseProject hgone app₁.active, hleft _, rfl⟩

end AppState

end Throng
