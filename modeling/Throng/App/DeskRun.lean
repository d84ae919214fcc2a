import Throng.App.DeskShown

/-!
# Runs of the desk

Layouts are loaded as they were saved, so what holds of every layout on the way holds of
the stored ones. In every run each open document is shown by an editor panel, as long as
no project is deleted that is the last to show one.
-/

namespace Throng

namespace Desk

open AppState

variable {keyFor : PathBuf → String} {desk desk' : Desk}

/-- A sub-workspace, of now or of the stored list. -/
def IsSub (desk : Desk) (id : ProjectId) : Prop :=
  id ∈ desk.app.subs.map SubWorkspace.id ∨ id ∈ desk.savedSubs.map SubWorkspace.id

structure Inv (keyFor : PathBuf → String) (desk : Desk) : Prop where
  shown : desk.app.AllShown keyFor
  ids : ∀ (id : ProjectId) (l : Layout), desk.app.workspaces[id]? = some l → l.Ids
  home : ∀ (id : ProjectId) (l : Layout), desk.app.workspaces[id]? = some l →
    id ∉ desk.app.projects → l.away = []
  saved : ∀ (id : ProjectId) (l : Layout), desk.saved[id]? = some l →
    l.Ids ∧ (desk.IsSub id → l.away = [])
  apart : ∀ id, desk.IsSub id → id ∉ desk.app.projects
  distinct : (desk.app.subs.map SubWorkspace.id).Nodup
  savedDistinct : (desk.savedSubs.map SubWorkspace.id).Nodup

theorem inv_first : Inv keyFor first where
  shown key hkey := absurd hkey Std.ExtTreeMap.not_mem_empty
  ids id l hl := by simp [first] at hl
  home id l hl := by simp [first] at hl
  saved id l hl := by simp [first] at hl
  apart id hid := by simp [first]
  distinct := List.nodup_nil
  savedDistinct := List.nodup_nil

/-- The ids that a step may have sub-workspaces with. -/
def MayBeSub (desk : Desk) (id : ProjectId) : Prop := desk.IsSub id ∨ desk.isNew id = true

theorem isNew_iff {id : ProjectId} : desk.isNew id = true ↔
    id ∉ desk.app.projects ∧ ¬ desk.IsSub id ∧ id ∉ desk.app.workspaces ∧ id ∉ desk.saved := by
  simp only [isNew, knows, IsSub, isSub, Bool.and_eq_true, Bool.not_eq_true', Bool.or_eq_true,
    List.contains_eq_mem, decide_eq_true_eq, ← Bool.not_eq_true, Std.ExtTreeMap.contains_iff_mem]
  tauto

/-- A layout that is read is one that was saved. -/
theorem saved_of_layout {draw : Draw} {id : ProjectId} {l : Layout}
    (hl : (desk.outside keyFor draw).store.layout id = .ok (.loaded l)) :
    desk.saved[id]? = some l := by
  dsimp only [outside] at hl
  split at hl
  · split at hl
    · next hsaved =>
        cases hl
        exact hsaved
    · cases hl
  · cases hl
  · cases hl

theorem Inv.sound (h : Inv keyFor desk) (draw : Draw) :
    Sound (desk.outside keyFor draw) desk.MayBeSub desk.app where
  ids := h.ids
  home := h.home
  stored id l hl := by
    have hsaved := saved_of_layout hl
    refine ⟨(h.saved id l hsaved).1, ?_⟩
    rintro (hsub | hnew)
    · exact (h.saved id l hsaved).2 hsub
    · have hnone := (isNew_iff.mp hnew).2.2.2
      rw [Std.ExtTreeMap.mem_iff_isSome_getElem?, hsaved] at hnone
      exact absurd rfl hnone
  fresh id := Layout.fallback_frame _ _ _ _
  subs id hid := .inl (.inl hid)
  apart := by
    rintro id (hsub | hnew)
    · exact h.apart id hsub
    · exact (isNew_iff.mp hnew).1
  distinct := h.distinct

theorem Inv.put (h : Inv keyFor desk) {draw : Draw} {app : AppState}
    (hsound : Sound (desk.outside keyFor draw) desk.MayBeSub app) (hall : app.AllShown keyFor) :
    Inv keyFor { desk with app } where
  shown := hall
  ids := hsound.ids
  home := hsound.home
  saved id l hl := by
    refine ⟨(h.saved id l hl).1, ?_⟩
    have hsaved : desk.IsSub id → l.away = [] := (h.saved id l hl).2
    rintro (hsub | hsub)
    · rcases hsound.subs id hsub with hold | hnew
      · exact hsaved hold
      · have hnone := (isNew_iff.mp hnew).2.2.2
        have hl' : desk.saved[id]? = some l := hl
        rw [Std.ExtTreeMap.mem_iff_isSome_getElem?, hl'] at hnone
        exact absurd rfl hnone
    · exact hsaved (.inr hsub)
  apart id hid := by
    rcases hid with hsub | hsub
    · exact hsound.apart id (hsound.subs id hsub)
    · exact hsound.apart id (.inl (.inr hsub))
  distinct := hsound.distinct
  savedDistinct := h.savedDistinct

theorem Inv.follow (h : Inv keyFor desk) {draw : Draw} {app : AppState}
    (hfollows : Follows (desk.outside keyFor draw) desk.MayBeSub desk.app app) :
    Inv keyFor { desk with app } :=
  h.put hfollows.sound (hfollows.allShown h.shown)

/-! ## What is stored -/

theorem Inv.create (h : Inv keyFor desk) {id : ProjectId} (hnew : desk.isNew id = true) :
    Inv keyFor { desk with app := { desk.app with projects := desk.app.projects ++ [id] } } :=
  { h with
    home := fun other l hl hother =>
      h.home other l hl fun hmem => hother (List.mem_append_left _ hmem)
    apart := by
      intro other hsub hmem
      rcases List.mem_append.mp hmem with hmem | hmem
      · exact h.apart other hsub hmem
      · rw [List.mem_singleton.mp hmem] at hsub
        exact (isNew_iff.mp hnew).2.1 hsub }

theorem Inv.saveLayout (h : Inv keyFor desk) (id : ProjectId) :
    Inv keyFor (desk.saveLayout id) := by
  rw [Desk.saveLayout]
  split
  · next l hl =>
      refine { h with saved := ?_ }
      intro other k hk
      rw [getElem?_insert_layout] at hk
      split_ifs at hk with heq
      · cases hk
        subst heq
        exact ⟨h.ids other l hl, fun hsub => h.home other l hl (h.apart other hsub)⟩
      · exact h.saved other k hk
  · exact h

theorem Inv.saveSubs (h : Inv keyFor desk) :
    Inv keyFor { desk with savedSubs := desk.app.subs } :=
  { h with
    saved := fun id l hl => ⟨(h.saved id l hl).1, fun hsub => (h.saved id l hl).2 (.inl (by
      rcases hsub with hsub | hsub <;> exact hsub))⟩
    apart := fun id hsub => h.apart id (.inl (by rcases hsub with hsub | hsub <;> exact hsub))
    savedDistinct := h.distinct }

theorem Inv.forget (h : Inv keyFor desk) (id : ProjectId) :
    Inv keyFor { desk with saved := desk.saved.erase id } :=
  { h with
    saved := by
      intro other l hl
      rw [getElem?_erase_layout] at hl
      split_ifs at hl
      exact h.saved other l hl }

/-- The app starts with no document open. -/
theorem Inv.restart (h : Inv keyFor desk) (draw : Draw) (readable : Bool)
    (recovered : Std.ExtTreeMap DocKey Record) :
    Inv keyFor { desk with app := desk.restart (desk.outside keyFor draw) readable recovered } := by
  have hempty : Sound (desk.outside keyFor draw) desk.MayBeSub { desk.app with
      subs := if readable then desk.savedSubs else [], workspaces := ∅, docs := ∅, recovered } :=
    { h.sound draw with
      ids := fun id l hl => by simp at hl
      home := fun id l hl => by simp at hl
      subs := by
        intro id hid
        cases readable with
        | true => exact .inl (.inr hid)
        | false => cases hid
      distinct := by
        cases readable with
        | true => exact h.savedDistinct
        | false => exact List.nodup_nil }
  have hload := follows_foldl ((if readable then desk.savedSubs else []).map SubWorkspace.id)
    (fun app id _ h => h.follows_load id) hempty
  rw [Desk.restart]
  dsimp only
  split
  · next id _ =>
      have hactive := hload.trans (hload.sound.follows_load id)
      refine h.put hactive.sound (hactive.allShown fun key hkey => ?_)
      exact absurd hkey Std.ExtTreeMap.not_mem_empty
  · refine h.put hload.sound (hload.allShown fun key hkey => ?_)
    exact absurd hkey Std.ExtTreeMap.not_mem_empty

/-! ## Runs -/

/-- No project is deleted that is the last to show an open document. -/
def Sparing (keyFor : PathBuf → String) (desk : Desk) : Draw × Action → Prop
  | (_, .deleteProject id) => desk.app.Spared keyFor id
  | _ => True

instance : DecidableRel (Sparing keyFor) := fun desk (_, action) =>
  match action with
  | .deleteProject id => inferInstanceAs (Decidable (desk.app.Spared keyFor id))
  | .create _ | .switch _ | .alter _ _ | .openInEditor _ _ _ _ | .openAt _ _ _ _ _
  | .openAtLine _ _ _ _ _ | .openHere _ _ _ _ _ | .dropFile _ _ _ _ _ | .draw _ _ _
  | .syncTo _ _ _ _ _ _ | .moveTab _ _ _ | .closePanel _ _ _ | .closeTab _ _ | .removeSub _
  | .save _ | .saveSubs | .forget _ | .restart _ _ => isTrue trivial

/-- A panel that may be given another kind is no editor. -/
theorem not_editor_of_plain {id : ProjectId} {p : PanelId} {kind : PanelKind}
    (h : desk.plain id (.setKind p kind) = true) (config : EditorPanelConfig) :
    desk.app.kindOf id p ≠ some (.editor config) := by
  intro hp
  obtain ⟨record, hrecord, hkind⟩ := exists_record hp
  rw [plain, hrecord, Option.all_some, hkind, Bool.and_eq_true] at h
  exact absurd h.2 Bool.false_ne_true

theorem Inv.alter (h : Inv keyFor desk) (draw : Draw) {id : ProjectId} {op : Layout.Op}
    (hplain : desk.plain id op = true) {app : AppState} (hs : desk.app.alter id op = some app) :
    Inv keyFor { desk with app } := by
  by_cases hgrows : op.grows = true
  · exact h.follow ((h.sound draw).follows_alter hgrows hs)
  · cases op with
    | setKind p kind =>
        refine h.follow ((h.sound draw).follows_setKind (fun key _ => ?_) hs)
        exact shownApart_of_not_editor (not_editor_of_plain hplain)
    | addTab | addPanel | focusPanel | renamePanel | renameTab | moveTab => exact absurd rfl hgrows
    | removePanel | sendAway | bringBack | closeTab | pruneOrphans => cases hplain

theorem Inv.step {choice : Draw × Action} (h : Inv keyFor desk) (hok : Sparing keyFor desk choice)
    (hs : Desk.step keyFor desk choice = some desk') : Inv keyFor desk' := by
  obtain ⟨draw, action⟩ := choice
  have hsound := h.sound draw
  cases action with
  | create id =>
      rw [Desk.step] at hs
      split_ifs at hs with hnew
      cases hs
      exact h.create hnew
  | switch id =>
      cases hs
      exact h.follow (hsound.follows_switchProject id)
  | alter id op =>
      rw [Desk.step] at hs
      split_ifs at hs with hplain
      obtain ⟨app, halter, rfl⟩ := Option.map_eq_some_iff.mp hs
      exact h.alter draw hplain halter
  | openInEditor id path anchor new =>
      obtain ⟨app, happ, rfl⟩ := Option.map_eq_some_iff.mp hs
      obtain ⟨result, hopen, rfl⟩ := Option.map_eq_some_iff.mp happ
      exact h.follow (hsound.openInEditor hopen).1
  | openAt id path anchor new reading =>
      obtain ⟨app, hopen, rfl⟩ := Option.map_eq_some_iff.mp hs
      obtain ⟨hafter, hall⟩ := hsound.openAt (fun key hkey => .inl (h.shown key hkey)) hopen
      exact h.put hafter hall
  | openAtLine id path anchor new reading =>
      rw [Desk.step] at hs
      split_ifs at hs with hloaded
      obtain ⟨app, hopen, rfl⟩ := Option.map_eq_some_iff.mp hs
      obtain ⟨hafter, hall⟩ := hsound.openAtLine h.shown
        (Std.ExtTreeMap.contains_iff_mem.mp hloaded) hopen
      exact h.put hafter hall
  | openHere id panel path anchor new =>
      obtain ⟨app, hopen, rfl⟩ := Option.map_eq_some_iff.mp hs
      exact h.follow (hsound.follows_openHere hopen)
  | dropFile id panel path anchor new =>
      rw [Desk.step] at hs
      split_ifs at hs with hplain
      obtain ⟨app, hdrop, rfl⟩ := Option.map_eq_some_iff.mp hs
      exact h.follow (hsound.follows_dropFile (not_editor_of_plain hplain) hdrop)
  | draw id panel reading =>
      cases hs
      obtain ⟨hafter, hall, -⟩ := hsound.draw h.shown id panel reading
      exact h.put hafter hall
  | syncTo id panel sub tab moved new =>
      rw [Desk.step] at hs
      split_ifs at hs with hasked
      rw [Bool.and_eq_true, Bool.or_eq_true, List.contains_iff_mem] at hasked
      obtain ⟨app, happ, rfl⟩ := Option.map_eq_some_iff.mp hs
      obtain ⟨result, hsync, rfl⟩ := Option.map_eq_some_iff.mp happ
      exact h.follow (hsound.follows_syncTo hasked.1 (.inr hasked.2) hsync)
  | moveTab id tab new =>
      rw [Desk.step] at hs
      split_ifs at hs with hasked
      rw [Bool.and_eq_true, Bool.or_eq_true, List.contains_iff_mem, List.all_eq_true] at hasked
      obtain ⟨app, hmove, rfl⟩ := Option.map_eq_some_iff.mp hs
      exact h.follow (hsound.follows_moveTab hasked.1 (fun p hp => .inr (hasked.2 p hp)) hmove)
  | closePanel id panel force =>
      cases hs
      exact h.follow (hsound.follows_closePanel id panel force)
  | closeTab id tab =>
      cases hs
      exact h.follow (hsound.follows_closeTab id tab)
  | removeSub id =>
      rw [Desk.step] at hs
      split_ifs at hs
      cases hs
      exact h.follow (hsound.follows_removeSub id)
  | deleteProject id =>
      cases hs
      obtain ⟨hafter, hall⟩ := hsound.deleteProject hok
      exact h.put hafter hall
  | save ids =>
      cases hs
      exact List.foldl_keeps (P := Inv keyFor) (fun desk id _ h => h.saveLayout id) h
  | saveSubs =>
      cases hs
      exact h.saveSubs
  | forget id =>
      rw [Desk.step] at hs
      split_ifs at hs
      cases hs
      exact h.forget id
  | restart readable recovered =>
      cases hs
      exact h.restart draw readable recovered

/-- As long as no project is deleted that is the last to show an open document, every open
document is shown by an editor panel of a loaded layout. -/
theorem allShown_of_sparing (keyFor : PathBuf → String) (desk : Desk)
    (h : (machine keyFor).Reach (Sparing keyFor) desk) : desk.app.AllShown keyFor := by
  have hinv : Inv keyFor desk := by
    refine h.invariant (fun desk hinit => ?_) fun desk choice desk' h hok hs => h.step hok hs
    rw [show desk = first from hinit]
    exact inv_first
  exact hinv.shown

/-- A draw without answers. -/
def plainDraw : Draw := ⟨fun _ => .stored, fun id => (⟨id.uuid⟩, ⟨id.uuid⟩), fun p => ⟨p.uuid⟩⟩

def unread : Reading := ⟨⟨.error "not found", false, .error "not found"⟩, ∅, 0, .lf⟩

/-- A project with an untitled document. -/
def untitledOpen : List (Draw × Action) :=
  [(plainDraw, .create ⟨1⟩), (plainDraw, .switch ⟨1⟩),
    (plainDraw, .alter ⟨1⟩ (.addTab ⟨1⟩ (.editor ⟨none⟩) ⟨5⟩ ⟨6⟩)),
    (plainDraw, .draw ⟨1⟩ ⟨5⟩ unread)]

/-- Another project is deleted than the one with the document. -/
theorem allShown_of_sparing_other :
    ∃ desk : Desk, desk.app.AllShown id ∧
      (desk.app.projects = [⟨1⟩] ∧ desk.app.docs.keys = [.untitled ⟨5⟩]) := by
  obtain ⟨desk, hreach, hdesk⟩ := (Machine.Reach.init rfl :
    (machine id).Reach (Sparing id) first).exists_of_exec
      (untitledOpen ++ [(plainDraw, .create ⟨2⟩), (plainDraw, .switch ⟨2⟩),
        (plainDraw, .deleteProject ⟨2⟩)])
      (fun desk => decide (desk.app.projects = [⟨1⟩] ∧ desk.app.docs.keys = [.untitled ⟨5⟩]))
      (by decide +kernel)
  exact ⟨desk, allShown_of_sparing id desk hreach, of_decide_eq_true hdesk⟩

/-- The project with the document is deleted, and the document stays. -/
theorem not_allShown :
    ¬ ∀ (keyFor : PathBuf → String) (desk : Desk),
      (machine keyFor).Reach Machine.anyStep desk → desk.app.AllShown keyFor := by
  intro h
  obtain ⟨desk, hreach, hdesk⟩ := (Machine.Reach.init rfl :
    (machine id).Reach Machine.anyStep first).exists_of_exec
      (untitledOpen ++ [(plainDraw, .deleteProject ⟨1⟩)])
      (fun desk => desk.app.docs.contains (.untitled ⟨5⟩) && desk.app.workspaces.isEmpty)
      (by decide +kernel)
  rw [Bool.and_eq_true, Std.ExtTreeMap.contains_iff_mem, Std.ExtTreeMap.isEmpty_iff] at hdesk
  obtain ⟨other, l, hl, -⟩ := shown_iff.mp (h id desk hreach _ hdesk.1)
  rw [hdesk.2] at hl
  simp at hl

end Desk

end Throng
