import Throng.App.ClosingRun
import Throng.App.Desk
import Throng.Core.LayoutRecords

/-!
# Open documents are shown

An open document has an editor panel in a loaded layout. Most of what the user does keeps
the panels there are, or adds one. Where an editor goes, its document goes with the last
panel that shows it; only the panels of a deleted project go without their documents.
-/

namespace Throng

open Documents (panelKey)

namespace Layout

variable {keyFor : PathBuf → String} {l l' : Layout} {p q : PanelId} {key : DocKey}

/-- An editor of the layout shows the document. -/
def Shows (keyFor : PathBuf → String) (l : Layout) (key : DocKey) : Prop :=
  ∃ p config, l.kindOf p = some (.editor config) ∧ panelKey keyFor p config.path = key

/-- `l'` has every panel of `l`, and what is away is the same. -/
structure Grows (l l' : Layout) : Prop where
  kinds : ∀ q kind, l.kindOf q = some kind → l'.kindOf q = some kind
  ids : l.Ids → l'.Ids
  away : l'.away = l.away

theorem Same.grows (h : Same l l') : Grows l l' :=
  ⟨fun q _ hq => (h.kinds q).trans hq, h.ids, h.away⟩

theorem Added.grows {kind : PanelKind} (h : Added p kind l l') (hnew : p ∉ l.panels) :
    Grows l l' := by
  refine ⟨fun q other hq => ?_, h.ids, h.away⟩
  rw [h.kinds, if_neg]
  · exact hq
  · rintro rfl
    rw [kindOf_eq_none.mpr hnew] at hq
    cases hq

theorem Grows.shows (h : Grows l l') (hshows : l.Shows keyFor key) : l'.Shows keyFor key := by
  obtain ⟨p, config, hp, hkey⟩ := hshows
  exact ⟨p, config, h.kinds p _ hp, hkey⟩

/-- The operations that take no panel away. -/
def Op.grows : Op → Bool
  | .addTab _ _ _ _ | .addPanel _ _ _ _ _ _ | .focusPanel _ | .renamePanel _ _ |
    .renameTab _ _ | .moveTab _ _ => true
  | _ => false

theorem grows_apply {op : Op} (hop : op.grows = true) (hfresh : l.fresh op = true)
    (hs : l.apply op = some l') : Grows l l' := by
  cases op with
  | addTab project kind panel tab =>
      rw [fresh, Bool.and_eq_true, Bool.not_eq_true', ← Bool.not_eq_true,
        Std.ExtTreeMap.contains_iff_mem] at hfresh
      exact (added_addTab hs).grows hfresh.1
  | addPanel project anchor placement kind panel tab =>
      rw [fresh, Bool.and_eq_true, Bool.not_eq_true', ← Bool.not_eq_true,
        Std.ExtTreeMap.contains_iff_mem] at hfresh
      exact (added_addPanel hs).grows hfresh.1
  | focusPanel panel =>
      cases hs
      exact (Same.of_frame (l.focusPanel_frame panel)).grows
  | renamePanel panel title =>
      rw [apply, Option.map_eq_some_iff] at hs
      obtain ⟨result, hs, rfl⟩ := hs
      exact (same_renamePanel hs).grows
  | renameTab tab title =>
      rw [apply, Option.map_eq_some_iff] at hs
      obtain ⟨result, hs, rfl⟩ := hs
      exact (same_renameTab hs).grows
  | moveTab tab dest =>
      cases hs
      exact (Same.of_frame (l.moveTab_frame tab dest)).grows
  | removePanel | sendAway | bringBack | closeTab | setKind | pruneOrphans => cases hop

theorem ids_empty : (⟨layoutSchemaVersion, [], none, ∅, []⟩ : Layout).Ids := by
  intro p record h
  simp at h

theorem added_newDefault {id : ProjectId} {tab : TabId} (hs : newDefault id p tab = some l) :
    Added p .untyped ⟨layoutSchemaVersion, [], none, ∅, []⟩ l := added_addTab hs

theorem fallback_frame (isProject : Bool) (id : ProjectId) (panel : PanelId) (tab : TabId) :
    (fallback isProject id panel tab).Ids ∧ (fallback isProject id panel tab).away = [] := by
  rw [fallback]
  cases hs : newDefault id panel tab with
  | none => exact ⟨ids_empty, rfl⟩
  | some l =>
      have hadded := added_newDefault hs
      dsimp only
      split_ifs
      · have hchanged := l.changed_setKind panel (.terminal {})
        exact ⟨hchanged.ids (hadded.ids ids_empty), hchanged.away.trans hadded.away⟩
      · exact ⟨hadded.ids ids_empty, hadded.away⟩

theorem removePanels_frame (l : Layout) (removed : List PanelId) :
    (l.Ids → (removed.foldl (fun l p => (l.removePanel p).1) l).Ids) ∧
      (∀ q, q ∈ (removed.foldl (fun l p => (l.removePanel p).1) l).away ↔
        q ∈ l.away ∧ q ∉ removed) ∧
        ∀ q, q ∉ removed →
          (removed.foldl (fun l p => (l.removePanel p).1) l).kindOf q = l.kindOf q := by
  induction removed generalizing l with
  | nil => exact ⟨id, fun q => by simp, fun q _ => rfl⟩
  | cons p removed ih =>
      obtain ⟨hids, haway, hkinds⟩ := ih (l.removePanel p).1
      refine ⟨fun h => hids (h.removePanel p), fun q => ?_, fun q hq => ?_⟩
      · rw [List.foldl_cons, haway, mem_away_removePanel_iff, List.mem_cons, not_or, and_assoc]
      · rw [List.mem_cons, not_or] at hq
        rw [List.foldl_cons, hkinds q hq.2, kindOf_removePanel_of_ne hq.1]

theorem mem_mirrorsOf (h : l.Ids) {project : ProjectId} {panel : Option PanelId} :
    q ∈ l.mirrorsOf project panel ↔ ∃ m : MirrorPanelConfig, l.kindOf q = some (.mirror m) ∧
      m.project = project ∧ (panel.all fun panel => panel = m.panel) = true := by
  rw [mirrorsOf, List.mem_filterMap]
  constructor
  · rintro ⟨⟨p, record⟩, hmem, hq⟩
    have hrecord := Std.ExtTreeMap.mem_toList_iff_getElem?_eq_some.mp hmem
    dsimp only at hq
    split at hq
    · next m hkind =>
        split_ifs at hq with hm
        cases hq
        rw [h p record hrecord]
        exact ⟨m, kindOf_eq_some.mpr ⟨record, hrecord, hkind⟩, hm⟩
    · cases hq
  · rintro ⟨m, hq, hm⟩
    obtain ⟨record, hrecord, hkind⟩ := kindOf_eq_some.mp hq
    refine ⟨(q, record), Std.ExtTreeMap.mem_toList_iff_getElem?_eq_some.mpr hrecord, ?_⟩
    dsimp only
    rw [hkind]
    dsimp only
    rw [if_pos hm, h q record hrecord]

/-- Editors are no mirrors. -/
theorem shows_removeMirrors (h : l.Ids) {project : ProjectId} {panel : Option PanelId}
    (hshows : l.Shows keyFor key) :
    ((l.mirrorsOf project panel).foldl (fun l p => (l.removePanel p).1) l).Shows keyFor key := by
  obtain ⟨p, config, hp, hkey⟩ := hshows
  obtain ⟨-, -, hkinds⟩ := l.removePanels_frame (l.mirrorsOf project panel)
  refine ⟨p, config, ?_, hkey⟩
  rw [hkinds p, hp]
  intro hmem
  obtain ⟨m, hmirror, -⟩ := (mem_mirrorsOf h).mp hmem
  cases hp.symm.trans hmirror

end Layout

namespace AppState

variable {out : Outside} {S : ProjectId → Prop} {app app' app'' : AppState} {id : ProjectId}
  {p q : PanelId} {key : DocKey} {l : Layout}

/-- What a panel of a loaded layout shows. -/
def kindOf (app : AppState) (id : ProjectId) (p : PanelId) : Option PanelKind :=
  app.workspaces[id]?.bind fun l => l.kindOf p

/-- An editor panel of a loaded layout shows the document. -/
def Shown (keyFor : PathBuf → String) (app : AppState) (key : DocKey) : Prop :=
  ∃ id p config, app.kindOf id p = some (.editor config) ∧ panelKey keyFor p config.path = key

theorem kindOf_eq_some {kind : PanelKind} :
    app.kindOf id p = some kind ↔ ∃ l, app.workspaces[id]? = some l ∧ l.kindOf p = some kind := by
  rw [kindOf, Option.bind_eq_some_iff]

theorem shown_iff {keyFor : PathBuf → String} :
    app.Shown keyFor key ↔
      ∃ (id : ProjectId) (l : Layout), app.workspaces[id]? = some l ∧ l.Shows keyFor key := by
  constructor
  · rintro ⟨id, p, config, hp, hkey⟩
    obtain ⟨l, hl, hp⟩ := kindOf_eq_some.mp hp
    exact ⟨id, l, hl, p, config, hp, hkey⟩
  · rintro ⟨id, l, hl, p, config, hp, hkey⟩
    exact ⟨id, p, config, kindOf_eq_some.mpr ⟨l, hl, hp⟩, hkey⟩

theorem getElem?_insert_layout (workspaces : Std.ExtTreeMap ProjectId Layout)
    (id other : ProjectId) (l : Layout) :
    (workspaces.insert id l)[other]? = if other = id then some l else workspaces[other]? := by
  rw [Std.ExtTreeMap.getElem?_insert]
  by_cases h : other = id
  · rw [if_pos h, if_pos (Std.LawfulEqCmp.compare_eq_iff_eq.mpr h.symm)]
  · rw [if_neg h, if_neg fun heq => h (Std.LawfulEqCmp.compare_eq_iff_eq.mp heq).symm]

theorem getElem?_erase_layout (workspaces : Std.ExtTreeMap ProjectId Layout)
    (id other : ProjectId) :
    (workspaces.erase id)[other]? = if other = id then none else workspaces[other]? := by
  rw [Std.ExtTreeMap.getElem?_erase]
  by_cases h : other = id
  · rw [if_pos h, if_pos (Std.LawfulEqCmp.compare_eq_iff_eq.mpr h.symm)]
  · rw [if_neg h, if_neg fun heq => h (Std.LawfulEqCmp.compare_eq_iff_eq.mp heq).symm]

/-! ## What the operations keep -/

/-- What is held of the app, and of what it may load: records are under their ids, and only a
project's panels are away. Sub-workspaces have ids that satisfy `S`. -/
structure Sound (out : Outside) (S : ProjectId → Prop) (app : AppState) : Prop where
  ids : ∀ (id : ProjectId) (l : Layout), app.workspaces[id]? = some l → l.Ids
  home : ∀ (id : ProjectId) (l : Layout), app.workspaces[id]? = some l → id ∉ app.projects →
    l.away = []
  stored : ∀ (id : ProjectId) (l : Layout), out.store.layout id = .ok (.loaded l) →
    l.Ids ∧ (S id → l.away = [])
  fresh : ∀ id, (out.fresh id).Ids ∧ (out.fresh id).away = []
  subs : ∀ id ∈ app.subs.map SubWorkspace.id, S id
  apart : ∀ id, S id → id ∉ app.projects
  distinct : (app.subs.map SubWorkspace.id).Nodup

/-- `app'` comes from `app` by something that opens no document, and leaves each one open
shown that was. -/
structure Follows (out : Outside) (S : ProjectId → Prop) (app app' : AppState) : Prop where
  sound : Sound out S app'
  projects : app'.projects = app.projects
  docs : ∀ key, key ∈ app'.docs →
    key ∈ app.docs ∧ (app.Shown out.keyFor key → app'.Shown out.keyFor key)

theorem Follows.refl (h : Sound out S app) : Follows out S app app :=
  ⟨h, rfl, fun _ hkey => ⟨hkey, id⟩⟩

theorem Follows.trans (h : Follows out S app app') (h' : Follows out S app' app'') :
    Follows out S app app'' where
  sound := h'.sound
  projects := h'.projects.trans h.projects
  docs key hkey := by
    obtain ⟨hkey', hshown'⟩ := h'.docs key hkey
    obtain ⟨hkey'', hshown⟩ := h.docs key hkey'
    exact ⟨hkey'', hshown' ∘ hshown⟩

/-- A fold follows, if each of its steps does. -/
theorem follows_foldl {α : Type} {f : AppState → α → AppState} (as : List α)
    (hf : ∀ app, ∀ a ∈ as, Sound out S app → Follows out S app (f app a)) (h : Sound out S app) :
    Follows out S app (as.foldl f app) :=
  List.foldl_keeps (P := fun app' => Follows out S app app')
    (fun app' a ha h' => h'.trans (hf app' a ha h'.sound)) (.refl h)

theorem Sound.insert_layout (h : Sound out S app) {l' : Layout} (hids : l'.Ids)
    (hhome : id ∉ app.projects → l'.away = []) :
    Sound out S { app with workspaces := app.workspaces.insert id l' } :=
  { h with
    ids := by
      intro other k hk
      rw [getElem?_insert_layout] at hk
      split_ifs at hk
      · cases hk
        exact hids
      · exact h.ids other k hk
    home := by
      intro other k hk hother
      rw [getElem?_insert_layout] at hk
      split_ifs at hk with heq
      · cases hk
        exact hhome (heq ▸ hother)
      · exact h.home other k hk hother }

/-- One layout becomes another that shows what it shows. -/
theorem Sound.follows_insert (h : Sound out S app) {l' : Layout}
    (hids : l'.Ids) (hhome : id ∉ app.projects → l'.away = [])
    (hshows : ∀ l key, app.workspaces[id]? = some l → l.Shows out.keyFor key →
      l'.Shows out.keyFor key) :
    Follows out S app { app with workspaces := app.workspaces.insert id l' } where
  sound := h.insert_layout hids hhome
  projects := rfl
  docs key hkey := by
    refine ⟨hkey, fun hshown => ?_⟩
    obtain ⟨other, l, hl, hlayout⟩ := shown_iff.mp hshown
    by_cases heq : other = id
    · subst heq
      refine shown_iff.mpr ⟨other, l', ?_, hshows l key hl hlayout⟩
      rw [getElem?_insert_layout, if_pos rfl]
    · refine shown_iff.mpr ⟨other, l, ?_, hlayout⟩
      rw [getElem?_insert_layout, if_neg heq]
      exact hl

theorem Sound.follows_load (h : Sound out S app) (id : ProjectId) :
    Follows out S app (app.loadWorkspace out id) := by
  rw [loadWorkspace, App.loadWorkspace]
  split_ifs with hloaded hknown
  · exact .refl h
  · exact .refl h
  · have hnone : ∀ l, app.workspaces[id]? ≠ some l := by
      intro l hl
      rw [Std.ExtTreeMap.contains_iff_mem, Std.ExtTreeMap.mem_iff_isSome_getElem?, hl] at hloaded
      exact hloaded rfl
    have hsub : id ∉ app.projects → id ∈ app.subs.map SubWorkspace.id := fun hproject => by
      by_contra hsub
      exact hknown ⟨hproject, hsub⟩
    refine h.follows_insert ?_ ?_ fun l _ hl => absurd hl (hnone l)
    · split
      · next layout hlayout => exact (h.stored id layout hlayout).1.pruneOrphans
      · exact (h.fresh id).1
    · intro hproject
      split
      · next layout hlayout =>
          rw [Layout.pruneOrphans, (h.stored id layout hlayout).2 (h.subs id (hsub hproject))]
          rfl
      · exact (h.fresh id).2

theorem Sound.follows_modify (h : Sound out S app) {f : Layout → Layout}
    (hids : ∀ l, l.Ids → (f l).Ids)
    (hhome : ∀ l, id ∉ app.projects → l.away = [] → (f l).away = [])
    (hshows : ∀ l key, l.Shows out.keyFor key → (f l).Shows out.keyFor key) :
    Follows out S app { app with workspaces := app.workspaces.modify id f } := by
  cases hl : app.workspaces[id]? with
  | none =>
      rw [modify_of_none hl]
      exact .refl h
  | some l =>
      rw [modify_eq_insert hl]
      refine h.follows_insert (hids l (h.ids id l hl))
        (fun hproject => hhome l hproject (h.home id l hl hproject)) fun k key hk => ?_
      cases hl.symm.trans hk
      exact hshows l key

theorem shows_of_panels {keyFor : PathBuf → String} {l' : Layout} (hpanels : l'.panels = l.panels)
    (hshows : l.Shows keyFor key) : l'.Shows keyFor key := by
  obtain ⟨p, config, hp, hkey⟩ := hshows
  exact ⟨p, config, (Layout.kindOf_of_panels hpanels).trans hp, hkey⟩

theorem Sound.follows_returnHome (h : Sound out S app) (project : ProjectId) (p : PanelId) :
    Follows out S app (app.returnHome out project p) := by
  have hload := h.follows_load project
  refine hload.trans (hload.sound.follows_modify ?_ ?_ ?_)
  · intro l hids
    split
    · next back hback => exact hids.of_panels (Layout.bringBack_frame hback).1
    · exact hids
  · intro l _ haway
    split
    · next back hback =>
        rw [(Layout.bringBack_frame hback).2, haway]
        rfl
    · exact haway
  · intro l key hshows
    split
    · next back hback => exact shows_of_panels (Layout.bringBack_frame hback).1 hshows
    · exact hshows

theorem Sound.follows_returnMirrored (h : Sound out S app) (panel : Panel) :
    Follows out S app (app.returnMirrored out panel) := by
  rw [returnMirrored]
  split
  · exact h.follows_returnHome _ _
  · exact .refl h

/-! ## Counting editors again -/

theorem Sound.mem_showing (h : Sound out S app) {record : Panel} :
    ((id, p), record) ∈ app.panels.filter (fun entry => entry.2.document out.keyFor = some key) ↔
      app.record id p = some record ∧
        ∃ config, record.kind = .editor config ∧ panelKey out.keyFor p config.path = key := by
  rw [List.mem_filter, mem_panels, decide_eq_true_eq, and_congr_right_iff]
  intro hrecord
  obtain ⟨l, hl, hp⟩ := record_eq_some.mp hrecord
  rw [Panel.document, h.ids id l hl p record hp]
  cases record.kind <;> simp

theorem kindOf_of_record {record : Panel} (hrecord : app.record id p = some record) :
    app.kindOf id p = some record.kind := by
  obtain ⟨l, hl, hp⟩ := record_eq_some.mp hrecord
  exact kindOf_eq_some.mpr ⟨l, hl, Layout.kindOf_eq_some.mpr ⟨record, hp, rfl⟩⟩

theorem exists_record {kind : PanelKind} (h : app.kindOf id p = some kind) :
    ∃ record, app.record id p = some record ∧ record.kind = kind := by
  obtain ⟨l, hl, hp⟩ := kindOf_eq_some.mp h
  obtain ⟨record, hp, hkind⟩ := Layout.kindOf_eq_some.mp hp
  exact ⟨record, record_eq_some.mpr ⟨l, hl, hp⟩, hkind⟩

/-- A document that no editor is counted for is not shown. -/
theorem Sound.panelsShowing_eq_zero (h : Sound out S app) :
    app.panelsShowing out key = 0 ↔ ¬ app.Shown out.keyFor key := by
  rw [panelsShowing, List.countP_eq_length_filter, List.length_eq_zero_iff,
    List.eq_nil_iff_forall_not_mem]
  constructor
  · rintro hnone ⟨id, p, config, hp, hkey⟩
    obtain ⟨record, hrecord, hkind⟩ := exists_record hp
    exact hnone _ (h.mem_showing.mpr ⟨hrecord, config, hkind, hkey⟩)
  · rintro hnone ⟨⟨id, p⟩, record⟩ hmem
    obtain ⟨hrecord, config, hkind, hkey⟩ := h.mem_showing.mp hmem
    exact hnone ⟨id, p, config, hkind ▸ kindOf_of_record hrecord, hkey⟩

/-- Where more than one editor is counted, one is elsewhere. -/
theorem Sound.exists_elsewhere (h : Sound out S app) (hcount : ¬ app.panelsShowing out key ≤ 1)
    (id : ProjectId) (p : PanelId) :
    ∃ other q config, (other, q) ≠ (id, p) ∧ app.kindOf other q = some (.editor config) ∧
      panelKey out.keyFor q config.path = key := by
  by_contra hnone
  refine hcount ?_
  have hplace : ∀ entry ∈ app.panels.filter
      (fun entry => entry.2.document out.keyFor = some key), entry.1 = (id, p) := by
    rintro ⟨⟨other, q⟩, record⟩ hmem
    by_contra hne
    obtain ⟨hrecord, config, hkind, hkey⟩ := h.mem_showing.mp hmem
    exact hnone ⟨other, q, config, hne, hkind ▸ kindOf_of_record hrecord, hkey⟩
  -- Both entries are the one panel's record.
  have hsame : ∀ a ∈ app.panels.filter (fun entry => entry.2.document out.keyFor = some key),
      ∀ b ∈ app.panels.filter (fun entry => entry.2.document out.keyFor = some key), a = b := by
    intro a ha b hb
    have hplace' : a.1 = b.1 := (hplace a ha).trans (hplace b hb).symm
    have ha₂ : app.record a.1.1 a.1.2 = some a.2 := mem_panels.mp (List.mem_of_mem_filter ha)
    have hb₂ : app.record b.1.1 b.1.2 = some b.2 := mem_panels.mp (List.mem_of_mem_filter hb)
    rw [hplace', hb₂] at ha₂
    exact Prod.ext hplace' (Option.some.inj ha₂).symm
  rw [panelsShowing, List.countP_eq_length_filter]
  have hnodup := (nodup_panels app).filter
    (fun entry => decide (entry.2.document out.keyFor = some key))
  cases hentries : app.panels.filter fun entry => entry.2.document out.keyFor = some key with
  | nil => exact Nat.zero_le 1
  | cons first rest =>
      rw [hentries] at hsame hnodup
      rw [List.eq_replicate_of_mem fun b hb => hsame b hb first List.mem_cons_self] at hnodup
      exact List.nodup_replicate.mp hnodup

/-! ## Sub-workspaces that go -/

theorem Sound.setDocs (h : Sound out S app) (docs : Std.ExtTreeMap DocKey Document) :
    Sound out S { app with docs := docs } :=
  { h with }

theorem mem_erase_docs {docs : Std.ExtTreeMap DocKey Document} {other : DocKey} :
    key ∈ docs.erase other ↔ key ≠ other ∧ key ∈ docs := by
  rw [Std.ExtTreeMap.mem_erase, ne_eq, Std.LawfulEqCmp.compare_eq_iff_eq]
  exact and_congr_left fun _ => ne_comm

theorem Sound.follows_dropUnshown (h : Sound out S app) (panel : Panel) :
    Follows out S app (app.dropUnshown out panel) := by
  rw [dropUnshown]
  split
  · split_ifs
    · exact ⟨h.setDocs _, rfl, fun _ hkey => ⟨(mem_erase_docs.mp hkey).2, id⟩⟩
    · exact .refl h
  · exact .refl h

theorem workspaces_dropUnshown (app : AppState) (panel : Panel) :
    (app.dropUnshown out panel).workspaces = app.workspaces := by
  rw [dropUnshown]
  split
  · split_ifs <;> rfl
  · rfl

/-- What an editor that went has shown is open only if it is still shown. -/
theorem Sound.dropUnshown_settles (h : Sound out S app) {panel : Panel}
    (hpanel : panel.document out.keyFor = some key)
    (hkey : key ∈ (app.dropUnshown out panel).docs) :
    (app.dropUnshown out panel).Shown out.keyFor key := by
  rw [dropUnshown, hpanel] at hkey ⊢
  dsimp only at hkey ⊢
  split_ifs at hkey ⊢ with hcount
  · exact absurd rfl (mem_erase_docs.mp hkey).1
  · rw [h.panelsShowing_eq_zero, not_not] at hcount
    exact hcount

theorem Sound.erase_layout (h : Sound out S app) (id : ProjectId) :
    Sound out S { app with workspaces := app.workspaces.erase id } :=
  { h with
    ids := by
      intro other l hl
      rw [getElem?_erase_layout] at hl
      split_ifs at hl
      exact h.ids other l hl
    home := by
      intro other l hl
      rw [getElem?_erase_layout] at hl
      split_ifs at hl
      exact h.home other l hl }

theorem Sound.eraseSub (h : Sound out S app) (id : ProjectId) :
    Follows out S app { app with subs := app.subs.eraseP fun sub => sub.id = id } where
  sound :=
    { h with
      subs := by
        intro other hother
        rw [map_eraseP_subs] at hother
        exact h.subs other (List.mem_of_mem_erase hother)
      distinct := by
        rw [map_eraseP_subs]
        exact h.distinct.erase id }
  projects := rfl
  docs key hkey := ⟨hkey, fun hshown => hshown⟩

/-- The documents of a sub-workspace go, unless they are shown elsewhere. -/
theorem Sound.follows_removeSub (h : Sound out S app) (id : ProjectId) :
    Follows out S app (app.removeSub out id) := by
  have hload := h.follows_load id
  refine hload.trans ?_
  rw [removeSub]
  generalize app.loadWorkspace out id = app₁ at hload ⊢
  dsimp only
  cases hl : app₁.workspaces[id]? with
  | none => exact hload.sound.eraseSub id
  | some l =>
      dsimp only
      have herase := hload.sound.erase_layout id
      generalize hpanels : l.panels.toList.map Prod.snd = panels
      have hreturn := follows_foldl (f := fun app panel => app.returnMirrored out panel) panels
        (fun app panel _ h => h.follows_returnMirrored panel) herase
      generalize panels.foldl (fun app panel => app.returnMirrored out panel)
        { app₁ with workspaces := app₁.workspaces.erase id } = app₃ at hreturn ⊢
      have hdrop := follows_foldl (f := fun app panel => app.dropUnshown out panel) panels
        (fun app panel _ h => h.follows_dropUnshown panel) hreturn.sound
      have hafter : ∀ key,
          key ∈ (panels.foldl (fun app panel => app.dropUnshown out panel) app₃).docs →
          app₁.Shown out.keyFor key →
            (panels.foldl (fun app panel => app.dropUnshown out panel) app₃).Shown
              out.keyFor key := by
        intro key hkey hshown
        obtain ⟨other, k, hk, p, config, hp, hpkey⟩ := shown_iff.mp hshown
        by_cases heq : other = id
        · -- The editor that goes has its document dropped in its turn.
          subst heq
          cases hl.symm.trans hk
          obtain ⟨record, hrecord, hkind⟩ := Layout.kindOf_eq_some.mp hp
          have hmem : record ∈ panels := by
            rw [← hpanels, List.mem_map]
            exact ⟨(p, record), Std.ExtTreeMap.mem_toList_iff_getElem?_eq_some.mpr hrecord, rfl⟩
          have hdocument : record.document out.keyFor = some key := by
            rw [Panel.document, hkind, hload.sound.ids other l hl p record hrecord, ← hpkey]
          refine List.foldl_settles_of (I := Sound out S)
            (P := fun app : AppState => key ∈ app.docs → app.Shown out.keyFor key) hmem
            (fun app panel _ h => (h.follows_dropUnshown panel).sound) ?_
            (fun app h => h.dropUnshown_settles hdocument) hreturn.sound hkey
          intro app panel _ hP hkey
          have hsame : app.Shown out.keyFor key →
              (app.dropUnshown out panel).Shown out.keyFor key := by
            rw [shown_iff, shown_iff, workspaces_dropUnshown]
            exact id
          refine hsame (hP ?_)
          rw [dropUnshown] at hkey
          split at hkey
          · split_ifs at hkey
            · exact (mem_erase_docs.mp hkey).2
            · exact hkey
          · exact hkey
        · obtain ⟨hkey₃, hdrop⟩ := hdrop.docs key hkey
          obtain ⟨-, hreturn⟩ := hreturn.docs key hkey₃
          refine hdrop (hreturn (shown_iff.mpr ⟨other, k, ?_, p, config, hp, hpkey⟩))
          rw [getElem?_erase_layout, if_neg heq]
          exact hk
      have hgone : Follows out S app₁
          (panels.foldl (fun app panel => app.dropUnshown out panel) app₃) := by
        refine ⟨hdrop.sound, hdrop.projects.trans hreturn.projects,
          fun key hkey => ⟨?_, hafter key hkey⟩⟩
        exact (hreturn.docs key (hdrop.docs key hkey).1).1
      exact hgone.trans (hgone.sound.eraseSub id)

theorem Sound.follows_dropMirrorsIn (h : Sound out S app) (project : ProjectId)
    (panel : Option PanelId) (id : ProjectId) :
    Follows out S app (app.dropMirrorsIn out project panel id) := by
  have hload := h.follows_load id
  refine hload.trans ?_
  rw [dropMirrorsIn]
  generalize app.loadWorkspace out id = app₁ at hload ⊢
  dsimp only
  cases hl : app₁.workspaces[id]? with
  | none => exact .refl hload.sound
  | some l =>
      dsimp only
      have hids := hload.sound.ids id l hl
      obtain ⟨hids', haway, -⟩ := l.removePanels_frame (l.mirrorsOf project panel)
      have hput := hload.sound.follows_insert (hids' hids)
        (fun hproject => by
          refine List.eq_nil_iff_forall_not_mem.mpr fun q hq => ?_
          have hmem := ((haway q).mp hq).1
          rw [hload.sound.home id l hl hproject] at hmem
          cases hmem)
        (fun k key hk hshows => by
          cases hl.symm.trans hk
          exact Layout.shows_removeMirrors hids hshows)
      split_ifs
      · exact .refl hload.sound
      · exact hput.trans (hput.sound.follows_removeSub id)
      · exact hput

theorem Sound.follows_dropMirrors (h : Sound out S app) (project : ProjectId)
    (panel : Option PanelId) : Follows out S app (app.dropMirrors out project panel) :=
  follows_foldl _ (fun _ id _ h => h.follows_dropMirrorsIn project panel id) h

/-! ## Closing -/

/-- An editor elsewhere than in the one place shows the document. -/
def ShownApart (keyFor : PathBuf → String) (app : AppState) (id : ProjectId) (p : PanelId)
    (key : DocKey) : Prop :=
  ∃ other q config, (other, q) ≠ (id, p) ∧ app.kindOf other q = some (.editor config) ∧
    panelKey keyFor q config.path = key

theorem ShownApart.shown {keyFor : PathBuf → String} (h : app.ShownApart keyFor id p key) :
    app.Shown keyFor key := by
  obtain ⟨other, q, config, -, hq, hkey⟩ := h
  exact ⟨other, q, config, hq, hkey⟩

/-- The place of the editor that shows a document is the one, or another one. -/
theorem shownApart_or {keyFor : PathBuf → String} (h : app.Shown keyFor key) (id : ProjectId)
    (p : PanelId) : app.ShownApart keyFor id p key ∨
      ∃ config, app.kindOf id p = some (.editor config) ∧ panelKey keyFor p config.path = key := by
  obtain ⟨other, q, config, hq, hkey⟩ := h
  by_cases hplace : (other, q) = (id, p)
  · cases hplace
    exact .inr ⟨config, hq, hkey⟩
  · exact .inl ⟨other, q, config, hplace, hq, hkey⟩

theorem kindOf_withoutPanel {kind : PanelKind} {other : ProjectId} (hplace : (other, q) ≠ (id, p))
    (h : app.kindOf other q = some kind) : (app.withoutPanel id p).kindOf other q = some kind := by
  obtain ⟨l, hl, hq⟩ := kindOf_eq_some.mp h
  rw [withoutPanel, kindOf]
  cases hid : app.workspaces[id]? with
  | none =>
      rw [modify_of_none hid]
      exact h
  | some k =>
      rw [modify_eq_insert hid, getElem?_insert_layout]
      split_ifs with heq
      · subst heq
        cases hid.symm.trans hl
        have hne : q ≠ p := fun heq => hplace (by rw [heq])
        rw [Option.bind_some, Layout.kindOf_removePanel_of_ne hne]
        exact hq
      · rw [hl]
        exact hq

theorem Sound.withoutPanel (h : Sound out S app) (id : ProjectId) (p : PanelId) :
    Sound out S (app.withoutPanel id p) := by
  rw [AppState.withoutPanel]
  cases hl : app.workspaces[id]? with
  | none =>
      rw [modify_of_none hl]
      exact h
  | some l =>
      rw [modify_eq_insert hl]
      refine h.insert_layout ((h.ids id l hl).removePanel p) fun hproject => ?_
      refine List.eq_nil_iff_forall_not_mem.mpr fun q hq => ?_
      have hmem := (Layout.mem_away_removePanel_iff.mp hq).1
      rw [h.home id l hl hproject] at hmem
      cases hmem

/-- When a panel is taken, what is shown elsewhere stays shown, while it is open. -/
theorem Sound.follows_takePanel (h : Sound out S app) (id : ProjectId) (p : PanelId)
    (hapart : ∀ key, key ∈ app.docs → app.Shown out.keyFor key →
      app.ShownApart out.keyFor id p key) : Follows out S app (app.takePanel out id p) := by
  have hwithout : Follows out S app (app.withoutPanel id p) := by
    refine ⟨h.withoutPanel id p, rfl, fun key hkey => ⟨hkey, fun hshown => ?_⟩⟩
    obtain ⟨other, q, config, hplace, hq, hpanel⟩ := hapart key hkey hshown
    exact ⟨other, q, config, kindOf_withoutPanel hplace hq, hpanel⟩
  rw [takePanel]
  split_ifs
  · exact hwithout.trans (hwithout.sound.follows_removeSub id)
  · exact hwithout
  · exact hwithout.trans (hwithout.sound.follows_dropMirrors id (some p))

theorem Sound.follows_eraseDoc (h : Sound out S app) (other : DocKey) :
    Follows out S app { app with docs := app.docs.erase other } :=
  ⟨h.setDocs _, rfl, fun _ hkey => ⟨(mem_erase_docs.mp hkey).2, id⟩⟩

/-- A document goes with the last editor of it; what stays open is shown elsewhere. -/
theorem Sound.drop_document (h : Sound out S app) {config : EditorPanelConfig}
    (hp : app.kindOf id p = some (.editor config)) {lastView : Bool}
    (hlast : lastView = decide (app.panelsShowing out (panelKey out.keyFor p config.path) ≤ 1))
    {app₁ : AppState} (happ₁ : app₁ = if lastView then
      { app with docs := app.docs.erase (panelKey out.keyFor p config.path) } else app) :
    Follows out S app app₁ ∧
      ∀ key, key ∈ app₁.docs → app₁.Shown out.keyFor key → app₁.ShownApart out.keyFor id p key := by
  subst happ₁
  cases lastView with
  | true =>
      refine ⟨h.follows_eraseDoc _, fun key hkey hshown => ?_⟩
      rcases shownApart_or hshown id p with hapart | ⟨config', hp', hpanel⟩
      · exact hapart
      · cases hp.symm.trans hp'
        exact absurd hpanel.symm (mem_erase_docs.mp hkey).1
  | false =>
      refine ⟨.refl h, fun key _ hshown => ?_⟩
      rcases shownApart_or hshown id p with hapart | ⟨config', hp', hpanel⟩
      · exact hapart
      · cases hp.symm.trans hp'
        rw [← hpanel]
        exact h.exists_elsewhere (of_decide_eq_false hlast.symm) id p

theorem shownApart_of_kind {keyFor : PathBuf → String} {kind : PanelKind}
    (hp : app.kindOf id p = some kind) (hkind : ∀ config, kind ≠ .editor config)
    (hshown : app.Shown keyFor key) : app.ShownApart keyFor id p key := by
  rcases shownApart_or hshown id p with hapart | ⟨config, hp', -⟩
  · exact hapart
  · cases hp.symm.trans hp'
    exact absurd rfl (hkind config)

theorem kindOf_loadWorkspace {kind : PanelKind} (h : app.kindOf id p = some kind)
    (other : ProjectId) : (app.loadWorkspace out other).kindOf id p = some kind := by
  rw [loadWorkspace, App.loadWorkspace]
  split_ifs with hloaded
  · exact h
  · exact h
  · obtain ⟨l, hl, hp⟩ := kindOf_eq_some.mp h
    refine kindOf_eq_some.mpr ⟨l, ?_, hp⟩
    dsimp only
    rw [getElem?_insert_layout, if_neg]
    · exact hl
    · rintro rfl
      rw [Std.ExtTreeMap.contains_iff_mem, Std.ExtTreeMap.mem_iff_isSome_getElem?, hl] at hloaded
      exact hloaded rfl

theorem kindOf_returnHome {kind : PanelKind} (h : app.kindOf id p = some kind)
    (project : ProjectId) (q : PanelId) :
    (app.returnHome out project q).kindOf id p = some kind := by
  obtain ⟨l, hl, hp⟩ := kindOf_eq_some.mp (@kindOf_loadWorkspace out _ _ _ _ h project)
  rw [returnHome, kindOf]
  dsimp only
  rw [Std.ExtTreeMap.getElem?_modify]
  split_ifs with heq
  · rw [Std.LawfulEqCmp.compare_eq_iff_eq] at heq
    subst heq
    rw [hl, Option.map_some, Option.bind_some]
    split
    · next back hback => exact (Layout.kindOf_of_panels (Layout.bringBack_frame hback).1).trans hp
    · exact hp
  · rw [hl]
    exact hp

theorem Sound.follows_closePanel (h : Sound out S app) (id : ProjectId) (p : PanelId)
    (force : Bool) : Follows out S app (app.closePanel out id p force).1 := by
  rw [closePanel]
  cases hrecord : app.record id p with
  | none => exact .refl h
  | some record =>
      have hp := kindOf_of_record hrecord
      dsimp only
      split
      · next config hkind =>
          split
          · exact .refl h
          · obtain ⟨hdrop, hapart⟩ := h.drop_document (hkind ▸ hp) rfl rfl
            exact hdrop.trans (hdrop.sound.follows_takePanel id p hapart)
      · next m hkind =>
          have hreturn := h.follows_returnHome m.project m.panel
          refine hreturn.trans (hreturn.sound.follows_takePanel id p fun key _ =>
            shownApart_of_kind (kindOf_returnHome hp m.project m.panel) ?_)
          intro config hconfig
          cases hkind.symm.trans hconfig
      · next hnone _ =>
          exact h.follows_takePanel id p fun key _ => shownApart_of_kind hp hnone

theorem Sound.follows_closeTab (h : Sound out S app) (id : ProjectId) (tab : TabId) :
    Follows out S app (app.closeTab out id tab).1 := by
  rw [closeTab]
  split_ifs
  · exact follows_foldl _ (fun _ p _ h => h.follows_closePanel id p true) h
  · exact .refl h

/-! ## Operations on a layout -/

/-- An operation finds no layout, or changes the one there is. -/
theorem alter_cases {op : Layout.Op} (hs : app.alter id op = some app') :
    app.workspaces[id]? = none ∧ app' = app ∨
      ∃ l l', app.workspaces[id]? = some l ∧ l.fresh op = true ∧ l.apply op = some l' ∧
        app' = { app with workspaces := app.workspaces.insert id l' } := by
  rw [alter] at hs
  cases hl : app.workspaces[id]? with
  | none =>
      rw [hl] at hs
      cases hs
      exact .inl ⟨rfl, rfl⟩
  | some l =>
      rw [hl] at hs
      dsimp only at hs
      split_ifs at hs with hfresh
      obtain ⟨l', hl', rfl⟩ := Option.map_eq_some_iff.mp hs
      exact .inr ⟨l, l', rfl, hfresh, hl', rfl⟩

theorem Sound.follows_alter (h : Sound out S app) {op : Layout.Op} (hop : op.grows = true)
    (hs : app.alter id op = some app') : Follows out S app app' := by
  rcases alter_cases hs with ⟨-, rfl⟩ | ⟨l, l', hl, hfresh, hl', rfl⟩
  · exact .refl h
  · have hgrows := Layout.grows_apply hop hfresh hl'
    refine h.follows_insert (hgrows.ids (h.ids id l hl))
      (fun hproject => hgrows.away.trans (h.home id l hl hproject)) fun k key hk => ?_
    cases hl.symm.trans hk
    exact hgrows.shows

/-- A panel is given another kind: what is shown elsewhere stays shown. -/
theorem Sound.follows_setKind (h : Sound out S app) {kind : PanelKind}
    (hapart : ∀ key, key ∈ app.docs → app.Shown out.keyFor key →
      app.ShownApart out.keyFor id p key)
    (hs : app.alter id (.setKind p kind) = some app') : Follows out S app app' := by
  rcases alter_cases hs with ⟨-, rfl⟩ | ⟨l, l', hl, -, hl', rfl⟩
  · exact .refl h
  · cases hl'
    have hchanged := l.changed_setKind p kind
    refine ⟨(h.insert_layout (hchanged.ids (h.ids id l hl)) fun hproject =>
      hchanged.away.trans (h.home id l hl hproject)), rfl, fun key hkey => ⟨hkey, fun hshown => ?_⟩⟩
    obtain ⟨other, q, config, hplace, hq, hpanel⟩ := hapart key hkey hshown
    refine ⟨other, q, config, ?_, hpanel⟩
    obtain ⟨k, hk, hq⟩ := kindOf_eq_some.mp hq
    by_cases heq : other = id
    · subst heq
      cases hl.symm.trans hk
      refine kindOf_eq_some.mpr ⟨_, by rw [getElem?_insert_layout, if_pos rfl], ?_⟩
      rw [hchanged.kinds, if_neg]
      · exact hq
      · rintro rfl
        exact hplace rfl
    · refine kindOf_eq_some.mpr ⟨k, ?_, hq⟩
      rw [getElem?_insert_layout, if_neg heq]
      exact hk

/-! ## Mirrors -/

theorem Sound.follows_leaveHome (h : Sound out S app) (hid : id ∈ app.projects) (p : PanelId)
    (moved : Bool) : Follows out S app (app.leaveHome id p moved) := by
  rw [leaveHome]
  split_ifs
  · exact h.follows_modify (fun l hids => hids.of_panels (l.sendAway_frame p).1)
      (fun l hproject => absurd hid hproject)
      (fun l key => shows_of_panels (l.sendAway_frame p).1)
  · exact .refl h

theorem grows_mirrorOp (l : Layout) (id : ProjectId) (tab : Option TabId) (mirror : PanelKind)
    (new : NewMirror) : (mirrorOp l id tab mirror new).grows = true := by
  rw [mirrorOp]
  split <;> rfl

theorem isSub_iff : app.isSub id = true ↔ id ∈ app.subs.map SubWorkspace.id := by
  rw [isSub, List.contains_iff_mem]

/-- A new sub-workspace comes with a mirror. -/
theorem Sound.follows_newSub (h : Sound out S app) {new : NewMirror} (hS : S new.sub.id)
    (hnew : ¬ app.knows new.sub.id = true) {l : Layout}
    (hl : Layout.newDefault new.sub.id new.panel new.tab = some l) (mirror : PanelKind) :
    Follows out S app { app with
      subs := app.subs ++ [new.sub]
      workspaces := app.workspaces.insert new.sub.id (l.setKind new.panel mirror).1 } := by
  rw [knows, Bool.or_eq_true, Bool.or_eq_true, not_or, not_or, isSub_iff,
    Std.ExtTreeMap.contains_iff_mem] at hnew
  obtain ⟨⟨-, hsub⟩, hloaded⟩ := hnew
  have hadded := Layout.added_newDefault hl
  have hchanged := l.changed_setKind new.panel mirror
  have hput := h.follows_insert
    (hchanged.ids (hadded.ids Layout.ids_empty))
    (fun _ => hchanged.away.trans hadded.away) fun k key hk => by
      rw [Std.ExtTreeMap.mem_iff_isSome_getElem?, hk] at hloaded
      exact absurd rfl hloaded
  refine ⟨{ hput.sound with subs := ?_, distinct := ?_ }, rfl, hput.docs⟩
  · intro id hid
    rw [List.map_append, List.mem_append] at hid
    rcases hid with hid | hid
    · exact h.subs id hid
    · rw [List.map_singleton, List.mem_singleton] at hid
      exact hid ▸ hS
  · rw [List.map_append, List.map_singleton]
    exact h.distinct.append (List.nodup_singleton _)
      (List.disjoint_singleton.mpr hsub)

theorem Sound.follows_syncTo (h : Sound out S app) {pid : ProjectId} {sub : Option ProjectId}
    {tab : Option TabId} {moved : Bool} {new : NewMirror}
    (hpid : pid ∈ app.projects ∨ app.isSub pid = true) (hS : S new.sub.id)
    {result : AppState × Option ProjectId}
    (hs : app.syncTo out pid p sub tab moved new = some result) :
    Follows out S app result.1 := by
  rw [syncTo] at hs
  by_cases hsub : app.isSub pid = true
  · rw [if_pos hsub] at hs
    cases hs
    exact .refl h
  · rw [if_neg hsub] at hs
    have hproject : pid ∈ app.projects := hpid.resolve_right hsub
    split at hs
    · cases hs
      exact .refl h
    · dsimp only at hs
      split at hs
      · next id _ =>
          have hload := h.follows_load id
          split at hs
          · cases hs
            exact hload
          · obtain ⟨app', halter, rfl⟩ := Option.map_eq_some_iff.mp hs
            have hput := hload.trans (hload.sound.follows_alter (grows_mirrorOp _ _ _ _ _) halter)
            exact hput.trans (hput.sound.follows_leaveHome (hput.projects ▸ hproject) p moved)
      · split at hs
        · cases hs
        · next hknown =>
            obtain ⟨l, hl, rfl⟩ := Option.map_eq_some_iff.mp hs
            have hput := h.follows_newSub hS hknown hl (.mirror ⟨pid, p⟩)
            exact hput.trans (hput.sound.follows_leaveHome hproject p moved)

theorem syncTo_of_isSub {pid : ProjectId} {sub : Option ProjectId} {tab : Option TabId}
    {moved : Bool} {new : NewMirror} (hsub : app.isSub pid = true) :
    app.syncTo out pid p sub tab moved new = some (app, none) := by
  rw [syncTo, if_pos hsub]

theorem Sound.follows_moveTab (h : Sound out S app) {pid : ProjectId} {tab : TabId}
    {new : PanelId → NewMirror} (hpid : pid ∈ app.projects ∨ app.isSub pid = true)
    (hS : ∀ p ∈ app.tabPanels pid tab, S (new p).sub.id)
    (hs : app.moveTab out pid tab new = some app') : Follows out S app app' := by
  rw [moveTab, Option.map_eq_some_iff] at hs
  obtain ⟨last, hs, rfl⟩ := hs
  refine (List.foldlM_keeps (P := fun state : AppState × Option (ProjectId × TabId) =>
    Follows out S app state.1 ∧ (pid ∈ state.1.projects ∨ state.1.isSub pid = true))
    ?_ hs ⟨.refl h, hpid⟩).1
  rintro state p hp state' hstate ⟨hfollows, hpid⟩
  obtain ⟨result, hsync, rfl⟩ := Option.map_eq_some_iff.mp hstate
  have hnext := hfollows.sound.follows_syncTo hpid (hS p hp) hsync
  have hresult : Follows out S app result.1 ∧
      (pid ∈ result.1.projects ∨ result.1.isSub pid = true) := by
    refine ⟨hfollows.trans hnext, ?_⟩
    rcases hpid with hproject | hsub
    · exact .inl (hnext.projects ▸ hproject)
    · rw [syncTo_of_isSub hsub] at hsync
      cases hsync
      exact .inr hsub
  obtain ⟨app₁, sub⟩ := result
  dsimp only
  split <;> exact hresult

/-! ## Opening -/

/-- Every open document is shown. -/
def AllShown (keyFor : PathBuf → String) (app : AppState) : Prop :=
  ∀ key, key ∈ app.docs → app.Shown keyFor key

theorem Follows.allShown (h : Follows out S app app') (hall : app.AllShown out.keyFor) :
    app'.AllShown out.keyFor := by
  intro key hkey
  obtain ⟨hkey', hshown⟩ := h.docs key hkey
  exact hshown (hall key hkey')

theorem mem_docs_ensureFile {path : PathBuf} {reading : Reading}
    (hkey : key ∈ (app.ensureFile out path reading).docs) :
    key = .file (out.keyFor path) ∨ key ∈ app.docs := by
  rw [ensureFile, withDocuments, Documents.ensureFile, documents] at hkey
  dsimp only at hkey
  split_ifs at hkey
  · exact .inr hkey
  · split at hkey
    · exact .inr hkey
    · rcases Std.ExtTreeMap.mem_insert.mp hkey with heq | hmem
      · exact .inl (Std.LawfulEqCmp.compare_eq_iff_eq.mp heq).symm
      · exact .inr hmem

theorem mem_docs_ensureUntitled {languages : Std.ExtTreeMap DocKey String}
    {eol : Text.LineEnding}
    (hkey : key ∈ (app.withDocuments ((app.documents languages).ensureUntitled p eol).1).docs) :
    key = .untitled p ∨ key ∈ app.docs := by
  rw [withDocuments, Documents.ensureUntitled, documents] at hkey
  dsimp only at hkey
  split_ifs at hkey
  · exact .inr hkey
  · rcases Std.ExtTreeMap.mem_insert.mp hkey with heq | hmem
    · exact .inl (Std.LawfulEqCmp.compare_eq_iff_eq.mp heq).symm
    · exact .inr hmem

theorem Sound.withDocuments (h : Sound out S app) (documents : Documents) :
    Sound out S (app.withDocuments documents) :=
  { h with }

theorem AllShown.ensureFile (hall : app.AllShown out.keyFor) {path : PathBuf}
    (hshown : app.Shown out.keyFor (.file (out.keyFor path))) (reading : Reading) :
    (app.ensureFile out path reading).AllShown out.keyFor := by
  intro key hkey
  rcases mem_docs_ensureFile hkey with rfl | hkey
  · exact hshown
  · exact hall key hkey

/-- A panel that is drawn opens the document that it shows. -/
theorem AllShown.showEditor (hall : app.AllShown out.keyFor) {kind : PanelKind}
    (hp : app.kindOf id p = some kind) (reading : Reading) :
    (app.showEditor out p kind reading).AllShown out.keyFor := by
  rw [AppState.showEditor.eq_def]
  split
  · exact hall.ensureFile ⟨id, p, _, hp, rfl⟩ reading
  · intro key hkey
    rcases mem_docs_ensureUntitled hkey with rfl | hkey
    · exact ⟨id, p, _, hp, rfl⟩
    · exact hall key hkey
  · exact hall

theorem Sound.showEditor (h : Sound out S app) (p : PanelId) (kind : PanelKind)
    (reading : Reading) : Sound out S (app.showEditor out p kind reading) := by
  rw [AppState.showEditor.eq_def]
  split
  · exact h.withDocuments _
  · exact h.withDocuments _
  · exact h

theorem Sound.draw (h : Sound out S app) (hall : app.AllShown out.keyFor) (id : ProjectId)
    (p : PanelId) (reading : Reading) :
    Sound out S (app.draw out id p reading) ∧
      (app.draw out id p reading).AllShown out.keyFor ∧
        (app.draw out id p reading).projects = app.projects := by
  have hshow : ∀ app₁ : AppState, Follows out S app app₁ → ∀ other q record,
      app₁.record other q = some record →
        Sound out S (app₁.showEditor out q record.kind reading) ∧
          (app₁.showEditor out q record.kind reading).AllShown out.keyFor ∧
            (app₁.showEditor out q record.kind reading).projects = app.projects := by
    intro app₁ hfollows other q record hrecord
    refine ⟨hfollows.sound.showEditor _ _ _,
      (hfollows.allShown hall).showEditor (kindOf_of_record hrecord) reading, ?_⟩
    rw [AppState.showEditor.eq_def, ← hfollows.projects]
    split <;> rfl
  rw [AppState.draw]
  split
  · exact ⟨h, hall, rfl⟩
  · next record hrecord =>
      split
      · next m _ =>
          split_ifs
          · have hload := h.follows_load m.project
            dsimp only
            split
            · next source hsource => exact hshow _ hload _ _ source hsource
            · exact ⟨hload.sound, hload.allShown hall, hload.projects⟩
          · exact ⟨h, hall, rfl⟩
      · exact hshow app (.refl h) id p record hrecord

theorem kindOf_of_editorKey (h : app.editorKey out id p = some key) :
    ∃ config, app.kindOf id p = some (.editor config) ∧
      panelKey out.keyFor p config.path = key := by
  obtain ⟨record, hrecord, hkey⟩ := Option.bind_eq_some_iff.mp h
  have hp := kindOf_of_record hrecord
  split at hkey
  · next config hkind =>
      cases hkey
      exact ⟨config, hkind ▸ hp, rfl⟩
  · cases hkey

theorem not_editor_of_editorKey (h : app.editorKey out id p = none) (config : EditorPanelConfig) :
    app.kindOf id p ≠ some (.editor config) := by
  intro hp
  obtain ⟨record, hrecord, hkind⟩ := exists_record hp
  rw [editorKey, hrecord, Option.bind_some, hkind] at h
  cases h

theorem shownApart_of_not_editor {keyFor : PathBuf → String}
    (hp : ∀ config, app.kindOf id p ≠ some (.editor config)) (hshown : app.Shown keyFor key) :
    app.ShownApart keyFor id p key := by
  rcases shownApart_or hshown id p with hapart | ⟨config, hp', -⟩
  · exact hapart
  · exact absurd hp' (hp config)

theorem Sound.follows_becomeEditor (h : Sound out S app) {path : PathBuf}
    (hapart : ∀ key, key ∈ app.docs → app.Shown out.keyFor key →
      app.ShownApart out.keyFor id p key)
    (hs : app.becomeEditor id p path = some app') : Follows out S app app' := by
  obtain ⟨app₁, hkind, hfocus⟩ := Option.bind_eq_some_iff.mp hs
  have hset := h.follows_setKind hapart hkind
  exact hset.trans (hset.sound.follows_alter rfl hfocus)

theorem shows_of_editorOf {path : PathBuf} {record : Panel}
    (hs : editorOf out l path = some record) :
    l.Shows out.keyFor (.file (out.keyFor path)) := by
  obtain ⟨⟨q, r⟩, hr, rfl⟩ := List.mem_map.mp (List.mem_of_find?_eq_some hs)
  have hpath := List.find?_some hs
  dsimp only at hpath
  split at hpath
  · next other hkind =>
      refine ⟨q, ⟨some other⟩, Layout.kindOf_eq_some.mpr ⟨r, ?_, hkind⟩, ?_⟩
      · exact Std.ExtTreeMap.mem_toList_iff_getElem?_eq_some.mp hr
      · exact congrArg DocKey.file (of_decide_eq_true hpath)
  · cases hpath

/-- After a file is opened, an editor of a loaded workspace shows it. -/
theorem Sound.openInEditor (h : Sound out S app) {path : PathBuf} {anchor : Option PanelId}
    {new : PanelId × TabId} {result : AppState × Option PanelId}
    (hs : app.openInEditor out id path anchor new = some result) :
    Follows out S app result.1 ∧ (result.2 = none → id ∉ app.workspaces) ∧
      (result.2 ≠ none → result.1.Shown out.keyFor (.file (out.keyFor path))) := by
  rw [AppState.openInEditor] at hs
  cases hl : app.workspaces[id]? with
  | none =>
      rw [hl] at hs
      cases hs
      refine ⟨.refl h, fun _ hmem => ?_, fun hne => absurd rfl hne⟩
      rw [Std.ExtTreeMap.mem_iff_isSome_getElem?, hl] at hmem
      cases hmem
  | some l =>
      rw [hl] at hs
      dsimp only at hs
      split at hs
      · next record hrecord =>
          obtain ⟨app', halter, rfl⟩ := Option.map_eq_some_iff.mp hs
          have hfollows := h.follows_alter rfl halter
          refine ⟨hfollows, (fun hnone => nomatch hnone), fun _ => ?_⟩
          rcases alter_cases halter with ⟨hnone, -⟩ | ⟨k, k', hk, hfresh, hk', rfl⟩
          · cases hl.symm.trans hnone
          · cases hl.symm.trans hk
            refine shown_iff.mpr ⟨id, k', ?_, ?_⟩
            · rw [getElem?_insert_layout, if_pos rfl]
            · exact (Layout.grows_apply rfl hfresh hk').shows (shows_of_editorOf hrecord)
      · obtain ⟨app', halter, rfl⟩ := Option.map_eq_some_iff.mp hs
        refine ⟨h.follows_alter rfl halter, (fun hnone => nomatch hnone), fun _ => ?_⟩
        rcases alter_cases halter with ⟨hnone, -⟩ | ⟨k, k', hk, -, hk', rfl⟩
        · cases hl.symm.trans hnone
        · refine ⟨id, new.1, ⟨some path⟩, kindOf_eq_some.mpr ⟨k', ?_, ?_⟩, rfl⟩
          · rw [getElem?_insert_layout, if_pos rfl]
          · rw [(Layout.added_addPanel hk').kinds, if_pos rfl]

/-- The document of the file may be open before an editor shows it. -/
theorem Sound.openAt (h : Sound out S app) {path : PathBuf} {anchor : Option PanelId}
    {new : PanelId × TabId} {reading : Reading}
    (hall : ∀ key, key ∈ app.docs → app.Shown out.keyFor key ∨
      key = .file (out.keyFor path) ∧ id ∈ app.workspaces)
    (hs : app.openAt out id path anchor new reading = some app') :
    Sound out S app' ∧ app'.AllShown out.keyFor := by
  rw [AppState.openAt, Option.map_eq_some_iff] at hs
  obtain ⟨⟨app₁, panel⟩, hopen, rfl⟩ := hs
  obtain ⟨hfollows, hnone, hsome⟩ := h.openInEditor hopen
  have hall₁ : app₁.AllShown out.keyFor := by
    intro key hkey
    obtain ⟨hkey', hshown⟩ := hfollows.docs key hkey
    rcases hall key hkey' with hkept | ⟨rfl, hloaded⟩
    · exact hshown hkept
    · exact hsome fun hpanel => hnone hpanel hloaded
  cases panel with
  | none => exact ⟨hfollows.sound, hall₁⟩
  | some panel =>
      exact ⟨hfollows.sound.withDocuments _,
        hall₁.ensureFile (hsome (Option.some_ne_none _)) reading⟩

theorem Sound.openAtLine (h : Sound out S app) (hall : app.AllShown out.keyFor) {path : PathBuf}
    {anchor : Option PanelId} {new : PanelId × TabId} {reading : Reading}
    (hloaded : id ∈ app.workspaces)
    (hs : app.openAtLine out id path anchor new reading = some app') :
    Sound out S app' ∧ app'.AllShown out.keyFor := by
  have hread : Sound out S (app.ensureFile out path reading) := h.withDocuments _
  refine hread.openAt (fun key hkey => ?_) hs
  rcases mem_docs_ensureFile hkey with rfl | hkey
  · exact .inr ⟨rfl, hloaded⟩
  · exact .inl (hall key hkey)

theorem Sound.follows_openHere (h : Sound out S app) {path : PathBuf} {anchor : Option PanelId}
    {new : PanelId × TabId} (hs : app.openHere out id p path anchor new = some app') :
    Follows out S app app' := by
  rw [openHere] at hs
  cases hkey : app.editorKey out id p with
  | none =>
      rw [hkey] at hs
      exact h.follows_becomeEditor
        (fun key _ => shownApart_of_not_editor (not_editor_of_editorKey hkey)) hs
  | some key =>
      rw [hkey] at hs
      dsimp only at hs
      obtain ⟨config, hp, rfl⟩ := kindOf_of_editorKey hkey
      split at hs
      · obtain ⟨result, hopen, rfl⟩ := Option.map_eq_some_iff.mp hs
        exact (h.openInEditor hopen).1
      · obtain ⟨hdrop, hapart⟩ := h.drop_document hp rfl rfl
        exact hdrop.trans (hdrop.sound.follows_becomeEditor hapart hs)

theorem Sound.follows_dropFile (h : Sound out S app) {path : PathBuf} {anchor : Option PanelId}
    {new : PanelId × TabId} (hp : ∀ config, app.kindOf id p ≠ some (.editor config))
    (hs : app.dropFile out id p path anchor new = some app') : Follows out S app app' := by
  rw [dropFile] at hs
  split at hs
  · obtain ⟨result, hopen, rfl⟩ := Option.map_eq_some_iff.mp hs
    exact (h.openInEditor hopen).1
  · exact h.follows_becomeEditor (fun key _ => shownApart_of_not_editor hp) hs

/-! ## Projects that go -/

/-- The layout stays loaded when the project is deleted: a sub-workspace goes along if the
mirrors of the project were all that it had. -/
def stays (app : AppState) (project other : ProjectId) (l : Layout) : Bool :=
  other ≠ project && (!app.isSub other || (l.mirrorsOf project none).isEmpty ||
    !((l.mirrorsOf project none).foldl (fun l p => (l.removePanel p).1) l).tabs.isEmpty)

/-- A workspace is loaded, with a layout that satisfies `P`. -/
def Holds (app : AppState) (other : ProjectId) (P : Layout → Prop) : Prop :=
  ∃ l, app.workspaces[other]? = some l ∧ P l

section holds

variable {P : Layout → Prop} {other project : ProjectId}

theorem Holds.loadWorkspace (out : Outside) (h : app.Holds other P) (id : ProjectId) :
    (app.loadWorkspace out id).Holds other P := by
  rw [AppState.loadWorkspace, App.loadWorkspace]
  split_ifs with hloaded
  · exact h
  · exact h
  · obtain ⟨l, hl, hP⟩ := h
    refine ⟨l, ?_, hP⟩
    dsimp only
    rw [getElem?_insert_layout, if_neg]
    · exact hl
    · rintro rfl
      rw [Std.ExtTreeMap.contains_iff_mem, Std.ExtTreeMap.mem_iff_isSome_getElem?, hl] at hloaded
      exact hloaded rfl

/-- A panel coming back is no matter to `P`. -/
def Indifferent (P : Layout → Prop) : Prop :=
  ∀ l p tab back, l.bringBack p tab = some back → P l → P back.1

theorem Holds.returnMirrored (h : app.Holds other P) (hP : Indifferent P) (panel : Panel) :
    (app.returnMirrored out panel).Holds other P := by
  rw [AppState.returnMirrored]
  split
  · next m _ =>
      obtain ⟨l, hl, hPl⟩ := h.loadWorkspace out m.project
      rw [returnHome, Holds]
      dsimp only
      rw [Std.ExtTreeMap.getElem?_modify]
      split_ifs with heq
      · rw [Std.LawfulEqCmp.compare_eq_iff_eq] at heq
        subst heq
        rw [hl, Option.map_some]
        refine ⟨_, rfl, ?_⟩
        split
        · next back hback => exact hP l m.panel _ back hback hPl
        · exact hPl
      · exact ⟨l, hl, hPl⟩
  · exact h

theorem Holds.removeSub (h : app.Holds other P) (hP : Indifferent P) (hne : other ≠ id) :
    (app.removeSub out id).Holds other P := by
  have hload := h.loadWorkspace out id
  rw [AppState.removeSub]
  dsimp only
  split
  · next l hl =>
      have hreturn : (l.panels.toList.map Prod.snd).foldl
          (fun (app : AppState) panel => app.returnMirrored out panel)
            { app.loadWorkspace out id with
              workspaces := (app.loadWorkspace out id).workspaces.erase id }
          |>.Holds other P := by
        refine List.foldl_keeps (P := fun app : AppState => app.Holds other P)
          (fun app panel _ h => h.returnMirrored hP panel) ?_
        obtain ⟨k, hk, hPk⟩ := hload
        exact ⟨k, by rw [getElem?_erase_layout, if_neg hne]; exact hk, hPk⟩
      exact List.foldl_keeps (P := fun app : AppState => app.Holds other P)
        (fun app panel _ h => by
          rw [Holds, workspaces_dropUnshown]
          exact h) hreturn
  · exact hload

theorem Holds.insert_of_ne (h : app.Holds other P) (hne : other ≠ id) (l : Layout) :
    Holds { app with workspaces := app.workspaces.insert id l } other P := by
  obtain ⟨k, hk, hPk⟩ := h
  exact ⟨k, by rw [getElem?_insert_layout, if_neg hne]; exact hk, hPk⟩

theorem Holds.dropMirrorsIn (h : app.Holds other P) (hP : Indifferent P)
    (panel : Option PanelId) (hne : other ≠ id) :
    (app.dropMirrorsIn out project panel id).Holds other P := by
  have hload := h.loadWorkspace out id
  rw [AppState.dropMirrorsIn]
  dsimp only
  split
  · exact hload
  · split_ifs
    · exact hload
    · exact (hload.insert_of_ne hne _).removeSub hP hne
    · exact hload.insert_of_ne hne _

theorem indifferent_shows (keyFor : PathBuf → String) (key : DocKey) :
    Indifferent fun l => l.Shows keyFor key :=
  fun _ _ _ _ hback hshows => shows_of_panels (Layout.bringBack_frame hback).1 hshows

theorem indifferent_eq (h : l.away = []) : Indifferent fun k => k = l := by
  rintro _ p tab back hback rfl
  rw [Layout.bringBack_of_not_away (by rw [h]; exact List.not_mem_nil)] at hback
  cases hback
  rfl

/-- The mirrors go from a layout that is still there afterwards. -/
theorem holds_dropMirrorsIn_self {l : Layout} (hl : app.workspaces[id]? = some l) (hids : l.Ids)
    (hleft : (l.mirrorsOf project none).isEmpty = true ∨
      ((l.mirrorsOf project none).foldl (fun l p => (l.removePanel p).1) l).tabs.isEmpty = false)
    {keyFor : PathBuf → String} (hshows : l.Shows keyFor key) :
    (app.dropMirrorsIn out project none id).Holds id fun l => l.Shows keyFor key := by
  have hmem : id ∈ app.workspaces := by
    rw [Std.ExtTreeMap.mem_iff_isSome_getElem?, hl]
    rfl
  rw [AppState.dropMirrorsIn, loadWorkspace_of_mem hmem, hl]
  dsimp only
  split_ifs with hnone htabs
  · exact ⟨l, hl, hshows⟩
  · rw [htabs] at hleft
    exact absurd (hleft.resolve_left hnone) (by simp)
  · exact ⟨_, by rw [getElem?_insert_layout, if_pos rfl], Layout.shows_removeMirrors hids hshows⟩

/-- What a layout shows that stays is still shown. -/
theorem Sound.holds_dropMirrors (h : Sound out S app) {k : ProjectId}
    (hl : app.workspaces[k]? = some l) (hstays : app.stays project k l = true)
    (hshows : l.Shows out.keyFor key) :
    (app.dropMirrors out project none).Holds k fun l => l.Shows out.keyFor key := by
  have hindifferent := indifferent_shows out.keyFor key
  rw [dropMirrors]
  by_cases hsub : k ∈ app.subs.map SubWorkspace.id
  · have haway : l.away = [] := h.home k l hl (h.apart k (h.subs k hsub))
    have hleft : (l.mirrorsOf project none).isEmpty = true ∨
        ((l.mirrorsOf project none).foldl (fun l p => (l.removePanel p).1) l).tabs.isEmpty =
          false := by
      rw [stays, Bool.and_eq_true, Bool.or_eq_true, Bool.or_eq_true, Bool.not_eq_true',
        Bool.not_eq_true', isSub_iff.mpr hsub] at hstays
      simpa using hstays.2
    -- The layout is what it was until its turn comes, and comes only once.
    obtain ⟨as, bs, hsubs⟩ := List.append_of_mem hsub
    have hnodup := h.distinct
    rw [hsubs, List.nodup_middle, List.nodup_cons, List.mem_append, not_or] at hnodup
    rw [hsubs, List.foldl_append, List.foldl_cons]
    have hbefore : (as.foldl (fun app id => app.dropMirrorsIn out project none id) app).Holds k
        fun k => k = l := by
      refine List.foldl_keeps (P := fun app : AppState => app.Holds k fun k => k = l)
        (fun app id hid hholds => hholds.dropMirrorsIn (indifferent_eq haway) none ?_) ⟨l, hl, rfl⟩
      rintro rfl
      exact hnodup.1.1 hid
    obtain ⟨l', hl', rfl⟩ := hbefore
    refine List.foldl_keeps (P := fun app : AppState => app.Holds k fun l => l.Shows out.keyFor key)
      (fun app id hid hholds => hholds.dropMirrorsIn hindifferent none ?_)
      (holds_dropMirrorsIn_self hl' (h.ids k l' hl) hleft hshows)
    rintro rfl
    exact hnodup.1.2 hid
  · refine List.foldl_keeps (P := fun app : AppState => app.Holds k fun l => l.Shows out.keyFor key)
      (fun app id hid hholds => hholds.dropMirrorsIn hindifferent none ?_) ⟨l, hl, hshows⟩
    rintro rfl
    exact hsub hid

end holds

/-- Every open document has an editor in a layout that stays when the project is deleted. -/
def Spared (keyFor : PathBuf → String) (app : AppState) (project : ProjectId) : Prop :=
  ∀ key ∈ app.docs.keys, ∃ workspace ∈ app.workspaces.toList,
    app.stays project workspace.1 workspace.2 = true ∧
      ∃ entry ∈ workspace.2.panels.toList, entry.2.document keyFor = some key

instance (keyFor : PathBuf → String) (app : AppState) (project : ProjectId) :
    Decidable (app.Spared keyFor project) := by
  unfold Spared
  infer_instance

theorem Sound.follows_switchProject (h : Sound out S app) (id : ProjectId) :
    Follows out S app (app.switchProject out id) := by
  rw [switchProject]
  split_ifs
  · have hactive : Follows out S app { app with active := some id } :=
      ⟨{ h with }, rfl, fun _ hkey => ⟨hkey, fun hshown => hshown⟩⟩
    exact hactive.trans (hactive.sound.follows_load id)
  · exact .refl h

/-- The project and its layout are gone. -/
theorem Sound.eraseProject (h : Sound out S app) (hgone : app.workspaces[id]? = none)
    (active : Option ProjectId) :
    Sound out S { app with projects := app.projects.erase id, active } :=
  { h with
    home := by
      intro other l hl hother
      have hne : other ≠ id := by
        rintro rfl
        rw [hgone] at hl
        cases hl
      exact h.home other l hl fun hmem => hother ((List.mem_erase_of_ne hne).mpr hmem)
    apart := fun other hS hmem => h.apart other hS (List.mem_of_mem_erase hmem) }

theorem Sound.deleteProject (h : Sound out S app) {project : ProjectId}
    (hspared : app.Spared out.keyFor project) :
    Sound out S (app.deleteProject out project) ∧
      (app.deleteProject out project).AllShown out.keyFor := by
  have hdrop := h.follows_dropMirrors project none
  have hload := hdrop.trans (hdrop.sound.follows_load project)
  -- Whatever is still open has an editor in a layout that stays.
  have hkept : ∀ key, key ∈ ((app.dropMirrors out project none).loadWorkspace out project).docs →
      ∃ other, other ≠ project ∧
        ((app.dropMirrors out project none).loadWorkspace out project).Holds other
          fun l => l.Shows out.keyFor key := by
    intro key hkey
    obtain ⟨hkey, -⟩ := hload.docs key hkey
    obtain ⟨⟨other, l⟩, hmem, hstays, ⟨p, record⟩, hrecord, hdocument⟩ :=
      hspared key (Std.ExtTreeMap.mem_keys.mpr hkey)
    have hl := Std.ExtTreeMap.mem_toList_iff_getElem?_eq_some.mp hmem
    have hp := Std.ExtTreeMap.mem_toList_iff_getElem?_eq_some.mp hrecord
    have hshows : l.Shows out.keyFor key := by
      dsimp only at hdocument
      rw [Panel.document, h.ids other l hl p record hp] at hdocument
      split at hdocument
      · next config hkind =>
          exact ⟨p, config, Layout.kindOf_eq_some.mpr ⟨record, hp, hkind⟩,
            Option.some.inj hdocument⟩
      · cases hdocument
    refine ⟨other, ?_, (h.holds_dropMirrors hl hstays hshows).loadWorkspace out project⟩
    rw [stays, Bool.and_eq_true, decide_eq_true_eq] at hstays
    exact hstays.1
  rw [AppState.deleteProject]
  generalize (app.dropMirrors out project none).loadWorkspace out project = app₁ at hload hkept ⊢
  have herase := hload.sound.erase_layout project
  have hshown : AllShown out.keyFor { app₁ with workspaces := app₁.workspaces.erase project } := by
    intro key hkey
    obtain ⟨other, hne, l, hl, hshows⟩ := hkept key hkey
    refine shown_iff.mpr ⟨other, l, ?_, hshows⟩
    rw [getElem?_erase_layout, if_neg hne]
    exact hl
  have hgone : (app₁.workspaces.erase project)[project]? = none := by
    rw [getElem?_erase_layout, if_pos rfl]
  dsimp only
  split_ifs
  · have hproject := herase.eraseProject hgone (app₁.projects.erase project).head?
    split
    · next next _ =>
        have hswitch := hproject.follows_switchProject next
        exact ⟨hswitch.sound, hswitch.allShown hshown⟩
    · exact ⟨hproject, hshown⟩
  · exact ⟨herase.eraseProject hgone app₁.active, hshown⟩
  · exact ⟨herase, hshown⟩

end AppState

end Throng
