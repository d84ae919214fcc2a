import Mathlib.Data.Fintype.EquivFin
import Mathlib.Data.List.Duplicate
import Throng.Core.LayoutSaved

/-!
# Stored layouts

A layout is stored as JSON. Reading and writing JSON is left to the library the
source uses, which stands here as a parameter with what is documented of it
(`Serde.Documented`); what `from_json` itself decides is the version and `check`.
-/

namespace Throng

/-- The JSON library, as far as a layout is read and written with it. -/
structure Serde (Text Value : Type) where
  /-- `serde_json::from_str`. -/
  fromStr : Text → Except String Value
  /-- The document's `version`, when it has one that is a `u64`. -/
  version : Value → Option Nat
  /-- `serde_json::from_value`. -/
  fromValue : Value → Except String Layout
  /-- `serde_json::to_string`. -/
  toStr : Layout → Text

namespace Layout

variable {l l' : Layout} {Text Value : Type}

def fromJson (serde : Serde Text Value) (text : Text) : Except LayoutError Layout :=
  match serde.fromStr text with
  | .error e => .error (.parse e)
  | .ok value =>
      let version := (serde.version value).getD 0 % 2 ^ 32
      if version > layoutSchemaVersion then .error (.newerVersion version)
      else
        match serde.fromValue value with
        | .error e => .error (.parse e)
        | .ok layout => layout.check.map fun _ => layout

/-- Serialise for storage. -/
def toJson (serde : Serde Text Value) (l : Layout) : Text := serde.toStr l

theorem fromJson_eq_ok {serde : Serde Text Value} {text : Text} :
    fromJson serde text = .ok l ↔ ∃ value, serde.fromStr text = .ok value ∧
      (serde.version value).getD 0 % 2 ^ 32 ≤ layoutSchemaVersion ∧
      serde.fromValue value = .ok l ∧ l.check = .ok () := by
  constructor
  · intro h
    simp only [fromJson] at h
    split at h
    · cases h
    · next value hstr =>
        split at h
        · cases h
        · next hversion =>
            split at h
            · cases h
            · next layout hread =>
                cases hcheck : layout.check with
                | error e =>
                    rw [hcheck] at h
                    cases h
                | ok u =>
                    rw [hcheck] at h
                    cases h
                    exact ⟨value, hstr, Nat.not_lt.mp hversion, hread, hcheck⟩
  · rintro ⟨value, hstr, hversion, hread, hcheck⟩
    simp only [fromJson, hstr, if_neg (Nat.not_lt.mpr hversion), hread, hcheck, Except.map]

end Layout

/-- What is documented of the library and of the code derived for it. -/
structure Serde.Documented {Text Value : Type} (serde : Serde Text Value) : Prop where
  /-- A layout's version is its document's, a `u32`. -/
  version : ∀ {text value l}, serde.fromStr text = .ok value → serde.fromValue value = .ok l →
    serde.version value = some l.version ∧ l.version < 2 ^ 32
  /-- No text is read that nests too deep. -/
  shallow : ∀ {text value l}, serde.fromStr text = .ok value → serde.fromValue value = .ok l →
    l.Shallow
  /-- What is written is read as it was, but for the last digits of its fractions. -/
  written : ∀ {l : Layout}, l.version < 2 ^ 32 → l.AllFinite → l.Shallow →
    ∃ value back, serde.fromStr (serde.toStr l) = .ok value ∧ serde.fromValue value = .ok back ∧
      back.unscaled = l.unscaled
  /-- A fraction that is no number is written as `null`, which is read as no fraction. -/
  null : ∀ {l value back}, ¬ l.AllFinite → serde.fromStr (serde.toStr l) = .ok value →
    serde.fromValue value ≠ .ok back

namespace Layout

variable {l l' : Layout} {Text Value : Type}

/-- A save of the layout is read back at the next load. -/
def ReadsBack (serde : Serde Text Value) (l : Layout) : Prop :=
  ∃ back, fromJson serde (l.toJson serde) = .ok back ∧ back.unscaled = l.unscaled

theorem version_of_fromJson {serde : Serde Text Value} (hserde : serde.Documented) {text : Text}
    (h : fromJson serde text = .ok l) : l.version ≤ layoutSchemaVersion := by
  obtain ⟨value, hstr, hle, hread, -⟩ := fromJson_eq_ok.mp h
  obtain ⟨hversion, hlt⟩ := hserde.version hstr hread
  rwa [hversion, Option.getD_some, Nat.mod_eq_of_lt hlt] at hle

theorem shallow_of_fromJson {serde : Serde Text Value} (hserde : serde.Documented) {text : Text}
    (h : fromJson serde text = .ok l) : l.Shallow := by
  obtain ⟨value, hstr, -, hread, -⟩ := fromJson_eq_ok.mp h
  exact hserde.shallow hstr hread

/-- A layout of today's version that passes `check` is read back when its fractions are
numbers and its trees are not too deep, and only then. -/
theorem readsBack_iff {serde : Serde Text Value} (hserde : serde.Documented)
    (hversion : l.version ≤ layoutSchemaVersion) (hcheck : l.check = .ok ()) :
    ReadsBack serde l ↔ l.AllFinite ∧ l.Shallow := by
  constructor
  · rintro ⟨back, hback, heq⟩
    obtain ⟨value, hstr, -, hread, -⟩ := fromJson_eq_ok.mp hback
    refine ⟨?_, ?_⟩
    · by_contra hfinite
      exact hserde.null hfinite hstr hread
    · have hshallow := hserde.shallow hstr hread
      rwa [← shallow_unscaled, heq, shallow_unscaled] at hshallow
  · rintro ⟨hfinite, hshallow⟩
    have hlt : l.version < 2 ^ 32 := Nat.lt_of_le_of_lt hversion (by decide)
    obtain ⟨value, back, hstr, hread, heq⟩ := hserde.written hlt hfinite hshallow
    obtain ⟨hsome, hback⟩ := hserde.version hstr hread
    have hsame : back.unscaled.version = l.unscaled.version := by rw [heq]
    refine ⟨back, fromJson_eq_ok.mpr ⟨value, hstr, ?_, hread, ?_⟩, heq⟩
    · rw [hsome, Option.getD_some, Nat.mod_eq_of_lt hback]
      exact hsame.trans_le hversion
    · rwa [← check_unscaled, heq, check_unscaled]

/-- The panels away stand in no tree, and once each in the list. -/
def AwayApart (l : Layout) : Prop := l.away.Nodup ∧ ∀ p ∈ l.away, p ∉ treePanels l.tabs

instance (l : Layout) : Decidable l.AwayApart := inferInstanceAs (Decidable (_ ∧ _))

theorem AwayApart.loadable (h : l.pruneOrphans.1.AwayApart) (hcheck : l.check = .ok ()) :
    l.pruneOrphans.1.Loadable := by
  obtain ⟨hnonempty, hnodup, hrecorded⟩ := check_eq_ok.mp hcheck
  refine ⟨hnonempty, ?_, recorded_pruneOrphans hrecorded⟩
  exact List.nodup_append'.mpr ⟨hnodup, h.1, fun p hp haway => h.2 p haway hp⟩

/-! ## What goes wrong otherwise -/

theorem exists_fresh (l : Layout) : ∃ tab : TabId, (l.tabs.all fun t => t.id ≠ tab) = true := by
  obtain ⟨n, hn⟩ := Infinite.exists_notMem_finset (l.tabs.map fun t => t.id.uuid).toFinset
  refine ⟨⟨n⟩, List.all_eq_true.mpr fun t ht => ?_⟩
  refine decide_eq_true fun heq => hn ?_
  rw [List.mem_toFinset, List.mem_map]
  exact ⟨t, ht, by rw [heq]⟩

theorem tabOf_head {t : Tab} {rest : List Tab} {q : PanelId} (htabs : l.tabs = t :: rest)
    (hq : q ∈ t.root.panels) : l.tabOf q = some t.id := by
  simp [tabOf, htabs, SplitTree.contains_iff.mpr hq]

theorem focusPanel_head {t : Tab} {rest : List Tab} {q : PanelId} (htabs : l.tabs = t :: rest)
    (hq : q ∈ t.root.panels) :
    (l.focusPanel q).1 = { l with
      tabs := { t with root := (t.root.activate q).1, activePanel := some q } :: rest
      activeTab := some t.id } := by
  simp only [focusPanel, tabOf_head htabs hq, htabs, modifyTab, if_true]

theorem bringBack_head {t : Tab} {rest : List Tab} {p q : PanelId} (tab : TabId)
    (htabs : l.tabs = t :: rest) (hactive : l.activeTab = some t.id)
    (hq : t.activePanel = some q) (hin : q ∈ t.root.panels) (hp : p ∈ l.away) :
    l.bringBack p tab = some ({ l with
      away := l.away.erase p
      tabs := { t with root := (t.root.insert q p .stack).1, activePanel := some p } :: rest
      activeTab := some t.id }, true) := by
  obtain ⟨index, hindex⟩ := Option.isSome_iff_exists.mp (List.isSome_idxOf?.mpr hp)
  have hi : l.away.idxOf p = index := by rw [List.idxOf_eq_getD_idxOf?, hindex, Option.getD_some]
  have herase : l.away.eraseIdx index = l.away.erase p := by
    rw [← hi, List.eraseIdx_idxOf_eq_erase]
  have htabOf : tabOf { l with away := l.away.erase p } q = some t.id := tabOf_head htabs hin
  have hanchor : defaultAnchor { l with away := l.away.erase p } = some q := by
    simp [defaultAnchor, activeTab?, Layout.tab, htabs, hactive, hq]
  simp only [bringBack, hindex, herase, place, hanchor, Option.filter_none, Option.none_or,
    Option.filter_some, htabOf, Option.isSome_some, if_true, Option.map_some]
  simp only [htabs, modifyTab, if_true]

theorem bringBack_nil {p : PanelId} (tab : TabId) (htabs : l.tabs = []) (hp : p ∈ l.away) :
    ∃ title, l.bringBack p tab = some ({ l with
      away := l.away.erase p
      tabs := [⟨tab, title, false, SplitTree.leafOf p, some p⟩]
      activeTab := some tab }, true) := by
  obtain ⟨index, hindex⟩ := Option.isSome_iff_exists.mp (List.isSome_idxOf?.mpr hp)
  have hi : l.away.idxOf p = index := by rw [List.idxOf_eq_getD_idxOf?, hindex, Option.getD_some]
  have herase : l.away.eraseIdx index = l.away.erase p := by
    rw [← hi, List.eraseIdx_idxOf_eq_erase]
  have hanchor : defaultAnchor { l with away := l.away.erase p } = none := by
    cases l.activeTab <;> simp [defaultAnchor, activeTab?, Layout.tab, htabs]
  obtain ⟨title, htitle⟩ := Option.isSome_iff_exists.mp
    (nextNumbered_isSome (by decide) : (nextNumbered "Tab" []).isSome)
  refine ⟨title, ?_⟩
  simp only [bringBack, hindex, herase, place, hanchor, Option.filter_none, Option.none_or]
  simp only [pushTab, nextTabTitle, htabs, List.map_nil, htitle, Option.map_some, List.nil_append]

theorem step_bringBack {start : Layout → Prop} {p : PanelId} {tab : TabId} {back : Bool}
    (hfresh : (l.tabs.all fun t => t.id ≠ tab) = true)
    (hback : l.bringBack p tab = some (l', back)) :
    (machine start).step l (.bringBack p tab) = some l' := by
  simp only [machine, fresh, hfresh, if_true, apply, hback, Option.map_some]

/-- One call that brings the panel back, or two of which the first sets the focus,
put an away panel into the trees, whether it is in them already or not. -/
theorem exists_reach_bringBack {start : Layout → Prop} {p : PanelId}
    (hreach : (machine start).Reach Machine.anyStep l)
    (hnonempty : ∀ t ∈ l.tabs, t.root.panels ≠ []) (hp : p ∈ l.away) :
    ∃ l', (machine start).Reach Machine.anyStep l' ∧
      List.Perm (treePanels l'.tabs) (p :: treePanels l.tabs) ∧ l'.away = l.away.erase p ∧
      ∀ t ∈ l'.tabs, t.root.panels ≠ [] := by
  cases htabs : l.tabs with
  | nil =>
      obtain ⟨tab, hfresh⟩ := exists_fresh l
      obtain ⟨title, hback⟩ := bringBack_nil tab htabs hp
      refine ⟨_, .step hreach trivial (step_bringBack hfresh hback), .refl _, rfl, ?_⟩
      intro t ht
      rw [List.mem_singleton.mp ht]
      exact List.cons_ne_nil p []
  | cons t rest =>
      rw [htabs] at hnonempty
      obtain ⟨q, hq⟩ := List.exists_mem_of_ne_nil _ (hnonempty t List.mem_cons_self)
      have hfocus : (machine start).step l (.focusPanel q) = some { l with
          tabs := { t with root := (t.root.activate q).1, activePanel := some q } :: rest
          activeTab := some t.id } := by
        simp only [machine, fresh, if_true, apply, focusPanel_head htabs hq]
      generalize hl₁ : ({ l with
        tabs := { t with root := (t.root.activate q).1, activePanel := some q } :: rest
        activeTab := some t.id } : Layout) = l₁ at hfocus
      obtain ⟨tab, hfresh⟩ := exists_fresh l₁
      have hq₁ : q ∈ (t.root.activate q).1.panels := by rwa [SplitTree.panels_activate]
      have hback :=
        @bringBack_head l₁ { t with root := (t.root.activate q).1, activePanel := some q }
        rest p q tab (by rw [← hl₁]) (by rw [← hl₁]) rfl hq₁ (by rw [← hl₁]; exact hp)
      have hinsert : List.Perm ((t.root.activate q).1.insert q p .stack).1.panels
          ([p] ++ t.root.panels) := by
        rw [← @SplitTree.panels_activate t.root q]
        exact SplitTree.panels_insert hq₁
      refine ⟨_, .step (.step hreach trivial hfocus) trivial (step_bringBack hfresh hback),
        ?_, ?_, ?_⟩
      · exact @treePanels_replace [] rest t _ [p] hinsert
      · rw [← hl₁]
      · refine @nonempty_replace [] rest t _ hnonempty fun hnil => ?_
        rw [show ((t.root.activate q).1.insert q p .stack).1.panels = [] from hnil] at hinsert
        cases hinsert.nil_eq

/-- Away panels that are not apart end up twice in the trees. -/
theorem exists_reach_check_ne {start : Layout → Prop}
    (hreach : (machine start).Reach Machine.anyStep l)
    (hnonempty : ∀ t ∈ l.tabs, t.root.panels ≠ []) (h : ¬ l.AwayApart) :
    ∃ l', (machine start).Reach Machine.anyStep l' ∧ l'.check ≠ .ok () := by
  have hstuck : ∀ {l₁ : Layout} {p : PanelId}, (machine start).Reach Machine.anyStep l₁ →
      (∀ t ∈ l₁.tabs, t.root.panels ≠ []) → p ∈ l₁.away → p ∈ treePanels l₁.tabs →
      ∃ l', (machine start).Reach Machine.anyStep l' ∧ l'.check ≠ .ok () := by
    intro l₁ p hreach₁ hnonempty₁ haway htree
    obtain ⟨l₂, hreach₂, hperm, -, -⟩ := exists_reach_bringBack hreach₁ hnonempty₁ haway
    refine ⟨l₂, hreach₂, fun hcheck => ?_⟩
    have hnodup := hperm.nodup_iff.mp (check_eq_ok.mp hcheck).2.1
    exact (List.nodup_cons.mp hnodup).1 htree
  by_cases hnodup : l.away.Nodup
  · obtain ⟨p, hp, htree⟩ : ∃ p ∈ l.away, p ∈ treePanels l.tabs := by
      by_contra hnone
      exact h ⟨hnodup, fun p hp htree => hnone ⟨p, hp, htree⟩⟩
    exact hstuck hreach hnonempty hp htree
  · obtain ⟨p, hdup⟩ := List.exists_duplicate_iff_not_nodup.mpr hnodup
    have hcount : 2 ≤ l.away.count p := List.duplicate_iff_two_le_count.mp hdup
    have htwice : p ∈ l.away.erase p := by
      rw [← List.one_le_count_iff, List.count_erase_self]
      omega
    obtain ⟨l₁, hreach₁, hperm, haway, hnonempty₁⟩ :=
      exists_reach_bringBack hreach hnonempty hdup.mem
    exact hstuck hreach₁ hnonempty₁ (haway ▸ htwice) (hperm.mem_iff.mpr List.mem_cons_self)

/-- The layouts a stored text leads to: it is read, its orphans are dropped, and
operations follow. -/
def loaded (serde : Serde Text Value) (text : Text) : Machine Layout Op :=
  machine fun l => ∃ read, fromJson serde text = .ok read ∧ l = read.pruneOrphans.1

def storedId (digit : String) : String :=
  "\"00000000-0000-0000-0000-00000000000" ++ digit ++ "\""

def storedRecord (panel title : String) : String :=
  storedId panel ++ ":\x7b\"id\":" ++ storedId panel ++ ",\"originProject\":" ++ storedId "3" ++
    ",\"title\":\"" ++ title ++ "\",\"kind\":\"untyped\"\x7d"

/-- A stored layout with panel 2 in tab 1. -/
def storedText (records away : String) : String :=
  "\x7b\"version\":1,\"tabs\":[\x7b\"id\":" ++ storedId "1" ++ ",\"title\":\"Tab 1\"," ++
    "\"root\":\x7b\"type\":\"leaf\",\"panels\":[" ++ storedId "2" ++ "],\"active\":0\x7d," ++
    "\"activePanel\":" ++ storedId "2" ++ "\x7d],\"activeTab\":" ++ storedId "1" ++
    ",\"panels\":\x7b" ++ records ++ "\x7d,\"away\":[" ++ storedId away ++ "]\x7d"

/-- A stored layout with one panel in a tab and one away. -/
def storedApart : String :=
  storedText (storedRecord "2" "Panel 1" ++ "," ++ storedRecord "4" "Panel 2") "4"

/-- A stored layout whose one panel is in a tab and away as well. -/
def storedTwice : String := storedText (storedRecord "2" "Panel 1") "2"

/-- What the two texts spell: panel 2 in tab 1, and `away`. -/
def storedLayout (panels : Std.ExtTreeMap PanelId Panel) (away : List PanelId) : Layout :=
  ⟨1, [⟨⟨1⟩, "Tab 1", false, SplitTree.leafOf ⟨2⟩, some ⟨2⟩⟩], some ⟨1⟩, panels, away⟩

def untyped (n : Nat) (title : String) : Panel := ⟨⟨n⟩, ⟨3⟩, title, false, .untyped⟩

def layoutApart : Layout :=
  storedLayout ((∅ : Std.ExtTreeMap PanelId Panel).insert ⟨2⟩ (untyped 2 "Panel 1") |>.insert
    ⟨4⟩ (untyped 4 "Panel 2")) [⟨4⟩]

def layoutTwice : Layout :=
  storedLayout ((∅ : Std.ExtTreeMap PanelId Panel).insert ⟨2⟩ (untyped 2 "Panel 1")) [⟨2⟩]

/-- A JSON library that knows what one text spells, beside the texts it writes itself. -/
def storedSerde (stored : String) (layout : Layout) :
    Serde (String ⊕ Layout) (Nat × Except String Layout) where
  fromStr
    | .inl text =>
        if text = stored then .ok (layout.version, .ok layout) else .error "expected value"
    | .inr l =>
        if ¬ l.Shallow then .error "recursion limit exceeded"
        else if ¬ l.AllFinite then .ok (l.version, .error "invalid type: null, expected f32")
        else if 2 ^ 32 ≤ l.version then .ok (l.version, .error "invalid value, expected u32")
        else .ok (l.version, .ok l)
  version value := some value.1
  fromValue := Prod.snd
  toStr := .inr

theorem fromStr_stored {stored : String} {layout : Layout} (hlt : layout.version < 2 ^ 32)
    (hshallow : layout.Shallow) {text : String ⊕ Layout} {value : Nat × Except String Layout}
    {l : Layout} (hstr : (storedSerde stored layout).fromStr text = .ok value)
    (hread : value.2 = .ok l) : value.1 = l.version ∧ l.version < 2 ^ 32 ∧ l.Shallow := by
  cases text with
  | inl text =>
      simp only [storedSerde] at hstr
      split at hstr
      · cases hstr
        cases hread
        exact ⟨rfl, hlt, hshallow⟩
      · cases hstr
  | inr written =>
      simp only [storedSerde] at hstr
      split at hstr
      · cases hstr
      · next hdeep =>
          split at hstr
          · cases hstr
            cases hread
          · split at hstr
            · cases hstr
              cases hread
            · next hbig =>
                cases hstr
                cases hread
                exact ⟨rfl, Nat.not_le.mp hbig, not_not.mp hdeep⟩

theorem documented_stored {stored : String} {layout : Layout} (hlt : layout.version < 2 ^ 32)
    (hshallow : layout.Shallow) : (storedSerde stored layout).Documented where
  version hstr hread := by
    obtain ⟨hversion, hlt', -⟩ := fromStr_stored hlt hshallow hstr hread
    exact ⟨congrArg some hversion, hlt'⟩
  shallow hstr hread := (fromStr_stored hlt hshallow hstr hread).2.2
  written := by
    intro l hlt' hfinite hshallow'
    refine ⟨(l.version, .ok l), l, ?_, rfl, rfl⟩
    simp only [storedSerde, hshallow', hfinite, Nat.not_le.mpr hlt', not_true_eq_false, if_false]
  null := by
    intro l value back hinfinite hstr hread
    simp only [storedSerde] at hstr
    split at hstr
    · cases hstr
    · cases hstr
      cases hread

theorem fromJson_stored {text : String} {layout : Layout} (hversion : layout.version = 1)
    (hcheck : layout.check = .ok ()) :
    fromJson (storedSerde text layout) (.inl text) = .ok layout :=
  fromJson_eq_ok.mpr ⟨(layout.version, .ok layout), if_pos rfl,
    by simp [storedSerde, hversion, layoutSchemaVersion], rfl, hcheck⟩

end Layout

end Throng
