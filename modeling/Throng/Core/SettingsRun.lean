import Throng.Core.Settings
import Mathlib.Data.List.Pairwise

/-!
# Settings over writing and reading

Every modelled value is one its definition allows, and such a value is read back as it was
written. The keys keep apart: the path of none runs through another's. So the writes of a
document never disturb each other, nor anything that stands off their paths.
-/

namespace Throng

namespace SettingKind

/-- The bounds of a number are ones the code can have. -/
def bounded : SettingKind → Bool
  | .int min max _ => decide (-2 ^ 63 ≤ min) && decide (max ≤ 2 ^ 63 - 1)
  | _ => true

/-- The definition allows its own default. -/
def sound (kind : SettingKind) : Bool := kind.allows kind.defaultValue && kind.bounded

theorem floor_half (value : Int) : ((value : Rat) + 1 / 2).floor = value := by
  have hhalf : ((1 : Rat) / 2).floor = 0 := by decide +kernel
  rw [add_comm, Rat.floor_add_intCast, hhalf, zero_add]

theorem roundF64_intCast (value : Int) : roundF64 value = value := by
  rw [roundF64]
  split
  · exact floor_half value
  · rw [← Int.cast_neg, floor_half, neg_neg]

/-- What is read is what the definition allows. -/
theorem allows_coerceSome {kind : SettingKind} (h : kind.sound = true) (raw : Json) :
    kind.allows (kind.coerceSome raw).1 = true := by
  rw [sound, Bool.and_eq_true] at h
  cases kind with
  | bool default => cases raw <;> rfl
  | int min max default =>
      have hdefault := h.1
      simp only [allows, defaultValue, Bool.and_eq_true, decide_eq_true_eq] at hdefault
      rw [coerceSome]
      cases raw.asNum with
      | none => simpa [allows] using hdefault
      | some value =>
          simp only [Option.elim, allows, Bool.and_eq_true, decide_eq_true_eq]
          omega
  | float min max default =>
      have hdefault := h.1
      simp only [allows, defaultValue, Bool.and_eq_true, decide_eq_true_eq] at hdefault
      rw [coerceSome]
      cases raw.asNum with
      | none => simpa [allows] using hdefault
      | some value =>
          simp only [Option.elim, allows, Bool.and_eq_true, decide_eq_true_eq]
          exact ⟨le_max_left _ _, max_le (hdefault.1.trans hdefault.2) (min_le_right _ _)⟩
  | choice options default =>
      rw [coerceSome]
      cases raw.asStr with
      | none => exact h.1
      | some value =>
          rw [Option.elim]
          split
          · assumption
          · exact h.1
  | optText =>
      rw [coerceSome]
      cases raw with
      | str value =>
          rw [coerceOptText]
          split
          · rfl
          · next hne => simpa [allows] using hne
      | _ => rfl
  | text default =>
      rw [coerceSome]
      cases raw.asStr <;> rfl
  | list default =>
      rw [coerceSome]
      cases raw.asArray with
      | none => rfl
      | some items =>
          rw [Option.elim]
          split <;> rfl

theorem allows_coerce {kind : SettingKind} (h : kind.sound = true) (raw : Option Json) :
    kind.allows (kind.coerce raw).1 = true := by
  cases raw with
  | none =>
      rw [sound, Bool.and_eq_true] at h
      exact h.1
  | some raw => exact allows_coerceSome h raw

theorem filterMap_asStr (items : List String) :
    (items.map Json.str).filterMap Json.asStr = items := by
  rw [List.filterMap_map]
  exact List.filterMap_some

/-- A value the definition allows is read back as it was written. -/
theorem coerce_toJson {kind : SettingKind} (h : kind.sound = true) {value : SettingValue}
    (hvalue : kind.allows value = true) : kind.coerce (some value.toJson) = (value, false) := by
  rw [coerce, Option.elim]
  cases kind with
  | bool default => cases value <;> first | rfl | cases hvalue
  | int min max default =>
      cases value with
      | int value =>
          rw [sound, Bool.and_eq_true, bounded, Bool.and_eq_true, decide_eq_true_eq,
            decide_eq_true_eq] at h
          rw [allows, Bool.and_eq_true, decide_eq_true_eq, decide_eq_true_eq] at hvalue
          have hclamped : Max.max min (Min.min (asI64 (roundF64 value)) max) = value := by
            rw [roundF64_intCast, asI64]
            omega
          simp only [coerceSome, SettingValue.toJson, Json.asNum, Option.elim, hclamped, ne_eq,
            not_true_eq_false, decide_false]
      | _ => cases hvalue
  | float min max default =>
      cases value with
      | float value =>
          rw [allows, Bool.and_eq_true, decide_eq_true_eq, decide_eq_true_eq] at hvalue
          have hclamped : Max.max min (Min.min value max) = value := by
            rw [min_eq_left hvalue.2, max_eq_right hvalue.1]
          simp only [coerceSome, SettingValue.toJson, Json.asNum, Option.elim, hclamped, ne_eq,
            not_true_eq_false, decide_false]
      | _ => cases hvalue
  | choice options default =>
      cases value with
      | text value => exact if_pos hvalue
      | _ => cases hvalue
  | optText =>
      cases value with
      | optText value =>
          cases value with
          | none => rfl
          | some value =>
              have hne : trim value ≠ "" := by simpa [allows] using hvalue
              exact if_neg hne
      | _ => cases hvalue
  | text default => cases value <;> first | rfl | cases hvalue
  | list default =>
      cases value with
      | list items =>
          have hall : (items.map Json.str).all (fun item => item.asStr.isSome) = true := by
            rw [List.all_map]
            exact List.all_eq_true.2 fun _ _ => rfl
          simp only [coerceSome, SettingValue.toJson, Json.asArray, Option.elim]
          rw [if_pos hall, filterMap_asStr]
      | _ => cases hvalue

end SettingKind

theorem settings_sound : ∀ def_ ∈ settings, def_.kind.sound = true := by decide +kernel

theorem settings_apart :
    settings.Pairwise fun a b => Json.Apart (parts a.key) (parts b.key) := by decide +kernel

instance : Std.Symm fun a b : SettingDef => Json.Apart (parts a.key) (parts b.key) :=
  ⟨fun _ _ h => h.symm⟩

theorem eq_of_key {a b : SettingDef} (ha : a ∈ settings) (hb : b ∈ settings)
    (h : a.key = b.key) : a = b := by
  by_contra hne
  have hapart := settings_apart.forall ha hb hne
  rw [h] at hapart
  exact hapart.1 List.prefix_rfl

/-- The path of no modelled key and of nothing above or below one. -/
def OffPaths (path : List String) : Prop :=
  ∀ def_ ∈ settings, Json.Apart (parts def_.key) path

/-- What is called on the settings. -/
inductive SettingsCall
  | set (key : String) (value : SettingValue)
  | reset (key : String)
deriving DecidableEq, Repr

def SettingsCall.key : SettingsCall → String
  | .set key _ => key
  | .reset key => key

namespace Settings

/-- One call. -/
def call (s : Settings) : SettingsCall → Settings
  | .set key value => (s.set key value).1
  | .reset key => s.reset key

/-- The values are those of the modelled keys in their order, each one allowed, and off
their paths the document is still `doc`. -/
structure Right (doc : Json.Members) (s : Settings) : Prop where
  keys : s.values.map Prod.fst = settings.map SettingDef.key
  allowed : ∀ entry ∈ s.values, ∃ def_ ∈ settings, def_.key = entry.1 ∧
    def_.kind.allows entry.2 = true
  kept : ∀ path, OffPaths path → Json.getPath s.doc path = Json.getPath doc path

variable {doc : Json.Members} {s : Settings} {key : String} {value : SettingValue}

/-! ## Reading -/

theorem foldl_readNext {defs : List SettingDef} (hdefs : ∀ def_ ∈ defs, def_ ∈ settings)
    (state : Settings × List String) :
    (defs.foldl readNext state).1.values.map Prod.fst =
        state.1.values.map Prod.fst ++ defs.map SettingDef.key ∧
      (∀ entry ∈ (defs.foldl readNext state).1.values, entry ∈ state.1.values ∨
        ∃ def_ ∈ defs, def_.key = entry.1 ∧ def_.kind.allows entry.2 = true) ∧
      ∀ path, OffPaths path →
        Json.getPath (defs.foldl readNext state).1.doc path = Json.getPath state.1.doc path := by
  induction defs generalizing state with
  | nil => exact ⟨(List.append_nil _).symm, fun _ h => .inl h, fun _ _ => rfl⟩
  | cons def_ defs ih =>
      have hdef := hdefs def_ List.mem_cons_self
      obtain ⟨hkeys, hallowed, hkept⟩ :=
        ih (fun other hother => hdefs other (List.mem_cons_of_mem _ hother)) (readNext state def_)
      rw [List.foldl_cons]
      refine ⟨?_, ?_, ?_⟩
      · rw [hkeys, readNext, List.map_append, List.map_cons, List.map_nil, List.append_assoc]
        rfl
      · intro entry hentry
        rcases hallowed entry hentry with hentry | ⟨other, hother, hentry⟩
        · rcases List.mem_append.1 hentry with hentry | hentry
          · exact .inl hentry
          · obtain rfl := List.mem_singleton.1 hentry
            exact .inr ⟨def_, List.mem_cons_self, rfl,
              SettingKind.allows_coerce (settings_sound def_ hdef) _⟩
        · exact .inr ⟨other, List.mem_cons_of_mem _ hother, hentry⟩
      · intro path hpath
        rw [hkept path hpath, readNext]
        dsimp only
        split
        · exact Json.getPath_setPath_of_apart (hpath def_ hdef) _ _
        · rfl

theorem right_load (doc : Json.Members) : Right doc (load doc).1 := by
  obtain ⟨hkeys, hallowed, hkept⟩ := foldl_readNext (fun _ h => h) ({ doc, values := [] }, [])
  exact ⟨hkeys, fun entry hentry => (hallowed entry hentry).resolve_left List.not_mem_nil, hkept⟩

/-! ## Setting -/

theorem keys_putValue (key : String) (value : SettingValue)
    (entries : List (String × SettingValue)) :
    (putValue key value entries).map Prod.fst = entries.map Prod.fst := by
  induction entries with
  | nil => rfl
  | cons entry entries ih =>
      rw [putValue]
      split
      · next heq => rw [List.map_cons, List.map_cons, heq]
      · rw [List.map_cons, List.map_cons, ih]

theorem mem_putValue {entries : List (String × SettingValue)} {entry : String × SettingValue}
    (h : entry ∈ putValue key value entries) : entry ∈ entries ∨ entry = (key, value) := by
  induction entries with
  | nil => cases h
  | cons first entries ih =>
      rw [putValue] at h
      split at h
      · rcases List.mem_cons.1 h with rfl | h
        · exact .inr rfl
        · exact .inl (List.mem_cons_of_mem _ h)
      · rcases List.mem_cons.1 h with rfl | h
        · exact .inl List.mem_cons_self
        · exact (ih h).imp_left (List.mem_cons_of_mem _)

theorem find?_putValue_of_ne {other : String} (h : other ≠ key)
    (entries : List (String × SettingValue)) :
    (putValue key value entries).find? (fun entry => entry.1 = other) =
      entries.find? fun entry => entry.1 = other := by
  induction entries with
  | nil => rfl
  | cons first entries ih =>
      rw [putValue]
      split
      · next heq =>
          rw [List.find?_cons_of_neg (by simpa using h.symm),
            List.find?_cons_of_neg (by simpa [heq] using h.symm)]
      · rw [List.find?_cons, List.find?_cons, ih]

/-- What `set` does: nothing, or one modelled key takes a value its definition allows. -/
theorem set_cases (s : Settings) (key : String) (value : SettingValue) :
    (s.set key value).1 = s ∨ ∃ def_ ∈ settings, ∃ value', def_.key = key ∧
      def_.kind.allows value' = true ∧ (s.set key value).1 =
        { doc := Json.setPath value'.toJson s.doc (parts key)
          values := putValue key value' s.values } := by
  rw [set]
  cases hfind : settings.find? fun def_ => def_.key = key with
  | none => exact .inl rfl
  | some def_ =>
      have hdef := List.mem_of_find?_eq_some hfind
      have hkey : def_.key = key := by simpa using List.find?_some hfind
      dsimp only
      split
      · exact .inl rfl
      · exact .inr ⟨def_, hdef, _, hkey,
          SettingKind.allows_coerce (settings_sound def_ hdef) (some value.toJson), rfl⟩

/-- A reset is the setting of a value. -/
theorem reset_cases (s : Settings) (key : String) :
    s.reset key = s ∨ ∃ value, s.reset key = (s.set key value).1 := by
  rw [reset]
  split
  · exact .inl rfl
  · exact .inr ⟨_, rfl⟩

theorem call_cases (s : Settings) (c : SettingsCall) :
    s.call c = s ∨ ∃ def_ ∈ settings, ∃ value', def_.key = c.key ∧
      def_.kind.allows value' = true ∧ s.call c =
        { doc := Json.setPath value'.toJson s.doc (parts c.key)
          values := putValue c.key value' s.values } := by
  cases c with
  | set key value => exact set_cases s key value
  | reset key =>
      rcases reset_cases s key with h | ⟨value, h⟩
      · exact .inl h
      · rw [call, h]
        exact set_cases s key value

theorem Right.call (h : Right doc s) (c : SettingsCall) : Right doc (s.call c) := by
  rcases call_cases s c with heq | ⟨def_, hdef, value, hkey, hallowed, heq⟩
  · rwa [heq]
  · rw [heq]
    refine ⟨(keys_putValue _ _ _).trans h.keys, ?_, ?_⟩
    · intro entry hentry
      rcases mem_putValue hentry with hentry | rfl
      · exact h.allowed entry hentry
      · exact ⟨def_, hdef, hkey, hallowed⟩
    · intro path hpath
      rw [← hkey, ← h.kept path hpath]
      exact Json.getPath_setPath_of_apart (hpath def_ hdef) _ _

theorem get_call_of_ne (s : Settings) {c : SettingsCall} (h : key ≠ c.key) :
    (s.call c).get key = s.get key := by
  rcases call_cases s c with heq | ⟨-, -, value, -, -, heq⟩
  · rw [heq]
  · rw [heq, get, get, find?_putValue_of_ne h]

/-! ## Writing -/

/-- The members that a write sets. -/
def written (s : Settings) : List (List String × Json) :=
  s.values.map fun entry => (parts entry.1, entry.2.toJson)

theorem document_eq (s : Settings) : s.document = Json.setPaths s.doc s.written := rfl

theorem parts_ne_nil (key : String) : parts key ≠ [] := by
  intro hnil
  have hsplit : key.toList.splitOn '.' = [] := List.map_eq_nil_iff.1 hnil
  exact List.splitOn_ne_nil _ _ hsplit

theorem Right.document (h : Right doc s) {path : List String} (hpath : OffPaths path) :
    Json.getPath s.document path = Json.getPath doc path := by
  rw [document_eq, Json.getPath_setPaths_of_apart, h.kept path hpath]
  intro entry hentry
  obtain ⟨value, hvalue, rfl⟩ := List.mem_map.1 hentry
  obtain ⟨def_, hdef, hkey, -⟩ := h.allowed value hvalue
  rw [← hkey]
  exact hpath def_ hdef

theorem Right.written_apart (h : Right doc s) :
    s.written.Pairwise fun a b => Json.Apart a.1 b.1 := by
  have hkeys : (s.values.map Prod.fst).Pairwise fun a b => Json.Apart (parts a) (parts b) := by
    rw [h.keys, List.pairwise_map]
    exact settings_apart
  have hvalues := List.pairwise_map.1 hkeys
  exact List.pairwise_map.2 hvalues

/-- Every modelled key is read as its value was written. -/
theorem Right.getPath_document (h : Right doc s) {entry : String × SettingValue}
    (hentry : entry ∈ s.values) :
    Json.getPath s.document (parts entry.1) = some entry.2.toJson := by
  have hmem : (parts entry.1, entry.2.toJson) ∈ s.written := List.mem_map.2 ⟨entry, hentry, rfl⟩
  rw [document_eq]
  refine Json.getPath_setPaths h.written_apart ?_ hmem s.doc
  intro other hother
  obtain ⟨value, hvalue, rfl⟩ := List.mem_map.1 hother
  exact parts_ne_nil value.1

/-- Reading values that need no correction. -/
theorem foldl_readNext_of_fixed {entries : List (SettingDef × SettingValue)}
    (h : ∀ entry ∈ entries, entry.1.kind.coerce (Json.getPath doc (parts entry.1.key)) =
      (entry.2, false)) (values : List (String × SettingValue)) (corrected : List String) :
    (entries.map Prod.fst).foldl readNext ({ doc, values }, corrected) =
      ({ doc, values := values ++ entries.map fun entry => (entry.1.key, entry.2) },
        corrected) := by
  induction entries generalizing values with
  | nil => simp
  | cons entry entries ih =>
      have hnext : readNext ({ doc, values }, corrected) entry.1 =
          ({ doc, values := values ++ [(entry.1.key, entry.2)] }, corrected) := by
        simp only [readNext, h entry List.mem_cons_self, Bool.false_eq_true, if_false]
      rw [List.map_cons, List.foldl_cons, hnext,
        ih (fun other hother => h other (List.mem_cons_of_mem _ hother)), List.append_assoc]
      rfl

theorem Right.load_document (h : Right doc s) :
    load s.document = ({ doc := s.document, values := s.values }, []) := by
  have hlength : settings.length = (s.values.map Prod.snd).length := by
    have hkeys := congrArg List.length h.keys
    rw [List.length_map, List.length_map] at hkeys
    rw [List.length_map, hkeys]
  have hfst : (settings.zip (s.values.map Prod.snd)).map Prod.fst = settings :=
    List.map_fst_zip (Nat.le_of_eq hlength)
  have hvalues : (settings.zip (s.values.map Prod.snd)).map (fun entry => (entry.1.key, entry.2)) =
      s.values := by
    have hzip := List.zip_of_prod h.keys (rfl : s.values.map Prod.snd = s.values.map Prod.snd)
    rw [List.zip_map_left] at hzip
    exact hzip.symm
  have hfixed := @foldl_readNext_of_fixed s.document (settings.zip (s.values.map Prod.snd)) ?_ [] []
  · rw [hfst, hvalues, List.nil_append] at hfixed
    exact hfixed
  · intro entry hentry
    have hmem : (entry.1.key, entry.2) ∈ s.values := by
      rw [← hvalues]
      exact List.mem_map_of_mem hentry
    obtain ⟨def_, hdef, hkey, hallowed⟩ := h.allowed _ hmem
    obtain rfl := eq_of_key hdef (List.of_mem_zip hentry).1 hkey
    rw [h.getPath_document hmem]
    exact SettingKind.coerce_toJson (settings_sound _ hdef) hallowed

/-! ## Writing and reading -/

theorem asObject_toJson (value : SettingValue) : value.toJson.asObject = none := by
  cases value with
  | optText value => cases value <;> rfl
  | _ => rfl

theorem Right.get_of_mem (h : Right doc s) {def_ : SettingDef} (hdef : def_ ∈ settings) :
    ∃ value, (def_.key, value) ∈ s.values ∧ s.get def_.key = some value ∧
      def_.kind.allows value = true := by
  have hkey : def_.key ∈ s.values.map Prod.fst := by
    rw [h.keys]
    exact List.mem_map_of_mem hdef
  obtain ⟨entry, hentry, heq⟩ := List.mem_map.1 hkey
  cases hfind : s.values.find? fun entry => entry.1 = def_.key with
  | none => exact absurd heq (by simpa using List.find?_eq_none.1 hfind entry hentry)
  | some found =>
      have hmem := List.mem_of_find?_eq_some hfind
      have hfound : found.1 = def_.key := by simpa using List.find?_some hfind
      obtain ⟨other, hother, hsame, hallowed⟩ := h.allowed found hmem
      obtain rfl := eq_of_key hother hdef (hsame.trans hfound)
      exact ⟨found.2, hfound ▸ hmem, by rw [get, hfind]; rfl, hallowed⟩

/-- Nothing stands below the path of a modelled key. -/
theorem Right.getPath_below (h : Right doc s) {def_ : SettingDef} (hdef : def_ ∈ settings)
    {rest : List String} (hrest : rest ≠ []) :
    Json.getPath s.document (parts def_.key ++ rest) = none := by
  obtain ⟨value, hmem, -⟩ := h.get_of_mem hdef
  rw [Json.getPath_append (parts_ne_nil _) hrest, h.getPath_document hmem, Option.bind_some,
    asObject_toJson]
  rfl

/-- A path below a modelled key leads to none. -/
theorem not_prefix_of_below {def_ other : SettingDef} (hdef : def_ ∈ settings)
    (hother : other ∈ settings) {rest : List String} (hrest : rest ≠ []) :
    ¬ parts def_.key ++ rest <+: parts other.key := by
  intro hprefix
  by_cases heq : def_ = other
  · subst heq
    have hlength := hprefix.length_le
    rw [List.length_append] at hlength
    exact hrest (List.length_eq_zero_iff.1 (by omega))
  · exact (settings_apart.forall hdef hother heq).1 ((List.prefix_append _ _).trans hprefix)

variable {Text : Type} (serde : SerdeJson Text)

/-- The settings after a document is read and calls are made. -/
def run (text : Text) (calls : List SettingsCall) : Settings :=
  calls.foldl call (read serde (some text)).1

theorem right_run {text : Text} (h : serde.fromStr text = .ok (.obj doc))
    (calls : List SettingsCall) : Right doc (run serde text calls) := by
  have hread : Right doc (read serde (some text)).1 := by
    simp only [read, Option.elim, readText, h]
    exact right_load doc
  rw [run]
  generalize (read serde (some text)).1 = s at hread
  induction calls generalizing s with
  | nil => exact hread
  | cons c calls ih => exact ih (s.call c) (hread.call c)

/-- What holds of settings that came from `doc`: the bounds, the reading back of what they
write, that a call touches one value only, and what a write keeps of the file. -/
structure Survives (doc : Json.Members) (s : Settings) : Prop where
  bounds : ∀ def_ ∈ settings, ∃ value, s.get def_.key = some value ∧
    def_.kind.allows value = true
  again : ∃ again, read serde (some (s.toJson serde)) = (again, .loaded []) ∧
    again.values = s.values
  others : ∀ (c : SettingsCall) key, key ≠ c.key → (s.call c).get key = s.get key
  kept : ∀ path, OffPaths path → Json.getPath s.document path = Json.getPath doc path

/-- Settings survive writing and reading, if what is written is read again unchanged. -/
theorem run_survives {text : Text} (h : serde.fromStr text = .ok (.obj doc))
    (calls : List SettingsCall)
    (hwrite : serde.fromStr ((run serde text calls).toJson serde) =
      .ok (.obj (run serde text calls).document)) :
    Survives serde doc (run serde text calls) := by
  have hright := right_run serde h calls
  refine ⟨fun def_ hdef => ?_, ?_, fun c key hkey => get_call_of_ne _ hkey, fun path hpath =>
    hright.document hpath⟩
  · obtain ⟨value, -, hget, hallowed⟩ := hright.get_of_mem hdef
    exact ⟨value, hget, hallowed⟩
  · refine ⟨{ doc := (run serde text calls).document, values := (run serde text calls).values },
      ?_, rfl⟩
    simp only [read, Option.elim, readText, hwrite, hright.load_document]

/-- A value out of bounds beside one of the user's own. -/
theorem run_survives_corrected :
    Survives SerdeJson.plain [("editor", .obj [("tabSize", .num (.int 99)), ("mine", .bool true)])]
      (run SerdeJson.plain
        (.obj [("editor", .obj [("tabSize", .num (.int 99)), ("mine", .bool true)])])
        [.set "terminal.fontSize" (.float 16), .reset "editor.tabSize"]) :=
  run_survives SerdeJson.plain rfl _ rfl

/-- A member inside an object that stands where a number belongs, on no key's path, goes
with it. -/
theorem not_kept_inside :
    ∃ doc path, (∀ def_ ∈ settings, ¬ path <+: parts def_.key) ∧
      (Json.getPath doc path).isSome = true ∧
        Json.getPath (run SerdeJson.plain (.obj doc) []).document path = none := by
  have hdef : (⟨"editor.fontSize", .float 8 36 14⟩ : SettingDef) ∈ settings := by decide
  refine ⟨[("editor", .obj [("fontSize", .obj [("mine", .bool true)])])],
    parts "editor.fontSize" ++ ["mine"], ?_, by decide, ?_⟩
  · exact fun def_ hmem => not_prefix_of_below hdef hmem (List.cons_ne_nil _ _)
  · exact (right_run SerdeJson.plain rfl []).getPath_below hdef (List.cons_ne_nil _ _)

end Settings

end Throng
