import Throng.Core.Chars
import Throng.Lib.Json
import Mathlib.Data.Rat.Floor

/-!
# Application settings

The settings are declared once, as data. A document is read against the declarations:
what is absent takes its default, what is out of bounds or of the wrong type is replaced
and named, and everything else the document holds is kept. The modelled values stand
beside the document they came from; writing sets each of them in it again.
-/

namespace Throng

/-- A setting's type, bounds and default. -/
inductive SettingKind
  | bool (default : Bool)
  | int (min max default : Int)
  | float (min max default : Rat)
  | choice (options : List String) (default : String)
  /-- Optional text; `null` or absent means unset. -/
  | optText
  /-- Text naming something only known at run time. -/
  | text (default : String)
  | list (default : List String)
deriving DecidableEq, Repr

/-- One setting's dotted path and kind. -/
structure SettingDef where
  key : String
  kind : SettingKind
deriving DecidableEq, Repr

/-- A setting's value. -/
inductive SettingValue
  | bool (value : Bool)
  | int (value : Int)
  | float (value : Rat)
  | text (value : String)
  | optText (value : Option String)
  | list (value : List String)
deriving DecidableEq, Repr

/-- The interface styles `appearance.style` chooses between. -/
def styles : List String := ["classic", "soft", "compact", "elevated"]

/-- Every setting throng models, in the order the preferences editor shows them. -/
def settings : List SettingDef := [
    ⟨"appearance.theme", .text "throng"⟩,
    ⟨"appearance.style", .choice styles "elevated"⟩,
    ⟨"appearance.interfaceFont", .text "Inter"⟩,
    ⟨"appearance.codeFont", .text "JetBrains Mono"⟩,
    ⟨"appearance.iconPack", .text ""⟩,
    ⟨"appearance.uiScale", .float (3 / 4) 2 1⟩,
    ⟨"appearance.projectsSide", .choice ["left", "right"] "left"⟩,
    ⟨"appearance.fileTreeSide", .choice ["left", "right"] "left"⟩,
    ⟨"terminal.fontSize", .float 8 36 14⟩,
    ⟨"terminal.scrollbackLines", .int 1000 200000 10000⟩,
    ⟨"terminal.defaultShell", .optText⟩,
    ⟨"terminal.defaultRememberDirectory", .bool true⟩,
    ⟨"terminal.reloadMode", .choice ["automatic", "manual"] "automatic"⟩,
    ⟨"terminal.showStatusBar", .bool true⟩,
    ⟨"terminal.copyOnSelect", .bool false⟩,
    ⟨"editor.fontSize", .float 8 36 14⟩,
    ⟨"editor.tabSize", .int 1 16 4⟩,
    ⟨"editor.wordWrap", .bool true⟩,
    ⟨"editor.defaultLineEnding", .choice ["lf", "crlf"] "lf"⟩,
    ⟨"editor.persistUndoHistory", .bool true⟩,
    ⟨"editor.autoSave", .bool false⟩,
    ⟨"editor.autoSaveDebounceMs", .int 0 10000 300⟩,
    ⟨"editor.links.detectInEditors", .bool true⟩,
    ⟨"editor.links.detectInTerminals", .bool true⟩,
    ⟨"editor.previews.updateDelayMs", .int 0 5000 300⟩,
    ⟨"editor.previews.maxWaitMs", .int 0 10000 1000⟩,
    ⟨"editor.previews.loadRemoteImages", .bool true⟩,
    ⟨"editor.previews.syncScroll", .bool true⟩,
    ⟨"editor.navigationHistorySize", .int 1 100 10⟩,
    ⟨"editor.showStatusBar", .bool true⟩,
    ⟨"editor.statusBar.showCursorPosition", .bool true⟩,
    ⟨"editor.statusBar.showCounts", .bool true⟩,
    ⟨"editor.maxOpenFileBytes", .int 5242880 1073741824 10485760⟩,
    ⟨"explorer.exclude", .list
      [".git", ".svn", ".hg", "CVS", ".DS_Store", "Thumbs.db", "node_modules"]⟩,
    ⟨"search.settleMs", .int 100 5000 500⟩,
    ⟨"search.warnIrreversibleCommit", .bool true⟩,
    ⟨"search.quickOpenExcludeHidden", .bool true⟩,
    ⟨"updates.check", .bool true⟩]

/-- Keys that used to exist and are dropped on the next write. -/
def retiredKeys : List String := []

/-- The names a dotted path goes through. -/
def parts (key : String) : List String := (key.toList.splitOn '.').map .ofList

namespace SettingValue

def toJson : SettingValue → Json
  | .bool value => .bool value
  | .int value => .num (.int value)
  | .float value => .num (.float value)
  | .text value => .str value
  | .optText value => value.elim .null .str
  | .list items => .arr (items.map .str)

/-- `std::mem::discriminant` of the two is the same. -/
def sameKind : SettingValue → SettingValue → Bool
  | .bool _, .bool _ => true
  | .int _, .int _ => true
  | .float _, .float _ => true
  | .text _, .text _ => true
  | .optText _, .optText _ => true
  | .list _, .list _ => true
  | _, _ => false

end SettingValue

namespace SettingKind

def defaultValue : SettingKind → SettingValue
  | .bool default => .bool default
  | .int _ _ default => .int default
  | .float _ _ default => .float default
  | .choice _ default => .text default
  | .optText => .optText none
  | .text default => .text default
  | .list default => .list default

/-- `f64::round`, which rounds half away from zero. -/
def roundF64 (value : Rat) : Int :=
  if 0 ≤ value then (value + 1 / 2).floor else -(-value + 1 / 2).floor

/-- `as i64`, which saturates. -/
def asI64 (value : Int) : Int := max (-2 ^ 63) (min value (2 ^ 63 - 1))

/-- Read an optional text that is there. -/
def coerceOptText : Json → SettingValue × Bool
  | .null => (.optText none, false)
  | .str value => if trim value = "" then (.optText none, false) else (.optText (some value), false)
  | _ => (.optText none, true)

/-- Read a value that is there against its definition, and whether it had to be corrected. -/
def coerceSome (raw : Json) : SettingKind → SettingValue × Bool
  | .bool default => raw.asBool.elim (.bool default, true) fun value => (.bool value, false)
  | .int min max default =>
      raw.asNum.elim (.int default, true) fun value =>
        let clamped := Max.max min (Min.min (asI64 (roundF64 value)) max)
        (.int clamped, decide ((clamped : Rat) ≠ value))
  | .float min max default =>
      raw.asNum.elim (.float default, true) fun value =>
        let clamped := Max.max min (Min.min value max)
        (.float clamped, decide (clamped ≠ value))
  | .choice options default =>
      raw.asStr.elim (.text default, true) fun value =>
        if options.contains value then (.text value, false) else (.text default, true)
  | .optText => coerceOptText raw
  | .text default => raw.asStr.elim (.text default, true) fun value => (.text value, false)
  | .list default =>
      raw.asArray.elim (.list default, true) fun items =>
        if items.all fun item => item.asStr.isSome then (.list (items.filterMap Json.asStr), false)
        else (.list default, true)

/-- Read one value against its definition. -/
def coerce (kind : SettingKind) (raw : Option Json) : SettingValue × Bool :=
  raw.elim (kind.defaultValue, false) fun raw => kind.coerceSome raw

/-- Whether the value is one the definition allows. -/
def allows : SettingKind → SettingValue → Bool
  | .bool _, .bool _ => true
  | .int min max _, .int value => decide (min ≤ value) && decide (value ≤ max)
  | .float min max _, .float value => decide (min ≤ value) && decide (value ≤ max)
  | .choice options _, .text value => options.contains value
  | .optText, .optText value => value.all fun text => decide (trim text ≠ "")
  | .text _, .text _ => true
  | .list _, .list _ => true
  | _, _ => false

end SettingKind

/-! ## The document -/

/-- How a document was read. -/
inductive ReadOutcome
  | missing
  | malformed (reason : String)
  /-- The keys that were clamped or replaced and should be written back. -/
  | loaded (corrected : List String)
deriving DecidableEq, Repr

/-- The modelled values, and the object they came from. -/
structure Settings where
  doc : Json.Members
  values : List (String × SettingValue)

namespace Settings

/-- One turn of the loop that builds the default document. -/
def addDefault (settings : Settings) (def_ : SettingDef) : Settings :=
  { doc := Json.setPath def_.kind.defaultValue.toJson settings.doc (parts def_.key)
    values := settings.values ++ [(def_.key, def_.kind.defaultValue)] }

def default : Settings := settings.foldl addDefault { doc := [], values := [] }

/-- One turn of the loop that reads a document: the settings so far, and the keys
corrected. -/
def readNext (state : Settings × List String) (def_ : SettingDef) : Settings × List String :=
  let read := def_.kind.coerce (Json.getPath state.1.doc (parts def_.key))
  ({ doc :=
      if read.2 then Json.setPath read.1.toJson state.1.doc (parts def_.key) else state.1.doc
     values := state.1.values ++ [(def_.key, read.1)] },
    if read.2 then state.2 ++ [def_.key] else state.2)

/-- The settings of an object, and the keys corrected. -/
def load (doc : Json.Members) : Settings × List String :=
  settings.foldl readNext ({ doc, values := [] }, [])

variable {Text : Type} (serde : SerdeJson Text)

/-- Read a settings document that is there. -/
def readText (text : Text) : Settings × ReadOutcome :=
  match serde.fromStr text with
  | .error reason => (default, .malformed reason)
  | .ok (.obj doc) => ((load doc).1, .loaded (load doc).2)
  | .ok _ => (default, .malformed "settings must be a JSON object")

/-- Read a settings document; without one the file does not exist. -/
def read (text : Option Text) : Settings × ReadOutcome :=
  text.elim (default, .missing) (readText serde)

/-- The object to write: unmodelled keys kept, retired keys dropped, modelled keys current. -/
def document (settings : Settings) : Json.Members :=
  Json.setPaths (retiredKeys.foldl (fun doc key => Json.removePath doc (parts key)) settings.doc)
    (settings.values.map fun entry => (parts entry.1, entry.2.toJson))

def toJson (settings : Settings) : Text := serde.toLines (.obj settings.document)

def get (settings : Settings) (key : String) : Option SettingValue :=
  (settings.values.find? fun entry => entry.1 = key).map Prod.snd

/-- The first value with the key replaced. -/
def putValue (key : String) (value : SettingValue) :
    List (String × SettingValue) → List (String × SettingValue)
  | [] => []
  | entry :: entries =>
      if entry.1 = key then (key, value) :: entries else entry :: putValue key value entries

/-- Set a modelled key, clamping it to its bounds; `false` for an unknown key or a value of
the wrong type. -/
def set (settings : Settings) (key : String) (value : SettingValue) : Settings × Bool :=
  match Throng.settings.find? fun def_ => def_.key = key with
  | none => (settings, false)
  | some def_ =>
      let read := def_.kind.coerce (some value.toJson)
      if read.2 && !read.1.sameKind value then (settings, false)
      else
        ({ doc := Json.setPath read.1.toJson settings.doc (parts key)
           values := putValue key read.1 settings.values }, true)

/-- Reset one key to its default. -/
def reset (settings : Settings) (key : String) : Settings :=
  match Throng.settings.find? fun def_ => def_.key = key with
  | none => settings
  | some def_ => (settings.set key def_.kind.defaultValue).1

end Settings

end Throng
