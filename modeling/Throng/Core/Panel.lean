import Mathlib.Data.List.Nodup
import Mathlib.Data.List.Perm.Subperm
import Throng.Core.Chars
import Throng.Core.Ids

/-!
# Panels and their titles

A panel's record says which project it was made in, what it is called and what it
shows. A panel or tab nobody has named carries a numbered default title, the
smallest number no title of its kind has.
-/

namespace Throng

abbrev PathBuf := String

/-- What a terminal panel was configured with. -/
structure TerminalPanelConfig where
  shell : Option String := none
  args : List String := []
  cwd : Option PathBuf := none
  startupCommand : Option String := none
  rememberDirectory : Option Bool := none
  lastDirectory : Option PathBuf := none
  rememberCommand : Bool := false
  runningCommand : Option String := none
  runAsAdmin : Bool := false
deriving DecidableEq, Repr

/-- `None` for a document that was never saved. -/
structure EditorPanelConfig where
  path : Option PathBuf := none
deriving DecidableEq, Repr

structure SearchPanelConfig where
  term : String := ""
  caseSensitive : Bool := false
  wholeWord : Bool := false
  scope : String := ""
  replace : Bool := false
  replacement : String := ""
  groupByFolder : Bool := false
deriving DecidableEq, Repr

/-- One place a preview has shown, and how far down it had been read. -/
structure HistoryEntry where
  path : PathBuf
  scroll : Nat := 0
deriving DecidableEq, Repr

structure PreviewPanelConfig where
  path : PathBuf
  history : List HistoryEntry := []
  at_ : Nat := 0
deriving DecidableEq, Repr

/-- Which project's panel a mirror shows. -/
structure MirrorPanelConfig where
  project : ProjectId
  panel : PanelId
deriving DecidableEq, Repr

/-- What a panel shows. -/
inductive PanelKind
  | untyped
  | terminal (config : TerminalPanelConfig)
  | editor (config : EditorPanelConfig)
  | search (config : SearchPanelConfig)
  | preview (config : PreviewPanelConfig)
  | mirror (config : MirrorPanelConfig)
deriving DecidableEq, Repr

structure Panel where
  id : PanelId
  originProject : ProjectId
  title : String
  titleIsCustom : Bool
  kind : PanelKind
deriving DecidableEq, Repr

/-! ## Numbered titles -/

/-- `u64::MAX`. -/
def u64Max : Nat := 0xFFFFFFFFFFFFFFFF

/-- `str::parse::<u64>`: a sign `+` may stand before the digits. -/
def parseU64 (s : List Char) : Option Nat :=
  let digits := if s.head? = some '+' then s.tail else s
  if digits ≠ [] ∧ digits.all Char.isDigit ∧ Nat.ofDigitChars 10 digits 0 ≤ u64Max then
    some (Nat.ofDigitChars 10 digits 0)
  else none

/-- `str::strip_prefix`. -/
def stripPrefix (pfx s : List Char) : Option (List Char) :=
  if pfx.isPrefixOf s then some (s.drop pfx.length) else none

/-- The number of a title of the kind `pfx`. -/
def ordinal (pfx title : String) : Option Nat := do
  let rest ← stripPrefix pfx.toList title.toList
  parseU64 (← stripPrefix [' '] rest)

/-- The first free numbered title; `none` where the source panics, every number
of a `u64` being taken. That many titles of a kind leave a free number among the
first `used.length + 1`. -/
def nextNumbered (pfx : String) (taken : List String) : Option String :=
  let used := taken.filterMap (ordinal pfx)
  ((List.range' 1 (min (used.length + 1) u64Max)).find? fun n => !used.contains n).map fun n =>
    pfx ++ " " ++ toString n

@[simp] theorem stripPrefix_append (pfx s : List Char) : stripPrefix pfx (pfx ++ s) = some s := by
  simp [stripPrefix]

theorem parseU64_toDigits {n : Nat} (h : n ≤ u64Max) : parseU64 (Nat.toDigits 10 n) = some n := by
  have hdigit : ∀ c ∈ Nat.toDigits 10 n, c.isDigit := fun c hc =>
    Nat.isDigit_of_mem_toDigits (by decide) (by decide) hc
  have hsign : (Nat.toDigits 10 n).head? ≠ some '+' := by
    intro hhead
    exact absurd (hdigit '+' (List.mem_of_mem_head? hhead)) (by decide)
  simp only [parseU64, if_neg hsign, Nat.ofDigitChars_ten_toDigits]
  exact if_pos ⟨Nat.toDigits_ne_nil, List.all_eq_true.mpr hdigit, h⟩

theorem ordinal_title (pfx : String) {n : Nat} (h : n ≤ u64Max) :
    ordinal pfx (pfx ++ " " ++ toString n) = some n := by
  have htitle : (pfx ++ " " ++ toString n).toList =
      pfx.toList ++ ([' '] ++ Nat.toDigits 10 n) := by
    simp [String.toList_append, Nat.toList_repr]
  have hblank : stripPrefix [' '] ([' '] ++ Nat.toDigits 10 n) = some (Nat.toDigits 10 n) :=
    stripPrefix_append _ _
  rw [ordinal, htitle, stripPrefix_append]
  simp only [Option.bind_eq_bind, Option.bind_some]
  rw [hblank, Option.bind_some, parseU64_toDigits h]

/-- A numbered title is not one of those it was chosen against. -/
theorem nextNumbered_notMem {pfx title : String} {taken : List String}
    (h : nextNumbered pfx taken = some title) : title ∉ taken := by
  intro hin
  obtain ⟨n, hfind, rfl⟩ := Option.map_eq_some_iff.mp h
  have hle : n ≤ u64Max := by
    have hrange := List.mem_range'_1.mp (List.mem_of_find?_eq_some hfind)
    omega
  have hfree := List.find?_some hfind
  simp only [List.contains_eq_mem, Bool.not_eq_true', decide_eq_false_iff_not] at hfree
  exact hfree (List.mem_filterMap.mpr ⟨_, hin, ordinal_title pfx hle⟩)

/-- The numbers do not run out before a `u64` does. -/
theorem nextNumbered_isSome {pfx : String} {taken : List String} (h : taken.length < u64Max) :
    (nextNumbered pfx taken).isSome := by
  rw [nextNumbered, Option.isSome_map, List.find?_isSome]
  by_contra hnone
  have hsubset : List.range' 1 (min ((taken.filterMap (ordinal pfx)).length + 1) u64Max) ⊆
      taken.filterMap (ordinal pfx) := by
    intro n hn
    by_contra hfree
    exact hnone ⟨n, hn, by simpa using hfree⟩
  have hlength := (List.subperm_of_subset List.nodup_range' hsubset).length_le
  have hfewer : (taken.filterMap (ordinal pfx)).length ≤ taken.length :=
    List.length_filterMap_le _ _
  rw [List.length_range'] at hlength
  omega

example : nextNumbered "Panel" ["Panel 1", "Build", "Panel +2", "Panel 4"] = some "Panel 3" := by
  decide

end Throng
