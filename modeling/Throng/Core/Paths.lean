import Mathlib.Data.List.Infix
import Mathlib.Tactic.Tauto
import Throng.Core.Panel

/-!
# Path identity

Whether two spellings name the same entry is decided by a key of the path, made by rules
the platform chooses: the separators are unified, `.` segments dropped, `..` applied. One
path is within another if its key is the other's, or goes on after it with a separator.
-/

namespace Throng

/-- What the host and its libraries say of texts: which paths are absolute, and the two
foldings of names. -/
structure Host where
  isAbsolute : PathBuf → Bool
  nfc : List Char → List Char
  lowercase : List Char → List Char

/-- How the host filesystem decides whether two spellings name the same entry. -/
structure PathRules where
  caseInsensitive : Bool
  unicodeInsensitive : Bool
  windowsNames : Bool
deriving DecidableEq, Repr

namespace PathRules

def linux : PathRules := ⟨false, false, false⟩

def macos : PathRules := ⟨true, true, false⟩

def windows : PathRules := ⟨true, false, true⟩

/-- One segment of a path, after the segments `before`. -/
def pushSegment (before : List (List Char)) (segment : List Char) : List (List Char) :=
  if segment = [] ∨ segment = ['.'] then before
  else if segment = ['.', '.'] then before.dropLast
  else before ++ [segment]

/-- The path with one kind of separator. -/
def unify (rules : PathRules) (path : PathBuf) : List Char :=
  if rules.windowsNames then path.toList.map fun c => if c = '\\' then '/' else c
  else path.toList

/-- A comparison key for `path`. -/
def key (rules : PathRules) (host : Host) (path : PathBuf) : List Char :=
  let unified := rules.unify path
  let segments := (unified.splitOn '/').foldl pushSegment []
  let joined := ['/'].intercalate segments
  let key := if unified.head? = some '/' then '/' :: joined else joined
  let key := if rules.unicodeInsensitive then host.nfc key else key
  if rules.caseInsensitive then host.lowercase key else key

variable (rules : PathRules) (host : Host)

/-- Whether `a` and `b` name the same entry. -/
def same (a b : PathBuf) : Bool := rules.key host a = rules.key host b

/-- What the keys of everything strictly within a folder begin with. -/
def inside (key : List Char) : List Char :=
  if key.getLast? = some '/' then key else key ++ ['/']

/-- `path` is `ancestor` itself or somewhere beneath it. -/
def isWithin (ancestor path : PathBuf) : Bool :=
  let a := rules.key host ancestor
  let p := rules.key host path
  if a = [] ∨ p = [] then false
  else if a = p then true
  else (inside a).isPrefixOf p

/-- Two folders overlap exclusively: identical, or one inside the other. -/
def overlaps (a b : PathBuf) : Bool := rules.isWithin host a b || rules.isWithin host b a

variable {rules host} {a b c : PathBuf} {k k' p : List Char}

theorem prefix_inside (k : List Char) : k <+: inside k := by
  rw [inside]
  split
  · exact List.prefix_refl k
  · exact List.prefix_append k ['/']

theorem isWithin_iff : rules.isWithin host a b = true ↔
    rules.key host a ≠ [] ∧ rules.key host b ≠ [] ∧
      (rules.key host a = rules.key host b ∨ inside (rules.key host a) <+: rules.key host b) := by
  rw [isWithin]
  split_ifs with hempty heq
  · refine iff_of_false id ?_
    tauto
  · refine iff_of_true rfl ?_
    tauto
  · rw [List.isPrefixOf_iff_prefix]
    tauto

/-- Of two keys that begin the same contents one is the other, or around it. -/
theorem comparable_of_inside (h : inside k <+: inside k') :
    k = k' ∨ inside k <+: k' ∨ inside k' <+: k := by
  by_cases hslash : k'.getLast? = some '/'
  · right
    left
    rwa [inside.eq_def k', if_pos hslash] at h
  · have hk' : inside k' = k' ++ ['/'] := by rw [inside, if_neg hslash]
    rw [hk'] at h
    rcases List.prefix_concat_iff.mp h with heq | hprefix
    · rw [inside] at heq
      split at heq
      · right
        right
        rw [hk', heq]
      · exact .inl (List.append_cancel_right heq)
    · exact .inr (.inl hprefix)

theorem comparable (h : inside k <+: p) (h' : inside k' <+: p) :
    k = k' ∨ inside k <+: k' ∨ inside k' <+: k := by
  rcases List.prefix_or_prefix_of_prefix h h' with hle | hle
  · exact comparable_of_inside hle
  · rcases comparable_of_inside hle with heq | hprefix | hprefix
    · exact .inl heq.symm
    · exact .inr (.inr hprefix)
    · exact .inr (.inl hprefix)

/-- Two folders that a path is within overlap: the folders around a path form a chain. -/
theorem overlaps_of_isWithin (ha : rules.isWithin host a c = true)
    (hb : rules.isWithin host b c = true) : rules.overlaps host a b = true := by
  obtain ⟨hne, -, hac⟩ := isWithin_iff.mp ha
  obtain ⟨hne', -, hbc⟩ := isWithin_iff.mp hb
  rw [overlaps, Bool.or_eq_true, isWithin_iff, isWithin_iff]
  have hchain : rules.key host a = rules.key host b ∨
      inside (rules.key host a) <+: rules.key host b ∨
        inside (rules.key host b) <+: rules.key host a := by
    rcases hac with hac | hac
    · rcases hbc with hbc | hbc
      · exact .inl (hac.trans hbc.symm)
      · exact .inr (.inr (hac ▸ hbc))
    · rcases hbc with hbc | hbc
      · exact .inr (.inl (hbc ▸ hac))
      · exact comparable hac hbc
  rcases hchain with heq | hprefix | hprefix
  · exact .inl ⟨hne, hne', .inl heq⟩
  · exact .inl ⟨hne, hne', .inr hprefix⟩
  · exact .inr ⟨hne', hne, .inr hprefix⟩

/-- Equal keys overlap, unless they are empty. -/
theorem overlaps_of_same (h : rules.same host a b = true) (hne : rules.key host a ≠ []) :
    rules.overlaps host a b = true := by
  rw [same, decide_eq_true_eq] at h
  rw [overlaps, Bool.or_eq_true, isWithin_iff]
  exact .inl ⟨hne, h ▸ hne, .inl h⟩

end PathRules

end Throng
