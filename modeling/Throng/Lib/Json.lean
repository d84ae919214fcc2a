import Mathlib.Data.List.Infix
import Mathlib.Data.Rat.Defs

/-!
# JSON documents

A document is a tree; an object is the list of its members, in the order they were put
there, of which the first with a name counts. What reads and writes the texts of documents
stands beside them as a parameter. A path is a list of names, read from the
root. Setting a path replaces or adds one member, making objects of what stands in its way,
and leaves every path alone that neither runs through it nor lies on it.
-/

/-- A number, without a fraction or with one. -/
inductive JsonNumber
  | int (value : Int)
  | float (value : Rat)
deriving DecidableEq, Repr

inductive Json
  | null
  | bool (value : Bool)
  | num (value : JsonNumber)
  | str (value : String)
  | arr (items : List Json)
  | obj (members : List (String × Json))

namespace Json

/-- The members of an object. -/
abbrev Members := List (String × Json)

def asBool : Json → Option Bool
  | .bool value => some value
  | _ => none

def asNum : Json → Option Rat
  | .num (.int value) => some value
  | .num (.float value) => some value
  | _ => none

def asStr : Json → Option String
  | .str value => some value
  | _ => none

def asArray : Json → Option (List Json)
  | .arr items => some items
  | _ => none

def asObject : Json → Option Members
  | .obj members => some members
  | _ => none

/-! ## The members of an object -/

def get (members : Members) (name : String) : Option Json :=
  (members.find? fun member => member.1 = name).map Prod.snd

def erase (members : Members) (name : String) : Members :=
  members.filter fun member => member.1 ≠ name

/-- The member's new value, in its place or at the end, and no other member of the name. -/
def insert (name : String) (value : Json) : Members → Members
  | [] => [(name, value)]
  | member :: members =>
      if member.1 = name then (name, value) :: erase members name
      else member :: insert name value members

variable {members : Members} {name other : String} {value : Json} {member : String × Json}

@[simp] theorem get_nil (name : String) : get [] name = none := rfl

theorem mem_erase : member ∈ erase members name ↔ member ∈ members ∧ member.1 ≠ name := by
  rw [erase, List.mem_filter, decide_eq_true_eq]

theorem get_erase_of_ne (h : other ≠ name) :
    get (erase members name) other = get members other := by
  rw [get, get, erase, List.find?_filter]
  congr 2
  funext member
  by_cases hother : member.1 = other
  · simp [hother, h]
  · simp [hother]

/-- An object with a member set has that member and those of other names. -/
theorem mem_insert : member ∈ insert name value members ↔
    member = (name, value) ∨ member ∈ members ∧ member.1 ≠ name := by
  induction members with
  | nil => simp [insert]
  | cons first members ih =>
      rw [insert]
      split
      · next heq =>
          rw [List.mem_cons, mem_erase, List.mem_cons]
          refine or_congr_right (and_congr_left fun hne => (or_iff_right ?_).symm)
          rintro rfl
          exact hne heq
      · next hne =>
          rw [List.mem_cons, ih, List.mem_cons, or_left_comm]
          refine or_congr_right ?_
          rw [or_and_right]
          refine or_congr_left (and_iff_left_of_imp ?_).symm
          rintro rfl
          exact hne

theorem get_insert_self (members : Members) (name : String) (value : Json) :
    get (insert name value members) name = some value := by
  induction members with
  | nil => simp [insert, get]
  | cons member members ih =>
      rw [insert]
      split
      · simp [get]
      · next hne =>
          rw [get, List.find?_cons_of_neg (by simpa using hne)]
          exact ih

theorem get_insert_of_ne (h : other ≠ name) :
    get (insert name value members) other = get members other := by
  induction members with
  | nil => simp [insert, get, h.symm]
  | cons member members ih =>
      rw [insert]
      split
      · next heq =>
          rw [get, List.find?_cons_of_neg (by simpa using h.symm), ← get, get_erase_of_ne h, get,
            get, List.find?_cons_of_neg (by simpa [heq] using h.symm)]
      · rw [get, get, List.find?_cons, List.find?_cons]
        split
        · rfl
        · exact ih

/-! ## Paths -/

/-- The members of the object that stands under a name, none where no object does. -/
def child (members : Members) (name : String) : Members :=
  ((get members name).bind asObject).getD []

def getPath : Members → List String → Option Json
  | _, [] => none
  | members, [name] => get members name
  | members, name :: rest => ((get members name).bind asObject).bind fun inner => getPath inner rest

def setPath (value : Json) : Members → List String → Members
  | members, [] => members
  | members, [name] => insert name value members
  | members, name :: rest => insert name (.obj (setPath value (child members name) rest)) members

def removePath : Members → List String → Members
  | members, [] => members
  | members, [name] => erase members name
  | members, name :: rest =>
      ((get members name).bind asObject).elim members fun inner =>
        insert name (.obj (removePath inner rest)) members

theorem getPath_nil_members (path : List String) : getPath [] path = none := by
  match path with
  | [] => rfl
  | [_] => rfl
  | _ :: _ :: _ => rfl

theorem getPath_cons {rest : List String} (hrest : rest ≠ []) (members : Members) (name : String) :
    getPath members (name :: rest) = getPath (child members name) rest := by
  obtain ⟨next, rest, rfl⟩ := List.exists_cons_of_ne_nil hrest
  rw [getPath, child]
  cases (get members name).bind asObject with
  | none => exact (getPath_nil_members _).symm
  | some inner => rfl
  · rintro ⟨⟩

theorem setPath_cons {rest : List String} (hrest : rest ≠ []) (members : Members) (name : String)
    (value : Json) : setPath value members (name :: rest) =
      insert name (.obj (setPath value (child members name) rest)) members := by
  obtain ⟨next, rest, rfl⟩ := List.exists_cons_of_ne_nil hrest
  rfl

theorem exists_setPath_cons (members : Members) (name : String) (rest : List String)
    (value : Json) : ∃ inserted,
      setPath value members (name :: rest) = insert name inserted members := by
  by_cases hrest : rest = []
  · subst hrest
    exact ⟨value, rfl⟩
  · exact ⟨_, setPath_cons hrest members name value⟩

/-- Neither path runs through the other. -/
def Apart (path other : List String) : Prop := ¬ path <+: other ∧ ¬ other <+: path

instance (path other : List String) : Decidable (Apart path other) :=
  inferInstanceAs (Decidable (_ ∧ _))

theorem Apart.symm {path other : List String} (h : Apart path other) : Apart other path :=
  ⟨h.2, h.1⟩

theorem Apart.ne_nil {path other : List String} (h : Apart path other) : path ≠ [] := by
  rintro rfl
  exact h.1 List.nil_prefix

theorem child_insert_self (members inner : Members) (name : String) :
    child (insert name (.obj inner) members) name = inner := by
  rw [child, get_insert_self]
  rfl

theorem child_insert_of_ne (h : other ≠ name) :
    child (insert name value members) other = child members other := by
  rw [child, get_insert_of_ne h, child]

theorem getPath_setPath_self {path : List String} (hne : path ≠ []) (members : Members)
    (value : Json) : getPath (setPath value members path) path = some value := by
  induction path generalizing members with
  | nil => exact absurd rfl hne
  | cons name rest ih =>
      by_cases hrest : rest = []
      · subst hrest
        exact get_insert_self members name value
      · rw [setPath_cons hrest, getPath_cons hrest, child_insert_self]
        exact ih hrest _

/-- Setting one path leaves another one alone. -/
theorem getPath_setPath_of_apart {path other : List String} (h : Apart path other)
    (members : Members) (value : Json) :
    getPath (setPath value members path) other = getPath members other := by
  induction path generalizing other members with
  | nil => exact absurd rfl h.ne_nil
  | cons name rest ih =>
      obtain ⟨name', rest', rfl⟩ := List.exists_cons_of_ne_nil h.symm.ne_nil
      by_cases hname : name' = name
      · subst hname
        have happart : Apart rest rest' :=
          ⟨fun hle => h.1 ((List.prefix_cons_inj name').2 hle),
            fun hle => h.2 ((List.prefix_cons_inj name').2 hle)⟩
        rw [setPath_cons happart.ne_nil, getPath_cons happart.symm.ne_nil, child_insert_self,
          getPath_cons happart.symm.ne_nil]
        exact ih happart _
      · obtain ⟨inserted, hinserted⟩ := exists_setPath_cons members name rest value
        rw [hinserted]
        by_cases hrest' : rest' = []
        · subst hrest'
          exact get_insert_of_ne hname
        · rw [getPath_cons hrest', getPath_cons hrest', child_insert_of_ne hname]

/-- A path goes on in what stands at its beginning. -/
theorem getPath_append {path rest : List String} (hpath : path ≠ []) (hrest : rest ≠ [])
    (members : Members) : getPath members (path ++ rest) =
      ((getPath members path).bind asObject).bind fun inner => getPath inner rest := by
  induction path generalizing members with
  | nil => exact absurd rfl hpath
  | cons name path ih =>
      rw [List.cons_append]
      by_cases hnil : path = []
      · subst hnil
        rw [List.nil_append, getPath_cons hrest, child]
        cases hget : (get members name).bind asObject with
        | none =>
            have hnone : (getPath members [name]).bind asObject = none := hget
            rw [hnone]
            exact getPath_nil_members rest
        | some inner =>
            have hsome : (getPath members [name]).bind asObject = some inner := hget
            rw [hsome]
            rfl
      · rw [getPath_cons (List.append_ne_nil_of_left_ne_nil hnil rest), getPath_cons hnil]
        exact ih hnil _

/-! ## Several paths -/

/-- The members with several paths set, one after the other. -/
def setPaths (members : Members) (entries : List (List String × Json)) : Members :=
  entries.foldl (fun members entry => setPath entry.2 members entry.1) members

theorem getPath_setPaths_of_apart {entries : List (List String × Json)} {path : List String}
    (h : ∀ entry ∈ entries, Apart entry.1 path) (members : Members) :
    getPath (setPaths members entries) path = getPath members path := by
  induction entries generalizing members with
  | nil => rfl
  | cons entry entries ih =>
      rw [setPaths, List.foldl_cons, ← setPaths,
        ih (fun other hother => h other (List.mem_cons_of_mem _ hother)),
        getPath_setPath_of_apart (h entry List.mem_cons_self)]

/-- Paths that keep apart are all set in the end. -/
theorem getPath_setPaths {entries : List (List String × Json)}
    (hapart : entries.Pairwise fun a b => Apart a.1 b.1) (hne : ∀ entry ∈ entries, entry.1 ≠ [])
    {entry : List String × Json} (hentry : entry ∈ entries) (members : Members) :
    getPath (setPaths members entries) entry.1 = some entry.2 := by
  induction entries generalizing members with
  | nil => cases hentry
  | cons first entries ih =>
      obtain ⟨hfirst, hrest⟩ := List.pairwise_cons.1 hapart
      rw [setPaths, List.foldl_cons, ← setPaths]
      rcases List.mem_cons.1 hentry with rfl | hentry
      · rw [getPath_setPaths_of_apart fun other hother => (hfirst other hother).symm,
          getPath_setPath_self (hne entry List.mem_cons_self)]
      · exact ih hrest (fun other hother => hne other (List.mem_cons_of_mem _ hother)) hentry _

end Json

/-- A library that reads and writes the texts of documents. -/
structure SerdeJson (Text : Type) where
  /-- `serde_json::from_str`. -/
  fromStr : Text → Except String Json
  /-- `serde_json::to_string_pretty`, and a newline. -/
  toLines : Json → Text

/-- Documents that are given as the values they spell. -/
def SerdeJson.plain : SerdeJson Json where
  fromStr := .ok
  toLines := id
