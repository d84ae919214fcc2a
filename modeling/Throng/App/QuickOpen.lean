import Mathlib.Data.List.Forall2
import Mathlib.Data.List.Infix
import Throng.Core.Panel
import Throng.Editor.Find

/-!
# Quick Open

Part of a path is typed and a file picked. Every term of the query must be in the file's path, in
any order; a hit in the file name ranks above a hit only in its folders, an earlier hit above a
later one, and ties keep the index's order.
-/

namespace Throng

open Editor

/-- A file under a project root. -/
structure ProjectFile where
  /-- Relative to the root, `/`-separated. -/
  rel : List Char
  path : PathBuf
  /-- Under a path hidden in this project. -/
  hidden : Bool

/-- One result: the file's index and the character spans that matched. -/
structure Hit where
  index : Nat
  spans : List (Nat × Nat)
deriving DecidableEq, Repr

namespace QuickOpen

variable (letters : Letters) (white : Char → Bool)

/-- Rows drawn at most. -/
def shownRows : Nat := 200

def usizeMax : Nat := 18446744073709551615

/-- The terms of a query. -/
def termsOf (query : List Char) : List (List Char) :=
  ((query.splitOnP white).filter fun term => decide (term ≠ [])).map fun term =>
    term.map (Find.fold letters)

def findChars (hay needle : List Char) : Option Nat :=
  if needle = [] ∨ hay.length < needle.length then none
  else
    (List.range (hay.length - needle.length + 1)).find? fun i =>
      decide ((hay.drop i).take needle.length = needle)

/-- Where the file name starts. -/
def nameStart (path : List Char) : Nat :=
  path.length - (path.reverse.takeWhile fun c => decide (c ≠ '/')).length

/-- Prefer the hit in the file name; fall back to anywhere in the path. -/
def hit (path term : List Char) : Option (Nat × Bool) :=
  ((findChars (path.drop (nameStart path)) term).map fun i => (i + nameStart path, true)).or
    ((findChars path term).map fun i => (i, false))

structure Score where
  spans : List (Nat × Nat)
  inName : Nat
  earliest : Nat

def scoreFrom (path : List Char) : List (List Char) → Score → Option Score
  | [], score => some score
  | term :: terms, score =>
      (hit path term).bind fun (start, named) =>
        scoreFrom path terms
          { spans := score.spans ++ [(start, start + term.length)]
            inName := if named then score.inName + 1 else score.inName
            earliest :=
              min score.earliest (if named then start - nameStart path else path.length + start) }

/-- The files that are looked at, each with its index. -/
def visible (files : List ProjectFile) (includeHidden : Bool) : List (ProjectFile × Nat) :=
  files.zipIdx.filter fun entry => includeHidden || !entry.1.hidden

def spanLe (a b : Nat × Nat) : Bool := decide (a.1 ≤ b.1)

def scoreOf (terms : List (List Char)) (entry : ProjectFile × Nat) :
    Option ((Nat × Nat × Nat) × Hit) :=
  (scoreFrom (entry.1.rel.map (Find.fold letters)) terms ⟨[], 0, usizeMax⟩).map fun score =>
    ((usizeMax - score.inName, score.earliest, entry.2), ⟨entry.2, score.spans.mergeSort spanLe⟩)

def keyLe (a b : (Nat × Nat × Nat) × Hit) : Bool :=
  decide (a.1.1 < b.1.1 ∨ a.1.1 = b.1.1 ∧
    (a.1.2.1 < b.1.2.1 ∨ a.1.2.1 = b.1.2.1 ∧ a.1.2.2 ≤ b.1.2.2))

/-- Rank `files` against `query`, keeping only what is drawn; the flag says more matched. -/
def rank (files : List ProjectFile) (query : List Char) (includeHidden : Bool) : List Hit × Bool :=
  let terms := termsOf letters white query
  let visible := visible files includeHidden
  if terms = [] then
    let hits := (visible.map fun entry => (⟨entry.2, []⟩ : Hit)).take (shownRows + 1)
    (hits.take shownRows, decide (hits.length > shownRows))
  else
    let scored := (visible.filterMap (scoreOf letters terms)).mergeSort keyLe
    ((scored.take shownRows).map Prod.snd, decide (scored.length > shownRows))

/-! ## Where a term is hit -/

variable {letters} {path term hay needle : List Char} {i j start : Nat} {named : Bool}

/-- A text has the term at a place, and at none before. -/
structure FirstAt (hay needle : List Char) (i : Nat) : Prop where
  here : (hay.drop i).take needle.length = needle
  first : ∀ j < i, (hay.drop j).take needle.length ≠ needle

theorem isInfix_iff_at : needle <:+: hay ↔ ∃ i, i + needle.length ≤ hay.length ∧
    (hay.drop i).take needle.length = needle := by
  constructor
  · rintro ⟨before, after, rfl⟩
    refine ⟨before.length, ?_, ?_⟩
    · simp only [List.length_append]
      omega
    · rw [List.append_assoc, List.drop_left, List.take_left]
  · rintro ⟨i, -, hi⟩
    rw [← hi]
    have htaken := List.take_prefix needle.length (hay.drop i)
    exact htaken.isInfix.trans (List.drop_suffix i hay).isInfix

theorem findChars_some (h : findChars hay needle = some i) :
    needle <:+: hay ∧ FirstAt hay needle i := by
  rw [findChars] at h
  split at h
  · cases h
  · obtain ⟨hhere, hlt, hfirst⟩ := List.find?_range_eq_some.mp h
    have hhere := of_decide_eq_true hhere
    rw [List.mem_range] at hlt
    refine ⟨isInfix_iff_at.mpr ⟨i, by omega, hhere⟩, hhere, fun j hj hsame => ?_⟩
    have hnot := hfirst j hj
    rw [decide_eq_true hsame] at hnot
    cases hnot

theorem findChars_none (hne : needle ≠ []) (h : findChars hay needle = none) :
    ¬ needle <:+: hay := by
  rintro hthere
  obtain ⟨i, hi, hhere⟩ := isInfix_iff_at.mp hthere
  rw [findChars, if_neg (by rintro (hnil | hlt); exacts [hne hnil, by omega])] at h
  have hnot := List.find?_eq_none.mp h i (List.mem_range.mpr (by omega))
  exact hnot (decide_eq_true hhere)

/-- The file name of a path. -/
def nameOf (path : List Char) : List Char := path.drop (nameStart path)

/-- Where a term is hit: at its first place in the file name, or else in the path. -/
def HitAt (path term : List Char) (start : Nat) : Prop :=
  (∃ i, FirstAt (nameOf path) term i ∧ term <:+: nameOf path ∧ start = i + nameStart path) ∨
    ¬ term <:+: nameOf path ∧ term <:+: path ∧ FirstAt path term start

theorem hit_some (hne : term ≠ []) (h : hit path term = some (start, named)) :
    HitAt path term start ∧ (named = true ↔ term <:+: nameOf path) ∧ term <:+: path := by
  rw [hit, Option.or_eq_some_iff] at h
  rcases h with h | ⟨hnone, h⟩
  · obtain ⟨i, hi, hsame⟩ := Option.map_eq_some_iff.mp h
    cases hsame
    obtain ⟨hthere, hfirst⟩ := findChars_some hi
    exact ⟨.inl ⟨i, hfirst, hthere, rfl⟩, ⟨fun _ => hthere, fun _ => rfl⟩,
      hthere.trans (List.drop_suffix _ _).isInfix⟩
  · obtain ⟨i, hi, hsame⟩ := Option.map_eq_some_iff.mp h
    cases hsame
    obtain ⟨hthere, hfirst⟩ := findChars_some hi
    have hnot := findChars_none hne (Option.map_eq_none_iff.mp hnone)
    exact ⟨.inr ⟨hnot, hthere, hfirst⟩, ⟨nofun, fun h => absurd h hnot⟩, hthere⟩

theorem hit_none (hne : term ≠ []) (h : hit path term = none) : ¬ term <:+: path := by
  rw [hit, Option.or_eq_none_iff] at h
  exact findChars_none hne (Option.map_eq_none_iff.mp h.2)

/-! ## A file's score -/

/-- How far into the file name a hit is, or else how far into the path, which counts as further. -/
def offset (path term : List Char) (start : Nat) : Nat :=
  if term <:+: nameOf path then start - nameStart path else path.length + start

theorem offset_of_named (hnamed : named = true ↔ term <:+: nameOf path) :
    (if named then start - nameStart path else path.length + start) = offset path term start := by
  rw [offset]
  by_cases hin : term <:+: nameOf path
  · rw [if_pos hin, if_pos (hnamed.mpr hin)]
  · rw [if_neg hin, if_neg fun h => hin (hnamed.mp h)]

/-- How many of the terms are in the file name, and how early the earliest is hit. -/
structure Ranks (path : List Char) (terms : List (List Char)) (named earliest : Nat) : Prop where
  named : named = terms.countP fun term => decide (term <:+: nameOf path)
  lower : ∀ term ∈ terms, ∃ start, HitAt path term start ∧ earliest ≤ offset path term start
  least : earliest = usizeMax ∨
    ∃ term ∈ terms, ∃ start, HitAt path term start ∧ earliest = offset path term start

/-- Each term has its span. -/
def Spans (path : List Char) (terms : List (List Char)) (spans : List (Nat × Nat)) : Prop :=
  List.Forall₂ (fun term span => HitAt path term span.1 ∧ span.2 = span.1 + term.length) terms spans

variable {terms : List (List Char)} {score score' : Score}

/-- What the rest of the terms adds to a score. -/
structure Adds (path : List Char) (terms : List (List Char)) (score score' : Score) : Prop where
  all : ∀ term ∈ terms, term <:+: path
  spans : ∃ spans, score'.spans = score.spans ++ spans ∧ Spans path terms spans
  inName : score'.inName = score.inName + terms.countP fun term => decide (term <:+: nameOf path)
  le : score'.earliest ≤ score.earliest
  lower : ∀ term ∈ terms, ∃ start, HitAt path term start ∧ score'.earliest ≤ offset path term start
  least : score'.earliest = score.earliest ∨
    ∃ term ∈ terms, ∃ start, HitAt path term start ∧ score'.earliest = offset path term start

theorem adds_scoreFrom (hne : ∀ term ∈ terms, term ≠ [])
    (h : scoreFrom path terms score = some score') : Adds path terms score score' := by
  induction terms generalizing score with
  | nil =>
      cases h
      exact ⟨nofun, ⟨[], (List.append_nil _).symm, .nil⟩, rfl, Nat.le_refl _, nofun, .inl rfl⟩
  | cons term terms ih =>
      obtain ⟨⟨start, named⟩, hhit, h⟩ := Option.bind_eq_some_iff.mp h
      obtain ⟨hat, hnamed, hthere⟩ := hit_some (hne term List.mem_cons_self) hhit
      have hrest := ih (fun other hother => hne other (List.mem_cons_of_mem _ hother)) h
      have hoffset := @offset_of_named path term start named hnamed
      have hle := hrest.le
      have hleast := hrest.least
      dsimp only at hle hleast
      rw [hoffset] at hle hleast
      obtain ⟨spans, hspans, hmatch⟩ := hrest.spans
      refine ⟨?_, ⟨(start, start + term.length) :: spans, ?_, .cons ⟨hat, rfl⟩ hmatch⟩, ?_,
        Nat.le_trans hle (Nat.min_le_left _ _), ?_, ?_⟩
      · intro other hother
        rcases List.mem_cons.mp hother with rfl | hother
        · exact hthere
        · exact hrest.all other hother
      · rw [hspans, List.append_assoc]
        rfl
      · rw [hrest.inName, List.countP_cons]
        dsimp only
        by_cases hin : term <:+: nameOf path
        · rw [if_pos (hnamed.mpr hin), if_pos (decide_eq_true hin)]
          omega
        · rw [if_neg fun h => hin (hnamed.mp h), if_neg fun h => hin (of_decide_eq_true h)]
          omega
      · intro other hother
        rcases List.mem_cons.mp hother with rfl | hother
        · exact ⟨start, hat, Nat.le_trans hle (Nat.min_le_right _ _)⟩
        · exact hrest.lower other hother
      · rcases hleast with hsame | ⟨other, hother, other_start, hother_at, hsame⟩
        · rcases Nat.le_total score.earliest (offset path term start) with hmin | hmin
          · exact .inl (hsame.trans (Nat.min_eq_left hmin))
          · exact .inr ⟨term, List.mem_cons_self, start, hat, hsame.trans (Nat.min_eq_right hmin)⟩
        · exact .inr ⟨other, List.mem_cons_of_mem _ hother, other_start, hother_at, hsame⟩

theorem exists_scoreFrom (hne : ∀ term ∈ terms, term ≠ []) (hall : ∀ term ∈ terms, term <:+: path)
    (score : Score) : ∃ score', scoreFrom path terms score = some score' := by
  induction terms generalizing score with
  | nil => exact ⟨score, rfl⟩
  | cons term terms ih =>
      cases hhit : hit path term with
      | none =>
          have hnot := hit_none (hne term List.mem_cons_self) hhit
          exact absurd (hall term List.mem_cons_self) hnot
      | some at_ =>
          rw [scoreFrom, hhit, Option.bind_some]
          exact ih (fun other hother => hne other (List.mem_cons_of_mem _ hother))
            (fun other hother => hall other (List.mem_cons_of_mem _ hother)) _

/-! ## The ranking -/

variable {white : Char → Bool} {files : List ProjectFile} {includeHidden : Bool}
  {entry : ProjectFile × Nat} {scored other : (Nat × Nat × Nat) × Hit}

def folded (letters : Letters) (file : ProjectFile) : List Char :=
  file.rel.map (Find.fold letters)

/-- A file that is looked at and has every term in its path. -/
def Matches (letters : Letters) (files : List ProjectFile) (terms : List (List Char))
    (includeHidden : Bool) (i : Nat) : Prop :=
  ∃ file, files[i]? = some file ∧ (includeHidden || !file.hidden) = true ∧
    ∀ term ∈ terms, term <:+: folded letters file

/-- What is known of one result. -/
structure HitOf (letters : Letters) (files : List ProjectFile) (terms : List (List Char))
    (h : Hit) (named earliest : Nat) : Prop where
  ranks : ∃ file, files[h.index]? = some file ∧ Ranks (folded letters file) terms named earliest
  spans : ∃ file spans, files[h.index]? = some file ∧ h.spans.Perm spans ∧
    Spans (folded letters file) terms spans
  inOrder : h.spans.Pairwise fun a b => a.1 ≤ b.1

/-- More terms in the file name go first, then the earlier hit, then the index's order. -/
def Before (letters : Letters) (files : List ProjectFile) (terms : List (List Char))
    (h h' : Hit) : Prop :=
  ∃ named earliest named' earliest', HitOf letters files terms h named earliest ∧
    HitOf letters files terms h' named' earliest' ∧
    (named' < named ∨ named = named' ∧
      (earliest < earliest' ∨ earliest = earliest' ∧ h.index < h'.index))

structure Ranked (letters : Letters) (files : List ProjectFile) (terms : List (List Char))
    (includeHidden : Bool) (order : List Hit) : Prop where
  complete : ∀ i, (∃ h ∈ order, h.index = i) ↔ Matches letters files terms includeHidden i
  once : (order.map Hit.index).Nodup
  hits : ∀ h ∈ order, ∃ named earliest, HitOf letters files terms h named earliest
  ordered : order.Pairwise (Before letters files terms)

theorem mem_visible :
    entry ∈ visible files includeHidden ↔
      files[entry.2]? = some entry.1 ∧ (includeHidden || !entry.1.hidden) = true := by
  rw [visible, List.mem_filter, List.mem_zipIdx_iff_getElem?]

theorem visible_inOrder (files : List ProjectFile) (includeHidden : Bool) :
    (visible files includeHidden).Pairwise fun a b => a.2 < b.2 := by
  refine List.Pairwise.filter _ ?_
  have hindices : (files.zipIdx.map Prod.snd).Pairwise (· < ·) := by
    rw [List.zipIdx_map_snd]
    exact List.pairwise_lt_range'
  exact List.pairwise_map.mp hindices

theorem sorted_spans (spans : List (Nat × Nat)) :
    (spans.mergeSort spanLe).Pairwise fun a b => a.1 ≤ b.1 := by
  have hsorted : (spans.mergeSort spanLe).Pairwise fun a b => spanLe a b = true := by
    refine List.pairwise_mergeSort (fun a b c hab hbc => ?_) (fun a b => ?_) spans
    · simp only [spanLe, decide_eq_true_eq] at *
      omega
    · simp only [spanLe, Bool.or_eq_true, decide_eq_true_eq]
      exact Nat.le_total a.1 b.1
  exact hsorted.imp fun {a b} hle => of_decide_eq_true hle

/-- A file that is scored matches, and its key says how it ranks. -/
theorem score_spec (hne : ∀ term ∈ terms, term ≠ []) (hentry : files[entry.2]? = some entry.1)
    (h : scoreOf letters terms entry = some scored) :
    scored.2.index = entry.2 ∧ (∀ term ∈ terms, term <:+: folded letters entry.1) ∧
      ∃ named earliest, scored.1 = (usizeMax - named, earliest, entry.2) ∧
        named ≤ terms.length ∧ HitOf letters files terms scored.2 named earliest := by
  obtain ⟨score, hscore, rfl⟩ := Option.map_eq_some_iff.mp h
  have hadds := adds_scoreFrom hne hscore
  obtain ⟨spans, hspans, hmatch⟩ := hadds.spans
  have hnamed := hadds.inName
  rw [List.nil_append] at hspans
  rw [Nat.zero_add] at hnamed
  refine ⟨rfl, hadds.all, score.inName, score.earliest, rfl, hnamed ▸ List.countP_le_length, ?_⟩
  refine ⟨⟨entry.1, hentry, hnamed, hadds.lower, hadds.least⟩, ⟨entry.1, spans, hentry, ?_, hmatch⟩,
    sorted_spans _⟩
  rw [hspans]
  exact List.mergeSort_perm _ _

theorem exists_score (hne : ∀ term ∈ terms, term ≠ [])
    (hall : ∀ term ∈ terms, term <:+: folded letters entry.1) :
    ∃ scored, scoreOf letters terms entry = some scored := by
  obtain ⟨score, hscore⟩ := exists_scoreFrom hne hall ⟨[], 0, usizeMax⟩
  refine ⟨((usizeMax - score.inName, score.earliest, entry.2),
    ⟨entry.2, score.spans.mergeSort spanLe⟩), ?_⟩
  rw [scoreOf, show entry.1.rel.map (Find.fold letters) = folded letters entry.1 from rfl,
    hscore]
  rfl

theorem sorted_keys (list : List ((Nat × Nat × Nat) × Hit)) :
    (list.mergeSort keyLe).Pairwise fun a b => keyLe a b = true := by
  refine List.pairwise_mergeSort (fun a b c hab hbc => ?_) (fun a b => ?_) list
  · simp only [keyLe, decide_eq_true_eq] at *
    omega
  · simp only [keyLe, Bool.or_eq_true, decide_eq_true_eq]
    omega

theorem before_of_keyLe (hfits : terms.length ≤ usizeMax) (hne : ∀ term ∈ terms, term ≠ [])
    {entry' : ProjectFile × Nat} (hentry : files[entry.2]? = some entry.1)
    (hentry' : files[entry'.2]? = some entry'.1)
    (h : scoreOf letters terms entry = some scored)
    (h' : scoreOf letters terms entry' = some other)
    (hle : keyLe scored other = true) (hdistinct : scored.2.index ≠ other.2.index) :
    Before letters files terms scored.2 other.2 := by
  obtain ⟨hindex, -, named, earliest, hkey, hnamed, hhit⟩ := score_spec hne hentry h
  obtain ⟨hindex', -, named', earliest', hkey', hnamed', hhit'⟩ := score_spec hne hentry' h'
  refine ⟨named, earliest, named', earliest', hhit, hhit', ?_⟩
  have hle := of_decide_eq_true hle
  rw [hkey, hkey'] at hle
  dsimp only at hle
  omega

theorem terms_ne_nil (query : List Char) :
    ∀ term ∈ termsOf letters white query, term ≠ [] := by
  rintro term hterm rfl
  obtain ⟨raw, hraw, hnil⟩ := List.mem_map.mp hterm
  rw [List.map_eq_nil_iff] at hnil
  exact of_decide_eq_true (List.mem_filter.mp hraw).2 hnil

theorem ranked_scored (hfits : terms.length ≤ usizeMax) (hne : ∀ term ∈ terms, term ≠ []) :
    Ranked letters files terms includeHidden
      ((((visible files includeHidden).filterMap
        (scoreOf letters terms)).mergeSort keyLe).map Prod.snd) := by
  have hmem : ∀ {scored : (Nat × Nat × Nat) × Hit}, scored ∈
      ((visible files includeHidden).filterMap (scoreOf letters terms)).mergeSort keyLe ↔
      ∃ entry, (files[entry.2]? = some entry.1 ∧ (includeHidden || !entry.1.hidden) = true) ∧
        scoreOf letters terms entry = some scored := by
    intro scored
    rw [(List.mergeSort_perm _ _).mem_iff, List.mem_filterMap]
    exact exists_congr fun entry => and_congr_left fun _ => mem_visible
  have hdistinct : (((visible files includeHidden).filterMap
      (scoreOf letters terms)).mergeSort keyLe).Pairwise
        fun a b => a.2.index ≠ b.2.index := by
    refine (List.mergeSort_perm _ _).symm.pairwise ?_ fun hab => Ne.symm hab
    rw [List.pairwise_filterMap]
    refine (visible_inOrder files includeHidden).imp_of_mem ?_
    intro a b ha hb hlt scored hscored other hother
    rw [(score_spec hne (mem_visible.mp ha).1 hscored).1,
      (score_spec hne (mem_visible.mp hb).1 hother).1]
    exact Nat.ne_of_lt hlt
  refine ⟨fun i => ⟨?_, ?_⟩, ?_, ?_, ?_⟩
  · rintro ⟨h, hh, rfl⟩
    obtain ⟨scored, hscored, rfl⟩ := List.mem_map.mp hh
    obtain ⟨entry, ⟨hentry, hvisible⟩, hscore⟩ := hmem.mp hscored
    obtain ⟨hindex, hall, -⟩ := score_spec hne hentry hscore
    exact ⟨entry.1, hindex ▸ hentry, hvisible, hall⟩
  · rintro ⟨file, hfile, hvisible, hall⟩
    obtain ⟨scored, hscore⟩ := @exists_score letters terms (file, i) hne hall
    exact ⟨scored.2, List.mem_map_of_mem (hmem.mpr ⟨(file, i), ⟨hfile, hvisible⟩, hscore⟩),
      (score_spec hne hfile hscore).1⟩
  · rw [List.map_map]
    exact List.pairwise_map.mpr hdistinct
  · intro h hh
    obtain ⟨scored, hscored, rfl⟩ := List.mem_map.mp hh
    obtain ⟨entry, ⟨hentry, -⟩, hscore⟩ := hmem.mp hscored
    obtain ⟨-, -, named, earliest, -, -, hhit⟩ := score_spec hne hentry hscore
    exact ⟨named, earliest, hhit⟩
  · rw [List.pairwise_map]
    refine ((sorted_keys _).and hdistinct).imp_of_mem ?_
    rintro a b ha hb ⟨hle, hne'⟩
    obtain ⟨entry, ⟨hentry, -⟩, hscore⟩ := hmem.mp ha
    obtain ⟨entry', ⟨hentry', -⟩, hscore'⟩ := hmem.mp hb
    exact before_of_keyLe hfits hne hentry hentry' hscore hscore' hle hne'

theorem hitOf_nil {file : ProjectFile} {i : Nat} (h : files[i]? = some file) :
    HitOf letters files [] ⟨i, []⟩ 0 usizeMax :=
  ⟨⟨file, h, rfl, nofun, .inl rfl⟩, ⟨file, [], h, .nil, .nil⟩, .nil⟩

theorem ranked_visible : Ranked letters files [] includeHidden
    ((visible files includeHidden).map fun entry => ⟨entry.2, []⟩) := by
  refine ⟨fun i => ⟨?_, ?_⟩, ?_, ?_, ?_⟩
  · rintro ⟨h, hh, rfl⟩
    obtain ⟨entry, hentry, rfl⟩ := List.mem_map.mp hh
    obtain ⟨hfile, hvisible⟩ := mem_visible.mp hentry
    exact ⟨entry.1, hfile, hvisible, nofun⟩
  · rintro ⟨file, hfile, hvisible, -⟩
    exact ⟨⟨i, []⟩, List.mem_map.mpr ⟨(file, i), mem_visible.mpr ⟨hfile, hvisible⟩, rfl⟩, rfl⟩
  · rw [List.map_map]
    exact List.pairwise_map.mpr ((visible_inOrder files includeHidden).imp Nat.ne_of_lt)
  · intro h hh
    obtain ⟨entry, hentry, rfl⟩ := List.mem_map.mp hh
    exact ⟨0, usizeMax, hitOf_nil (mem_visible.mp hentry).1⟩
  · rw [List.pairwise_map]
    refine (visible_inOrder files includeHidden).imp_of_mem fun {a b} ha hb hlt => ?_
    exact ⟨0, usizeMax, 0, usizeMax, hitOf_nil (mem_visible.mp ha).1,
      hitOf_nil (mem_visible.mp hb).1, .inr ⟨rfl, .inr ⟨rfl, hlt⟩⟩⟩

/-- What is drawn is the beginning of the ranking of every file that matches. -/
theorem rank_exact (letters : Letters) (white : Char → Bool) (files : List ProjectFile)
    (query : List Char) (includeHidden : Bool)
    (hfits : (termsOf letters white query).length ≤ usizeMax) :
    ∃ order, Ranked letters files (termsOf letters white query) includeHidden order ∧
      rank letters white files query includeHidden =
        (order.take shownRows, decide (shownRows < order.length)) := by
  by_cases hterms : termsOf letters white query = []
  · refine ⟨(visible files includeHidden).map fun entry => ⟨entry.2, []⟩, ?_, ?_⟩
    · rw [hterms]
      exact ranked_visible
    · simp only [rank, if_pos hterms, List.take_take, List.length_take]
      refine Prod.ext rfl (decide_eq_decide.mpr ?_)
      rw [gt_iff_lt, Nat.lt_min]
      exact and_iff_right (Nat.lt_succ_self _)
  · refine ⟨_, ranked_scored hfits (terms_ne_nil query), ?_⟩
    simp only [rank, if_neg hterms, List.map_take, List.length_map]

def ascii : Letters := ⟨asciiTable, fun c => [c.toLower]⟩

def sources : List ProjectFile :=
  [⟨['a', '/', 'b'], "/p/a/b", false⟩, ⟨['b', '/', 'A'], "/p/b/A", false⟩,
    ⟨['c', 'a', 'b'], "/p/cab", true⟩]

theorem rank_exact_sources : ∃ order,
    Ranked ascii sources (termsOf ascii Char.isWhitespace ['a', ' ', 'b']) false order ∧
      rank ascii Char.isWhitespace sources ['a', ' ', 'b'] false =
        (order.take shownRows, decide (shownRows < order.length)) :=
  rank_exact ascii Char.isWhitespace sources ['a', ' ', 'b'] false (by decide +kernel)

end QuickOpen

end Throng
