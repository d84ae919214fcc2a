import Throng.Core.Paths
import Throng.Core.PathParts
import Throng.Lib.Joined

/-!
# Paths relative to a root

A path within a root, told from the root, and put onto it again. Whether a path is within
the root is decided by folded keys, where it goes on from the root by counting components
that are not folded: a fold that goes on name by name keeps the count.
-/

namespace Throng

open Joined (joined Clean Segmental)

namespace Path

/-- One component of a path, after the names `out`. -/
def pushNormal (out : List String) (component : String) : List String :=
  if component = ".." then out.dropLast
  else if component = "/" ∨ component = "." then out
  else out ++ [component]

/-- The names that lead to a path from its root. -/
def normalComponents (path : PathBuf) : List String := (components path).foldl pushNormal []

/-- `path` relative to `root`, with `/` separators, if it is inside `root`. -/
def relativeTo (rules : PathRules) (host : Host) (root path : PathBuf) : Option String :=
  if rules.isWithin host root path then
    let rel := (normalComponents path).drop (normalComponents root).length
    some (.ofList (['/'].intercalate (rel.map String.toList)))
  else none

/-- Join a root-relative, `/`-separated path onto `root`. -/
def joinRelative (root : PathBuf) (rel : String) : PathBuf :=
  ((rel.toList.splitOn '/').filter fun segment => segment ≠ []).foldl
    (fun out segment => push out (.ofList segment)) root

end Path

namespace PathRules

variable {rules : PathRules} {host : Host}

/-! ## Segments -/

/-- The segments that a key is made of where `/` is the only separator. -/
def segments (path : PathBuf) : List (List Char) :=
  (path.toList.splitOn '/').foldl pushSegment []

/-- What the rules fold away. -/
def fold (rules : PathRules) (host : Host) (text : List Char) : List Char :=
  let text := if rules.unicodeInsensitive then host.nfc text else text
  if rules.caseInsensitive then host.lowercase text else text

theorem segmental_fold (hnfc : Segmental '/' host.nfc) (hlower : Segmental '/' host.lowercase) :
    Segmental '/' (rules.fold host) := by
  have heq : rules.fold host = (if rules.caseInsensitive then host.lowercase else id) ∘
      if rules.unicodeInsensitive then host.nfc else id := by
    funext text
    rw [fold, Function.comp_apply]
    split <;> split <;> rfl
  rw [heq]
  refine .comp ?_ ?_
  · split
    · exact hlower
    · exact .id
  · split
    · exact hnfc
    · exact .id

/-- Neither a separator nor a dot segment is left. -/
def Plain (segment : List Char) : Prop :=
  segment ≠ [] ∧ segment ≠ ['.'] ∧ segment ≠ ['.', '.'] ∧ '/' ∉ segment

theorem plain_pushSegment {before : List (List Char)} {segment : List Char}
    (hbefore : ∀ s ∈ before, Plain s) (hslash : '/' ∉ segment) :
    ∀ s ∈ pushSegment before segment, Plain s := by
  rw [pushSegment]
  split_ifs with hskip hup
  · exact hbefore
  · exact fun s hs => hbefore s (List.mem_of_mem_dropLast hs)
  · intro s hs
    rcases List.mem_append.mp hs with hs | hs
    · exact hbefore s hs
    · rw [List.mem_singleton] at hs
      rw [hs]
      exact ⟨fun h => hskip (.inl h), fun h => hskip (.inr h), hup, hslash⟩

theorem plain_foldl {pieces : List (List Char)} (hpieces : ∀ piece ∈ pieces, '/' ∉ piece)
    {before : List (List Char)} (hbefore : ∀ s ∈ before, Plain s) :
    ∀ s ∈ pieces.foldl pushSegment before, Plain s := by
  induction pieces generalizing before with
  | nil => exact hbefore
  | cons piece pieces ih =>
      exact ih (fun p hp => hpieces p (List.mem_cons_of_mem _ hp))
        (plain_pushSegment hbefore (hpieces piece List.mem_cons_self))

theorem plain_segments (path : PathBuf) : ∀ s ∈ segments path, Plain s :=
  plain_foldl (fun _ h => Joined.notMem_of_mem_splitOn h) nofun

theorem clean_segments (path : PathBuf) : Clean '/' (segments path) := fun s hs =>
  ⟨(plain_segments path s hs).1, (plain_segments path s hs).2.2.2⟩

/-- The key of an absolute path. -/
theorem key_eq (hrules : rules.windowsNames = false) (hfold : Segmental '/' (rules.fold host))
    {path : PathBuf} (habsolute : path.toList.head? = some '/') :
    rules.key host path = '/' :: joined '/' ((segments path).map (rules.fold host)) := by
  have hunified : rules.unify path = path.toList := by rw [unify, if_neg (by simp [hrules])]
  have hkey : rules.key host path = rules.fold host ('/' :: joined '/' (segments path)) := by
    rw [key, hunified, if_pos habsolute]
    rfl
  have hcut := hfold.append [] (joined '/' (segments path))
  rw [List.nil_append, hfold.nil, List.nil_append, hfold.joined] at hcut
  rw [hkey, hcut]

/-- One key is the other or around it exactly when its segments begin the other's. -/
theorem within_joined_iff {as bs : List (List Char)} (has : Clean '/' as) (hbs : Clean '/' bs) :
    ('/' :: joined '/' as = '/' :: joined '/' bs ∨
      inside ('/' :: joined '/' as) <+: '/' :: joined '/' bs) ↔ as <+: bs := by
  by_cases hnil : as = []
  · subst hnil
    have hroot : inside ('/' :: joined '/' []) = ['/'] := rfl
    rw [hroot]
    exact iff_of_true (.inr ⟨joined '/' bs, rfl⟩) (List.nil_prefix)
  · have hne := Joined.joined_ne_nil has hnil
    have hlast : ('/' :: joined '/' as).getLast? ≠ some '/' := by
      obtain ⟨c, text, hcons⟩ := List.exists_cons_of_ne_nil hne
      have hend := Joined.getLast?_joined has
      rw [hcons] at hend ⊢
      rwa [List.getLast?_cons_cons]
    rw [inside, if_neg hlast, List.cons_append, List.cons_prefix_cons, and_iff_right rfl,
      Joined.prefix_iff has hbs hnil, List.cons.injEq, and_iff_right rfl]
    constructor
    · rintro (heq | ⟨rest, -, rfl⟩)
      · rw [Joined.joined_inj has hbs heq]
      · exact List.prefix_append as rest
    · rintro ⟨rest, rfl⟩
      by_cases hrest : rest = []
      · rw [hrest, List.append_nil]
        exact .inl rfl
      · exact .inr ⟨rest, hrest, rfl⟩

theorem isWithin_iff_segments (hrules : rules.windowsNames = false)
    (hfold : Segmental '/' (rules.fold host)) {root path : PathBuf}
    (hroot : root.toList.head? = some '/') (hpath : path.toList.head? = some '/') :
    rules.isWithin host root path = true ↔
      (segments root).map (rules.fold host) <+: (segments path).map (rules.fold host) := by
  rw [isWithin_iff, key_eq hrules hfold hroot, key_eq hrules hfold hpath,
    ← within_joined_iff (hfold.clean (clean_segments root)) (hfold.clean (clean_segments path))]
  exact ⟨fun h => h.2.2, fun h => ⟨List.cons_ne_nil _ _, List.cons_ne_nil _ _, h⟩⟩

/-! ## Components -/

theorem pushNormal_ofList {piece : List Char} (hslash : '/' ∉ piece) (hempty : piece ≠ [])
    (hdot : piece ≠ ['.']) (before : List (List Char)) :
    Path.pushNormal (before.map String.ofList) (.ofList piece) =
      (pushSegment before piece).map String.ofList := by
  have hof {text : String} : String.ofList piece = text ↔ piece = text.toList := by
    rw [← String.toList_inj, String.toList_ofList]
  have hroot : piece ≠ ['/'] := by
    rintro rfl
    exact hslash List.mem_cons_self
  rw [Path.pushNormal, pushSegment, if_neg (not_or.mpr ⟨hempty, hdot⟩)]
  simp only [hof]
  by_cases hup : piece = ['.', '.']
  · rw [if_pos (show piece = "..".toList from hup), if_pos hup, List.map_dropLast]
  · rw [if_neg (show piece ≠ "..".toList from hup), if_neg hup,
      if_neg (show ¬ (piece = "/".toList ∨ piece = ".".toList) from not_or.mpr ⟨hroot, hdot⟩),
      List.map_append]
    rfl

theorem foldl_pushNormal {pieces : List (List Char)} (hpieces : ∀ piece ∈ pieces, '/' ∉ piece)
    (before : List (List Char)) :
    ((pieces.map String.ofList).filter fun name => name ≠ "" ∧ name ≠ ".").foldl Path.pushNormal
        (before.map String.ofList) = (pieces.foldl pushSegment before).map String.ofList := by
  induction pieces generalizing before with
  | nil => rfl
  | cons piece pieces ih =>
      have hrest := ih fun p hp => hpieces p (List.mem_cons_of_mem _ hp)
      have hof {text : String} : String.ofList piece = text ↔ piece = text.toList := by
        rw [← String.toList_inj, String.toList_ofList]
      rw [List.map_cons, List.filter_cons, List.foldl_cons]
      by_cases hskip : piece = [] ∨ piece = ['.']
      · have hnot : ¬ (String.ofList piece ≠ "" ∧ String.ofList piece ≠ ".") := by
          rw [not_and_or, not_not, not_not, hof, hof]
          exact hskip
        rw [if_neg (by simpa using hnot), hrest, pushSegment, if_pos hskip]
      · have hkept : String.ofList piece ≠ "" ∧ String.ofList piece ≠ "." := by
          rw [Ne, hof, Ne, hof]
          exact not_or.mp hskip
        rw [if_pos (by simpa using hkept), List.foldl_cons, pushNormal_ofList
          (hpieces piece List.mem_cons_self) (not_or.mp hskip).1 (not_or.mp hskip).2, hrest]

/-- The components of an absolute path are the segments of its key before folding. -/
theorem normalComponents_eq {path : PathBuf} (habsolute : path.toList.head? = some '/') :
    Path.normalComponents path = (segments path).map String.ofList := by
  rw [Path.normalComponents, Path.components]
  simp only [if_pos habsolute]
  rw [List.singleton_append, List.foldl_cons]
  exact foldl_pushNormal (fun _ h => Joined.notMem_of_mem_splitOn h) []

/-! ## Joining -/

theorem toList_push {segment : List Char} (hslash : '/' ∉ segment) (base : PathBuf) :
    (Path.push base (.ofList segment)).toList =
      base.toList ++ ((if base = "" ∨ base.toList.getLast? = some '/' then [] else ['/']) ++
        segment) := by
  have hhead : (String.ofList segment).toList.head? ≠ some '/' := by
    rw [String.toList_ofList]
    exact fun h => hslash (List.mem_of_head? h)
  rw [Path.push, if_neg hhead, String.toList_append, String.toList_append, List.append_assoc]
  split <;> simp

theorem segments_push {base : PathBuf} {segment : List Char} (hbase : base ≠ "")
    (hsegment : Plain segment) :
    segments (Path.push base (.ofList segment)) = segments base ++ [segment] := by
  obtain ⟨hne, hdot, hup, hslash⟩ := hsegment
  have hpush : pushSegment (segments base) segment = segments base ++ [segment] := by
    rw [pushSegment, if_neg (not_or.mpr ⟨hne, hdot⟩), if_neg hup]
  have hsplit (text : List Char) :
      (text ++ '/' :: segment).splitOn '/' = text.splitOn '/' ++ [segment] := by
    rw [List.splitOn_append_cons_self, List.splitOn_eq_singleton hslash]
  rw [← hpush, segments, toList_push hslash, segments]
  by_cases hlast : base.toList.getLast? = some '/'
  · -- the separator that ends the base has nothing behind it
    obtain ⟨front, hfront⟩ := List.getLast?_eq_some_iff.mp hlast
    rw [if_pos (.inr hlast), hfront, List.nil_append, List.append_assoc, List.singleton_append,
      hsplit, List.splitOn_append_cons_self, List.splitOn_nil, List.foldl_append,
      List.foldl_append]
    rfl
  · rw [if_neg (not_or.mpr ⟨hbase, hlast⟩), List.singleton_append, hsplit, List.foldl_append]
    rfl

theorem head?_push {base : PathBuf} {segment : List Char}
    (habsolute : base.toList.head? = some '/') (hsegment : Plain segment) :
    (Path.push base (.ofList segment)).toList.head? = some '/' := by
  rw [toList_push hsegment.2.2.2, List.head?_append, habsolute]
  rfl

theorem segments_foldl_push {rest : List (List Char)} (hrest : ∀ s ∈ rest, Plain s)
    {base : PathBuf} (habsolute : base.toList.head? = some '/') :
    (rest.foldl (fun out segment => Path.push out (.ofList segment)) base).toList.head? = some '/' ∧
      segments (rest.foldl (fun out segment => Path.push out (.ofList segment)) base) =
        segments base ++ rest := by
  induction rest generalizing base with
  | nil => exact ⟨habsolute, by rw [List.foldl_nil, List.append_nil]⟩
  | cons segment rest ih =>
      have hsegment := hrest segment List.mem_cons_self
      have hbase : base ≠ "" := by
        rintro rfl
        cases habsolute
      obtain ⟨hhead, hsegments⟩ := ih (fun s hs => hrest s (List.mem_cons_of_mem _ hs))
        (head?_push habsolute hsegment)
      refine ⟨hhead, ?_⟩
      rw [List.foldl_cons, hsegments, segments_push hbase hsegment, List.append_assoc,
        List.singleton_append]

/-- The names told from the root are told again. -/
theorem splitOn_joined_filter {names : List (List Char)} (h : Clean '/' names) :
    ((joined '/' names).splitOn '/').filter (fun segment => segment ≠ []) = names := by
  by_cases hnil : names = []
  · rw [hnil]
    rfl
  · rw [Joined.splitOn_joined h hnil]
    exact List.filter_eq_self.mpr fun name hname => decide_eq_true (h name hname).1

end PathRules

namespace Path

open PathRules

/-- A path within a root is told from the root, and put onto the root again it is the same
entry; no other path is. -/
theorem relativeTo_joinRelative {rules : PathRules} {host : Host} {root path : PathBuf}
    (hrules : rules.windowsNames = false) (hnfc : Segmental '/' host.nfc)
    (hlower : Segmental '/' host.lowercase) (hroot : root.toList.head? = some '/')
    (hpath : path.toList.head? = some '/') :
    (relativeTo rules host root path = none ↔ rules.isWithin host root path = false) ∧
      ∀ rel, relativeTo rules host root path = some rel →
        rel.toList.head? ≠ some '/' ∧ rules.same host (joinRelative root rel) path = true := by
  refine ⟨?_, ?_⟩
  · rw [relativeTo]
    split
    · next h => simp [h]
    · next h => simpa using h
  · intro rel hrel
    have hfold : Segmental '/' (rules.fold host) := segmental_fold hnfc hlower
    rw [relativeTo] at hrel
    split at hrel
    · next hwithin =>
        rw [isWithin_iff_segments hrules hfold hroot hpath] at hwithin
        rw [Option.some.injEq, normalComponents_eq hroot, normalComponents_eq hpath,
          List.length_map, ← List.map_drop, List.map_map] at hrel
        let rest := (segments path).drop (segments root).length
        have hplain : ∀ s ∈ rest, Plain s := fun s hs =>
          plain_segments path s (List.mem_of_mem_drop hs)
        have hclean : Clean '/' rest := fun s hs => ⟨(hplain s hs).1, (hplain s hs).2.2.2⟩
        have htext : rel.toList = joined '/' rest := by
          have hsame : rest.map (String.toList ∘ String.ofList) = rest := by
            simp [Function.comp_def]
          rw [← hrel, String.toList_ofList, hsame]
          rfl
        obtain ⟨hhead, hsegments⟩ := segments_foldl_push hplain hroot
        refine ⟨htext ▸ Joined.head?_joined hclean, ?_⟩
        rw [joinRelative, htext, splitOn_joined_filter hclean, same, decide_eq_true_eq,
          key_eq hrules hfold hhead, key_eq hrules hfold hpath, hsegments, List.map_append]
        -- what the keys have in common has the root's number of segments
        have hcut := List.prefix_iff_eq_append.mp hwithin
        rw [List.length_map, ← List.map_drop] at hcut
        rw [hcut]
    · cases hrel

theorem segmental_toLower : Segmental '/' (List.map Char.toLower) := by
  refine .map (by decide) fun c hc => ?_
  change (if h : c.val ≥ 65 ∧ c.val ≤ 90 then (⟨c.val + 32, _⟩ : Char) else c) = '/' at hc
  split at hc
  · next hupper =>
      have hval := congrArg Char.toNat hc
      simp only [UInt32.le_iff_toNat_le] at hupper
      change 65 ≤ c.val.toNat ∧ c.val.toNat ≤ 90 at hupper
      change (c.val + 32).toNat = 47 at hval
      rw [UInt32.toNat_add, show (32 : UInt32).toNat = 32 from rfl] at hval
      omega
  · exact hc

/-- Letter case, dot segments and a trailing separator. -/
theorem relativeTo_joinRelative_macos :
    (relativeTo .macos ⟨fun path => path.startsWith "/", id, List.map Char.toLower⟩
        "/Work/../Proj/" "/proj/./Sub//A.txt/" = none ↔
      PathRules.macos.isWithin ⟨fun path => path.startsWith "/", id, List.map Char.toLower⟩
        "/Work/../Proj/" "/proj/./Sub//A.txt/" = false) ∧
    ∀ rel, relativeTo .macos ⟨fun path => path.startsWith "/", id, List.map Char.toLower⟩
        "/Work/../Proj/" "/proj/./Sub//A.txt/" = some rel →
      rel.toList.head? ≠ some '/' ∧
        PathRules.macos.same ⟨fun path => path.startsWith "/", id, List.map Char.toLower⟩
          (joinRelative "/Work/../Proj/" rel) "/proj/./Sub//A.txt/" = true :=
  relativeTo_joinRelative rfl .id segmental_toLower (by decide) (by decide)

example : relativeTo .macos ⟨fun path => path.startsWith "/", id, List.map Char.toLower⟩
    "/Work/../Proj/" "/proj/./Sub//A.txt/" = some "Sub/A.txt" := by decide

end Path

end Throng
