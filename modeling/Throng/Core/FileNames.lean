import Throng.Core.Relative

/-!
# File names

The last name of a path, the folder it stands in, and a path that goes on with a name, as
the standard library of the rules' platform gives them: on Windows both slashes separate
and a path may begin with a drive. A path that goes on with a name has a key that does.
-/

namespace Throng

open Joined (joined Clean Segmental)

namespace PathOn

variable (rules : PathRules)

def isSep (c : Char) : Bool := c = '/' || (rules.windowsNames && c = '\\')

/-- The drive that a text begins with. -/
def drivePrefix : List Char → List Char
  | c :: ':' :: _ => if ('a' ≤ c ∧ c ≤ 'z') ∨ ('A' ≤ c ∧ c ≤ 'Z') then [c, ':'] else []
  | _ => []

/-- The drive of a path; only Windows has drives. -/
def drive (text : List Char) : List Char := if rules.windowsNames then drivePrefix text else []

/-- What stands between the separators, after the drive. -/
def pieces (path : PathBuf) : List (List Char) :=
  let text := rules.unify path
  (text.drop (drive rules text).length).splitOn '/'

/-- A piece that is no component. -/
def skipped (piece : List Char) : Bool := piece = [] || piece = ['.']

/-- The last piece that is a component, and the pieces before it. -/
def lastPiece : List (List Char) → Option (List (List Char) × List Char)
  | [] => none
  | piece :: pieces =>
      (lastPiece pieces).elim (if skipped piece then none else some ([], piece))
        fun found => some (piece :: found.1, found.2)

/-- `Path::file_name`. -/
def fileName (path : PathBuf) : Option (List Char) :=
  (lastPiece (pieces rules path)).bind fun found =>
    if found.2 = ['.', '.'] then none else some found.2

/-- `Path::parent`: what stands before the last component. -/
def parent (path : PathBuf) : Option PathBuf :=
  let drive := drive rules (rules.unify path)
  (lastPiece (pieces rules path)).elim
    (if (pieces rules path).head? = some ['.'] then some (.ofList drive) else none)
    fun found => some (.ofList (drive ++ found.1.flatMap (· ++ ['/'])))

/-- `Path::join`: a path with a drive stands for itself, one that begins with a separator for
what it is on the drive of the base, and nothing separates a bare drive from what follows. -/
def join (base : PathBuf) (rest : List Char) : PathBuf :=
  let text := base.toList
  if drive rules rest ≠ [] then .ofList rest
  else if rest.head?.any (isSep rules) then .ofList (drive rules text ++ rest)
  else if text = [] ∨ text.getLast?.any (isSep rules) ∨
    (rules.windowsNames ∧ text = drive rules text)
  then .ofList (text ++ rest)
  else .ofList (text ++ (if rules.windowsNames then '\\' else '/') :: rest)

end PathOn

namespace PathRules

open PathOn (drive drivePrefix pieces skipped lastPiece fileName parent isSep)

theorem inside_eq (key : List Char) :
    inside key = if key.getLast? = some '/' then key else key ++ ['/'] := rfl

variable {rules : PathRules} {host : Host}

/-! ## Keys -/

/-- The segments that a key is made of. -/
def segmentsOn (rules : PathRules) (path : PathBuf) : List (List Char) :=
  ((rules.unify path).splitOn '/').foldl pushSegment []

/-- What a key begins with. -/
def lead (rules : PathRules) (path : PathBuf) : List Char :=
  if (rules.unify path).head? = some '/' then ['/'] else []

theorem plain_segmentsOn (path : PathBuf) : ∀ s ∈ rules.segmentsOn path, Plain s :=
  plain_foldl (fun _ h => Joined.notMem_of_mem_splitOn h) fun _ h => absurd h List.not_mem_nil

theorem clean_segmentsOn (path : PathBuf) : Clean '/' (rules.segmentsOn path) := fun s hs =>
  ⟨(plain_segmentsOn path s hs).1, (plain_segmentsOn path s hs).2.2.2⟩

theorem key_eq_lead (hfold : Segmental '/' (rules.fold host)) (path : PathBuf) :
    rules.key host path =
      rules.lead path ++ joined '/' ((rules.segmentsOn path).map (rules.fold host)) := by
  have hkey : rules.key host path =
      rules.fold host (rules.lead path ++ joined '/' (rules.segmentsOn path)) := by
    rw [key, lead]
    by_cases habsolute : (rules.unify path).head? = some '/'
    · rw [if_pos habsolute, if_pos habsolute]
      rfl
    · rw [if_neg habsolute, if_neg habsolute]
      rfl
  rw [hkey, lead]
  split
  · have hcut := hfold.append [] (joined '/' (rules.segmentsOn path))
    rw [List.nil_append, hfold.nil, List.nil_append, hfold.joined] at hcut
    exact hcut
  · rw [List.nil_append, hfold.joined, List.nil_append]

/-- A folded key that is not empty goes on with a separator, unless it ends with one. -/
theorem inside_lead {first : List Char} (hfirst : first = ['/'] ∨ first = [])
    {names : List (List Char)} (hnames : Clean '/' names)
    (hne : first ++ joined '/' names ≠ []) (name : List Char) :
    inside (first ++ joined '/' names) ++ name = first ++ joined '/' (names ++ [name]) := by
  by_cases hnil : names = []
  · subst hnil
    rcases hfirst with rfl | rfl
    · rw [List.nil_append, Joined.joined_singleton]
      rfl
    · exact absurd rfl hne
  · have hjoined := Joined.joined_ne_nil hnames hnil
    have hlast : (first ++ joined '/' names).getLast? ≠ some '/' := by
      rw [List.getLast?_append_of_ne_nil _ hjoined]
      exact Joined.getLast?_joined hnames
    rw [inside, if_neg hlast, Joined.joined_append hnil (List.cons_ne_nil _ _),
      Joined.joined_singleton]
    simp only [List.append_assoc, List.singleton_append]

/-! ## Unified texts -/

theorem unify_ofList_of_notMem {text : List Char} (h : rules.windowsNames = true → '\\' ∉ text) :
    rules.unify (.ofList text) = text := by
  rw [unify, String.toList_ofList]
  split
  · next hwindows =>
      refine (List.map_congr_left fun c hc => if_neg ?_).trans (List.map_id _)
      rintro rfl
      exact h hwindows hc
  · rfl

theorem notMem_unify (path : PathBuf) (h : rules.windowsNames = true) :
    '\\' ∉ rules.unify path := by
  rw [unify, if_pos h, List.mem_map]
  rintro ⟨c, -, hc⟩
  split at hc
  · exact absurd hc (by decide)
  · next hne => exact hne hc

theorem drive_cases (rules : PathRules) (text : List Char) :
    drive rules text = [] ∨ ∃ c rest, rules.windowsNames = true ∧ c ≠ '/' ∧ c ≠ '.' ∧
      text = c :: ':' :: rest ∧ drive rules text = [c, ':'] := by
  rw [drive]
  split
  · next hwindows =>
      fun_cases drivePrefix text with
      | case1 c rest hletter =>
          refine .inr ⟨c, rest, hwindows, ?_, ?_, rfl, rfl⟩
          · rintro rfl
            revert hletter
            decide
          · rintro rfl
            revert hletter
            decide
      | case2 c rest hletter => exact .inl rfl
      | case3 => exact .inl rfl
  · exact .inl rfl

theorem notMem_drive (rules : PathRules) (text : List Char) : '/' ∉ drive rules text := by
  rcases drive_cases rules text with hnone | ⟨c, rest, -, hslash, -, -, hdrive⟩
  · rw [hnone]
    exact List.not_mem_nil
  · rw [hdrive]
    simp [Ne.symm hslash]

/-- A text is its drive and what comes after. -/
theorem drive_append_drop (rules : PathRules) (text : List Char) :
    drive rules text ++ text.drop (drive rules text).length = text := by
  rcases drive_cases rules text with hnone | ⟨c, rest, -, -, -, rfl, hdrive⟩
  · rw [hnone]
    rfl
  · rw [hdrive]
    rfl

theorem splitOn_append_of_notMem {front : List Char} (h : '/' ∉ front) (text : List Char) :
    (front ++ text).splitOn '/' = (text.splitOn '/').modifyHead (front ++ ·) := by
  induction front with
  | nil =>
      rw [List.nil_append]
      cases text.splitOn '/' with
      | nil => rfl
      | cons first rest => rfl
  | cons c front ih =>
      rw [List.mem_cons, not_or] at h
      have hc : (c == '/') = false := by simpa using Ne.symm h.1
      rw [List.cons_append, List.splitOn_cons_eq_if_modifyHead, hc, if_neg Bool.false_ne_true,
        ih h.2]
      cases text.splitOn '/' with
      | nil => rfl
      | cons first rest => rfl

/-- The pieces of a text, the drive put on the first. -/
theorem splitOn_unify (path : PathBuf) : (rules.unify path).splitOn '/' =
    (pieces rules path).modifyHead (drive rules (rules.unify path) ++ ·) := by
  rw [pieces, ← splitOn_append_of_notMem (notMem_drive rules _), drive_append_drop]

/-! ## Last pieces -/

theorem foldl_pushSegment_skipped {names : List (List Char)}
    (h : ∀ name ∈ names, skipped name = true) (before : List (List Char)) :
    names.foldl pushSegment before = before := by
  induction names with
  | nil => rfl
  | cons name names ih =>
      have hname := h name List.mem_cons_self
      rw [skipped, Bool.or_eq_true, decide_eq_true_eq, decide_eq_true_eq] at hname
      rw [List.foldl_cons, pushSegment, if_pos hname]
      exact ih fun n hn => h n (List.mem_cons_of_mem _ hn)

theorem lastPiece_eq_none {names : List (List Char)} :
    lastPiece names = none ↔ ∀ name ∈ names, skipped name = true := by
  induction names with
  | nil => exact iff_of_true rfl fun _ h => absurd h List.not_mem_nil
  | cons name names ih =>
      rw [lastPiece, List.forall_mem_cons]
      cases hlast : lastPiece names with
      | none =>
          rw [Option.elim_none, ← ih, hlast]
          split <;> simp_all
      | some found =>
          rw [Option.elim_some, ← ih, hlast]
          simp

theorem lastPiece_eq_some {names before : List (List Char)} {last : List Char}
    (h : lastPiece names = some (before, last)) : skipped last = false ∧
      ∃ after, names = before ++ last :: after ∧ ∀ name ∈ after, skipped name = true := by
  induction names generalizing before with
  | nil => cases h
  | cons name names ih =>
      rw [lastPiece] at h
      cases hlast : lastPiece names with
      | none =>
          rw [hlast, Option.elim_none] at h
          split at h
          · cases h
          · next hname =>
              obtain ⟨rfl, rfl⟩ := Prod.mk.inj (Option.some.inj h)
              exact ⟨by simpa using hname, names, rfl, lastPiece_eq_none.mp hlast⟩
      | some found =>
          rw [hlast, Option.elim_some] at h
          obtain ⟨rfl, rfl⟩ := Prod.mk.inj (Option.some.inj h)
          obtain ⟨hkept, after, rfl, hafter⟩ := ih hlast
          exact ⟨hkept, after, rfl, hafter⟩

theorem lastPiece_append {before after : List (List Char)} {last : List Char}
    (hlast : skipped last = false) (hafter : ∀ name ∈ after, skipped name = true) :
    lastPiece (before ++ last :: after) = some (before, last) := by
  induction before with
  | nil =>
      rw [List.nil_append, lastPiece, lastPiece_eq_none.mpr hafter, Option.elim_none, hlast,
        if_neg Bool.false_ne_true]
  | cons name before ih => rw [List.cons_append, lastPiece, ih, Option.elim_some]

theorem splitOn_flatMap (before : List (List Char)) (hbefore : ∀ name ∈ before, '/' ∉ name) :
    (before.flatMap (· ++ ['/'])).splitOn '/' = before ++ [[]] := by
  induction before with
  | nil => rfl
  | cons name before ih =>
      rw [List.flatMap_cons, List.append_assoc, List.singleton_append,
        List.splitOn_append_cons_self, ih fun n hn => hbefore n (List.mem_cons_of_mem _ hn),
        List.splitOn_eq_singleton (hbefore name List.mem_cons_self)]
      rfl

theorem notMem_of_mem_pieces {path : PathBuf} {piece : List Char} (h : piece ∈ pieces rules path) :
    '/' ∉ piece := Joined.notMem_of_mem_splitOn h

theorem notMem_backslash {path : PathBuf} {piece : List Char} (h : piece ∈ pieces rules path)
    (hwindows : rules.windowsNames = true) : '\\' ∉ piece := fun hmem =>
  notMem_unify path hwindows (List.mem_of_mem_drop (Joined.mem_of_mem_splitOn h hmem))

theorem exists_of_fileName {path : PathBuf} {name : List Char}
    (h : fileName rules path = some name) : name ≠ ['.', '.'] ∧ skipped name = false ∧
      ∃ before after, pieces rules path = before ++ name :: after ∧
        (∀ piece ∈ after, skipped piece = true) ∧
          parent rules path = some (.ofList (drive rules (rules.unify path) ++
            before.flatMap (· ++ ['/']))) := by
  obtain ⟨⟨before, last⟩, hlast, hname⟩ := Option.bind_eq_some_iff.mp h
  split at hname
  · cases hname
  · next hup =>
      obtain rfl := Option.some.inj hname
      obtain ⟨hkept, after, hpieces, hafter⟩ := lastPiece_eq_some hlast
      refine ⟨hup, hkept, before, after, hpieces, hafter, ?_⟩
      rw [parent, hlast, Option.elim_some]

/-- A file name is a plain segment. -/
theorem plain_of_fileName {path : PathBuf} {name : List Char}
    (h : fileName rules path = some name) : Plain name := by
  obtain ⟨hup, hkept, before, after, hpieces, -⟩ := exists_of_fileName h
  rw [skipped, Bool.or_eq_false_iff, decide_eq_false_iff_not, decide_eq_false_iff_not] at hkept
  refine ⟨hkept.1, hkept.2, hup, @notMem_of_mem_pieces rules path _ ?_⟩
  rw [hpieces]
  exact List.mem_append_right _ List.mem_cons_self

theorem notMem_of_fileName {path : PathBuf} {name : List Char}
    (h : fileName rules path = some name) (hwindows : rules.windowsNames = true) : '\\' ∉ name := by
  obtain ⟨-, -, before, after, hpieces, -⟩ := exists_of_fileName h
  refine @notMem_backslash rules path _ ?_ hwindows
  rw [hpieces]
  exact List.mem_append_right _ List.mem_cons_self

/-! ## Joining -/

/-- The text is a name that a path may go on with. -/
structure Joins (rules : PathRules) (base : PathBuf) (name : List Char) : Prop where
  plain : Plain name
  backslash : rules.windowsNames = true → '\\' ∉ name
  driveless : drive rules name = []
  nonempty : rules.unify base ≠ []
  bare : rules.windowsNames = true → base.toList ≠ drive rules base.toList

section

variable {base : PathBuf} {name : List Char}

theorem Joins.head? (h : Joins rules base name) : ¬ name.head?.any (isSep rules) = true := by
  rw [Option.any_eq_true]
  rintro ⟨c, hc, hsep⟩
  have hmem := List.mem_of_head? hc
  rw [isSep, Bool.or_eq_true, Bool.and_eq_true, decide_eq_true_eq, decide_eq_true_eq] at hsep
  rcases hsep with rfl | ⟨hwindows, rfl⟩
  · exact h.plain.2.2.2 hmem
  · exact h.backslash hwindows hmem

theorem getLast?_unify (base : PathBuf) :
    base.toList.getLast?.any (isSep rules) = true ↔ (rules.unify base).getLast? = some '/' := by
  rw [Option.any_eq_true, unify]
  cases hwindows : rules.windowsNames with
  | true =>
      rw [if_pos rfl, List.getLast?_map]
      cases base.toList.getLast? with
      | none => simp
      | some c =>
          simp only [Option.some.injEq, exists_eq_left', isSep, hwindows, Bool.true_and,
            Bool.or_eq_true, decide_eq_true_eq, Option.map_some]
          constructor
          · rintro (rfl | rfl) <;> rfl
          · intro hc
            split at hc
            · next hback => exact .inr hback
            · exact .inl hc
  | false =>
      rw [if_neg Bool.false_ne_true]
      cases base.toList.getLast? with
      | none => simp
      | some c =>
          simp only [Option.some.injEq, exists_eq_left', isSep, hwindows, Bool.false_and,
            Bool.or_false, decide_eq_true_eq]

theorem unify_ofList_append (text rest : List Char) :
    rules.unify (.ofList (text ++ rest)) = rules.unify (.ofList text) ++
      rules.unify (.ofList rest) := by
  rw [unify, unify, unify, String.toList_ofList, String.toList_ofList, String.toList_ofList]
  split
  · exact List.map_append
  · rfl

/-- A path that goes on has a separator before the name. -/
theorem Joins.unify_join (h : Joins rules base name) :
    rules.unify (PathOn.join rules base name) = inside (rules.unify base) ++ name := by
  have hname := unify_ofList_of_notMem h.backslash
  have hbase : rules.unify (.ofList base.toList) = rules.unify base := by rw [String.ofList_toList]
  rw [PathOn.join, if_neg (not_not.mpr h.driveless), if_neg h.head?, inside]
  by_cases hsep : base.toList.getLast?.any (isSep rules) = true
  · rw [if_pos (.inr (.inl hsep)), if_pos ((getLast?_unify base).mp hsep), unify_ofList_append,
      hname, hbase]
  · have hne : base.toList ≠ [] := by
      intro hnil
      refine h.nonempty ?_
      rw [← hbase, hnil]
      exact unify_ofList_of_notMem fun _ => List.not_mem_nil
    have hmain : rules.unify (.ofList [if rules.windowsNames = true then '\\' else '/']) =
        ['/'] := by
      rw [unify, String.toList_ofList]
      split <;> rfl
    rw [if_neg (not_or.mpr ⟨hne, not_or.mpr ⟨hsep, fun hbare => h.bare hbare.1 hbare.2⟩⟩),
      if_neg (fun hlast => hsep ((getLast?_unify base).mpr hlast)), unify_ofList_append, hbase,
      List.append_assoc, ← List.singleton_append, unify_ofList_append, hmain, hname]

/-! The separator before the name parts nothing off. -/

theorem splitOn_inside_append {text : List Char} (hslash : '/' ∉ name) :
    ∃ front, inside text = front ++ ['/'] ∧
      (inside text ++ name).splitOn '/' = front.splitOn '/' ++ [name] ∧
        (front.splitOn '/').foldl pushSegment [] = (text.splitOn '/').foldl pushSegment [] := by
  have hsplit (front : List Char) :
      (front ++ ['/'] ++ name).splitOn '/' = front.splitOn '/' ++ [name] := by
    rw [List.append_assoc, List.singleton_append, List.splitOn_append_cons_self,
      List.splitOn_eq_singleton hslash]
  rw [inside]
  split
  · next hlast =>
      obtain ⟨front, rfl⟩ := List.getLast?_eq_some_iff.mp hlast
      refine ⟨front, rfl, hsplit front, ?_⟩
      rw [List.splitOn_append_cons_self, List.splitOn_nil, List.foldl_append]
      rfl
  · exact ⟨text, rfl, hsplit text, rfl⟩

theorem head?_inside {text : List Char} (h : text ≠ []) (rest : List Char) :
    (inside text ++ rest).head? = text.head? := by
  obtain ⟨c, text, rfl⟩ := List.exists_cons_of_ne_nil h
  rw [inside]
  split <;> rfl

theorem Joins.segmentsOn_join (h : Joins rules base name) :
    rules.segmentsOn (PathOn.join rules base name) = rules.segmentsOn base ++ [name] := by
  obtain ⟨front, -, hsplit, hfront⟩ :=
    @splitOn_inside_append name (rules.unify base) h.plain.2.2.2
  obtain ⟨hne, hdot, hup, -⟩ := h.plain
  rw [segmentsOn, h.unify_join, hsplit, List.foldl_append, hfront, List.foldl_cons, List.foldl_nil,
    pushSegment, if_neg (not_or.mpr ⟨hne, hdot⟩), if_neg hup]
  rfl

theorem Joins.lead_join (h : Joins rules base name) :
    rules.lead (PathOn.join rules base name) = rules.lead base := by
  rw [lead, h.unify_join, head?_inside h.nonempty, lead]

/-- The key of a path that goes on with a name goes on with the folded name. -/
theorem Joins.key_join (hfold : Segmental '/' (rules.fold host)) (h : Joins rules base name)
    (hkey : rules.key host base ≠ []) :
    rules.key host (PathOn.join rules base name) =
      inside (rules.key host base) ++ rules.fold host name := by
  have hlead : rules.lead base = ['/'] ∨ rules.lead base = [] := by
    rw [lead]
    split
    · exact .inl rfl
    · exact .inr rfl
  rw [key_eq_lead hfold] at hkey
  rw [key_eq_lead hfold, key_eq_lead hfold, h.segmentsOn_join, h.lead_join, List.map_append,
    inside_lead hlead (hfold.clean (clean_segmentsOn base)) hkey]
  rfl

/-! ## The folder of a path -/

theorem drive_slash (rest : List Char) : drive rules ('/' :: rest) = [] := by
  rcases drive_cases rules ('/' :: rest) with hnone | ⟨c, more, -, hslash, -, heq, -⟩
  · exact hnone
  · exact absurd (List.cons.inj heq).1.symm hslash

theorem drive_second {c d : Char} (hd : d ≠ ':') (rest : List Char) :
    drive rules (c :: d :: rest) = [] := by
  rcases drive_cases rules (c :: d :: rest) with hnone | ⟨c', more, -, -, -, heq, -⟩
  · exact hnone
  · exact absurd (List.cons.inj (List.cons.inj heq).2).1 hd

theorem drive_congr (c d : Char) (text rest : List Char) :
    drive rules (c :: d :: text) = drive rules (c :: d :: rest) := by
  by_cases hd : d = ':'
  · subst hd
    rfl
  · rw [drive_second hd, drive_second hd]

theorem drive_inside_append {text : List Char} (h : text ≠ []) (rest : List Char) :
    drive rules (inside text ++ rest) = drive rules text := by
  obtain ⟨c, text, rfl⟩ := List.exists_cons_of_ne_nil h
  cases text with
  | nil =>
      by_cases hc : c = '/'
      · subst hc
        rw [drive_slash []]
        exact drive_slash rest
      · have hinside : inside [c] = [c, '/'] := by
          rw [inside, if_neg (by simpa using hc)]
          rfl
        have hone : drive rules [c] = [] := by
          rcases drive_cases rules [c] with hnone | ⟨c', more, -, -, -, heq, -⟩
          · exact hnone
          · exact absurd (List.cons.inj heq).2 (by simp)
        rw [hinside, hone]
        exact drive_second (by decide) rest
  | cons d text =>
      have hinside : ∃ more, inside (c :: d :: text) ++ rest = c :: d :: more := by
        rw [inside]
        split
        · exact ⟨text ++ rest, rfl⟩
        · exact ⟨text ++ ['/'] ++ rest, rfl⟩
      obtain ⟨more, hmore⟩ := hinside
      rw [hmore]
      exact drive_congr c d more text

theorem flatMap_splitOn (text : List Char) :
    (text.splitOn '/').flatMap (· ++ ['/']) = text ++ ['/'] := by
  induction text with
  | nil => rfl
  | cons c text ih =>
      rw [List.splitOn_cons_eq_if_modifyHead]
      split
      · next hc =>
          rw [List.flatMap_cons, ih, beq_iff_eq.mp hc]
          rfl
      · cases hsplit : text.splitOn '/' with
        | nil => exact absurd hsplit (List.splitOn_ne_nil '/' text)
        | cons first rest =>
            rw [hsplit, List.flatMap_cons] at ih
            rw [List.modifyHead_cons, List.flatMap_cons, List.cons_append, List.cons_append, ih,
              List.cons_append]

/-- What a text that goes on with a name is made of after the drive. -/
theorem Joins.pieces_join (h : Joins rules base name) : ∃ front,
    pieces rules (PathOn.join rules base name) = front.splitOn '/' ++ [name] ∧
      drive rules (rules.unify base) ++ front ++ ['/'] = inside (rules.unify base) := by
  obtain ⟨whole, hwhole, -, -⟩ := @splitOn_inside_append name (rules.unify base) h.plain.2.2.2
  have hdrive : drive rules (rules.unify base) <+: whole := by
    rcases drive_cases rules (rules.unify base) with hnone | ⟨c, rest, -, -, -, htext, hdrive⟩
    · rw [hnone]
      exact List.nil_prefix
    · rw [hdrive]
      obtain ⟨tail, htail⟩ := prefix_inside (rules.unify base)
      rw [hwhole, htext] at htail
      have hprefix : [c, ':'] <+: whole ++ ['/'] := ⟨rest ++ tail, htail⟩
      -- the separator at the end is not the colon
      rcases List.prefix_concat_iff.mp hprefix with heq | hin
      · have hlast := congrArg List.getLast? heq
        rw [List.getLast?_concat] at hlast
        simp at hlast
      · exact hin
  obtain ⟨front, rfl⟩ := hdrive
  refine ⟨front, ?_, hwhole.symm⟩
  rw [pieces, h.unify_join, drive_inside_append h.nonempty, hwhole, List.append_assoc,
    List.append_assoc, List.drop_left, List.singleton_append, List.splitOn_append_cons_self,
    List.splitOn_eq_singleton h.plain.2.2.2]

theorem not_skipped_of_plain (h : Plain name) : skipped name = false := by
  rw [skipped, Bool.or_eq_false_iff, decide_eq_false_iff_not, decide_eq_false_iff_not]
  exact ⟨h.1, h.2.1⟩

theorem Joins.lastPiece_join (h : Joins rules base name) : ∃ before,
    lastPiece (pieces rules (PathOn.join rules base name)) = some (before, name) ∧
      drive rules (rules.unify base) ++ before.flatMap (· ++ ['/']) =
        inside (rules.unify base) := by
  obtain ⟨front, hpieces, hfront⟩ := h.pieces_join
  refine ⟨front.splitOn '/', ?_, ?_⟩
  · rw [hpieces]
    exact lastPiece_append (not_skipped_of_plain h.plain) fun _ hmem => absurd hmem List.not_mem_nil
  · rw [flatMap_splitOn, ← List.append_assoc, hfront]

theorem Joins.fileName_join (h : Joins rules base name) :
    fileName rules (PathOn.join rules base name) = some name := by
  obtain ⟨before, hlast, -⟩ := h.lastPiece_join
  rw [fileName, hlast, Option.bind_some, if_neg h.plain.2.2.1]

/-- What a path goes on from is the folder of the path that goes on. -/
theorem Joins.parent_join (h : Joins rules base name) : ∃ folder,
    parent rules (PathOn.join rules base name) = some folder ∧
      rules.same host folder base = true := by
  obtain ⟨before, hlast, hbefore⟩ := h.lastPiece_join
  have hdrive : drive rules (rules.unify (PathOn.join rules base name)) =
      drive rules (rules.unify base) := by
    rw [h.unify_join, drive_inside_append h.nonempty]
  refine ⟨.ofList (inside (rules.unify base)), ?_, ?_⟩
  · rw [parent, hlast, Option.elim_some, hdrive, hbefore]
  · have hback (hwindows : rules.windowsNames = true) : '\\' ∉ inside (rules.unify base) := by
      rw [inside]
      split
      · exact notMem_unify base hwindows
      · rw [List.mem_append, not_or]
        exact ⟨notMem_unify base hwindows, by decide⟩
    have hunify := unify_ofList_of_notMem hback
    obtain ⟨front, hfront, -, hsegments⟩ :=
      @splitOn_inside_append name (rules.unify base) h.plain.2.2.2
    have hsplit : ((inside (rules.unify base)).splitOn '/').foldl pushSegment [] =
        ((rules.unify base).splitOn '/').foldl pushSegment [] := by
      rw [hfront, List.splitOn_append_cons_self, List.splitOn_nil, List.foldl_append, hsegments]
      rfl
    have hhead := head?_inside h.nonempty []
    rw [List.append_nil] at hhead
    rw [same, decide_eq_true_eq, key, key, hunify, hsplit, hhead]

end

theorem lead_cases (rules : PathRules) (path : PathBuf) :
    rules.lead path = ['/'] ∨ rules.lead path = [] := by
  rw [lead]
  split
  · exact .inl rfl
  · exact .inr rfl

theorem foldl_pushSegment_name {before after : List (List Char)} {name : List Char}
    (hplain : Plain name) (hafter : ∀ piece ∈ after, skipped piece = true) :
    (before ++ name :: after).foldl pushSegment [] = before.foldl pushSegment [] ++ [name] := by
  obtain ⟨hne, hdot, hup, -⟩ := hplain
  rw [List.foldl_append, List.foldl_cons, pushSegment, if_neg (not_or.mpr ⟨hne, hdot⟩), if_neg hup,
    foldl_pushSegment_skipped hafter]

/-- A path with one component has no separator in its key. -/
theorem notMem_key_of_single (hfold : Segmental '/' (rules.fold host)) {path : PathBuf}
    {name : List Char} {after : List (List Char)} (hplain : Plain name)
    (hpieces : pieces rules path = name :: after)
    (hafter : ∀ piece ∈ after, skipped piece = true) : '/' ∉ rules.key host path := by
  have hlead : rules.lead path = [] := by
    refine (lead_cases rules path).resolve_left fun hroot => ?_
    rw [lead] at hroot
    split at hroot
    · next hhead =>
        obtain ⟨text, htext⟩ := List.head?_eq_some_iff.mp hhead
        rw [pieces, htext, drive_slash] at hpieces
        have hsplit : ('/' :: text).splitOn '/' = [] :: text.splitOn '/' :=
          List.splitOn_append_cons_self [] text
        rw [List.length_nil, List.drop_zero, hsplit] at hpieces
        exact hplain.1 (List.cons.inj hpieces).1.symm
    · cases hroot
  have hslash : '/' ∉ drive rules (rules.unify path) ++ name := by
    rw [List.mem_append, not_or]
    exact ⟨notMem_drive rules _, hplain.2.2.2⟩
  rw [key_eq_lead hfold, hlead, List.nil_append, segmentsOn, splitOn_unify, hpieces,
    List.modifyHead_cons, List.foldl_cons, foldl_pushSegment_skipped hafter, pushSegment]
  split_ifs
  · exact List.not_mem_nil
  · exact List.not_mem_nil
  · rw [List.nil_append, List.map_singleton, Joined.joined_singleton]
    exact hfold.notMem _ hslash

/-- The key of a path goes on from that of its folder with the folded name, unless it has no
separator. -/
theorem key_of_fileName (hfold : Segmental '/' (rules.fold host)) {path : PathBuf}
    {name : List Char} (h : fileName rules path = some name) :
    ∃ folder, parent rules path = some folder ∧ (rules.key host folder ≠ [] ∧
      rules.key host path = inside (rules.key host folder) ++ rules.fold host name ∨
        '/' ∉ rules.key host path) := by
  have hplain := plain_of_fileName h
  obtain ⟨-, -, before, after, hpieces, hafter, hparent⟩ := exists_of_fileName h
  refine ⟨_, hparent, ?_⟩
  cases before with
  | nil => exact .inr (notMem_key_of_single hfold hplain hpieces hafter)
  | cons first before =>
      obtain ⟨folder, hfolder⟩ : ∃ folder : PathBuf, folder = .ofList
          (drive rules (rules.unify path) ++ (first :: before).flatMap (· ++ ['/'])) := ⟨_, rfl⟩
      rw [← hfolder]
      have hmem {piece : List Char} (hpiece : piece ∈ first :: before) :
          piece ∈ pieces rules path := by
        rw [hpieces]
        exact List.mem_append_left _ hpiece
      have hunify : rules.unify folder =
          drive rules (rules.unify path) ++ (first :: before).flatMap (· ++ ['/']) := by
        rw [hfolder]
        refine unify_ofList_of_notMem fun hwindows hback => ?_
        rcases List.mem_append.mp hback with hback | hback
        · refine notMem_unify path hwindows ?_
          rw [← drive_append_drop rules (rules.unify path)]
          exact List.mem_append_left _ hback
        · obtain ⟨piece, hpiece, hin⟩ := List.mem_flatMap.mp hback
          rcases List.mem_append.mp hin with hin | hin
          · exact notMem_backslash (hmem hpiece) hwindows hin
          · exact absurd hin (by decide)
      have hsegments : rules.segmentsOn path = rules.segmentsOn folder ++ [name] := by
        rw [segmentsOn, splitOn_unify, hpieces, List.cons_append, List.modifyHead_cons,
          ← List.cons_append, foldl_pushSegment_name hplain hafter, segmentsOn, hunify,
          splitOn_append_of_notMem (notMem_drive rules _),
          splitOn_flatMap _ fun piece hpiece => notMem_of_mem_pieces (hmem hpiece),
          List.cons_append, List.modifyHead_cons, ← List.cons_append, List.foldl_append]
        rfl
      have hlead : rules.lead path = rules.lead folder := by
        have htext : rules.unify path ++ ['/'] =
            rules.unify folder ++ (name :: after).flatMap (· ++ ['/']) := by
          rw [hunify, List.append_assoc, ← List.flatMap_append, ← hpieces, pieces, flatMap_splitOn,
            ← List.append_assoc, drive_append_drop]
        have hne : rules.unify path ≠ [] := by
          intro hnil
          have hlength := congrArg List.length hpieces
          rw [pieces, hnil, List.drop_nil, List.splitOn_nil] at hlength
          simp at hlength
        have hne' : rules.unify folder ≠ [] := by
          rw [hunify, List.flatMap_cons]
          simp
        have hhead := congrArg List.head? htext
        rw [List.head?_append_of_ne_nil _ hne, List.head?_append_of_ne_nil _ hne'] at hhead
        rw [lead, lead, hhead]
      by_cases hnil : rules.key host folder = []
      · right
        rw [key_eq_lead hfold, List.append_eq_nil_iff] at hnil
        have hnames : rules.segmentsOn folder = [] := by
          by_contra hne
          refine Joined.joined_ne_nil (hfold.clean (clean_segmentsOn folder)) ?_ hnil.2
          rwa [Ne, List.map_eq_nil_iff]
        rw [key_eq_lead hfold, hsegments, hlead, hnil.1, hnames, List.nil_append, List.nil_append,
          List.map_singleton, Joined.joined_singleton]
        exact hfold.notMem _ hplain.2.2.2
      · refine .inl ⟨hnil, ?_⟩
        rw [key_eq_lead hfold] at hnil
        rw [key_eq_lead hfold, key_eq_lead hfold folder, hsegments, hlead, List.map_append,
          inside_lead (lead_cases rules folder) (hfold.clean (clean_segmentsOn folder)) hnil]
        rfl

/-! ## The ends of keys -/

/-- Only the key of the root ends with a separator. -/
theorem key_eq_root (hfold : Segmental '/' (rules.fold host)) {path : PathBuf}
    (h : (rules.key host path).getLast? = some '/') : rules.key host path = ['/'] := by
  have hclean := hfold.clean (@clean_segmentsOn rules path)
  rw [key_eq_lead hfold] at h ⊢
  by_cases hnil : (rules.segmentsOn path).map (rules.fold host) = []
  · rw [hnil, Joined.joined_nil, List.append_nil] at h ⊢
    rcases lead_cases rules path with hlead | hlead
    · exact hlead
    · rw [hlead] at h
      cases h
  · rw [List.getLast?_append_of_ne_nil _ (Joined.joined_ne_nil hclean hnil)] at h
    exact absurd h (Joined.getLast?_joined hclean)

theorem inside_key_inj (hfold : Segmental '/' (rules.fold host)) {a b : PathBuf}
    (ha : rules.key host a ≠ []) (hb : rules.key host b ≠ [])
    (h : inside (rules.key host a) = inside (rules.key host b)) :
    rules.key host a = rules.key host b := by
  rw [inside, inside] at h
  split at h
  · next hlast =>
      split at h
      · exact h
      · rw [key_eq_root hfold hlast] at h
        have hlength := congrArg List.length h
        have hpos := List.length_pos_iff.mpr hb
        rw [List.length_append, List.length_singleton] at hlength
        omega
  · split at h
    · next hlast =>
        rw [key_eq_root hfold hlast] at h
        have hlength := congrArg List.length h
        have hpos := List.length_pos_iff.mpr ha
        rw [List.length_append, List.length_singleton] at hlength
        omega
    · exact List.append_cancel_right h

/-- The key of a path with a file name ends with the name. -/
theorem getLast?_key_of_fileName (hfold : Segmental '/' (rules.fold host)) {path : PathBuf}
    {name : List Char} (h : fileName rules path = some name) :
    (rules.key host path).getLast? ≠ some '/' := by
  have hplain := plain_of_fileName h
  obtain ⟨folder, -, ⟨-, hkey⟩ | hkey⟩ := key_of_fileName hfold h
  · rw [hkey, List.getLast?_append_of_ne_nil _ (hfold.ne_nil _ hplain.1)]
    exact fun hlast => hfold.notMem _ hplain.2.2.2 (List.mem_of_getLast? hlast)
  · exact fun hlast => hkey (List.mem_of_getLast? hlast)

end PathRules

end Throng
