import Mathlib.Data.List.Nodup
import Mathlib.Data.List.Pairwise
import Throng.Core.Project

/-!
# Project roots never overlap

Every operation that gives a project a root checks it against the other projects' roots,
by the keys of the paths. A path with an empty key is within nothing and around nothing:
so the check lets any number of projects have such a root.
-/

namespace Throng

namespace ProjectBook

variable {rules : PathRules} {host : Host} {book book' : ProjectBook}

/-! ## The operations -/

theorem not_overlaps_of_assert {candidate : PathBuf} {existing : List Project}
    {selfId : Option ProjectId}
    (h : assertFolderExclusive rules host candidate existing selfId = .ok ()) {p : Project}
    (hp : p ∈ existing) (hself : some p.id ≠ selfId) :
    rules.overlaps host candidate p.root = false := by
  induction existing with
  | nil => cases hp
  | cons project existing ih =>
      rw [assertFolderExclusive] at h
      split_ifs at h with hskip hoverlap
      · rcases List.mem_cons.mp hp with rfl | hp
        · exact absurd hskip hself
        · exact ih h hp
      · rcases List.mem_cons.mp hp with rfl | hp
        · exact Bool.eq_false_iff.mpr hoverlap
        · exact ih h hp

/-- Ids being distinct, the first project with an id is the only one. -/
theorem modify_eq_map {id : ProjectId} {f : Project → Project} {projects : List Project}
    (h : (projects.map Project.id).Nodup) :
    modify id f projects = projects.map fun p => if p.id = id then f p else p := by
  induction projects with
  | nil => rfl
  | cons project projects ih =>
      rw [List.map_cons, List.nodup_cons] at h
      rw [modify, List.map_cons]
      split_ifs with hid
      · congr 1
        refine (List.map_id projects).symm.trans (List.map_congr_left fun p hp => ?_)
        rw [if_neg, id_eq]
        rintro rfl
        exact h.1 (hid ▸ List.mem_map_of_mem hp)
      · rw [ih h.2]

theorem answered_refused {α : Type} {result : ProjectBook × Except ProjectError α}
    {reason : ProjectError} (hleft : ∀ reason, result.2 = .error reason → result.1 = book)
    (h : (act.answered result).2 = some reason) : (act.answered result).1 = book := by
  rw [act.answered] at h ⊢
  split at h
  · cases h
  next reason' hres => exact hleft reason' hres

theorem create_refused {input : ProjectInput} {now : Int} {id : ProjectId} (reason : ProjectError)
    (h : (book.create rules host input now id).2 = .error reason) :
    (book.create rules host input now id).1 = book := by
  rw [create] at h ⊢
  split at h
  · rfl
  · split at h
    · rfl
    · cases h

theorem update_refused {id : ProjectId} {input : ProjectInput} {now : Int} (reason : ProjectError)
    (h : (book.update rules host id input now).2 = .error reason) :
    (book.update rules host id input now).1 = book := by
  rw [update] at h ⊢
  split at h
  · rfl
  · split at h
    · rfl
    · split at h
      · rfl
      · cases h

theorem setHidden_refused {id : ProjectId} {hidden : List String} {now : Int}
    (reason : ProjectError) (h : (book.setHidden id hidden now).2 = .error reason) :
    (book.setHidden id hidden now).1 = book := by
  rw [setHidden] at h ⊢
  split at h
  · rfl
  · cases h

theorem setActive_refused {id : ProjectId} (reason : ProjectError)
    (h : (book.setActive id).2 = .error reason) : (book.setActive id).1 = book := by
  rw [setActive] at h ⊢
  split_ifs at h ⊢
  rfl

theorem delete_refused {id : ProjectId} (reason : ProjectError)
    (h : (book.delete id).2 = .error reason) : (book.delete id).1 = book := by
  rw [delete] at h ⊢
  split at h
  · rfl
  · split at h
    · rfl
    · cases h

theorem reorder_refused {id : ProjectId} {dest : Nat} (reason : ProjectError)
    (h : (book.reorder id dest).2 = .error reason) : (book.reorder id dest).1 = book := by
  rw [reorder] at h ⊢
  split at h
  · rfl
  · split at h
    · rfl
    · cases h

/-- A refused operation leaves the book as it was. -/
theorem act_refused {action : Action} {reason : ProjectError}
    (h : (book.act rules host action).2 = some reason) :
    (book.act rules host action).1 = book := by
  cases action with
  | create input now id => exact answered_refused create_refused h
  | update id input now => exact answered_refused update_refused h
  | setHidden id hidden now => exact answered_refused setHidden_refused h
  | setActive id => exact answered_refused setActive_refused h
  | delete id => exact answered_refused delete_refused h
  | reorder id dest => exact answered_refused reorder_refused h

/-! ## The roots stay apart -/

/-- Neither root is the other, nor within it. -/
def Apart (rules : PathRules) (host : Host) (a b : PathBuf) : Prop :=
  rules.same host a b = false ∧ rules.isWithin host a b = false ∧ rules.isWithin host b a = false

theorem Apart.symm {a b : PathBuf} (h : Apart rules host a b) : Apart rules host b a := by
  obtain ⟨hsame, hab, hba⟩ := h
  refine ⟨?_, hba, hab⟩
  rw [PathRules.same, decide_eq_false_iff_not] at hsame ⊢
  exact fun heq => hsame heq.symm

/-- A root that passes the check is apart from a root, unless both have no key. -/
theorem apart_of_not_overlaps {a b : PathBuf} (h : rules.overlaps host a b = false)
    (hkey : rules.key host a = [] → rules.key host b ≠ []) : Apart rules host a b := by
  obtain ⟨hab, hba⟩ := Bool.or_eq_false_iff.mp h
  refine ⟨Bool.eq_false_iff.mpr fun hsame => ?_, hab, hba⟩
  have hne : rules.key host a ≠ [] := by
    intro hnil
    rw [PathRules.same, decide_eq_true_eq] at hsame
    exact hkey hnil (hsame ▸ hnil)
  rw [PathRules.overlaps_of_same hsame hne] at h
  cases h

/-- The root an action gives a project, and the project, if it is an old one. -/
def rootGiven (host : Host) : Action → Option (PathBuf × Option ProjectId)
  | .create input _ _ => (validateInput host input).toOption.map fun valid => (valid.root, none)
  | .update id input _ => (validateInput host input).toOption.map fun valid => (valid.root, some id)
  | _ => none

/-- The action gives no project a root with an empty key, unless every other project's root
has a key. -/
def Keyed (rules : PathRules) (host : Host) (book : ProjectBook) (action : Action) : Prop :=
  ∀ given ∈ rootGiven host action, rules.key host given.1 = [] →
    ∀ project ∈ book.projects, some project.id ≠ given.2 → rules.key host project.root ≠ []

instance : DecidableRel (Keyed rules host) := fun book action => by
  unfold Keyed
  exact inferInstance

structure Inv (rules : PathRules) (host : Host) (book : ProjectBook) : Prop where
  apart : book.projects.Pairwise fun p q => Apart rules host p.root q.root
  nodup : (book.projects.map Project.id).Nodup
  active : ∀ id ∈ book.active, id ∈ book.projects.map Project.id

instance : Std.Symm fun p q : Project => Apart rules host p.root q.root :=
  ⟨fun _ _ => Apart.symm⟩

theorem inv_empty : Inv rules host empty := by
  refine ⟨List.Pairwise.nil, List.nodup_nil, ?_⟩
  rintro id ⟨⟩

/-- A book with the same projects in another order. -/
theorem Inv.perm (hi : Inv rules host book) {projects : List Project}
    (hperm : projects.Perm book.projects) : Inv rules host { book with projects } where
  apart := (hperm.pairwise_iff (fun {_ _} => Apart.symm)).mpr hi.apart
  nodup := (hperm.map Project.id).nodup_iff.mpr hi.nodup
  active id hid := (hperm.map Project.id).mem_iff.mpr (hi.active id hid)

/-- A project is edited in a way that leaves the roots apart. -/
theorem Inv.modify (hi : Inv rules host book) {id : ProjectId} {f : Project → Project}
    (hid : ∀ p, (f p).id = p.id)
    (hapart : ∀ p ∈ book.projects, ∀ q ∈ book.projects, p.id = id → q.id ≠ id →
      Apart rules host (f p).root q.root) :
    Inv rules host { book with projects := ProjectBook.modify id f book.projects } := by
  have hids : (ProjectBook.modify id f book.projects).map Project.id =
      book.projects.map Project.id := by
    rw [modify_eq_map hi.nodup, List.map_map]
    refine List.map_congr_left fun p _ => ?_
    rw [Function.comp_apply]
    split_ifs
    · exact hid p
    · rfl
  refine ⟨?_, ?_, ?_⟩
  · rw [modify_eq_map hi.nodup, List.pairwise_map]
    have hboth := hi.apart.and (List.pairwise_map.mp hi.nodup)
    refine hboth.imp_of_mem fun {p q} hp hq h => ?_
    obtain ⟨hpq, hne⟩ := h
    split_ifs with hpid hqid hqid
    · exact absurd (hpid.trans hqid.symm) hne
    · exact hapart p hp q hq hpid hqid
    · exact (hapart q hq p hp hqid hpid).symm
    · exact hpq
  · rw [hids]
    exact hi.nodup
  · rw [hids]
    exact hi.active

/-- What a create or update that passes its check knows of its root. -/
theorem apart_of_assert {root : PathBuf} {selfId : Option ProjectId} {p : Project}
    (hassert : assertFolderExclusive rules host root book.projects selfId = .ok ())
    (hkeyed : rules.key host root = [] → ∀ project ∈ book.projects, some project.id ≠ selfId →
      rules.key host project.root ≠ [])
    (hp : p ∈ book.projects) (hself : some p.id ≠ selfId) : Apart rules host root p.root :=
  apart_of_not_overlaps (not_overlaps_of_assert hassert hp hself)
    fun hnil => hkeyed hnil p hp hself

theorem inv_create (hi : Inv rules host book) {input : ProjectInput} {now : Int} {id : ProjectId}
    (hfresh : book.fresh (.create input now id) = true)
    (hok : Keyed rules host book (.create input now id)) :
    Inv rules host (book.create rules host input now id).1 := by
  have hnew : id ∉ book.projects.map Project.id := by
    rw [fresh, Bool.not_eq_true', Bool.eq_false_iff] at hfresh
    exact fun hmem => hfresh (List.contains_iff_mem.mpr hmem)
  rw [create]
  split
  · exact hi
  next valid hvalid =>
    split
    · exact hi
    next hassert =>
      have hgiven : (valid.root, none) ∈ rootGiven host (.create input now id) := by
        rw [rootGiven, hvalid]
        rfl
      have hkeyed := hok _ hgiven
      refine ⟨?_, ?_, ?_⟩
      · refine List.pairwise_append.mpr ⟨hi.apart, List.pairwise_singleton _ _, ?_⟩
        intro p hp q hq
        rw [List.mem_singleton] at hq
        subst hq
        exact (apart_of_assert hassert hkeyed hp (Option.some_ne_none _)).symm
      · rw [List.map_append]
        refine List.Nodup.append hi.nodup (List.nodup_singleton _) ?_
        exact List.disjoint_singleton.mpr hnew
      · intro active hactive
        rw [List.map_append, List.mem_append]
        dsimp only at hactive
        split_ifs at hactive
        · rw [Option.mem_some_iff] at hactive
          exact .inr (List.mem_singleton.mpr hactive.symm)
        · exact .inl (hi.active active hactive)

theorem inv_update (hi : Inv rules host book) {id : ProjectId} {input : ProjectInput} {now : Int}
    (hok : Keyed rules host book (.update id input now)) :
    Inv rules host (book.update rules host id input now).1 := by
  rw [update]
  split
  · exact hi
  next valid hvalid =>
    split
    · exact hi
    next hassert =>
      split
      · exact hi
      · have hgiven : (valid.root, some id) ∈ rootGiven host (.update id input now) := by
          rw [rootGiven, hvalid]
          rfl
        have hkeyed := hok _ hgiven
        refine hi.modify (fun p => rfl) fun p hp q hq _ hqid => ?_
        exact apart_of_assert hassert hkeyed hq fun h => hqid (Option.some.inj h)

theorem inv_setHidden (hi : Inv rules host book) {id : ProjectId} {hidden : List String}
    {now : Int} : Inv rules host (book.setHidden id hidden now).1 := by
  rw [setHidden]
  split
  · exact hi
  · refine hi.modify (fun p => rfl) fun p hp q hq hpid hqid => ?_
    refine hi.apart.forall hp hq ?_
    rintro rfl
    exact hqid hpid

theorem inv_setActive (hi : Inv rules host book) {id : ProjectId} :
    Inv rules host (book.setActive id).1 := by
  rw [setActive]
  split_ifs with hnone
  · exact hi
  · refine ⟨hi.apart, hi.nodup, fun active hactive => ?_⟩
    rw [Option.isNone_iff_eq_none, ← Ne, Option.ne_none_iff_exists'] at hnone
    obtain ⟨project, hproject⟩ := hnone
    rw [Option.mem_some_iff] at hactive
    rw [get] at hproject
    have hid := List.find?_some hproject
    rw [decide_eq_true_eq] at hid
    rw [← hactive, ← hid]
    exact List.mem_map_of_mem (List.mem_of_find?_eq_some hproject)

theorem inv_delete (hi : Inv rules host book) {id : ProjectId} :
    Inv rules host (book.delete id).1 := by
  rw [delete]
  split
  · exact hi
  next index hindex =>
    split
    · exact hi
    next removed hremoved =>
      obtain ⟨hlt, hremoved⟩ := List.getElem?_eq_some_iff.mp hremoved
      have hid : removed.id = id := by
        obtain ⟨_, hfound, -⟩ := List.findIdx?_eq_some_iff_getElem.mp hindex
        rw [hremoved] at hfound
        exact of_decide_eq_true hfound
      have hsub : (book.projects.eraseIdx index).Sublist book.projects :=
        List.eraseIdx_sublist _ _
      refine ⟨hi.apart.sublist hsub, hi.nodup.sublist (hsub.map Project.id), ?_⟩
      intro active hactive
      dsimp only at hactive
      split_ifs at hactive with hwas
      · obtain ⟨first, hfirst, rfl⟩ := Option.mem_map.mp hactive
        exact List.mem_map_of_mem (List.mem_of_mem_head? hfirst)
      · obtain ⟨p, hp, rfl⟩ := List.mem_map.mp (hi.active active hactive)
        refine List.mem_map_of_mem ((List.mem_eraseIdx_iff_getElem?).mpr ?_)
        obtain ⟨k, hk⟩ := List.getElem?_of_mem hp
        refine ⟨k, fun hki => hwas ?_, hk⟩
        rw [hki, List.getElem?_eq_getElem hlt, Option.some.injEq, hremoved] at hk
        rw [← hid, hk]
        exact hactive

theorem inv_reorder (hi : Inv rules host book) {id : ProjectId} {dest : Nat} :
    Inv rules host (book.reorder id dest).1 := by
  rw [reorder]
  split
  · exact hi
  next index hindex =>
    split
    · exact hi
    next project hproject =>
      refine hi.perm ?_
      obtain ⟨hlt, hproject⟩ := List.getElem?_eq_some_iff.mp hproject
      have hle : min dest (book.projects.eraseIdx index).length ≤
          (book.projects.eraseIdx index).length := Nat.min_le_right _ _
      refine (List.perm_insertIdx _ _ hle).trans ?_
      rw [← hproject]
      exact List.getElem_cons_eraseIdx_perm hlt

theorem act_eq_fst {α : Type} (result : ProjectBook × Except ProjectError α) :
    (act.answered result).1 = result.1 := by
  rw [act.answered]
  split <;> rfl

theorem inv_act (hi : Inv rules host book) {action : Action} (hfresh : book.fresh action = true)
    (hok : Keyed rules host book action) : Inv rules host (book.act rules host action).1 := by
  cases action with
  | create input now id =>
      rw [act, act_eq_fst]
      exact inv_create hi hfresh hok
  | update id input now =>
      rw [act, act_eq_fst]
      exact inv_update hi hok
  | setHidden id hidden now =>
      rw [act, act_eq_fst]
      exact inv_setHidden hi
  | setActive id =>
      rw [act, act_eq_fst]
      exact inv_setActive hi
  | delete id =>
      rw [act, act_eq_fst]
      exact inv_delete hi
  | reorder id dest =>
      rw [act, act_eq_fst]
      exact inv_reorder hi

theorem inv_of_reach (h : (machine rules host).Reach (Keyed rules host) book) :
    Inv rules host book := by
  refine h.invariant (fun s hs => ?_) fun s action s' hi hok hstep => ?_
  · rw [hs]
    exact inv_empty
  · rw [machine] at hstep
    dsimp only at hstep
    split_ifs at hstep with hfresh
    rw [Option.some.injEq] at hstep
    rw [← hstep]
    exact inv_act hi hfresh hok

/-! ## What a book promises -/

structure Exclusive (rules : PathRules) (host : Host) (book : ProjectBook) : Prop where
  apart : book.projects.Pairwise fun p q => Apart rules host p.root q.root
  active : ∀ id ∈ book.active, (book.get id).isSome = true
  refused : ∀ action reason, (book.act rules host action).2 = some reason →
    (book.act rules host action).1 = book
  owner : ∀ path, ∀ p ∈ book.projects, ∀ q ∈ book.projects,
    rules.isWithin host p.root path = true → rules.isWithin host q.root path = true → p = q

/-- As long as no two projects are given roots with an empty key, in every book reached the
roots are apart, the active project exists, a refused operation changes nothing, and a path
has at most one owner. -/
theorem exclusive_of_keyed (rules : PathRules) (host : Host) (book : ProjectBook)
    (h : (machine rules host).Reach (Keyed rules host) book) :
    Exclusive rules host book := by
  have hi := inv_of_reach h
  refine ⟨hi.apart, fun id hid => ?_, fun action reason => act_refused, ?_⟩
  · obtain ⟨p, hp, hpid⟩ := List.mem_map.mp (hi.active id hid)
    rw [get, List.find?_isSome]
    exact ⟨p, hp, decide_eq_true hpid⟩
  · intro path p hp q hq hwithin hwithin'
    by_contra hne
    obtain ⟨-, hpq, hqp⟩ := hi.apart.forall hp hq hne
    have hoverlap := PathRules.overlaps_of_isWithin hwithin hwithin'
    rw [PathRules.overlaps, hpq, hqp] at hoverlap
    cases hoverlap

/-- A host whose absolute paths are those `isAbsolute` tells, and which folds ASCII names. -/
def asciiHost (isAbsolute : PathBuf → Bool) : Host where
  isAbsolute
  nfc name := name
  lowercase name := name.map Char.toLower

/-- Slashed paths are absolute. -/
def slashHost : Host := asciiHost fun path => path.toList.head? = some '/'

/-- Paths with a drive and a separator are absolute. -/
def driveHost : Host :=
  asciiHost fun path =>
    match path.toList with
    | drive :: ':' :: separator :: _ => drive.isAlpha && (separator = '\\' || separator = '/')
    | _ => false

/-- Two projects, the first of them moved and then refused the second one's folder. -/
theorem exclusive_of_keyed_two :
    ∃ book : ProjectBook, Exclusive .macos slashHost book ∧
      (book.projects.length = 2 ∧
        (book.ownerOf .macos slashHost "/Work/APP/src").isSome = true) := by
  obtain ⟨book, hreach, hbook⟩ := (Machine.Reach.init rfl :
    (machine .macos slashHost).Reach (Keyed .macos slashHost) empty).exists_of_exec
      [.create ⟨"One", "#abc", "/work"⟩ 0 ⟨1⟩, .update ⟨1⟩ ⟨"One", "#abc", "/home/one"⟩ 1,
        .create ⟨"Two", "#102030", "/work/app"⟩ 2 ⟨2⟩,
        .update ⟨1⟩ ⟨"One", "#abc", "/WORK"⟩ 3]
      (fun book => decide (book.projects.length = 2 ∧
        (book.ownerOf .macos slashHost "/Work/APP/src").isSome = true))
      (by decide +kernel)
  exact ⟨book, exclusive_of_keyed _ _ _ hreach, of_decide_eq_true hbook⟩

/-- `C:\..` has an empty key under the rules for Windows names: two projects may have it. -/
theorem not_exclusive :
    ¬ ∀ (rules : PathRules) (host : Host) (book : ProjectBook),
      (machine rules host).Reach Machine.anyStep book → Exclusive rules host book := by
  intro h
  obtain ⟨book, hreach, hbook⟩ := (Machine.Reach.init rfl :
    (machine .windows driveHost).Reach Machine.anyStep empty).exists_of_exec
      [.create ⟨"One", "#abc", "C:\\.."⟩ 0 ⟨1⟩, .create ⟨"Two", "#abc", "C:\\.."⟩ 0 ⟨2⟩]
      (fun book => !decide (book.projects.Pairwise fun p q =>
        PathRules.windows.same driveHost p.root q.root = false))
      (by decide +kernel)
  have hapart : book.projects.Pairwise fun p q =>
      PathRules.windows.same driveHost p.root q.root = false :=
    (h _ _ _ hreach).apart.imp fun h => h.1
  rw [decide_eq_true hapart] at hbook
  cases hbook

end ProjectBook

end Throng
