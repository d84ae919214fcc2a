import Throng.App.Projects
import Throng.Persistence.StoreRows

/-!
# The store has what the app shows

In a run in which no write fails, a new start finds the projects as they were left: the same ones,
in the same order, with the same one active. And whatever writes fail, a row that this build cannot
read stays as it is.
-/

namespace Throng

namespace Shelf

open ProjectStore

variable {texts : Texts} {rules : PathRules} {host : Host} {store start : ProjectStore}
  {ids : List ProjectId} {projects : List Project} {rows : List ProjectRow} {p q : Project}
  {id : ProjectId} {n : Nat} {shelf : Shelf}

/-! ## What every write keeps -/

/-- The rows have distinct ids, the readable ones written as ids are, and no row of a project that
the app has is unreadable. -/
structure Kept (texts : Texts) (ids : List ProjectId) (rows : List ProjectRow) : Prop where
  keys : (rows.map ProjectRow.id).Nodup
  distinct : ids.Nodup
  canonical : ∀ row ∈ rows, ∀ p, readRow texts row = .ok p → row.id = texts.idText p.id
  readable : ∀ id ∈ ids, ∀ row ∈ rows, row.id = texts.idText id →
    (readRow texts row).toBool = true

theorem Kept.subset {ids' : List ProjectId} (h : Kept texts ids rows) (hdistinct : ids'.Nodup)
    (hsub : ids' ⊆ ids) : Kept texts ids' rows where
  keys := h.keys
  distinct := hdistinct
  canonical := h.canonical
  readable id hid := h.readable id (hsub hid)

theorem Kept.append (h : Kept texts ids rows) (hid : id ∉ ids)
    (hrows : texts.idText id ∉ rows.map ProjectRow.id) : Kept texts (ids ++ [id]) rows where
  keys := h.keys
  distinct := h.distinct.append (List.nodup_singleton _) (List.disjoint_singleton.2 hid)
  canonical := h.canonical
  readable := by
    intro other hother row hrow hrowid
    rcases List.mem_append.1 hother with hother | hother
    · exact h.readable other hother row hrow hrowid
    · rw [List.mem_singleton.1 hother] at hrowid
      exact absurd (List.mem_map.2 ⟨row, hrow, hrowid⟩) hrows

theorem Kept.upsertProject (h : Kept texts ids store.projectRows) (htexts : texts.Lawful) :
    Kept texts ids (store.upsertProject texts p n).projectRows where
  keys := keys_upsertProject h.keys
  distinct := h.distinct
  canonical := by
    intro row hrow q hread
    rcases (mem_upsertProject h.keys).1 hrow with ⟨hrow, -⟩ | ⟨old, -, -, rfl⟩ | ⟨-, rfl⟩
    · exact h.canonical row hrow q hread
    · rw [readRow_createdAt htexts] at hread
      cases hread
      rfl
    · rw [readRow_rowFor htexts] at hread
      cases hread
      rfl
  readable := by
    intro id hid row hrow hrowid
    rcases (mem_upsertProject h.keys).1 hrow with ⟨hrow, -⟩ | ⟨old, -, -, rfl⟩ | ⟨-, rfl⟩
    · exact h.readable id hid row hrow hrowid
    · rw [readRow_createdAt htexts]
      rfl
    · rw [readRow_rowFor htexts]
      rfl

theorem Kept.setPositions {ordered : List ProjectId} (h : Kept texts ids store.projectRows)
    (htexts : texts.Lawful) (hordered : ordered.Nodup) :
    Kept texts ids (store.setPositions texts ordered).projectRows := by
  rw [setPositions_rows htexts hordered]
  refine ⟨?_, h.distinct, ?_, ?_⟩
  · rw [List.map_map]
    have hid : ProjectRow.id ∘ placed texts ordered.zipIdx = ProjectRow.id :=
      funext fun row => placed_id _
    rw [hid]
    exact h.keys
  · intro row hrow p hread
    obtain ⟨old, hold, rfl⟩ := List.mem_map.1 hrow
    rw [readRow_placed] at hread
    rw [placed_id]
    exact h.canonical old hold p hread
  · intro id hid row hrow hrowid
    obtain ⟨old, hold, rfl⟩ := List.mem_map.1 hrow
    rw [readRow_placed]
    rw [placed_id] at hrowid
    exact h.readable id hid old hold hrowid

theorem Kept.deleteProject (h : Kept texts ids store.projectRows) (id : ProjectId) :
    Kept texts ids (store.deleteProject texts id).projectRows where
  keys := h.keys.sublist (List.filter_sublist.map _)
  distinct := h.distinct
  canonical row hrow := h.canonical row (List.mem_filter.1 hrow).1
  readable id hid row hrow := h.readable id hid row (List.mem_filter.1 hrow).1

/-- A write that is about some of the projects only. -/
def Ours (ids : List ProjectId) : StoreWrite → Prop
  | .upsertProject project _ => project.id ∈ ids
  | .setPositions ordered => ordered.Nodup ∧ ordered ⊆ ids
  | .deleteProject id => id ∈ ids
  | .setState _ _ => True

theorem Kept.apply {write : StoreWrite} (h : Kept texts ids store.projectRows)
    (htexts : texts.Lawful) (hours : Ours ids write) :
    Kept texts ids (write.apply texts store).projectRows ∧
      unreadable texts (write.apply texts store).projectRows =
        unreadable texts store.projectRows := by
  cases write with
  | upsertProject project position =>
      exact ⟨h.upsertProject htexts,
        unreadable_upsertProject htexts h.keys (h.readable _ hours)⟩
  | setPositions ordered =>
      exact ⟨h.setPositions htexts hours.1,
        unreadable_setPositions htexts hours.1 fun id hid => h.readable id (hours.2 hid)⟩
  | deleteProject id =>
      exact ⟨h.deleteProject id, unreadable_deleteProject (h.readable id hours)⟩
  | setState key value =>
      cases value with
      | none => exact ⟨h, rfl⟩
      | some value => exact ⟨h, rfl⟩

theorem Kept.carry {failed writes : List StoreWrite}
    (h : Kept texts ids store.projectRows) (htexts : texts.Lawful)
    (hours : ∀ write ∈ writes, Ours ids write) :
    Kept texts ids (carry texts failed store writes).projectRows ∧
      unreadable texts (carry texts failed store writes).projectRows =
        unreadable texts store.projectRows := by
  induction writes generalizing store with
  | nil => exact ⟨h, rfl⟩
  | cons write writes ih =>
      have hrest : ∀ write ∈ writes, Ours ids write :=
        fun write hwrite => hours write (List.mem_cons_of_mem _ hwrite)
      rw [Shelf.carry, List.foldl_cons]
      split
      · exact ih h hrest
      · obtain ⟨hkept, hsame⟩ := h.apply htexts (hours write List.mem_cons_self)
        obtain ⟨hkept', hsame'⟩ := ih hkept hrest
        exact ⟨hkept', hsame'.trans hsame⟩

/-! ## What is done to the projects -/

variable {book book' : ProjectBook}

theorem id_of_get (h : book.get id = some p) : p.id = id := by
  rw [ProjectBook.get] at h
  have hfound := List.find?_some h
  rwa [decide_eq_true_eq] at hfound

theorem modify_eq_set (f : Project → Project) (h : projects.find? (fun p => p.id = id) = some p) :
    ∃ i : Nat, projects[i]? = some p ∧ ProjectBook.modify id f projects = projects.set i (f p) := by
  induction projects with
  | nil => cases h
  | cons q projects ih =>
      rw [List.find?_cons] at h
      rw [ProjectBook.modify]
      split at h
      · next hq =>
          cases h
          exact ⟨0, rfl, if_pos (of_decide_eq_true hq)⟩
      · next hq =>
          obtain ⟨i, hi, hmodify⟩ := ih h
          refine ⟨i + 1, hi, ?_⟩
          rw [if_neg (of_decide_eq_false hq), hmodify, List.set_cons_succ]

/-- One project is edited, and keeps its id and its time of creation. -/
structure Edited (book book' : ProjectBook) (i : Nat) (p p' : Project) : Prop where
  found : book.projects[i]? = some p
  id : p'.id = p.id
  createdAt : p'.createdAt = p.createdAt
  projects : book'.projects = book.projects.set i p'
  active : book'.active = book.active

theorem edited_update {input : ProjectInput} {now : Int} {p' : Project}
    (h : book.update rules host id input now = (book', .ok p')) :
    ∃ i p, Edited book book' i p p' ∧ p.id = id := by
  rw [ProjectBook.update] at h
  split at h
  · cases h
  · split at h
    · cases h
    · split at h
      · cases h
      · next p hget =>
          cases h
          obtain ⟨i, hi, hmodify⟩ := modify_eq_set _ hget
          exact ⟨i, p, ⟨hi, rfl, rfl, hmodify, rfl⟩, id_of_get hget⟩

theorem edited_setHidden {hidden : List String} {now : Int} (h : book.get id = some p) :
    ∃ i p', Edited book (book.setHidden id hidden now).1 i p p' ∧ p.id = id := by
  rw [ProjectBook.setHidden, h]
  dsimp only
  obtain ⟨i, hi, hmodify⟩ := modify_eq_set _ h
  exact ⟨i, { p with hiddenPaths := ProjectBook.dedupHidden hidden, updatedAt := now },
    ⟨hi, rfl, rfl, hmodify, rfl⟩, id_of_get h⟩

theorem Edited.map_id {p' : Project} {i : Nat} (h : Edited book book' i p p') :
    book'.projects.map Project.id = book.projects.map Project.id := by
  have hmap : (book.projects.map Project.id)[i]? = some p.id := by
    rw [List.getElem?_map, h.found]
    rfl
  obtain ⟨hlt, hfound⟩ := List.getElem?_eq_some_iff.1 hmap
  rw [h.projects, List.map_set, h.id, ← hfound, List.set_getElem_self]

theorem index_unique {i j : Nat} (hids : (projects.map Project.id).Nodup)
    (hi : projects[i]? = some p) (hj : projects[j]? = some q) (hid : q.id = p.id) : j = i := by
  obtain ⟨hlt, -⟩ := List.getElem?_eq_some_iff.1 hj
  refine (List.getElem?_inj (by rwa [List.length_map]) hids).1 ?_
  rw [List.getElem?_map, List.getElem?_map, hi, hj, Option.map_some, Option.map_some, hid]

theorem findIdx?_id {i : Nat} (hids : (projects.map Project.id).Nodup)
    (hi : projects[i]? = some p) : projects.findIdx? (fun q => q.id = p.id) = some i := by
  obtain ⟨hlt, hfound⟩ := List.getElem?_eq_some_iff.1 hi
  refine List.findIdx?_eq_some_iff_getElem.2 ⟨hlt, ?_, fun j hj hid => ?_⟩
  · rw [hfound]
    exact decide_eq_true rfl
  · have hlt' : j < projects.length := Nat.lt_trans hj hlt
    exact absurd (index_unique hids hi (List.getElem?_eq_getElem hlt') (of_decide_eq_true hid))
      (Nat.ne_of_lt hj)

/-- What is written of a project, ids being distinct. -/
theorem persistProject_eq {i : Nat} (hids : (book.projects.map Project.id).Nodup)
    (hi : book.projects[i]? = some p) : persistProject book p.id = [.upsertProject p i] := by
  have hget : book.get p.id = some p := by
    rw [ProjectBook.get]
    cases hfind : book.projects.find? fun q => q.id = p.id with
    | none =>
        exact absurd (decide_eq_true rfl)
          (List.find?_eq_none.1 hfind p (List.mem_of_getElem? hi))
    | some q =>
        have hq := List.find?_some hfind
        rw [decide_eq_true_eq] at hq
        obtain ⟨j, hj⟩ := List.getElem?_of_mem (List.mem_of_find?_eq_some hfind)
        obtain rfl := index_unique hids hi hj hq
        rw [← hi, hj]
  rw [persistProject, hget, findIdx?_id hids hi]
  rfl

theorem Edited.persist {i : Nat} {p' : Project} (h : Edited book book' i p p')
    (hids : (book.projects.map Project.id).Nodup) :
    persistProject book' p'.id = [.upsertProject p' i] := by
  obtain ⟨hlt, -⟩ := List.getElem?_eq_some_iff.1 h.found
  refine persistProject_eq (by rwa [h.map_id]) ?_
  rw [h.projects, List.getElem?_set_self hlt]

theorem reorder_perm (id : ProjectId) (dest : Nat) :
    (book.reorder id dest).1.projects.Perm book.projects ∧
      (book.reorder id dest).1.active = book.active := by
  rw [ProjectBook.reorder]
  split
  · exact ⟨.refl _, rfl⟩
  · split
    · exact ⟨.refl _, rfl⟩
    · next index _ _ project hproject =>
        refine ⟨?_, rfl⟩
        obtain ⟨hlt, rfl⟩ := List.getElem?_eq_some_iff.1 hproject
        refine (List.perm_insertIdx _ _ (Nat.min_le_right _ _)).trans ?_
        exact List.getElem_cons_eraseIdx_perm hlt

theorem delete_spec (hids : (book.projects.map Project.id).Nodup)
    (hid : id ∈ book.projects.map Project.id) :
    (book.delete id).1.projects.Sublist book.projects ∧
      (∀ q, q ∈ (book.delete id).1.projects ↔ q ∈ book.projects ∧ q.id ≠ id) ∧
      (book.delete id).1.active =
        if book.active = some id then (book.delete id).1.projects.head?.map Project.id
        else book.active := by
  obtain ⟨p, hp, rfl⟩ := List.mem_map.1 hid
  obtain ⟨i, hi⟩ := List.getElem?_of_mem hp
  rw [ProjectBook.delete, findIdx?_id hids hi]
  dsimp only
  rw [hi]
  refine ⟨List.eraseIdx_sublist _ _, fun q => ?_, rfl⟩
  rw [List.mem_eraseIdx_iff_getElem?]
  constructor
  · rintro ⟨j, hji, hj⟩
    exact ⟨List.mem_of_getElem? hj, fun hid => hji (index_unique hids hi hj hid)⟩
  · rintro ⟨hq, hne⟩
    obtain ⟨j, hj⟩ := List.getElem?_of_mem hq
    refine ⟨j, ?_, hj⟩
    rintro rfl
    rw [hi, Option.some.injEq] at hj
    exact hne (congrArg Project.id hj.symm)

theorem create_spec {input : ProjectInput} {now : Int}
    (h : book.create rules host input now id = (book', .ok p)) :
    p.id = id ∧ book'.projects = book.projects ++ [p] := by
  rw [ProjectBook.create] at h
  split at h
  · cases h
  · split at h
    · cases h
    · cases h
      exact ⟨rfl, rfl⟩

theorem switchProject_of_mem (hid : id ∈ book.projects.map Project.id) :
    switchProject texts book id =
      ({ book with active := some id }, [.setState activeProjectKey (some (texts.idText id))]) := by
  have hget : (book.get id).isNone = false := by
    obtain ⟨p, hp, rfl⟩ := List.mem_map.1 hid
    rw [ProjectBook.get, Option.isNone_eq_false_iff, List.find?_isSome]
    exact ⟨p, hp, decide_eq_true rfl⟩
  rw [switchProject, ProjectBook.setActive, hget]
  rfl

theorem switchProject_of_notMem (hid : id ∉ book.projects.map Project.id) :
    switchProject texts book id = (book, []) := by
  have hget : (book.get id).isNone = true := by
    rw [ProjectBook.get, Option.isNone_iff_eq_none, List.find?_eq_none]
    intro p hp heq
    exact hid (List.mem_map.2 ⟨p, hp, of_decide_eq_true heq⟩)
  rw [switchProject, ProjectBook.setActive, hget]
  rfl

/-- Which project is active when one is deleted, and what is written of that. -/
def NextActive (texts : Texts) (book : ProjectBook) (id : ProjectId) (projects : List Project)
    (active : Option ProjectId) (writes : List StoreWrite) : Prop :=
  (book.active = some id ∧ active = projects.head?.map Project.id ∧
    writes = [.setState activeProjectKey (active.map texts.idText)]) ∨
  (book.active ≠ some id ∧ active = book.active ∧ writes = [])

/-- What an action can do in memory, and what it then writes. -/
inductive Does (texts : Texts) (book : ProjectBook) (store : ProjectStore) :
    ProjectBook × List StoreWrite → Prop
  | nothing : Does texts book store (book, [])
  | created (p : Project) :
      p.id ∉ book.projects.map Project.id →
      texts.idText p.id ∉ store.projectRows.map ProjectRow.id →
      Does texts book store
        (⟨book.projects ++ [p], some p.id⟩, [.upsertProject p book.projects.length,
          .setState activeProjectKey (some (texts.idText p.id))])
  | edited (book' : ProjectBook) (i : Nat) (p p' : Project) :
      Edited book book' i p p' → Does texts book store (book', [.upsertProject p' i])
  | switched (id : ProjectId) :
      id ∈ book.projects.map Project.id →
      Does texts book store
        ({ book with active := some id }, [.setState activeProjectKey (some (texts.idText id))])
  | moved (projects : List Project) :
      projects.Perm book.projects →
      Does texts book store
        ({ book with projects }, [.setPositions (projects.map Project.id)])
  | deleted (id : ProjectId) (projects : List Project) (active : Option ProjectId)
      (writes : List StoreWrite) :
      id ∈ book.projects.map Project.id → projects.Sublist book.projects →
      (∀ q, q ∈ projects ↔ q ∈ book.projects ∧ q.id ≠ id) →
      NextActive texts book id projects active writes →
      Does texts book store
        (⟨projects, active⟩, [.deleteProject id, .setPositions (projects.map Project.id)] ++ writes)
  | restarted : Does texts book store (load texts store, [])

theorem does_act {action : Action} (hids : (shelf.book.projects.map Project.id).Nodup)
    (henabled : shelf.enabled texts action = true) :
    Does texts shelf.book shelf.store (act texts rules host shelf action) := by
  cases action with
  | create input now id =>
      rw [enabled, Bool.and_eq_true, Bool.not_eq_true', Bool.not_eq_true'] at henabled
      have hnew : id ∉ shelf.book.projects.map Project.id := fun hmem =>
        Bool.eq_false_iff.1 henabled.1 (List.contains_iff_mem.2 hmem)
      have hrow : texts.idText id ∉ shelf.store.projectRows.map ProjectRow.id := fun hmem =>
        Bool.eq_false_iff.1 henabled.2 (List.contains_iff_mem.2 hmem)
      rw [act, createProject]
      split
      · exact .nothing
      · next book' p hcreate =>
          obtain ⟨rfl, hprojects⟩ := create_spec hcreate
          have hlast : book'.projects[shelf.book.projects.length]? = some p := by
            rw [hprojects, List.getElem?_append_right (Nat.le_refl _), Nat.sub_self]
            rfl
          have hids' : (book'.projects.map Project.id).Nodup := by
            rw [hprojects, List.map_append]
            exact hids.append (List.nodup_singleton _) (List.disjoint_singleton.2 hnew)
          rw [switchProject_of_mem (List.mem_map_of_mem (List.mem_of_getElem? hlast)),
            persistProject_eq hids' hlast, hprojects]
          exact .created p hnew hrow
  | edit id input now =>
      rw [act, editProject]
      split
      · exact .nothing
      · next book' p' hupdate =>
          obtain ⟨i, p, hedited, -⟩ := edited_update hupdate
          rw [hedited.persist hids]
          exact .edited book' i p p' hedited
  | hide id hidden now =>
      rw [act, hidePaths]
      split
      · exact .nothing
      · next p hget =>
          obtain ⟨i, p', hedited, hid⟩ := @edited_setHidden p id shelf.book hidden now hget
          have hwrites := hedited.persist hids
          rw [hedited.id, hid] at hwrites
          rw [hwrites]
          exact .edited _ i p p' hedited
  | switch id =>
      rw [act]
      by_cases hid : id ∈ shelf.book.projects.map Project.id
      · rw [switchProject_of_mem hid]
        exact .switched id hid
      · rw [switchProject_of_notMem hid]
        exact .nothing
  | move id dest =>
      obtain ⟨hperm, hactive⟩ := @reorder_perm shelf.book id dest
      have hmoved := @Does.moved texts shelf.book shelf.store _ hperm
      rw [← hactive] at hmoved
      exact hmoved
  | delete id =>
      rw [enabled, List.contains_iff_mem] at henabled
      obtain ⟨hsub, hmem, hactive⟩ := delete_spec hids henabled
      rw [act, deleteProject]
      generalize (shelf.book.delete id).1 = book' at hsub hmem hactive ⊢
      obtain ⟨projects, active⟩ := book'
      dsimp only at hsub hmem hactive ⊢
      split_ifs at hactive ⊢ with hwas
      · have hnext : NextActive texts shelf.book id projects active
            [.setState activeProjectKey (active.map texts.idText)] := .inl ⟨hwas, hactive, rfl⟩
        cases active with
        | none => exact .deleted id projects none _ henabled hsub hmem hnext
        | some next =>
            obtain ⟨first, hfirst, hid⟩ := Option.map_eq_some_iff.1 hactive.symm
            have hnextmem : next ∈ projects.map Project.id :=
              List.mem_map.2 ⟨first, List.mem_of_mem_head? hfirst, hid⟩
            dsimp only
            rw [@switchProject_of_mem texts next ⟨projects, some next⟩ hnextmem]
            exact .deleted id projects (some next) _ henabled hsub hmem hnext
      · have hnext : NextActive texts shelf.book id projects active [] := .inr ⟨hwas, hactive, rfl⟩
        have hdeleted :=
          @Does.deleted texts shelf.book shelf.store id projects active [] henabled hsub hmem hnext
        rwa [List.append_nil] at hdeleted
  | restart => exact .restarted

/-! ## What cannot be read, in every run -/

theorem mem_good : p ∈ good texts rows ↔ ∃ row ∈ rows, readRow texts row = .ok p := by
  rw [good, List.mem_filterMap]
  refine exists_congr fun row => and_congr_right fun _ => ?_
  cases readRow texts row with
  | error reason => exact ⟨nofun, nofun⟩
  | ok q =>
      rw [Except.ok.injEq]
      exact Option.some_inj

theorem nodup_good (hkeys : (rows.map ProjectRow.id).Nodup)
    (hcanonical : ∀ row ∈ rows, ∀ p, readRow texts row = .ok p → row.id = texts.idText p.id) :
    ((good texts rows).map Project.id).Nodup := by
  induction rows with
  | nil => exact List.nodup_nil
  | cons row rows ih =>
      rw [List.map_cons, List.nodup_cons] at hkeys
      have hrest := ih hkeys.2 fun row hrow => hcanonical row (List.mem_cons_of_mem _ hrow)
      rw [good, List.filterMap_cons]
      cases hread : readRow texts row with
      | error reason => exact hrest
      | ok p =>
          refine List.nodup_cons.2 ⟨fun hmem => ?_, hrest⟩
          obtain ⟨q, hq, hid⟩ := List.mem_map.1 hmem
          obtain ⟨other, hother, hreadother⟩ := mem_good.1 hq
          have hrow := hcanonical row List.mem_cons_self p hread
          have hotherid := hcanonical other (List.mem_cons_of_mem _ hother) q hreadother
          rw [hid, ← hrow] at hotherid
          exact hkeys.1 (List.mem_map.2 ⟨other, hother, hotherid⟩)

theorem mem_load_projects :
    p ∈ (load texts store).projects ↔ ∃ row ∈ store.projectRows, readRow texts row = .ok p := by
  refine mem_good.trans ?_
  exact exists_congr fun row => and_congr_left fun _ => List.mem_mergeSort

/-- The store's rows have distinct ids, which a readable one has as ids are written. -/
structure Lettered (texts : Texts) (store : ProjectStore) : Prop where
  keys : (store.projectRows.map ProjectRow.id).Nodup
  canonical : ∀ row ∈ store.projectRows, ∀ p, readRow texts row = .ok p →
    row.id = texts.idText p.id

theorem Lettered.row_unique (h : Lettered texts store) {row row' : ProjectRow}
    (hrow : row ∈ store.projectRows) (hrow' : row' ∈ store.projectRows) (hid : row.id = row'.id) :
    row = row' := List.inj_on_of_nodup_map h.keys hrow hrow' hid

theorem Kept.lettered (h : Kept texts ids store.projectRows) : Lettered texts store :=
  ⟨h.keys, h.canonical⟩

theorem kept_load (h : Lettered texts store) :
    Kept texts ((load texts store).projects.map Project.id) store.projectRows := by
  refine ⟨h.keys, ?_, h.canonical, ?_⟩
  · refine nodup_good ?_ fun row hrow => h.canonical row (List.mem_mergeSort.1 hrow)
    exact ((List.mergeSort_perm _ _).map ProjectRow.id).nodup_iff.2 h.keys
  · intro id hid row hrow hrowid
    obtain ⟨p, hp, rfl⟩ := List.mem_map.1 hid
    obtain ⟨other, hother, hread⟩ := mem_load_projects.1 hp
    have hsame : row = other :=
      h.row_unique hrow hother (hrowid.trans (h.canonical other hother p hread).symm)
    rw [hsame, hread]
    rfl

/-- What an action writes is about projects that the app has, before it or after. -/
theorem Does.kept {done : ProjectBook × List StoreWrite}
    (hdoes : Does texts book store done)
    (h : Kept texts (book.projects.map Project.id) store.projectRows) :
    ∃ wide, Kept texts wide store.projectRows ∧ (∀ write ∈ done.2, Ours wide write) ∧
      (done.1.projects.map Project.id).Nodup ∧ done.1.projects.map Project.id ⊆ wide := by
  cases hdoes with
  | nothing => exact ⟨_, h, nofun, h.distinct, List.Subset.refl _⟩
  | created p hid hrow =>
      have hkept := h.append hid hrow
      have hids : (book.projects ++ [p]).map Project.id = book.projects.map Project.id ++ [p.id] :=
        List.map_append
      rw [← hids] at hkept
      refine ⟨_, hkept, fun write hwrite => ?_, hkept.distinct, List.Subset.refl _⟩
      rcases List.mem_cons.1 hwrite with rfl | hwrite
      · rw [hids]
        exact List.mem_append_right _ (List.mem_singleton_self _)
      · rw [List.mem_singleton.1 hwrite]
        trivial
  | edited book' i p p' hedited =>
      refine ⟨_, h, fun write hwrite => ?_, ?_, ?_⟩
      · rw [List.mem_singleton.1 hwrite, Ours, hedited.id]
        exact List.mem_map_of_mem (List.mem_of_getElem? hedited.found)
      · rw [hedited.map_id]
        exact h.distinct
      · rw [hedited.map_id]
        exact List.Subset.refl _
  | switched id hid =>
      refine ⟨_, h, fun write hwrite => ?_, h.distinct, List.Subset.refl _⟩
      rw [List.mem_singleton.1 hwrite]
      trivial
  | moved projects hperm =>
      have hids := hperm.map Project.id
      refine ⟨_, h, fun write hwrite => ?_, hids.nodup_iff.2 h.distinct, hids.subset⟩
      rw [List.mem_singleton.1 hwrite]
      exact ⟨hids.nodup_iff.2 h.distinct, hids.subset⟩
  | deleted id projects active writes hid hsub hmem hnext =>
      have hids := hsub.map Project.id
      refine ⟨_, h, fun write hwrite => ?_, h.distinct.sublist hids, hids.subset⟩
      rcases List.mem_append.1 hwrite with hwrite | hwrite
      · rcases List.mem_cons.1 hwrite with rfl | hwrite
        · exact hid
        · rw [List.mem_singleton.1 hwrite]
          exact ⟨h.distinct.sublist hids, hids.subset⟩
      · rcases hnext with ⟨-, -, rfl⟩ | ⟨-, -, rfl⟩
        · rw [List.mem_singleton.1 hwrite]
          trivial
        · cases hwrite
  | restarted =>
      have hkept := kept_load h.lettered
      exact ⟨_, hkept, nofun, hkept.distinct, List.Subset.refl _⟩

theorem shelf_of_reach {ok : Shelf → Action × List StoreWrite → Prop} (htexts : texts.Lawful)
    (hstart : Lettered texts start) (h : (machine texts rules host start).Reach ok shelf) :
    Kept texts (shelf.book.projects.map Project.id) shelf.store.projectRows ∧
      unreadable texts shelf.store.projectRows = unreadable texts start.projectRows := by
  induction h with
  | init hs =>
      rw [hs]
      exact ⟨kept_load hstart, rfl⟩
  | @step s s' step _ _ hstep ih =>
      rw [machine] at hstep
      dsimp only at hstep
      split_ifs at hstep with henabled
      cases hstep
      obtain ⟨hkept, hsame⟩ := ih
      obtain ⟨wide, hwide, hours, hdistinct, hsub⟩ :=
        (@does_act texts rules host s step.1 hkept.distinct henabled).kept hkept
      obtain ⟨hcarried, hsame'⟩ := @Kept.carry texts s.store wide step.2 _ hwide htexts hours
      exact ⟨hcarried.subset hdistinct hsub, hsame'.trans hsame⟩

/-- Whatever is done to the projects, and whichever writes fail, the rows that this build cannot
read stay as they are. -/
theorem unreadable_of_reach (htexts : texts.Lawful) (hstart : Lettered texts start)
    (h : (machine texts rules host start).Reach Machine.anyStep shelf) :
    unreadable texts shelf.store.projectRows = unreadable texts start.projectRows :=
  (shelf_of_reach htexts hstart h).2

/-! ## A run -/

/-- The last digit of an id that is smaller than ten, and a text of its own for another one. -/
def lastDigit (n : Nat) : List Char := if n < 10 then [Nat.digitChar n] else List.replicate n 'f'

def idFront : List Char := "00000000-0000-0000-0000-00000000000".toList

def spelled (hidden : List String) : List Char :=
  hidden.flatMap fun path => path.toList.flatMap (fun c => ['c', c]) ++ ['e']

def unspelled : List Char → List Char → List String
  | path, 'c' :: c :: text => unspelled (path ++ [c]) text
  | path, 'e' :: text => .ofList path :: unspelled [] text
  | _, _ => []

/-- The texts of small ids, and of no hidden paths. -/
def shortTexts : Texts where
  idText id := .ofList (idFront ++ lastDigit id.uuid)
  parseId text :=
    if text.toList.take 35 = idFront then
      match text.toList.drop 35 with
      | [c] => .ok ⟨c.toNat - '0'.toNat⟩
      | digits => .ok ⟨digits.length⟩
    else .error "invalid character"
  hiddenText hidden := if hidden.isEmpty then "[]" else .ofList (spelled hidden)
  parseHidden text := .ok (unspelled [] text.toList)

theorem unspelled_spelled (hidden : List String) : unspelled [] (spelled hidden) = hidden := by
  have hpath : ∀ (cs path rest : List Char),
      unspelled path (cs.flatMap (fun c => ['c', c]) ++ 'e' :: rest) =
        .ofList (path ++ cs) :: unspelled [] rest := by
    intro cs
    induction cs with
    | nil =>
        intro path rest
        rw [List.append_nil]
        rfl
    | cons c cs ih =>
        intro path rest
        change unspelled (path ++ [c]) (cs.flatMap (fun c => ['c', c]) ++ 'e' :: rest) = _
        rw [ih, List.append_assoc, List.singleton_append]
  induction hidden with
  | nil => rfl
  | cons path hidden ih =>
      rw [spelled] at ih ⊢
      rw [List.flatMap_cons, List.append_assoc, List.singleton_append, hpath, ih,
        List.nil_append, String.ofList_toList]

theorem shortTexts_lawful : shortTexts.Lawful where
  id := by
    intro id
    have htake : (idFront ++ lastDigit id.uuid).take 35 = idFront := List.take_left' (by decide)
    have hdrop : (idFront ++ lastDigit id.uuid).drop 35 = lastDigit id.uuid :=
      List.drop_left' (by decide)
    have hdigit : ∀ n < 10, (Nat.digitChar n).toNat - '0'.toNat = n := by decide
    obtain ⟨n⟩ := id
    rw [shortTexts]
    dsimp only at htake hdrop ⊢
    rw [String.toList_ofList, if_pos htake, hdrop, lastDigit]
    by_cases hn : n < 10
    · rw [if_pos hn]
      dsimp only
      rw [hdigit n hn]
    · obtain ⟨k, rfl⟩ := Nat.exists_eq_add_of_le' (Nat.le_of_not_lt hn)
      rw [if_neg hn]
      change Except.ok (⟨(List.replicate (k + 10) 'f').length⟩ : ProjectId) = _
      rw [List.length_replicate]
  hidden := by
    intro hidden
    rw [shortTexts]
    dsimp only
    cases hidden with
    | nil => rfl
    | cons path hidden =>
        change Except.ok (unspelled [] (String.ofList (spelled (path :: hidden))).toList) = _
        rw [String.toList_ofList, unspelled_spelled]

/-- A store with a row that this build cannot read. -/
def strangeStore : ProjectStore :=
  { projectRows := [⟨"nope", "X", "blue", "/x", "[]", 0, 0, 0⟩], appState := [] }

theorem strangeStore_lettered : Lettered shortTexts strangeStore where
  keys := by decide
  canonical := by
    intro row hrow p hread
    rw [List.mem_singleton.1 hrow] at hread
    cases hread

/-- A project is made and then deleted, which fails. -/
theorem unreadable_of_reach_strange :
    ∃ shelf : Shelf, unreadable shortTexts shelf.store.projectRows = strangeStore.projectRows ∧
      shelf.book.projects.length = 0 ∧ shelf.store.projectRows.length = 2 := by
  obtain ⟨shelf, hreach, hshelf⟩ := (Machine.Reach.init rfl :
    (machine shortTexts .linux ProjectBook.slashHost strangeStore).Reach Machine.anyStep
      ⟨load shortTexts strangeStore, strangeStore⟩).exists_of_exec
        [(.create ⟨"Web", "#4cc38a", "/web"⟩ 1000 ⟨5⟩, []),
          (.delete ⟨5⟩, [.deleteProject ⟨5⟩])]
        (fun shelf => decide (shelf.book.projects.length = 0 ∧ shelf.store.projectRows.length = 2))
        (by decide +kernel)
  exact ⟨shelf, unreadable_of_reach shortTexts_lawful strangeStore_lettered hreach,
    of_decide_eq_true hshelf⟩

end Shelf

end Throng
