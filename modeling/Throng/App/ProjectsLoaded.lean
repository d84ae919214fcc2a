import Throng.App.ProjectsKept

/-!
# A new start finds the projects as they were left

In a run in which no write fails, the readable rows are the projects, each at its place. Reading
them in the order of their places gives the projects back.
-/

namespace Throng

namespace Shelf

open ProjectStore

variable {texts : Texts} {rules : PathRules} {host : Host} {store start : ProjectStore}
  {projects projects' : List Project} {rows : List ProjectRow} {p q : Project} {id : ProjectId}
  {i : Nat} {shelf : Shelf} {book book' : ProjectBook}

/-- The readable rows are the projects. -/
structure Loose (texts : Texts) (projects : List Project) (rows : List ProjectRow) : Prop where
  kept : Kept texts (projects.map Project.id) rows
  read : ∀ row ∈ rows, ∀ p, readRow texts row = .ok p → p ∈ projects
  stored : ∀ p ∈ projects, ∃ row ∈ rows, readRow texts row = .ok p

/-- The readable rows are the projects, each at its place. -/
structure Exact (texts : Texts) (projects : List Project) (rows : List ProjectRow) : Prop
    extends Loose texts projects rows where
  placed : ∀ row ∈ rows, ∀ (i : Nat) p, readRow texts row = .ok p → projects[i]? = some p →
    row.position = i

/-! ## Reading the rows in order -/

theorem before_trans (a b c : ProjectRow) (hab : before a b = true) (hbc : before b c = true) :
    before a c = true := by
  rw [before, decide_eq_true_eq] at *
  omega

theorem before_total (a b : ProjectRow) : (before a b || before b a) = true := by
  rw [Bool.or_eq_true, before, before, decide_eq_true_eq, decide_eq_true_eq]
  omega

theorem ok_of_toOption {row : ProjectRow} (h : (readRow texts row).toOption = some p) :
    readRow texts row = .ok p := by
  cases hread : readRow texts row with
  | error reason =>
      rw [hread] at h
      cases h
  | ok q =>
      rw [hread] at h
      cases h
      rfl

theorem Exact.load_projects (h : Exact texts projects store.projectRows) :
    (load texts store).projects = projects := by
  have hids : (projects.map Project.id).Nodup := h.kept.distinct
  have hnodup : projects.Nodup := hids.of_map
  have hplace : ∀ row ∈ store.projectRows, ∀ p, readRow texts row = .ok p →
      row.position = projects.idxOf p := by
    intro row hrow p hread
    refine h.placed row hrow _ p hread ?_
    exact List.getElem?_idxOf (h.read row hrow p hread)
  have hsorted : (load texts store).projects.Pairwise fun p q =>
      projects.idxOf p ≤ projects.idxOf q := by
    have hrows := List.Pairwise.and_mem.1
      (List.pairwise_mergeSort before_trans before_total store.projectRows)
    refine List.Pairwise.filterMap _ (fun row row' hrow p hread q hread' => ?_) hrows
    obtain ⟨hmem, hmem', hbefore⟩ := hrow
    have hp := hplace row (List.mem_mergeSort.1 hmem) p (ok_of_toOption hread)
    have hq := hplace row' (List.mem_mergeSort.1 hmem') q (ok_of_toOption hread')
    rw [before, decide_eq_true_eq] at hbefore
    omega
  have hindexed : projects.Pairwise fun p q => projects.idxOf p ≤ projects.idxOf q := by
    refine List.pairwise_iff_getElem.2 fun i j hi hj hij => ?_
    rw [hnodup.idxOf_getElem i hi, hnodup.idxOf_getElem j hj]
    exact Nat.le_of_lt hij
  have hperm : (load texts store).projects.Perm projects := by
    refine (List.perm_ext_iff_of_nodup (kept_load h.kept.lettered).distinct.of_map hnodup).2 ?_
    intro p
    rw [mem_load_projects]
    exact ⟨fun ⟨row, hrow, hread⟩ => h.read row hrow p hread, h.stored p⟩
  refine List.Perm.eq_of_pairwise (fun p q _ hq hpq hqp => ?_) hsorted hindexed hperm
  exact ((List.idxOf_inj hq).1 (Nat.le_antisymm hqp hpq)).symm

/-! ## The writes -/

theorem Loose.perm (h : Loose texts projects rows) (hperm : projects'.Perm projects) :
    Loose texts projects' rows where
  kept := h.kept.subset ((hperm.map _).nodup_iff.2 h.kept.distinct) (hperm.map _).subset
  read row hrow p hread := hperm.mem_iff.2 (h.read row hrow p hread)
  stored p hp := h.stored p (hperm.mem_iff.1 hp)

theorem Loose.deleteProject (h : Loose texts projects store.projectRows)
    (hsub : projects'.Sublist projects) (hmem : ∀ q, q ∈ projects' ↔ q ∈ projects ∧ q.id ≠ id)
    (htexts : texts.Lawful) :
    Loose texts projects' (store.deleteProject texts id).projectRows where
  kept := (h.kept.deleteProject id).subset (h.kept.distinct.sublist (hsub.map _))
    (hsub.map _).subset
  read := by
    intro row hrow p hread
    obtain ⟨hrow, hne⟩ := List.mem_filter.1 hrow
    refine (hmem p).2 ⟨h.read row hrow p hread, fun hid => of_decide_eq_true hne ?_⟩
    rw [h.kept.canonical row hrow p hread, hid]
  stored := by
    intro p hp
    obtain ⟨hp, hne⟩ := (hmem p).1 hp
    obtain ⟨row, hrow, hread⟩ := h.stored p hp
    refine ⟨row, List.mem_filter.2 ⟨hrow, decide_eq_true fun hid => hne ?_⟩, hread⟩
    rw [h.kept.canonical row hrow p hread] at hid
    exact idText_injective htexts hid

theorem Loose.setPositions (h : Loose texts projects store.projectRows) (htexts : texts.Lawful) :
    Exact texts projects
      (store.setPositions texts (projects.map Project.id)).projectRows := by
  have hkept := h.kept.setPositions htexts h.kept.distinct
  have hrows := @setPositions_rows texts store htexts _ h.kept.distinct
  refine ⟨⟨hkept, fun row hrow p hread => ?_, fun p hp => ?_⟩, fun row hrow i p hread hi => ?_⟩
  · rw [hrows] at hrow
    obtain ⟨old, hold, rfl⟩ := List.mem_map.1 hrow
    rw [readRow_placed] at hread
    exact h.read old hold p hread
  · obtain ⟨row, hrow, hread⟩ := h.stored p hp
    rw [hrows]
    refine ⟨_, List.mem_map_of_mem hrow, ?_⟩
    rw [readRow_placed]
    exact hread
  · rw [hrows] at hrow
    obtain ⟨old, hold, rfl⟩ := List.mem_map.1 hrow
    rw [readRow_placed] at hread
    refine placed_position htexts h.kept.distinct ?_ (h.kept.canonical old hold p hread)
    rw [List.getElem?_map, hi]
    rfl

theorem Exact.created (h : Exact texts projects store.projectRows) (htexts : texts.Lawful)
    (hid : p.id ∉ projects.map Project.id)
    (hrow : texts.idText p.id ∉ store.projectRows.map ProjectRow.id) :
    Exact texts (projects ++ [p]) (store.upsertProject texts p projects.length).projectRows := by
  have hmem : ∀ row, row ∈ (store.upsertProject texts p projects.length).projectRows ↔
      row ∈ store.projectRows ∨ row = rowFor texts p projects.length := by
    intro row
    rw [mem_upsertProject h.kept.keys]
    constructor
    · rintro (⟨hold, -⟩ | ⟨old, hold, holdid, -⟩ | ⟨-, hnew⟩)
      · exact .inl hold
      · exact absurd (List.mem_map.2 ⟨old, hold, holdid⟩) hrow
      · exact .inr hnew
    · rintro (hold | hnew)
      · exact .inl ⟨hold, fun heq => hrow (List.mem_map.2 ⟨row, hold, heq⟩)⟩
      · exact .inr (.inr ⟨hrow, hnew⟩)
  have hkept : Kept texts ((projects ++ [p]).map Project.id)
      (store.upsertProject texts p projects.length).projectRows := by
    rw [List.map_append]
    exact (h.kept.append hid hrow).upsertProject htexts
  have hlast : (projects ++ [p])[projects.length]? = some p := by
    rw [List.getElem?_append_right (Nat.le_refl _), Nat.sub_self]
    rfl
  refine ⟨⟨hkept, fun row hrow q hread => ?_, fun q hq => ?_⟩, fun row hrow i q hread hi => ?_⟩
  · rcases (hmem row).1 hrow with hold | rfl
    · exact List.mem_append_left _ (h.read row hold q hread)
    · rw [readRow_rowFor htexts] at hread
      cases hread
      exact List.mem_append_right _ (List.mem_singleton_self _)
  · rcases List.mem_append.1 hq with hq | hq
    · obtain ⟨row, hrow, hread⟩ := h.stored q hq
      exact ⟨row, (hmem row).2 (.inl hrow), hread⟩
    · rw [List.mem_singleton.1 hq]
      exact ⟨_, (hmem _).2 (.inr rfl), readRow_rowFor htexts⟩
  · rcases (hmem row).1 hrow with hold | rfl
    · obtain ⟨j, hj⟩ := List.getElem?_of_mem (h.read row hold q hread)
      obtain ⟨hlt, -⟩ := List.getElem?_eq_some_iff.1 hj
      have hj' : (projects ++ [p])[j]? = some q := by rw [List.getElem?_append_left hlt, hj]
      obtain rfl := index_unique hkept.distinct hi hj' rfl
      exact h.placed row hold j q hread hj
    · rw [readRow_rowFor htexts] at hread
      cases hread
      obtain rfl := index_unique hkept.distinct hi hlast rfl
      rfl

theorem Exact.edited (h : Exact texts book.projects store.projectRows) (htexts : texts.Lawful)
    (hedited : Edited book book' i p q) :
    Exact texts book'.projects (store.upsertProject texts q i).projectRows := by
  obtain ⟨hlt, -⟩ := List.getElem?_eq_some_iff.1 hedited.found
  obtain ⟨row₀, hrow₀, hread₀⟩ := h.stored p (List.mem_of_getElem? hedited.found)
  have hid₀ : row₀.id = texts.idText q.id := by
    rw [hedited.id]
    exact h.kept.canonical row₀ hrow₀ p hread₀
  have hcreated : row₀.createdAt = q.createdAt :=
    (readRow_eq_ok.1 hread₀).2.2.2.2.2.1.trans hedited.createdAt.symm
  have hmem : ∀ row, row ∈ (store.upsertProject texts q i).projectRows ↔
      (row ∈ store.projectRows ∧ row.id ≠ texts.idText q.id) ∨ row = rowFor texts q i := by
    intro row
    rw [mem_upsertProject h.kept.keys]
    refine or_congr_right ⟨?_, ?_⟩
    · rintro (⟨old, hold, holdid, rfl⟩ | ⟨hnot, -⟩)
      · obtain rfl := h.kept.lettered.row_unique hold hrow₀ (holdid.trans hid₀.symm)
        rw [hcreated]
        rfl
      · exact absurd (List.mem_map.2 ⟨row₀, hrow₀, hid₀⟩) hnot
    · rintro rfl
      refine .inl ⟨row₀, hrow₀, hid₀, ?_⟩
      rw [hcreated]
      rfl
  have hkept : Kept texts (book'.projects.map Project.id)
      (store.upsertProject texts q i).projectRows := by
    rw [hedited.map_id]
    exact h.kept.upsertProject htexts
  have hhere : book'.projects[i]? = some q := by
    rw [hedited.projects, List.getElem?_set_self hlt]
  have hother : ∀ row, row ∈ store.projectRows → row.id ≠ texts.idText q.id → ∀ r,
      readRow texts row = .ok r → ∃ j : Nat, book.projects[j]? = some r ∧
        book'.projects[j]? = some r := by
    intro row hrow hne r hread
    obtain ⟨j, hj⟩ := List.getElem?_of_mem (h.read row hrow r hread)
    refine ⟨j, hj, ?_⟩
    rw [hedited.projects, List.getElem?_set_ne, hj]
    rintro rfl
    rw [hedited.found, Option.some.injEq] at hj
    rw [h.kept.canonical row hrow r hread, ← hj, hedited.id] at hne
    exact hne rfl
  refine ⟨⟨hkept, fun row hrow r hread => ?_, fun r hr => ?_⟩, fun row hrow j r hread hj => ?_⟩
  · rcases (hmem row).1 hrow with ⟨hold, hne⟩ | rfl
    · obtain ⟨j, -, hj⟩ := hother row hold hne r hread
      exact List.mem_of_getElem? hj
    · rw [readRow_rowFor htexts] at hread
      cases hread
      exact List.mem_of_getElem? hhere
  · by_cases hrid : r.id = q.id
    · obtain ⟨k, hk⟩ := List.getElem?_of_mem hr
      obtain rfl := index_unique hkept.distinct hhere hk hrid
      rw [hhere, Option.some.injEq] at hk
      rw [← hk]
      exact ⟨_, (hmem _).2 (.inr rfl), readRow_rowFor htexts⟩
    · rw [hedited.projects] at hr
      rcases List.mem_or_eq_of_mem_set hr with hold | rfl
      · obtain ⟨row, hrow, hread⟩ := h.stored r hold
        refine ⟨row, (hmem row).2 (.inl ⟨hrow, fun heq => hrid ?_⟩), hread⟩
        rw [h.kept.canonical row hrow r hread] at heq
        exact idText_injective htexts heq
      · exact absurd rfl hrid
  · rcases (hmem row).1 hrow with ⟨hold, hne⟩ | rfl
    · obtain ⟨k, hk, hk'⟩ := hother row hold hne r hread
      obtain rfl := index_unique hkept.distinct hj hk' rfl
      exact h.placed row hold k r hread hk
    · rw [readRow_rowFor htexts] at hread
      cases hread
      obtain rfl := index_unique hkept.distinct hj hhere rfl
      rfl

/-! ## The active project -/

/-- The active project that is stored. -/
def storedActive (texts : Texts) (store : ProjectStore) : Option ProjectId :=
  (store.state activeProjectKey).bind fun text => (texts.parseId text).toOption

theorem load_eq :
    load texts store = bookOf (load texts store).projects (storedActive texts store) :=
  rfl

theorem bookOf_active (projects : List Project) (active : Option ProjectId) :
    (bookOf projects active).active =
      active.filter fun id => decide (id ∈ projects.map Project.id) := by
  have hany : (fun id => projects.any fun p => decide (p.id = id)) =
      fun id => decide (id ∈ projects.map Project.id) := by
    funext id
    rw [Bool.eq_iff_iff, List.any_eq_true, decide_eq_true_eq, List.mem_map]
    exact exists_congr fun p => and_congr_right fun _ => decide_eq_true_iff
  rw [bookOf, hany]

theorem storedActive_setState (htexts : texts.Lawful) (active : Option ProjectId) :
    storedActive texts (store.setState activeProjectKey (active.map texts.idText)) = active := by
  rw [storedActive, state_setState]
  cases active with
  | none => rfl
  | some id =>
      rw [Option.map_some, Option.bind_some, htexts.id]
      rfl

theorem storedActive_deleteProject (id : ProjectId) :
    storedActive texts (store.deleteProject texts id) = storedActive texts store := by
  rw [storedActive, state_deleteProject, storedActive]

theorem filter_mem {ids : List ProjectId} (h : id ∈ ids) :
    (some id).filter (fun id => decide (id ∈ ids)) = some id := by
  rw [Option.filter_some, decide_eq_true h]
  rfl

/-- The store has what the app shows. -/
structure Agrees (texts : Texts) (book : ProjectBook) (store : ProjectStore) : Prop where
  rows : Exact texts book.projects store.projectRows
  active : book.active = (storedActive texts store).filter fun id =>
    decide (id ∈ book.projects.map Project.id)

theorem Agrees.load_eq (h : Agrees texts book store) : load texts store = book := by
  rw [Shelf.load_eq, h.rows.load_projects]
  have hactive := h.active
  rw [← bookOf_active] at hactive
  obtain ⟨projects, active⟩ := book
  dsimp only at hactive ⊢
  rw [hactive]
  rfl

/-! ## Every run in which no write fails -/

theorem carry_cons (write : StoreWrite) (writes : List StoreWrite) :
    carry texts [] store (write :: writes) = carry texts [] (write.apply texts store) writes := by
  rw [carry, List.foldl_cons, if_neg List.not_mem_nil]
  rfl

theorem Does.agrees {done : ProjectBook × List StoreWrite}
    (hdoes : Does texts book store done) (h : Agrees texts book store) (htexts : texts.Lawful) :
    Agrees texts done.1 (carry texts [] store done.2) := by
  cases hdoes with
  | nothing => exact h
  | created p hid hrow =>
      rw [carry_cons, carry_cons]
      refine ⟨h.rows.created htexts hid hrow, ?_⟩
      have hactive := @storedActive_setState texts
        (store.upsertProject texts p book.projects.length) htexts (some p.id)
      change some p.id = (storedActive texts _).filter _
      rw [Option.map_some] at hactive
      rw [carry, List.foldl_nil, StoreWrite.apply, StoreWrite.apply, hactive, filter_mem]
      exact List.mem_map_of_mem (List.mem_append_right _ (List.mem_singleton_self _))
  | edited book' i p p' hedited =>
      rw [carry_cons]
      refine ⟨h.rows.edited htexts hedited, ?_⟩
      rw [hedited.active, h.active, hedited.map_id]
      rfl
  | switched id hid =>
      rw [carry_cons]
      refine ⟨h.rows, ?_⟩
      have hactive := @storedActive_setState texts store htexts (some id)
      change some id = (storedActive texts _).filter _
      rw [Option.map_some] at hactive
      rw [carry, List.foldl_nil, StoreWrite.apply, hactive, filter_mem hid]
  | moved projects hperm =>
      rw [carry_cons]
      refine ⟨(h.rows.toLoose.perm hperm).setPositions htexts, ?_⟩
      have hmem : ∀ id, id ∈ book.projects.map Project.id ↔ id ∈ projects.map Project.id :=
        fun id => ((hperm.map Project.id).mem_iff).symm
      change book.active = (storedActive texts store).filter _
      rw [h.active]
      simp only [hmem]
  | deleted id projects active writes hid hsub hmem hnext =>
      rw [List.cons_append, List.cons_append, List.nil_append, carry_cons, carry_cons]
      have hrows := (h.rows.toLoose.deleteProject hsub hmem htexts).setPositions htexts
      rcases hnext with ⟨-, hactive, rfl⟩ | ⟨hne, rfl, rfl⟩
      · rw [carry_cons]
        refine ⟨?_, ?_⟩
        · change Exact texts projects (ProjectStore.setState _ _ _).projectRows
          rw [setState_projectRows]
          exact hrows
        · change active = (storedActive texts (ProjectStore.setState _ _ _)).filter _
          rw [storedActive_setState htexts active]
          cases active with
          | none => rfl
          | some next =>
              obtain ⟨first, hfirst, hid⟩ := Option.map_eq_some_iff.1 hactive.symm
              exact (filter_mem (List.mem_map.2 ⟨first, List.mem_of_mem_head? hfirst, hid⟩)).symm
      · refine ⟨hrows, ?_⟩
        have hids : ∀ other, other ∈ projects.map Project.id ↔
            other ∈ book.projects.map Project.id ∧ other ≠ id := by
          intro other
          rw [List.mem_map, List.mem_map]
          constructor
          · rintro ⟨p, hp, rfl⟩
            exact ⟨⟨p, ((hmem p).1 hp).1, rfl⟩, ((hmem p).1 hp).2⟩
          · rintro ⟨⟨p, hp, rfl⟩, hpid⟩
            exact ⟨p, (hmem p).2 ⟨hp, hpid⟩, rfl⟩
        change book.active = (storedActive texts (store.deleteProject texts id)).filter _
        rw [storedActive_deleteProject]
        have hbefore := h.active
        cases hstored : storedActive texts store with
        | none =>
            rw [hstored] at hbefore
            exact hbefore
        | some other =>
            rw [hstored, Option.filter_some] at hbefore
            rw [Option.filter_some]
            by_cases hother : other ∈ book.projects.map Project.id
            · rw [decide_eq_true hother, if_pos rfl] at hbefore
              rw [decide_eq_true ((hids other).2 ⟨hother, fun heq => hne (heq ▸ hbefore)⟩),
                if_pos rfl]
              exact hbefore
            · rw [decide_eq_false hother] at hbefore
              rw [decide_eq_false fun hmem => hother ((hids other).1 hmem).1]
              exact hbefore
  | restarted =>
      rw [h.load_eq]
      exact h

theorem agrees_of_calm (htexts : texts.Lawful) (hstart : Agrees texts (load texts start) start)
    (h : (machine texts rules host start).Reach Writes shelf) :
    Agrees texts shelf.book shelf.store := by
  induction h with
  | init hs =>
      rw [hs]
      exact hstart
  | @step s s' step _ hok hstep ih =>
      rw [machine] at hstep
      dsimp only at hstep
      split_ifs at hstep with henabled
      cases hstep
      rw [Writes] at hok
      rw [hok]
      exact (@does_act texts rules host s step.1 ih.rows.kept.distinct henabled).agrees ih htexts

/-! ## The store that a run begins with -/

/-- The readable rows of a store are at the first places, in their order. -/
structure Settled (texts : Texts) (store : ProjectStore) : Prop extends Lettered texts store where
  placed : ∀ (i : Nat) row, ((store.projectRows.mergeSort before).filter fun row =>
    (readRow texts row).toBool)[i]? = some row → row.position = i

theorem getElem?_good (h : (good texts rows)[i]? = some p) :
    ∃ row, (rows.filter fun row => (readRow texts row).toBool)[i]? = some row ∧
      readRow texts row = .ok p := by
  induction rows generalizing i with
  | nil => cases h
  | cons row rows ih =>
      rw [good, List.filterMap_cons] at h
      rw [List.filter_cons]
      cases hread : readRow texts row with
      | error reason =>
          rw [hread] at h
          exact ih h
      | ok q =>
          rw [hread] at h
          cases i with
          | zero =>
              cases h
              exact ⟨row, rfl, hread⟩
          | succ i => exact ih h

theorem agrees_load (h : Settled texts store) : Agrees texts (load texts store) store := by
  refine ⟨⟨⟨kept_load h.toLettered, fun row hrow p hread => mem_load_projects.2 ⟨row, hrow, hread⟩,
    fun p hp => mem_load_projects.1 hp⟩, fun row hrow i p hread hi => ?_⟩, ?_⟩
  · obtain ⟨row', hrow', hread'⟩ := getElem?_good hi
    have hmem : row' ∈ store.projectRows :=
      List.mem_mergeSort.1 (List.mem_filter.1 (List.mem_of_getElem? hrow')).1
    have hid := (h.canonical row hrow p hread).trans (h.canonical row' hmem p hread').symm
    rw [h.row_unique hrow hmem hid]
    exact h.placed i row' hrow'
  · rw [← bookOf_active]
    rfl

/-- In a run in which no write fails, a new start finds the projects as they were left. -/
theorem load_of_calm (htexts : texts.Lawful) (hstart : Settled texts start)
    (h : (machine texts rules host start).Reach Writes shelf) :
    load texts shelf.store = shelf.book :=
  (agrees_of_calm htexts (agrees_load hstart) h).load_eq

theorem strangeStore_settled : Settled shortTexts strangeStore where
  toLettered := strangeStore_lettered
  placed := by
    intro i row hrow
    rw [strangeStore, List.mergeSort_singleton] at hrow
    cases hrow

/-- Two projects are made, the second is moved up, and then deleted while it is active. -/
theorem load_of_calm_deleted :
    ∃ shelf : Shelf, load shortTexts shelf.store = shelf.book ∧
      (shelf.book.projects.map Project.id = [⟨5⟩] ∧ shelf.book.active = some ⟨5⟩) := by
  obtain ⟨shelf, hreach, hshelf⟩ := (Machine.Reach.init rfl :
    (machine shortTexts .linux ProjectBook.slashHost strangeStore).Reach Writes
      ⟨load shortTexts strangeStore, strangeStore⟩).exists_of_exec
        [(.create ⟨"Web", "#4cc38a", "/web"⟩ 1000 ⟨5⟩, []),
          (.create ⟨"Api", "#0090ff", "/api"⟩ 1001 ⟨6⟩, []), (.move ⟨6⟩ 0, []),
          (.delete ⟨6⟩, [])]
        (fun shelf => decide (shelf.book.projects.map Project.id = [⟨5⟩] ∧
          shelf.book.active = some ⟨5⟩))
        (by decide +kernel)
  exact ⟨shelf, load_of_calm shortTexts_lawful strangeStore_settled hreach,
    of_decide_eq_true hshelf⟩

end Shelf

end Throng
