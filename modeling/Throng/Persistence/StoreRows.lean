import Throng.Core.ChordText
import Throng.Core.ProjectRun
import Throng.Persistence.Store

/-!
# What the store's writes do to its rows

A row that is written for a project reads as that project. An update keeps the row's creation time,
and reordering changes positions only, which reading a row does not look at.
-/

namespace Throng

/-! ## Colours -/

theorem digit_digitChar : ∀ n < 16, Colour.digit (Nat.digitChar n) = some (UInt8.ofNat n) := by
  decide

theorem isWhitespace_digitChar : ∀ n < 16, isWhitespace (Nat.digitChar n) = false := by decide

theorem ofNat_hexDigits (b : UInt8) :
    UInt8.ofNat (b.toNat / 16) * 16 + UInt8.ofNat (b.toNat % 16) = b := by
  refine UInt8.toNat_inj.1 ?_
  have hb := b.toNat_lt
  rw [UInt8.toNat_add, UInt8.toNat_mul, UInt8.toNat_ofNat', UInt8.toNat_ofNat']
  change (b.toNat / 16 % 256 * 16 % 256 + b.toNat % 16 % 256) % 256 = b.toNat
  omega

theorem Colour.parse_toHex (c : Colour) : Colour.parse c.toHex = .ok c := by
  have hhigh : ∀ b : UInt8, b.toNat / 16 < 16 := fun b => by
    have := b.toNat_lt
    omega
  have hlow : ∀ b : UInt8, b.toNat % 16 < 16 := fun b => Nat.mod_lt _ (by decide)
  have htrimmed : Trimmed ('#' :: (hexByte c.r ++ hexByte c.g ++ hexByte c.b)) := by
    refine ⟨?_, ?_⟩
    · rintro _ ⟨⟩
      rfl
    · rintro _ ⟨⟩
      exact isWhitespace_digitChar _ (hlow _)
  rw [Colour.parse, Colour.toHex, trim_of_trimmed htrimmed, String.toList_ofList]
  simp only [hexByte, List.cons_append, List.nil_append, List.mapM_cons, List.mapM_nil,
    digit_digitChar _ (hhigh _), digit_digitChar _ (hlow _), Option.bind_eq_bind,
    Option.bind_some, Option.pure_def, ofNat_hexDigits]

namespace ProjectStore

variable {texts : Texts} {store : ProjectStore} {rows : List ProjectRow} {row : ProjectRow}
  {p q : Project} {id : ProjectId} {n : Nat}

/-! ## One row -/

theorem readRow_eq_ok : readRow texts row = .ok p ↔
    texts.parseId row.id = .ok p.id ∧ row.name = p.name ∧ Colour.parse row.colour = .ok p.colour ∧
      row.root = p.root ∧ texts.parseHidden row.hiddenPaths = .ok p.hiddenPaths ∧
      row.createdAt = p.createdAt ∧ row.updatedAt = p.updatedAt := by
  rw [readRow]
  constructor
  · intro h
    split at h
    · cases h
    · next id hid =>
        split at h
        · cases h
        · next colour hcolour =>
            split at h
            · cases h
            · next hidden hhidden =>
                cases h
                exact ⟨hid, rfl, hcolour, rfl, hhidden, rfl, rfl⟩
  · rintro ⟨hid, hname, hcolour, hroot, hhidden, hcreated, hupdated⟩
    rw [hid, hcolour, hhidden]
    dsimp only
    rw [hname, hroot, hcreated, hupdated]

theorem readRow_rowFor (h : texts.Lawful) : readRow texts (rowFor texts p n) = .ok p :=
  readRow_eq_ok.2 ⟨h.id _, rfl, Colour.parse_toHex _, rfl, h.hidden _, rfl, rfl⟩

theorem readRow_createdAt (h : texts.Lawful) (createdAt : Int) :
    readRow texts { rowFor texts p n with createdAt } = .ok { p with createdAt } :=
  readRow_eq_ok.2 ⟨h.id _, rfl, Colour.parse_toHex _, rfl, h.hidden _, rfl, rfl⟩

theorem idText_injective (h : texts.Lawful) : Function.Injective texts.idText := by
  intro id id' heq
  have hid := h.id id
  rw [heq, h.id id', Except.ok.injEq] at hid
  exact hid.symm

/-! ## Where a row is put -/

/-- The position of the first of the ids that a row has, or its own. -/
def placed (texts : Texts) (entries : List (ProjectId × Nat)) (row : ProjectRow) : ProjectRow :=
  match entries.find? fun entry => row.id = texts.idText entry.1 with
  | none => row
  | some entry => { row with position := entry.2 }

theorem placed_id (entries : List (ProjectId × Nat)) : (placed texts entries row).id = row.id := by
  rw [placed]
  split <;> rfl

theorem readRow_placed (entries : List (ProjectId × Nat)) :
    readRow texts (placed texts entries row) = readRow texts row := by
  rw [placed]
  split <;> rfl

theorem foldl_updateWhere (h : texts.Lawful) {entries : List (ProjectId × Nat)}
    (hentries : (entries.map Prod.fst).Nodup) :
    entries.foldl (fun rows entry => Tables.updateWhere ProjectRow.id (texts.idText entry.1)
      (fun row => { row with position := entry.2 }) rows) rows =
        rows.map (placed texts entries) := by
  induction entries generalizing rows with
  | nil => exact (List.map_id' rows).symm
  | cons entry entries ih =>
      rw [List.map_cons, List.nodup_cons] at hentries
      rw [List.foldl_cons, ih hentries.2, Tables.updateWhere, List.map_map]
      refine List.map_congr_left fun row _ => ?_
      rw [Function.comp_apply, placed.eq_def texts (entry :: entries), List.find?_cons]
      by_cases hrow : row.id = texts.idText entry.1
      · have hnone : entries.find? (fun other => row.id = texts.idText other.1) = none := by
          refine List.find?_eq_none.2 fun other hother hid => hentries.1 ?_
          have heq := idText_injective h (hrow.symm.trans (of_decide_eq_true hid))
          exact heq ▸ List.mem_map_of_mem hother
        rw [if_pos hrow, decide_eq_true hrow, placed]
        dsimp only
        rw [hnone]
      · rw [if_neg hrow, decide_eq_false hrow, placed]

theorem setPositions_rows (h : texts.Lawful) {ids : List ProjectId} (hids : ids.Nodup) :
    (store.setPositions texts ids).projectRows =
      store.projectRows.map (placed texts ids.zipIdx) := by
  refine foldl_updateWhere h ?_
  rwa [List.zipIdx_map_fst]

theorem placed_position (h : texts.Lawful) {ids : List ProjectId} (hids : ids.Nodup) {i : Nat}
    (hi : ids[i]? = some id) (hrow : row.id = texts.idText id) :
    (placed texts ids.zipIdx row).position = i := by
  have hmem : (id, i) ∈ ids.zipIdx := List.mem_zipIdx_iff_getElem?.2 hi
  rw [placed]
  split
  · next hnone => exact absurd (decide_eq_true hrow) (List.find?_eq_none.1 hnone _ hmem)
  · next entry hentry =>
      have hfound := List.find?_some hentry
      rw [decide_eq_true_eq] at hfound
      have heq : id = entry.1 := idText_injective h (hrow.symm.trans hfound)
      have hindex := List.mem_zipIdx_iff_getElem?.1 (List.mem_of_find?_eq_some hentry)
      rw [← heq, ← hi] at hindex
      obtain ⟨hlt, -⟩ := List.getElem?_eq_some_iff.1 hi
      rw [(List.getElem?_inj hlt hids).1 hindex.symm]

/-! ## The writes -/

/-- A row that the insertion of a project at a position leaves is another project's, the project's
own, updated, or a new one. -/
theorem mem_upsertProject (hkeys : (store.projectRows.map ProjectRow.id).Nodup) :
    row ∈ (store.upsertProject texts p n).projectRows ↔
      (row ∈ store.projectRows ∧ row.id ≠ texts.idText p.id) ∨
      (∃ old ∈ store.projectRows, old.id = texts.idText p.id ∧
        row = { rowFor texts p n with createdAt := old.createdAt }) ∨
      (texts.idText p.id ∉ store.projectRows.map ProjectRow.id ∧ row = rowFor texts p n) := by
  rw [upsertProject]
  dsimp only
  by_cases hmem : (rowFor texts p n).id ∈ store.projectRows.map ProjectRow.id
  · rw [Tables.upsert_of_mem hkeys hmem, Tables.mem_updateWhere]
    refine or_congr Iff.rfl ⟨?_, ?_⟩
    · rintro ⟨old, hold, hid, rfl⟩
      refine .inl ⟨old, hold, hid, ?_⟩
      rw [hid]
    · rintro (⟨old, hold, hid, rfl⟩ | ⟨hnot, -⟩)
      · refine ⟨old, hold, hid, ?_⟩
        rw [hid]
        rfl
      · exact absurd hmem hnot
  · have hne : ∀ old ∈ store.projectRows, old.id ≠ texts.idText p.id :=
      fun old hold hid => hmem (List.mem_map.2 ⟨old, hold, hid⟩)
    rw [Tables.upsert_of_notMem hmem, List.mem_append, List.mem_singleton]
    constructor
    · rintro (hrow | rfl)
      · exact .inl ⟨hrow, hne row hrow⟩
      · exact .inr (.inr ⟨hmem, rfl⟩)
    · rintro (⟨hrow, -⟩ | ⟨old, hold, hid, -⟩ | ⟨-, rfl⟩)
      · exact .inl hrow
      · exact absurd hid (hne old hold)
      · exact .inr rfl

theorem keys_upsertProject (hkeys : (store.projectRows.map ProjectRow.id).Nodup) :
    ((store.upsertProject texts p n).projectRows.map ProjectRow.id).Nodup := by
  rw [upsertProject]
  dsimp only
  by_cases hmem : (rowFor texts p n).id ∈ store.projectRows.map ProjectRow.id
  · rw [Tables.upsert_of_mem hkeys hmem, Tables.keys_updateWhere]
    · exact hkeys
    · exact fun old => rfl
  · rw [Tables.upsert_of_notMem hmem, List.map_append]
    exact hkeys.append (List.nodup_singleton _) (List.disjoint_singleton.2 hmem)

/-! ## What cannot be read -/

/-- The rows that this build cannot read. -/
def unreadable (texts : Texts) (rows : List ProjectRow) : List ProjectRow :=
  rows.filter fun row => !(readRow texts row).toBool

theorem unreadable_upsertProject (h : texts.Lawful)
    (hkeys : (store.projectRows.map ProjectRow.id).Nodup)
    (hreadable : ∀ row ∈ store.projectRows, row.id = texts.idText p.id →
      (readRow texts row).toBool = true) :
    unreadable texts (store.upsertProject texts p n).projectRows =
      unreadable texts store.projectRows := by
  rw [upsertProject, unreadable, unreadable]
  dsimp only
  by_cases hmem : (rowFor texts p n).id ∈ store.projectRows.map ProjectRow.id
  · rw [Tables.upsert_of_mem hkeys hmem]
    refine Tables.filter_updateWhere fun row hrow hid => ?_
    rw [hreadable row hrow hid, hid]
    refine ⟨rfl, ?_⟩
    change (!(readRow texts { rowFor texts p n with createdAt := row.createdAt }).toBool) = false
    rw [readRow_createdAt h]
    rfl
  · rw [Tables.upsert_of_notMem hmem, List.filter_append]
    rw [List.filter_cons_of_neg, List.filter_nil, List.append_nil]
    rw [readRow_rowFor h]
    exact Bool.false_ne_true

theorem unreadable_setPositions (h : texts.Lawful) {ids : List ProjectId} (hids : ids.Nodup)
    (hreadable : ∀ id ∈ ids, ∀ row ∈ store.projectRows, row.id = texts.idText id →
      (readRow texts row).toBool = true) :
    unreadable texts (store.setPositions texts ids).projectRows =
      unreadable texts store.projectRows := by
  rw [setPositions_rows h hids, unreadable, unreadable, List.filter_map]
  have hfilter : (fun row => !(readRow texts row).toBool) ∘ placed texts ids.zipIdx =
      fun row => !(readRow texts row).toBool := by
    funext row
    rw [Function.comp_apply, readRow_placed]
  rw [hfilter]
  refine (List.map_congr_left fun row hrow => ?_).trans (List.map_id _)
  obtain ⟨hrow, hunreadable⟩ := List.mem_filter.1 hrow
  rw [placed, id_eq]
  split
  · rfl
  · next entry hentry =>
      have hfound := List.find?_some hentry
      rw [decide_eq_true_eq] at hfound
      have hmem : entry.1 ∈ ids :=
        List.fst_mem_of_mem_zipIdx (List.mem_of_find?_eq_some hentry)
      rw [hreadable entry.1 hmem row hrow hfound] at hunreadable
      cases hunreadable

theorem unreadable_deleteProject
    (hreadable : ∀ row ∈ store.projectRows, row.id = texts.idText id →
      (readRow texts row).toBool = true) :
    unreadable texts (store.deleteProject texts id).projectRows =
      unreadable texts store.projectRows := by
  rw [deleteProject, unreadable, unreadable, List.filter_filter]
  refine List.filter_congr fun row hrow => ?_
  by_cases hid : row.id = texts.idText id
  · rw [hreadable row hrow hid]
    rfl
  · rw [decide_eq_true hid, Bool.and_true]

/-! ## App state -/

theorem state_setState (key : String) (value : Option String) :
    (store.setState key value).state key = value := by
  cases value with
  | none =>
      rw [setState, state, List.find?_filter, Option.map_eq_none_iff, List.find?_eq_none]
      intro entry _ hentry
      simp only [decide_eq_true_eq] at hentry
      exact hentry.1 hentry.2
  | some value =>
      have hfind := @Tables.find?_upsert _ _ _ Prod.fst (key, value) (fun _ => (key, value))
        store.appState fun _ _ => rfl
      rw [setState, state]
      dsimp only at hfind ⊢
      rw [hfind]
      rfl

theorem setState_projectRows (key : String) (value : Option String) :
    (store.setState key value).projectRows = store.projectRows := by
  cases value <;> rfl

theorem activeProjectKey_ne (text : String) : activeProjectKey ≠ fileHistoryKeyPrefix ++ text := by
  intro h
  have hhead := congrArg List.head? (congrArg String.toList h)
  have hactive : activeProjectKey.toList.head? = some 'a' := by decide
  have hhistory : fileHistoryKeyPrefix.toList.head? = some 'f' := by decide
  rw [String.toList_append, List.head?_append, hactive, hhistory] at hhead
  cases hhead

theorem state_deleteProject (id : ProjectId) :
    (store.deleteProject texts id).state activeProjectKey = store.state activeProjectKey := by
  have hsame : (fun entry : String × String => decide (decide (entry.1 ≠ fileHistoryKeyPrefix ++
      texts.idText id) = true ∧ decide (entry.1 = activeProjectKey) = true)) =
        fun entry => decide (entry.1 = activeProjectKey) := by
    funext entry
    rw [decide_eq_decide, decide_eq_true_eq, decide_eq_true_eq, and_iff_right_iff_imp]
    intro hkey
    rw [hkey]
    exact activeProjectKey_ne _
  rw [deleteProject, state, state, List.find?_filter, hsame]

end ProjectStore

end Throng
