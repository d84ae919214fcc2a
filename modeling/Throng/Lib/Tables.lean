import Mathlib.Data.List.Nodup

/-!
# Tables with a key

A table is a list of rows, no two of which have the same key. An insert that conflicts with a row
updates that row instead, and no row but the one with its key.
-/

namespace Throng

namespace Tables

variable {α κ : Type*} [DecidableEq κ] (key : α → κ)

/-- Insert a row, or update the one that has its key. -/
def upsert (row : α) (update : α → α) : List α → List α
  | [] => [row]
  | old :: rows => if key old = key row then update old :: rows else old :: upsert row update rows

/-- Update the rows that have a key. -/
def updateWhere (k : κ) (update : α → α) (rows : List α) : List α :=
  rows.map fun row => if key row = k then update row else row

variable {key} {row x : α} {update : α → α} {rows : List α}

theorem upsert_of_notMem (h : key row ∉ rows.map key) :
    upsert key row update rows = rows ++ [row] := by
  induction rows with
  | nil => rfl
  | cons old rows ih =>
      rw [List.map_cons, List.mem_cons, not_or] at h
      rw [upsert, if_neg (Ne.symm h.1), ih h.2, List.cons_append]

theorem find?_upsert (hupdate : ∀ old, key old = key row → update old = row) :
    (upsert key row update rows).find? (fun x => key x = key row) = some row := by
  induction rows with
  | nil =>
      rw [upsert, List.find?_cons, decide_eq_true rfl]
  | cons old rows ih =>
      rw [upsert]
      split
      · next hold => rw [hupdate old hold, List.find?_cons, decide_eq_true rfl]
      · next hold =>
          rw [List.find?_cons, decide_eq_false hold]
          exact ih

theorem upsert_of_mem (hkeys : (rows.map key).Nodup) (h : key row ∈ rows.map key) :
    upsert key row update rows = updateWhere key (key row) update rows := by
  induction rows with
  | nil => cases h
  | cons old rows ih =>
      rw [List.map_cons, List.nodup_cons] at hkeys
      rw [upsert, updateWhere, List.map_cons]
      by_cases hold : key old = key row
      · have hothers : rows.map (fun x => if key x = key row then update x else x) = rows := by
          refine (List.map_congr_left fun x hx => ?_).trans (List.map_id rows)
          rw [if_neg, id_eq]
          intro hxrow
          exact hkeys.1 (hold.trans hxrow.symm ▸ List.mem_map_of_mem hx)
        rw [if_pos hold, if_pos hold, hothers]
      · rw [List.map_cons, List.mem_cons, or_iff_right (Ne.symm hold)] at h
        rw [if_neg hold, if_neg hold, ih hkeys.2 h, updateWhere]

theorem keys_updateWhere (hupdate : ∀ x, key (update x) = key x) (k : κ) :
    (updateWhere key k update rows).map key = rows.map key := by
  rw [updateWhere, List.map_map]
  refine List.map_congr_left fun x _ => ?_
  rw [Function.comp_apply]
  split
  · exact hupdate x
  · rfl

theorem mem_updateWhere {k : κ} : x ∈ updateWhere key k update rows ↔
    (x ∈ rows ∧ key x ≠ k) ∨ ∃ old ∈ rows, key old = k ∧ x = update old := by
  rw [updateWhere, List.mem_map]
  constructor
  · rintro ⟨old, hold, rfl⟩
    split
    · next hk => exact .inr ⟨old, hold, hk, rfl⟩
    · next hk => exact .inl ⟨hold, hk⟩
  · rintro (⟨hx, hk⟩ | ⟨old, hold, hk, rfl⟩)
    · exact ⟨x, hx, if_neg hk⟩
    · exact ⟨old, hold, if_pos hk⟩

/-- Rows that the updated one is not among are left alone. -/
theorem filter_updateWhere {k : κ} {p : α → Bool}
    (h : ∀ x ∈ rows, key x = k → p x = false ∧ p (update x) = false) :
    (updateWhere key k update rows).filter p = rows.filter p := by
  induction rows with
  | nil => rfl
  | cons old rows ih =>
      have hrest := ih fun x hx => h x (List.mem_cons_of_mem _ hx)
      rw [updateWhere] at hrest ⊢
      rw [List.map_cons]
      split
      · next hk =>
          obtain ⟨hold, hnew⟩ := h old List.mem_cons_self hk
          rw [List.filter_cons_of_neg (Bool.eq_false_iff.1 hnew), hrest,
            List.filter_cons_of_neg (Bool.eq_false_iff.1 hold)]
      · rw [List.filter_cons, List.filter_cons, hrest]

end Tables

end Throng
