import Mathlib.Data.List.Basic
import Mathlib.Tactic.Tauto

/-!
# Items kept while they are shown

Views show items by key. An item is kept as long as a view shows it: closing the last of
its views drops it. Closing several views one after the other drops exactly the items
that all stand among them.
-/

/-- What each view shows, and the items. -/
structure Views (ι κ α : Type*) where
  shown : ι → Option κ
  item : κ → Option α

namespace Views

variable {ι κ α : Type*}

/-- No view but `i` shows `key`. -/
def Sole (v : Views ι κ α) (i : ι) (key : κ) : Prop :=
  v.shown i = some key ∧ ∀ j, v.shown j = some key → j = i

open scoped Classical in
noncomputable def close (v : Views ι κ α) (i : ι) : Views ι κ α where
  shown j := if j = i then none else v.shown j
  item key := if v.Sole i key then none else v.item key

noncomputable def closeAll (v : Views ι κ α) (closed : List ι) : Views ι κ α :=
  closed.foldl close v

/-- A view that is not among those closed shows the key. -/
def Stays (v : Views ι κ α) (closed : List ι) (key : κ) : Prop :=
  ∃ j, j ∉ closed ∧ v.shown j = some key

variable {v : Views ι κ α} {i : ι} {closed : List ι} {key : κ}

@[simp] theorem closeAll_nil (v : Views ι κ α) : v.closeAll [] = v := rfl

theorem closeAll_cons (v : Views ι κ α) (i : ι) (closed : List ι) :
    v.closeAll (i :: closed) = (v.close i).closeAll closed := rfl

theorem shown_close (j : ι) : (v.close i).shown j = some key ↔ j ≠ i ∧ v.shown j = some key := by
  rw [close]
  dsimp only
  split_ifs with h <;> simp [h]

theorem shown_closeAll (j : ι) :
    (v.closeAll closed).shown j = some key ↔ j ∉ closed ∧ v.shown j = some key := by
  induction closed generalizing v with
  | nil => simp
  | cons i closed ih =>
      rw [closeAll_cons, ih, shown_close, List.mem_cons, not_or]
      tauto

theorem item_close_of_ne (h : ¬ v.Sole i key) : (v.close i).item key = v.item key := by
  rw [close]
  exact if_neg h

/-- A key that a view keeps showing keeps its item. -/
theorem item_closeAll_of_stays (h : v.Stays closed key) :
    (v.closeAll closed).item key = v.item key := by
  induction closed generalizing v with
  | nil => rfl
  | cons i closed ih =>
      obtain ⟨j, hj, hshown⟩ := h
      rw [List.mem_cons, not_or] at hj
      rw [closeAll_cons, ih ⟨j, hj.2, shown_close j |>.mpr ⟨hj.1, hshown⟩⟩]
      refine item_close_of_ne fun hsole => hj.1 (hsole.2 j hshown)

/-- Closing views keeps the items of the wanted keys that were shown, with a view each,
exactly if each such key that a closed view shows is shown by one that stays. -/
theorem kept_closeAll_iff (v : Views ι κ α) (closed : List ι) (wanted : κ → Prop) :
    (∀ key, wanted key → (∃ i, v.shown i = some key) →
        (v.closeAll closed).item key = v.item key ∧
          ∃ i, (v.closeAll closed).shown i = some key) ↔
      ∀ key, wanted key → (∃ i ∈ closed, v.shown i = some key) → v.Stays closed key := by
  constructor
  · rintro h key hwanted ⟨i, -, hshown⟩
    obtain ⟨-, j, hj⟩ := h key hwanted ⟨i, hshown⟩
    obtain ⟨hclosed, hshown⟩ := (shown_closeAll j).mp hj
    exact ⟨j, hclosed, hshown⟩
  · rintro h key hwanted ⟨i, hshown⟩
    have hstays : v.Stays closed key := by
      by_cases hi : i ∈ closed
      · exact h key hwanted ⟨i, hi, hshown⟩
      · exact ⟨i, hi, hshown⟩
    obtain ⟨j, hj, hshown'⟩ := hstays
    refine ⟨item_closeAll_of_stays ⟨j, hj, hshown'⟩, j, ?_⟩
    exact (shown_closeAll j).mpr ⟨hj, hshown'⟩

end Views
