import Mathlib.Data.List.Basic

/-!
# Replacing a stretch of a list

`Patch old new first oldLast newLast` says that `new` is `old` with the entries from
`first` to `oldLast` replaced, by those from `first` to `newLast` in `new`; both
stretches have at least one entry. Patches may be widened on either side, and two whose
stretches meet in the middle list compose. Two patches in a row can always be widened
to meet, so what a series of replacements touched is one stretch.
-/

/-- `new` is `old` with its entries from `first` to `oldLast` replaced. -/
structure Patch {α : Type*} (old new : List α) (first oldLast newLast : Nat) : Prop where
  first_le_old : first ≤ oldLast
  first_le_new : first ≤ newLast
  old_lt : oldLast < old.length
  new_lt : newLast < new.length
  take : old.take first = new.take first
  drop : old.drop (oldLast + 1) = new.drop (newLast + 1)

namespace Patch

variable {α β : Type*} {a b c : List α} {first oldLast newLast : Nat}

theorem refl {i : Nat} (h : i < a.length) : Patch a a i i i :=
  ⟨Nat.le_refl i, Nat.le_refl i, h, h, rfl, rfl⟩

/-- As many entries follow the stretch on either side. -/
theorem length_eq (h : Patch a b first oldLast newLast) :
    a.length + newLast = b.length + oldLast := by
  have hdrop := congrArg List.length h.drop
  rw [List.length_drop, List.length_drop] at hdrop
  have hold := h.old_lt
  have hnew := h.new_lt
  omega

/-- A patch says less about a longer stretch. -/
theorem widen (h : Patch a b first oldLast newLast) (first' k : Nat) (hfirst : first' ≤ first)
    (hk : newLast + k < b.length) : Patch a b first' (oldLast + k) (newLast + k) := by
  have hlen := h.length_eq
  have hold := h.first_le_old
  have hnew := h.first_le_new
  refine ⟨by omega, by omega, by omega, hk, ?_, ?_⟩
  · have htake := congrArg (List.take first') h.take
    rwa [List.take_take, List.take_take, Nat.min_eq_left hfirst] at htake
  · have hdrop := congrArg (List.drop k) h.drop
    rw [List.drop_drop, List.drop_drop] at hdrop
    rw [Nat.add_right_comm oldLast, Nat.add_right_comm newLast]
    exact hdrop

/-- Patches whose stretches meet compose. -/
theorem trans {middle last : Nat} (h : Patch a b first oldLast middle)
    (h' : Patch b c first middle last) : Patch a c first oldLast last :=
  ⟨h.first_le_old, h'.first_le_new, h.old_lt, h'.new_lt, h.take.trans h'.take,
    h.drop.trans h'.drop⟩

/-- Two patches in a row, widened to the stretch that either touches in the middle
list. -/
theorem comp {low high start stop last : Nat} (h : Patch a b low oldLast high)
    (h' : Patch b c start stop last) :
    ∃ oldLast', Patch a c (min low start) oldLast' (max high stop - stop + last) := by
  have hlen := h'.length_eq
  have hstop := h'.old_lt
  have hhigh := h.new_lt
  have hlow := h.widen (min low start) (max high stop - high)
    (Nat.min_le_left low start) (by omega)
  have hnext := h'.widen (min low start) (max high stop - stop)
    (Nat.min_le_right low start) (by omega)
  have hmeet : high + (max high stop - high) = stop + (max high stop - stop) := by omega
  rw [hmeet] at hlow
  rw [Nat.add_comm last] at hnext
  exact ⟨_, hlow.trans hnext⟩

/-- The new list is the old one with the stretch spliced in. -/
theorem eq_splice (h : Patch a b first oldLast newLast) :
    b = a.take first ++ (b.take (newLast + 1)).drop first ++ a.drop (oldLast + 1) := by
  have hnew := h.first_le_new
  have hmiddle : b.take first ++ (b.take (newLast + 1)).drop first = b.take (newLast + 1) := by
    have happend := List.take_append_drop first (b.take (newLast + 1))
    rwa [List.take_take, Nat.min_eq_left (by omega)] at happend
  rw [h.take, h.drop, hmiddle, List.take_append_drop]

theorem map (h : Patch a b first oldLast newLast) (f : α → β) :
    Patch (a.map f) (b.map f) first oldLast newLast := by
  refine ⟨h.first_le_old, h.first_le_new, ?_, ?_, ?_, ?_⟩
  · rw [List.length_map]
    exact h.old_lt
  · rw [List.length_map]
    exact h.new_lt
  · rw [← List.map_take, ← List.map_take, h.take]
  · rw [← List.map_drop, ← List.map_drop, h.drop]

end Patch
