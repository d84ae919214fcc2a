import Mathlib.Data.List.Basic

/-!
# A list with a place in it

A zipper is a list seen from one of its elements: what comes before it and what comes after
it, each with the nearest first. `Shows l i z` says that the zipper is the list `l` seen
from its element at `i`, and every operation on zippers has its counterpart on the pair of
a list and a number.
-/

/-- The elements before the current one and after it, the nearest first. -/
structure Zipper (α : Type*) where
  past : List α
  current : α
  future : List α
deriving DecidableEq, Repr

namespace Zipper

variable {α : Type*}

/-- The zipper of one element. -/
def single (a : α) : Zipper α := ⟨[], a, []⟩

/-- All the elements in order. -/
def toList (z : Zipper α) : List α := z.past.reverse ++ z.current :: z.future

/-- Another element in the place of the current one. -/
def put (a : α) (z : Zipper α) : Zipper α := { z with current := a }

/-- A new element after the current one; what came after it goes. -/
def visit (a : α) (z : Zipper α) : Zipper α := ⟨z.current :: z.past, a, []⟩

/-- One element back. -/
def back (z : Zipper α) : Option (Zipper α) :=
  z.past.head?.map fun a => ⟨z.past.tail, a, z.current :: z.future⟩

/-- One element on. -/
def forward (z : Zipper α) : Option (Zipper α) :=
  z.future.head?.map fun a => ⟨z.current :: z.past, a, z.future.tail⟩

/-- The current element with at most `n - 1` others: the farthest past ones go first, then
the farthest to come. -/
def keep (n : Nat) (z : Zipper α) : Zipper α :=
  ⟨z.past.take (n - 1 - z.future.length), z.current, z.future.take (n - 1)⟩

theorem length_toList (z : Zipper α) :
    z.toList.length = z.past.length + 1 + z.future.length := by
  rw [toList, List.length_append, List.length_reverse, List.length_cons]
  omega

theorem length_toList_keep {n : Nat} (hn : 0 < n) (z : Zipper α) :
    (z.keep n).toList.length = min z.toList.length n := by
  rw [length_toList, length_toList]
  simp only [keep, List.length_take]
  omega

theorem keep_single (n : Nat) (a : α) : (single a).keep n = single a := by
  rw [single, keep, List.take_nil, List.take_nil]

/-- Only the oldest go when nothing is to come. -/
theorem exists_toList_keep {n : Nat} (hn : 0 < n) {z : Zipper α} (h : z.future = []) :
    ∃ dropped, dropped ++ (z.keep n).toList = z.toList ∧
      (dropped ≠ [] → (z.keep n).toList.length = n) := by
  obtain ⟨past, current, future⟩ := z
  obtain rfl : future = [] := h
  refine ⟨(past.drop (n - 1)).reverse, ?_, ?_⟩
  · rw [toList, toList, keep, ← List.append_assoc, List.take_nil, ← List.reverse_append,
      List.length_nil, Nat.sub_zero, List.take_append_drop]
  · intro hne
    rw [ne_eq, List.reverse_eq_nil_iff, List.drop_eq_nil_iff] at hne
    rw [length_toList_keep hn, length_toList]
    dsimp only
    omega

/-- Going back and putting the element that is left there, then going on. -/
theorem forward_of_back {z z' : Zipper α} (h : z.back = some z') (a : α) :
    (z'.put a).forward = some { z with past := a :: z.past.tail } := by
  obtain ⟨b, -, rfl⟩ := Option.map_eq_some_iff.1 h
  rfl

/-! ## A list and a number -/

/-- The zipper is `l` seen from its element at `i`. -/
structure Shows (l : List α) (i : Nat) (z : Zipper α) : Prop where
  list : l = z.toList
  place : i = z.past.length

variable {l : List α} {i : Nat} {z : Zipper α} {a : α}

theorem shows_single (a : α) : Shows [a] 0 (single a) := ⟨rfl, rfl⟩

theorem Shows.lt (h : Shows l i z) : i < l.length := by
  rw [h.list, h.place, length_toList]
  omega

theorem Shows.getElem? (h : Shows l i z) : l[i]? = some z.current := by
  rw [h.list, h.place, toList, List.getElem?_append_right (Nat.le_of_eq List.length_reverse),
    List.length_reverse, Nat.sub_self, List.getElem?_cons_zero]

/-- Seen from any of its elements. -/
theorem exists_shows (h : l[i]? = some a) : ∃ z, Shows l i z ∧ z.current = a := by
  obtain ⟨hlt, rfl⟩ := List.getElem?_eq_some_iff.1 h
  refine ⟨⟨(l.take i).reverse, l[i], l.drop (i + 1)⟩, ⟨?_, ?_⟩, rfl⟩
  · rw [toList, List.reverse_reverse, ← List.drop_eq_getElem_cons hlt, List.take_append_drop]
  · rw [List.length_reverse, List.length_take_of_le (Nat.le_of_lt hlt)]

theorem Shows.unique {z' : Zipper α} (h : Shows l i z) (h' : Shows l i z') : z = z' := by
  obtain ⟨past, current, future⟩ := z
  obtain ⟨past', current', future'⟩ := z'
  have hlist := h.list.symm.trans h'.list
  have hplace := h.place.symm.trans h'.place
  simp only [toList] at hlist hplace
  obtain ⟨hpast, hrest⟩ := List.append_inj hlist (by simpa using hplace)
  obtain ⟨rfl, rfl⟩ := List.cons.inj hrest
  rw [List.reverse_injective hpast]

theorem Shows.put (h : Shows l i z) (a : α) : Shows (l.set i a) i (z.put a) where
  list := by
    rw [h.list, h.place, toList, List.set_append_right _ _ (Nat.le_of_eq List.length_reverse),
      List.length_reverse, Nat.sub_self]
    rfl
  place := h.place

/-- Cutting the list off behind the element and adding another. -/
theorem Shows.visit (h : Shows l i z) (a : α) :
    Shows (l.take (i + 1) ++ [a]) (i + 1) (z.visit a) where
  list := by
    have htake : l.take (i + 1) = z.past.reverse ++ [z.current] := by
      rw [h.list, h.place, toList, List.append_cons]
      exact List.take_left' (by simp)
    rw [htake, toList, Zipper.visit, List.reverse_cons]
  place := by rw [h.place]; rfl

theorem Shows.back_eq_none (h : Shows l i z) : z.back = none ↔ i = 0 := by
  rw [Zipper.back, Option.map_eq_none_iff, List.head?_eq_none_iff, h.place,
    List.length_eq_zero_iff]

theorem Shows.back {z' : Zipper α} (h : Shows l i z) (hback : z.back = some z') :
    0 < i ∧ Shows l (i - 1) z' := by
  obtain ⟨past, current, future⟩ := z
  obtain ⟨b, hb, rfl⟩ := Option.map_eq_some_iff.1 hback
  obtain ⟨rest, rfl⟩ := List.head?_eq_some_iff.1 hb
  rw [h.place, List.length_cons]
  refine ⟨Nat.succ_pos _, ⟨?_, ?_⟩⟩
  · rw [h.list, toList, toList, List.reverse_cons, List.append_assoc]
    rfl
  · exact Nat.add_sub_cancel _ _

theorem Shows.forward_eq_none (h : Shows l i z) : z.forward = none ↔ l.length ≤ i + 1 := by
  rw [Zipper.forward, Option.map_eq_none_iff, List.head?_eq_none_iff, h.list, h.place,
    length_toList, ← List.length_eq_zero_iff]
  omega

theorem Shows.forward {z' : Zipper α} (h : Shows l i z) (hforward : z.forward = some z') :
    i + 1 < l.length ∧ Shows l (i + 1) z' := by
  obtain ⟨past, current, future⟩ := z
  obtain ⟨b, hb, rfl⟩ := Option.map_eq_some_iff.1 hforward
  obtain ⟨rest, rfl⟩ := List.head?_eq_some_iff.1 hb
  refine ⟨?_, ⟨?_, ?_⟩⟩
  · rw [h.list, h.place, length_toList, List.length_cons]
    omega
  · rw [h.list, toList, toList, List.reverse_cons, List.append_assoc]
    rfl
  · rw [h.place]
    rfl

/-- Dropping the first elements, never the current one, and then the last ones, never it. -/
theorem Shows.keep {n : Nat} (hn : 0 < n) (h : Shows l i z) :
    Shows ((l.drop (min (l.length - n) i)).take (max n (i - min (l.length - n) i + 1)))
      (i - min (l.length - n) i) (z.keep n) := by
  have hlen : l.length = i + 1 + z.future.length := by
    rw [h.list, h.place, length_toList]
  obtain ⟨d, hd⟩ : ∃ d, d = min (l.length - n) i := ⟨_, rfl⟩
  have hpast : z.past.take (i - d) = z.past.take (n - 1 - z.future.length) := by
    rw [List.take_eq_take_iff, ← h.place]
    omega
  have hdrop : l.drop d = (z.past.take (i - d)).reverse ++ z.current :: z.future := by
    rw [h.list, toList,
      List.drop_append_of_le_length (by rw [List.length_reverse, ← h.place]; omega),
      List.drop_reverse, ← h.place]
  have hlength : (z.past.take (i - d)).reverse.length = i - d := by
    rw [List.length_reverse, List.length_take_of_le (by rw [← h.place]; omega)]
  rw [← hd]
  refine ⟨?_, ?_⟩
  · obtain ⟨m, hm⟩ : ∃ m, max n (i - d + 1) = (i - d) + (m + 1) :=
      ⟨max n (i - d + 1) - (i - d) - 1, by omega⟩
    have hfuture : z.future.take m = z.future.take (n - 1) := by
      rw [List.take_eq_take_iff]
      omega
    rw [hdrop, hm, List.take_append, List.take_of_length_le (by rw [hlength]; omega), hlength,
      Nat.add_sub_cancel_left, List.take_succ_cons, hfuture, hpast]
    rfl
  · rw [← hlength, hpast, List.length_reverse]
    rfl

end Zipper
