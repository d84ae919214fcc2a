import Mathlib.Data.List.Basic

/-!
# Frames on a stream that may be cut

A reader takes one item at a time off a stream until it cannot. A frame delimits its item when the
reader takes the item off whatever follows the frame, and gives up on every part of the frame that
is not the whole of it. Of a stream of such frames, cut anywhere, the reader gets the items whose
frames came whole.
-/

namespace Throng

namespace Framed

variable {α β ε : Type*} (read : List β → Except ε (α × List β)) (closed : ε)

/-- The items that are read until one cannot be, and what that one failed with. -/
def readAll : Nat → List β → List α × Option ε
  | 0, _ => ([], none)
  | fuel + 1, stream =>
      match read stream with
      | .error reason => ([], some reason)
      | .ok (item, rest) => (item :: (readAll fuel rest).1, (readAll fuel rest).2)

def Delimits (item : α) (frame : List β) : Prop :=
  (∀ rest, read (frame ++ rest) = .ok (item, rest)) ∧
    ∀ k < frame.length, read (frame.take k) = .error closed

/-- How many of the frames the first `k` of their bytes hold. -/
def whole : List (List β) → Nat → Nat
  | [], _ => 0
  | frame :: frames, k => if frame.length ≤ k then whole frames (k - frame.length) + 1 else 0

theorem whole_le (frames : List (List β)) (k : Nat) : whole frames k ≤ frames.length := by
  induction frames generalizing k with
  | nil => exact Nat.le_refl 0
  | cons frame frames ih =>
      rw [whole, List.length_cons]
      split
      · exact Nat.succ_le_succ (ih _)
      · exact Nat.zero_le _

theorem flatten_take_whole_le (frames : List (List β)) (k : Nat) :
    (frames.take (whole frames k)).flatten.length ≤ k := by
  induction frames generalizing k with
  | nil => exact Nat.zero_le k
  | cons frame frames ih =>
      rw [whole]
      split
      · next hframe =>
          rw [List.take_succ_cons, List.flatten_cons, List.length_append]
          have := ih (k - frame.length)
          omega
      · exact Nat.zero_le k

theorem whole_le_length_take {frames : List (List β)} (h : ∀ frame ∈ frames, 0 < frame.length)
    (k : Nat) : whole frames k ≤ (frames.flatten.take k).length := by
  induction frames generalizing k with
  | nil => exact Nat.zero_le _
  | cons frame frames ih =>
      have hframe := h frame List.mem_cons_self
      rw [whole]
      split
      · next hle =>
          have := ih (fun frame hmem => h frame (List.mem_cons_of_mem _ hmem)) (k - frame.length)
          rw [List.length_take] at this ⊢
          rw [List.flatten_cons, List.length_append]
          omega
      · exact Nat.zero_le _

theorem lt_flatten_take_succ_whole (frames : List (List β)) (k : Nat)
    (h : whole frames k < frames.length) :
    k < (frames.take (whole frames k + 1)).flatten.length := by
  induction frames generalizing k with
  | nil => cases h
  | cons frame frames ih =>
      rw [whole] at h ⊢
      rw [List.take_succ_cons, List.flatten_cons, List.length_append]
      split at h
      · next hframe =>
          rw [if_pos hframe]
          have := ih (k - frame.length) (Nat.lt_of_succ_lt_succ h)
          omega
      · next hframe =>
          rw [if_neg hframe]
          omega

variable {read closed}

theorem readAll_take {items : List α} {frame : α → List β}
    (h : ∀ item ∈ items, Delimits read closed item (frame item)) (hnil : read [] = .error closed)
    (k fuel : Nat) (hfuel : whole (items.map frame) k < fuel) :
    readAll read fuel ((items.map frame).flatten.take k) =
      (items.take (whole (items.map frame) k), some closed) := by
  induction items generalizing k fuel with
  | nil =>
      obtain ⟨fuel, rfl⟩ := Nat.exists_eq_succ_of_ne_zero (Nat.ne_of_gt (Nat.zero_lt_of_lt hfuel))
      rw [List.map_nil, List.flatten_nil, List.take_nil, readAll, hnil]
      rfl
  | cons item items ih =>
      obtain ⟨fuel, rfl⟩ := Nat.exists_eq_succ_of_ne_zero (Nat.ne_of_gt (Nat.zero_lt_of_lt hfuel))
      have hitem := h item List.mem_cons_self
      rw [List.map_cons, whole] at hfuel
      rw [List.map_cons, List.flatten_cons, whole, readAll]
      by_cases hframe : (frame item).length ≤ k
      · obtain ⟨n, rfl⟩ := Nat.exists_eq_add_of_le hframe
        rw [if_pos hframe, Nat.add_sub_cancel_left] at hfuel
        have hrest := ih (fun item hmem => h item (List.mem_cons_of_mem _ hmem)) n fuel
          (Nat.lt_of_succ_lt_succ hfuel)
        rw [if_pos hframe, List.take_length_add_append, hitem.1, Nat.add_sub_cancel_left,
          List.take_succ_cons]
        dsimp only
        rw [hrest]
      · have hlt : k < (frame item).length := Nat.lt_of_not_le hframe
        rw [if_neg hframe, List.take_append_of_le_length (Nat.le_of_lt hlt), hitem.2 k hlt]
        rfl

end Framed

end Throng
