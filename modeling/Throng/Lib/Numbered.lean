import Mathlib.Data.List.Nodup

/-!
# Numbering what occurs again

The entries of a list, each with the number of times it has occurred before. The pairs are
distinct, so names made from them are distinct if and only if they tell the pairs apart.
-/

namespace Numbered

variable {α β : Type*} [DecidableEq α]

/-- One more has been counted. -/
def count (counts : α → Nat) (a : α) : α → Nat := fun b => if b = a then counts a + 1 else counts b

/-- The entries with their numbers, `counts` having occurred already. -/
def indexed : (α → Nat) → List α → List (α × Nat)
  | _, [] => []
  | counts, a :: l => (a, counts a) :: indexed (count counts a) l

@[simp] theorem count_self (counts : α → Nat) (a : α) : count counts a a = counts a + 1 :=
  if_pos rfl

theorem count_of_ne (counts : α → Nat) {a b : α} (h : b ≠ a) : count counts a b = counts b :=
  if_neg h

theorem indexed_append (counts : α → Nat) (l l' : List α) :
    indexed counts (l ++ l') = indexed counts l ++ indexed (l.foldl count counts) l' := by
  induction l generalizing counts with
  | nil => rfl
  | cons a l ih =>
      rw [List.cons_append, indexed, indexed, ih, List.cons_append]
      rfl

/-- An entry is numbered from what had occurred up to its last occurrence. -/
theorem mem_indexed [BEq α] [LawfulBEq α] {counts : α → Nat} {l : List α} {a : α} {n : Nat} :
    (a, n) ∈ indexed counts l ↔ counts a ≤ n ∧ n < counts a + l.count a := by
  induction l generalizing counts with
  | nil =>
      rw [indexed, List.count_nil]
      exact ⟨nofun, fun ⟨hle, hlt⟩ => absurd hle (Nat.not_le.2 hlt)⟩
  | cons b l ih =>
      rw [indexed, List.mem_cons, ih, List.count_cons, Prod.mk.injEq]
      by_cases h : a = b
      · subst h
        rw [count_self, if_pos (beq_self_eq_true a), eq_self_iff_true, true_and]
        omega
      · rw [count_of_ne counts h, if_neg (by simpa using Ne.symm h), Nat.add_zero]
        exact ⟨fun hmem => hmem.resolve_left fun heq => h heq.1, .inr⟩

theorem nodup_indexed (counts : α → Nat) (l : List α) : (indexed counts l).Nodup := by
  induction l generalizing counts with
  | nil => exact List.nodup_nil
  | cons a l ih =>
      refine List.nodup_cons.2 ⟨fun hmem => ?_, ih _⟩
      have hle := (mem_indexed.1 hmem).1
      rw [count_self] at hle
      exact Nat.not_succ_le_self _ hle

/-- The names are distinct if and only if no two of the pairs have one. -/
theorem nodup_map_indexed [BEq α] [LawfulBEq α] (name : α × Nat → β) (l : List α) :
    ((indexed (fun _ => 0) l).map name).Nodup ↔
      ∀ a b m n, m < l.count a → n < l.count b → name (a, m) = name (b, n) → a = b ∧ m = n := by
  rw [List.nodup_map_iff_inj_on (nodup_indexed _ l)]
  constructor
  · intro h a b m n hm hn heq
    have hmem (c : α) (k : Nat) (hk : k < l.count c) : (c, k) ∈ indexed (fun _ => 0) l :=
      mem_indexed.2 ⟨Nat.zero_le k, by rwa [Nat.zero_add]⟩
    exact Prod.mk.inj (h _ (hmem a m hm) _ (hmem b n hn) heq)
  · rintro h ⟨a, m⟩ ha ⟨b, n⟩ hb heq
    have hm := (mem_indexed.1 ha).2
    have hn := (mem_indexed.1 hb).2
    rw [Nat.zero_add] at hm hn
    obtain ⟨rfl, rfl⟩ := h a b m n hm hn heq
    rfl

end Numbered
