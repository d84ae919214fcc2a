import Mathlib.Algebra.BigOperators.Intervals
import Mathlib.Tactic.Abel

/-!
# Trees in an array

A binary tree can stand in an array without pointers: the children of the node at `i`
are at `2 * i + 1` and `2 * i + 2`. The indices below the two children are disjoint,
and what is added up along the tree is what is added up along the array.
-/

namespace Heap

open Finset

/-- Whether `j` is at or below `i`: some ancestor of `j` is `i`, counted from one. -/
def Under (i j : ℕ) : Prop := ∃ k, (j + 1) / 2 ^ k = i + 1

variable {i j : ℕ}

theorem Under.refl (i : ℕ) : Under i i := ⟨0, by rw [pow_zero, Nat.div_one]⟩

theorem Under.le (h : Under i j) : i ≤ j := by
  obtain ⟨k, hk⟩ := h
  have hle : (j + 1) / 2 ^ k ≤ j + 1 := Nat.div_le_self _ _
  omega

/-- What is below a child is below its parent. -/
theorem under_of_half {c : ℕ} (h : Under c j) (hc : (c + 1) / 2 = i + 1) : Under i j := by
  obtain ⟨k, hk⟩ := h
  refine ⟨k + 1, ?_⟩
  rw [pow_succ, ← Nat.div_div_eq_div_mul, hk, hc]

theorem Under.of_left (h : Under (2 * i + 1) j) : Under i j := under_of_half h (by omega)

theorem Under.of_right (h : Under (2 * i + 2) j) : Under i j := under_of_half h (by omega)

/-- Of two different ancestors of an index the further one is at most half the nearer one. -/
theorem half_le {a b k l : ℕ} (ha : (j + 1) / 2 ^ k = a) (hb : (j + 1) / 2 ^ l = b)
    (hlt : k < l) : b ≤ a / 2 := by
  obtain ⟨d, rfl⟩ := Nat.exists_eq_add_of_lt hlt
  rw [← hb, ← ha, Nat.add_assoc, pow_add, ← Nat.div_div_eq_div_mul, Nat.add_comm d, pow_add,
    pow_one, ← Nat.div_div_eq_div_mul]
  exact Nat.div_le_self _ _

/-- Nothing is below both children. -/
theorem not_under_right (hleft : Under (2 * i + 1) j) : ¬ Under (2 * i + 2) j := by
  rintro ⟨l, hl⟩
  obtain ⟨k, hk⟩ := hleft
  rcases Nat.lt_trichotomy k l with hlt | rfl | hgt
  · have hle := half_le hk hl hlt
    omega
  · omega
  · have hle := half_le hl hk hgt
    omega

variable {M : Type*} [AddCommMonoid M] {f total : ℕ → M} {n : ℕ}

/-- The nodes before `m` and the trees that hang from them make up the whole tree. -/
theorem sum_add_sum_total (hin : ∀ i < n, total i = f i + total (2 * i + 1) + total (2 * i + 2))
    {m : ℕ} (hm : m ≤ n) :
    ∑ i ∈ range m, f i + ∑ i ∈ Ico m (2 * m + 1), total i = total 0 := by
  induction m with
  | zero => rw [range_zero, sum_empty, zero_add, Nat.mul_zero, Nat.Ico_succ_singleton,
      sum_singleton]
  | succ m ih =>
      have hlast : ∑ i ∈ Ico (m + 1) (2 * (m + 1) + 1), total i =
          ∑ i ∈ Ico (m + 1) (2 * m + 1), total i + total (2 * m + 1) + total (2 * m + 2) := by
        rw [show 2 * (m + 1) + 1 = 2 * m + 1 + 1 + 1 from rfl, sum_Ico_succ_top (by omega),
          sum_Ico_succ_top (by omega)]
      have hfirst : ∑ i ∈ Ico m (2 * m + 1), total i =
          total m + ∑ i ∈ Ico (m + 1) (2 * m + 1), total i := sum_eq_sum_Ico_succ_bot (by omega) _
      rw [← ih (by omega), hlast, hfirst, hin m (by omega), sum_range_succ]
      abel

/-- What is added up along the tree is what is added up along the array. -/
theorem total_zero (hin : ∀ i < n, total i = f i + total (2 * i + 1) + total (2 * i + 2))
    (hout : ∀ i, n ≤ i → total i = 0) : total 0 = ∑ i ∈ range n, f i := by
  have hsum := sum_add_sum_total hin (le_refl n)
  rw [sum_eq_zero fun i hi => hout i (mem_Ico.mp hi).1, add_zero] at hsum
  exact hsum.symm

end Heap
