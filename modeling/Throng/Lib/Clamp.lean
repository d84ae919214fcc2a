import Mathlib.Order.MinMax
import Mathlib.Order.BoundedOrder.Lattice
import Mathlib.Order.Monotone.Basic

/-!
# Clamping a chain of maps

A value goes through a list of monotone maps; `clamped` bounds it after every one of them,
`run` never does. Only the last bound that takes effect shows in the end, and it shows as
the bound put through the maps that are left. So the two runs end alike exactly when,
wherever the plain run is above the bound, the maps that are left take both to the same
place. `floor` lets the ends be compared from a value on.
-/

namespace Clamp

variable {α : Type*}

/-- The maps one after the other. -/
def run (fs : List (α → α)) (x : α) : α := fs.foldl (fun x f => f x) x

@[simp] theorem run_nil (x : α) : run [] x = x := rfl

@[simp] theorem run_cons (f : α → α) (fs : List (α → α)) (x : α) :
    run (f :: fs) x = run fs (f x) := rfl

theorem run_append (fs gs : List (α → α)) (x : α) : run (fs ++ gs) x = run gs (run fs x) :=
  List.foldl_append

variable [LinearOrder α]

/-- The maps one after the other, each result bounded. -/
def clamped (bound : α) (fs : List (α → α)) (x : α) : α :=
  fs.foldl (fun x f => min (f x) bound) x

variable {bound x floor : α} {fs : List (α → α)}

theorem clamped_append (fs gs : List (α → α)) (x : α) :
    clamped bound (fs ++ gs) x = clamped bound gs (clamped bound fs x) := List.foldl_append

theorem run_mono (h : ∀ f ∈ fs, Monotone f) : Monotone (run fs) := by
  induction fs with
  | nil => exact fun _ _ hle => hle
  | cons f fs ih =>
      intro x y hle
      exact ih (fun g hg => h g (List.mem_cons_of_mem _ hg)) (h f List.mem_cons_self hle)

theorem clamped_mono (h : ∀ f ∈ fs, Monotone f) : Monotone (clamped bound fs) := by
  induction fs with
  | nil => exact fun _ _ hle => hle
  | cons f fs ih =>
      intro x y hle
      exact ih (fun g hg => h g (List.mem_cons_of_mem _ hg))
        (min_le_min_right bound (h f List.mem_cons_self hle))

theorem clamped_le_run (h : ∀ f ∈ fs, Monotone f) : clamped bound fs x ≤ run fs x := by
  induction fs generalizing x with
  | nil => exact le_refl x
  | cons f fs ih =>
      have hrest : ∀ g ∈ fs, Monotone g := fun g hg => h g (List.mem_cons_of_mem _ hg)
      exact (ih hrest).trans (run_mono hrest (min_le_left _ _))

theorem clamped_le_bound (hne : fs ≠ []) : clamped bound fs x ≤ bound := by
  obtain ⟨init, last, rfl⟩ := List.eq_nil_or_concat fs |>.resolve_left hne
  rw [List.concat_eq_append, clamped_append]
  exact min_le_right _ _

/-- The last bound that takes effect. -/
theorem clamped_cases (h : ∀ f ∈ fs, Monotone f) (x : α) : clamped bound fs x = run fs x ∨
    ∃ done rest, fs = done ++ rest ∧ done ≠ [] ∧ bound < run done x ∧
      clamped bound fs x = run rest bound := by
  induction fs generalizing x with
  | nil => exact .inl rfl
  | cons f fs ih =>
      have hrest : ∀ g ∈ fs, Monotone g := fun g hg => h g (List.mem_cons_of_mem _ hg)
      rcases ih hrest (min (f x) bound) with hplain | ⟨done, rest, rfl, -, hover, hlast⟩
      · rcases le_or_gt (f x) bound with hle | hover
        · refine .inl (Eq.trans hplain ?_)
          rw [min_eq_left hle, run_cons]
        · refine .inr ⟨[f], fs, rfl, List.cons_ne_nil _ _, hover, Eq.trans hplain ?_⟩
          rw [min_eq_right hover.le]
      · refine .inr ⟨f :: done, rest, rfl, List.cons_ne_nil _ _, ?_, hlast⟩
        exact hover.trans_le (run_mono (fun g hg => hrest g (List.mem_append_left _ hg))
          (min_le_left _ _))

/-- From `floor` on, bounding every step ends where no bounding does exactly when the bound
and what was above it end there too. -/
theorem clamped_eq_iff (h : ∀ f ∈ fs, Monotone f) : max (clamped bound fs x) floor =
      max (run fs x) floor ↔
    ∀ done rest, fs = done ++ rest → done ≠ [] →
      run done x ≤ bound ∨ max (run rest bound) floor = max (run fs x) floor := by
  constructor
  · rintro heq done rest rfl hne
    rcases le_or_gt (run done x) bound with hle | hover
    · exact .inl hle
    · have hdone : ∀ f ∈ done, Monotone f := fun f hf => h f (List.mem_append_left _ hf)
      have hrest : ∀ f ∈ rest, Monotone f := fun f hf => h f (List.mem_append_right _ hf)
      have hbelow : run rest bound ≤ run (done ++ rest) x := by
        rw [run_append]
        exact run_mono hrest hover.le
      have habove : clamped bound (done ++ rest) x ≤ run rest bound := by
        rw [clamped_append]
        exact (clamped_le_run hrest).trans (run_mono hrest (clamped_le_bound hne))
      refine .inr (le_antisymm (max_le_max hbelow le_rfl) ?_)
      rw [← heq]
      exact max_le_max habove le_rfl
  · intro hall
    rcases clamped_cases h x with hplain | ⟨done, rest, hsplit, hne, hover, hlast⟩
    · rw [hplain]
    · rw [hlast]
      exact (hall done rest hsplit hne).resolve_left (not_le_of_gt hover)

/-- The same with nothing below which the ends count alike. -/
theorem clamped_eq_run_iff [OrderBot α] (h : ∀ f ∈ fs, Monotone f) :
    clamped bound fs x = run fs x ↔ ∀ done rest, fs = done ++ rest → done ≠ [] →
      run done x ≤ bound ∨ run rest bound = run fs x := by
  have hfloor := @clamped_eq_iff α _ bound x ⊥ fs h
  simpa only [max_bot_right] using hfloor

end Clamp
