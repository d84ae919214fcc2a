import Mathlib.Data.List.Nodup

/-!
# Passes over keys

A pass visits keys one after the other. A visit reads and changes only what the
state holds for its own key, and appends what it emits to an output. So what a
pass over distinct keys does to one key, and what it emits for it, can be told
from what the state held for that key before the pass.
-/

namespace List

variable {σ α : Type*} {f : σ → α → σ} {P : σ → Prop}

/-- What every element keeps holds after a fold. -/
theorem foldl_keeps {l : List α} {s : σ} (hkeep : ∀ s, ∀ a ∈ l, P s → P (f s a)) (h : P s) :
    P (l.foldl f s) :=
  foldlRecOn l f h fun t ht a ha => hkeep t a ha ht

/-- What every element keeps holds after a fold that may stop. -/
theorem foldlM_keeps {f : σ → α → Option σ} {l : List α} {s s' : σ}
    (hkeep : ∀ s, ∀ a ∈ l, ∀ s', f s a = some s' → P s → P s')
    (hs : l.foldlM f s = some s') (h : P s) : P s' := by
  induction l generalizing s with
  | nil =>
      cases hs
      exact h
  | cons a l ih =>
      obtain ⟨t, ht, hs⟩ := Option.bind_eq_some_iff.mp hs
      exact ih (fun s b hb => hkeep s b (mem_cons_of_mem _ hb)) hs
        (hkeep s a mem_cons_self t ht h)

/-- What one element brings about under an invariant, and every element keeps, holds after
a fold. -/
theorem foldl_settles_of {I : σ → Prop} {l : List α} {a : α} (ha : a ∈ l)
    (hinv : ∀ s, ∀ b ∈ l, I s → I (f s b)) (hkeep : ∀ s, ∀ b ∈ l, P s → P (f s b))
    (hset : ∀ s, I s → P (f s a)) {s : σ} (h : I s) : P (l.foldl f s) := by
  induction l generalizing s with
  | nil => simp at ha
  | cons first l ih =>
      rw [foldl_cons]
      have hrest : ∀ s, ∀ b ∈ l, P s → P (f s b) := fun s b hb =>
        hkeep s b (mem_cons_of_mem _ hb)
      rcases mem_cons.mp ha with rfl | hmem
      · exact foldl_keeps hrest (hset s h)
      · exact ih hmem (fun s b hb => hinv s b (mem_cons_of_mem _ hb)) hrest
          (hinv s first mem_cons_self h)

/-- What one element brings about and every element keeps holds after a fold. -/
theorem foldl_settles {l : List α} {a : α} (ha : a ∈ l) (hkeep : ∀ s, ∀ b ∈ l, P s → P (f s b))
    (hset : ∀ s, P (f s a)) {s : σ} : P (l.foldl f s) :=
  foldl_settles_of (I := fun _ => True) ha (fun _ _ _ => id) hkeep (fun s _ => hset s) trivial

end List

/-- A pass: what the state holds for a key, what a visit does to it, and what it emits. -/
structure Sweep (σ κ ν ω : Type*) where
  visit : σ → κ → σ
  view : σ → κ → ν
  out : σ → List ω
  turn : κ → ν → ν
  emit : κ → ν → List ω
  view_self : ∀ s key, view (visit s key) key = turn key (view s key)
  view_other : ∀ s key other, other ≠ key → view (visit s key) other = view s other
  out_visit : ∀ s key, out (visit s key) = out s ++ emit key (view s key)

namespace Sweep

variable {σ κ ν ω : Type*} (S : Sweep σ κ ν ω)

/-- Visit the keys one after the other. -/
def run (s : σ) (keys : List κ) : σ := keys.foldl S.visit s

@[simp] theorem run_nil (s : σ) : S.run s [] = s := rfl

theorem run_cons (s : σ) (key : κ) (keys : List κ) :
    S.run s (key :: keys) = S.run (S.visit s key) keys := rfl

/-- A key that is not visited keeps what is held for it. -/
theorem view_run_of_notMem {s : σ} {keys : List κ} {key : κ} (h : key ∉ keys) :
    S.view (S.run s keys) key = S.view s key := by
  induction keys generalizing s with
  | nil => rfl
  | cons first keys ih =>
      rw [List.mem_cons, not_or] at h
      rw [run_cons, ih h.2, S.view_other s first key h.1]

/-- What a pass emits is what each key emits from what was held for it before. -/
theorem out_run {s : σ} {keys : List κ} (hnodup : keys.Nodup) :
    S.out (S.run s keys) = S.out s ++ keys.flatMap fun key => S.emit key (S.view s key) := by
  induction keys generalizing s with
  | nil => simp
  | cons first keys ih =>
      obtain ⟨hfirst, hnodup⟩ := List.nodup_cons.mp hnodup
      rw [run_cons, ih hnodup, S.out_visit, List.flatMap_cons, List.append_assoc]
      congr 2
      refine List.flatMap_congr fun key hkey => ?_
      have hne : key ≠ first := by
        rintro rfl
        exact hfirst hkey
      rw [S.view_other s first key hne]

/-- What one key emits is part of what the pass emits. -/
theorem mem_out_run {s : σ} {keys : List κ} (hnodup : keys.Nodup) (output : ω) :
    output ∈ S.out (S.run s keys) ↔
      output ∈ S.out s ∨ ∃ key ∈ keys, output ∈ S.emit key (S.view s key) := by
  rw [S.out_run hnodup, List.mem_append, List.mem_flatMap]

end Sweep
