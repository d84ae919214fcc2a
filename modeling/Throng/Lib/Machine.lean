import Mathlib.Logic.Basic
import Mathlib.Data.Option.Basic

/-!
# Guarded machines and their runs

A machine has a set of initial states and a partial step function that reads
one action at a time; an action that is not enabled has no successor. A run may
be restricted by a condition `ok` on every step it takes, read in the state
before the step. `Machine.Reach ok` collects the states of the restricted runs,
so a property of every run is the case `ok = anyStep`, and a property of the
runs that keep away from some steps is the same statement with a smaller `ok`.
-/

/-- A machine: its initial states, and the state each enabled action leads to. -/
structure Machine (σ α : Type*) where
  init : σ → Prop
  step : σ → α → Option σ

namespace Machine

variable {σ α τ β : Type*}

/-- The condition that every step meets. -/
def anyStep (_ : σ) (_ : α) : Prop := True

instance : DecidableRel (anyStep : σ → α → Prop) := fun _ _ => isTrue trivial

/-- The states reached from an initial state by steps that all meet `ok`. -/
inductive Reach (M : Machine σ α) (ok : σ → α → Prop) : σ → Prop
  | init {s : σ} : M.init s → Reach M ok s
  | step {s s' : σ} {a : α} :
      Reach M ok s → ok s a → M.step s a = some s' → Reach M ok s'

/-- A step that a run takes whose steps all meet `ok`. -/
structure Taken (M : Machine σ α) (ok : σ → α → Prop) (s : σ) (a : α) (s' : σ) : Prop where
  reach : Reach M ok s
  ok : ok s a
  step : M.step s a = some s'

/-- The run rule: what holds initially and is preserved by every step that meets
`ok` holds in every state reached by such steps. -/
theorem Reach.invariant {M : Machine σ α} {ok : σ → α → Prop} {P : σ → Prop}
    (hinit : ∀ s, M.init s → P s)
    (hstep : ∀ s a s', P s → ok s a → M.step s a = some s' → P s')
    {s : σ} (h : M.Reach ok s) : P s := by
  induction h with
  | init h => exact hinit _ h
  | step _ hok hs ih => exact hstep _ _ _ ih hok hs

/-- The run rule when the step may also use that its first state is reached. -/
theorem Reach.invariant' {M : Machine σ α} {ok : σ → α → Prop} {P : σ → Prop}
    (hinit : ∀ s, M.init s → P s)
    (hstep : ∀ s a s', M.Reach ok s → P s → ok s a → M.step s a = some s' → P s')
    {s : σ} (h : M.Reach ok s) : P s := by
  induction h with
  | init h => exact hinit _ h
  | step hr hok hs ih => exact hstep _ _ _ hr ih hok hs

/-- Run the actions one after the other, as long as each is enabled and meets `ok`. -/
def exec (M : Machine σ α) (ok : σ → α → Prop) [DecidableRel ok] : σ → List α → Option σ
  | s, [] => some s
  | s, a :: as => if ok s a then (M.step s a).bind fun s' => exec M ok s' as else none

@[simp] theorem exec_nil (M : Machine σ α) (ok : σ → α → Prop) [DecidableRel ok] (s : σ) :
    M.exec ok s [] = some s := rfl

theorem exec_cons (M : Machine σ α) (ok : σ → α → Prop) [DecidableRel ok]
    (s : σ) (a : α) (as : List α) :
    M.exec ok s (a :: as) =
      if ok s a then (M.step s a).bind fun s' => M.exec ok s' as else none := rfl

theorem exec_cons_of_step {M : Machine σ α} {ok : σ → α → Prop} [DecidableRel ok] {s s' : σ} {a : α}
    (hok : ok s a) (hs : M.step s a = some s') (as : List α) :
    M.exec ok s (a :: as) = M.exec ok s' as := by
  rw [exec_cons, if_pos hok, hs]
  rfl

/-- What an execution ends in is reached. -/
theorem Reach.exec {M : Machine σ α} {ok : σ → α → Prop} [DecidableRel ok] {s s' : σ}
    {as : List α} (h : M.Reach ok s) (he : M.exec ok s as = some s') : M.Reach ok s' := by
  induction as generalizing s with
  | nil =>
      rw [exec_nil, Option.some.injEq] at he
      exact he ▸ h
  | cons a as ih =>
      rw [exec_cons] at he
      by_cases hok : ok s a
      · rw [if_pos hok, Option.bind_eq_some_iff] at he
        obtain ⟨t, hs, he⟩ := he
        exact ih (.step h hok hs) he
      · simp [hok] at he

/-- A run that ends in a state with a decidable property reaches such a state. -/
theorem Reach.exists_of_exec {M : Machine σ α} {ok : σ → α → Prop} [DecidableRel ok] {s : σ}
    (h : M.Reach ok s) (as : List α) (p : σ → Bool) (he : (M.exec ok s as).any p = true) :
    ∃ s', M.Reach ok s' ∧ p s' = true := by
  cases hs : M.exec ok s as with
  | none => simp [hs] at he
  | some s' =>
      refine ⟨s', h.exec hs, ?_⟩
      simpa [hs] using he

/-- A run that ends in a state from which `a` leads on, with a decidable property of
both states, takes such a step. -/
theorem Taken.exists_of_exec {M : Machine σ α} {ok : σ → α → Prop} [DecidableRel ok] {s : σ}
    (h : M.Reach ok s) (as : List α) (a : α) (p : σ → σ → Bool)
    (he : ((M.exec ok s as).any fun t => decide (ok t a) && (M.step t a).any (p t)) = true) :
    ∃ t t', M.Taken ok t a t' ∧ p t t' = true := by
  obtain ⟨t, hreach, ht⟩ := h.exists_of_exec as _ he
  rw [Bool.and_eq_true, decide_eq_true_eq] at ht
  obtain ⟨hok, hstep⟩ := ht
  cases hs : M.step t a with
  | none => simp [hs] at hstep
  | some t' =>
      refine ⟨t, t', ⟨hreach, hok, hs⟩, ?_⟩
      simpa [hs] using hstep

end Machine
