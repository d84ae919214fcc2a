import Mathlib.Data.List.Basic

/-!
# Steps behind and ahead

An undo history keeps, at the state `x` it stands at, the steps that led there and
the steps taken back from there, each list with the nearest first. `R t a b` says that
step `t` leads from `a` to `b`. The `Leg` of a step is the two states it led between
when it was made; `Behind R x ts legs` and `Ahead R x ts legs` say that the steps are
those of the legs and that the legs join up with each other and with `x`.

Going back moves the nearest leg behind to the front of those ahead, going on moves it
back; a new step drops what is ahead, and forgetting the oldest steps leaves a trail.
-/

namespace Trail

variable {σ τ : Type*}

/-- The states a step was made between. -/
structure Leg (σ : Type*) where
  before : σ
  after : σ

variable (R : τ → σ → σ → Prop)

/-- The steps `ts`, nearest first, led along `legs` to `x`. -/
inductive Behind : σ → List τ → List (Leg σ) → Prop
  | nil {x : σ} : Behind x [] []
  | cons {x : σ} {t : τ} {ts : List τ} {leg : Leg σ} {legs : List (Leg σ)} :
      leg.after = x → R t leg.before leg.after → Behind leg.before ts legs →
        Behind x (t :: ts) (leg :: legs)

/-- The steps `ts`, nearest first, lead on along `legs` from `x`. -/
inductive Ahead : σ → List τ → List (Leg σ) → Prop
  | nil {x : σ} : Ahead x [] []
  | cons {x : σ} {t : τ} {ts : List τ} {leg : Leg σ} {legs : List (Leg σ)} :
      leg.before = x → R t leg.before leg.after → Ahead leg.after ts legs →
        Ahead x (t :: ts) (leg :: legs)

variable {R} {x : σ} {t : τ} {ts : List τ} {leg : Leg σ} {legs : List (Leg σ)}

theorem behind_cons : Behind R x (t :: ts) (leg :: legs) ↔
    leg.after = x ∧ R t leg.before leg.after ∧ Behind R leg.before ts legs := by
  constructor
  · intro h
    cases h with
    | cons hx hstep hrest => exact ⟨hx, hstep, hrest⟩
  · rintro ⟨hx, hstep, hrest⟩
    exact .cons hx hstep hrest

theorem ahead_cons : Ahead R x (t :: ts) (leg :: legs) ↔
    leg.before = x ∧ R t leg.before leg.after ∧ Ahead R leg.after ts legs := by
  constructor
  · intro h
    cases h with
    | cons hx hstep hrest => exact ⟨hx, hstep, hrest⟩
  · rintro ⟨hx, hstep, hrest⟩
    exact .cons hx hstep hrest

theorem Behind.length_eq (h : Behind R x ts legs) : ts.length = legs.length := by
  induction h with
  | nil => rfl
  | cons _ _ _ ih => rw [List.length_cons, List.length_cons, ih]

theorem Ahead.length_eq (h : Ahead R x ts legs) : ts.length = legs.length := by
  induction h with
  | nil => rfl
  | cons _ _ _ ih => rw [List.length_cons, List.length_cons, ih]

/-- There is a step behind exactly when there is a leg. -/
theorem Behind.nil_iff (h : Behind R x ts legs) : ts = [] ↔ legs = [] := by
  rw [← List.length_eq_zero_iff, ← List.length_eq_zero_iff, h.length_eq]

theorem Ahead.nil_iff (h : Ahead R x ts legs) : ts = [] ↔ legs = [] := by
  rw [← List.length_eq_zero_iff, ← List.length_eq_zero_iff, h.length_eq]

/-- The step over the nearest leg. -/
theorem Behind.exists_cons (h : Behind R x ts (leg :: legs)) :
    ∃ t rest, ts = t :: rest ∧ leg.after = x ∧ R t leg.before leg.after ∧
      Behind R leg.before rest legs := by
  cases h with
  | cons hx hstep hrest => exact ⟨_, _, rfl, hx, hstep, hrest⟩

theorem Ahead.exists_cons (h : Ahead R x ts (leg :: legs)) :
    ∃ t rest, ts = t :: rest ∧ leg.before = x ∧ R t leg.before leg.after ∧
      Ahead R leg.after rest legs := by
  cases h with
  | cons hx hstep hrest => exact ⟨_, _, rfl, hx, hstep, hrest⟩

theorem Behind.imp {R' : τ → σ → σ → Prop} (h : Behind R x ts legs)
    (himp : ∀ t ∈ ts, ∀ a b, R t a b → R' t a b) : Behind R' x ts legs := by
  induction h with
  | nil => exact .nil
  | cons hx hstep _ ih =>
      exact .cons hx (himp _ List.mem_cons_self _ _ hstep)
        (ih fun t ht => himp t (List.mem_cons_of_mem _ ht))

theorem Behind.exists_leg (h : Behind R x ts legs) (ht : t ∈ ts) : ∃ a b, R t a b := by
  induction h with
  | nil => cases ht
  | cons _ hstep _ ih =>
      rcases List.mem_cons.1 ht with rfl | ht
      · exact ⟨_, _, hstep⟩
      · exact ih ht

/-- Forgetting the oldest steps leaves a trail. -/
theorem Behind.take (h : Behind R x ts legs) (n : Nat) :
    Behind R x (ts.take n) (legs.take n) := by
  induction h generalizing n with
  | nil =>
      rw [List.take_nil, List.take_nil]
      exact .nil
  | cons hx hstep _ ih =>
      cases n with
      | zero => exact .nil
      | succ n => exact .cons hx hstep (ih n)

/-- The state that the legs set out from, nearest first, on the way to `x`. -/
def origin : σ → List (Leg σ) → σ
  | x, [] => x
  | _, leg :: legs => origin leg.before legs

theorem origin_append (x : σ) (legs rest : List (Leg σ)) :
    origin x (legs ++ rest) = origin (origin x legs) rest := by
  induction legs generalizing x with
  | nil => rfl
  | cons leg legs ih => exact ih leg.before

/-- What is behind the legs that were gone last. -/
theorem Behind.of_append {new old : List (Leg σ)} (h : Behind R x ts (new ++ old)) :
    ∃ rest, Behind R (origin x new) rest old := by
  induction new generalizing x ts with
  | nil => exact ⟨ts, h⟩
  | cons leg new ih =>
      obtain ⟨t, rest, -, -, -, hrest⟩ := h.exists_cons
      exact ih hrest

/-- The legs behind a state and where they set out from say which state it is. -/
theorem Behind.eq_of_origin {R' : τ → σ → σ → Prop} {y : σ} {ts' : List τ} (hx : Behind R x ts legs)
    (hy : Behind R' y ts' legs) (h : origin x legs = origin y legs) : x = y := by
  cases legs with
  | nil => exact h
  | cons leg legs =>
      obtain ⟨-, -, -, hxleg, -⟩ := hx.exists_cons
      obtain ⟨-, -, -, hyleg, -⟩ := hy.exists_cons
      rw [← hxleg, ← hyleg]

/-- Going back over the nearest leg. -/
theorem Behind.back {ts' : List τ} {legs' : List (Leg σ)}
    (h : Behind R x (t :: ts) (leg :: legs)) (hahead : Ahead R x ts' legs') :
    Behind R leg.before ts legs ∧ Ahead R leg.before (t :: ts') (leg :: legs') := by
  obtain ⟨rfl, hstep, hrest⟩ := behind_cons.1 h
  exact ⟨hrest, .cons rfl hstep hahead⟩

/-- Going on over the nearest leg. -/
theorem Ahead.on {ts' : List τ} {legs' : List (Leg σ)}
    (h : Ahead R x (t :: ts) (leg :: legs)) (hbehind : Behind R x ts' legs') :
    Behind R leg.after (t :: ts') (leg :: legs') ∧ Ahead R leg.after ts legs := by
  obtain ⟨rfl, hstep, hrest⟩ := ahead_cons.1 h
  exact ⟨.cons rfl hstep hbehind, hrest⟩

end Trail
