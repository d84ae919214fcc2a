import Mathlib.Data.List.Basic

/-!
# The leftmost places, apart

Of the places where something `n` long stands, the ones a scan from the left picks that
goes on behind each place it has picked: places apart, such that each other one overlaps
an earlier one of them. There is one such choice.
-/

/-- `places` are the leftmost of the places that occur, `n` apart from each other. -/
structure Leftmost (n : Nat) (occurs : Nat → Prop) (places : List Nat) : Prop where
  sound : ∀ a ∈ places, occurs a
  apart : places.Pairwise fun a b => a + n ≤ b
  complete : ∀ a, occurs a → ∃ b ∈ places, b ≤ a ∧ a < b + n

namespace Leftmost

variable {n : Nat} {P Q : Nat → Prop} {a : Nat} {places others : List Nat}

theorem congr (h : ∀ a, P a ↔ Q a) : Leftmost n P places ↔ Leftmost n Q places := by
  rw [show P = Q from funext fun a => propext (h a)]

theorem nil (h : ∀ a, ¬ P a) : Leftmost n P [] := ⟨nofun, .nil, fun a ha => absurd ha (h a)⟩

theorem cons (ha : P a) (hfirst : ∀ b, P b → a ≤ b)
    (h : Leftmost n (fun b => a + n ≤ b ∧ P b) places) : Leftmost n P (a :: places) := by
  refine ⟨?_, List.pairwise_cons.mpr ⟨fun b hb => (h.sound b hb).1, h.apart⟩, fun b hb => ?_⟩
  · intro b hb
    rcases List.mem_cons.mp hb with rfl | hb
    · exact ha
    · exact (h.sound b hb).2
  · rcases Nat.lt_or_ge b (a + n) with hlt | hge
    · exact ⟨a, List.mem_cons_self, hfirst b hb, hlt⟩
    · obtain ⟨c, hc, hover⟩ := h.complete b ⟨hge, hb⟩
      exact ⟨c, List.mem_cons_of_mem _ hc, hover⟩

theorem tail (h : Leftmost n P (a :: places)) :
    Leftmost n (fun b => a + n ≤ b ∧ P b) places := by
  obtain ⟨hfirst, hrest⟩ := List.pairwise_cons.mp h.apart
  refine ⟨fun b hb => ⟨hfirst b hb, h.sound b (List.mem_cons_of_mem _ hb)⟩, hrest, ?_⟩
  rintro b ⟨hge, hb⟩
  obtain ⟨c, hc, hover⟩ := h.complete b hb
  rcases List.mem_cons.mp hc with rfl | hc
  · omega
  · exact ⟨c, hc, hover⟩

/-- The first of the places is not behind any that occurs. -/
theorem head_le (h : Leftmost n P (a :: places)) {b : Nat} (hb : P b) : a ≤ b := by
  obtain ⟨c, hc, hle, -⟩ := h.complete b hb
  rcases List.mem_cons.mp hc with rfl | hc
  · exact hle
  · have hfirst := (List.pairwise_cons.mp h.apart).1 c hc
    omega

theorem unique (h : Leftmost n P places) (h' : Leftmost n P others) : places = others := by
  induction places generalizing P others with
  | nil =>
      cases others with
      | nil => rfl
      | cons b others =>
          obtain ⟨c, hc, -⟩ := h.complete b (h'.sound b List.mem_cons_self)
          cases hc
  | cons a places ih =>
      cases others with
      | nil =>
          obtain ⟨c, hc, -⟩ := h'.complete a (h.sound a List.mem_cons_self)
          cases hc
      | cons b others =>
          have hle := h.head_le (h'.sound b List.mem_cons_self)
          have hge := h'.head_le (h.sound a List.mem_cons_self)
          obtain rfl : a = b := Nat.le_antisymm hle hge
          rw [ih h.tail h'.tail]

/-- What occurs in the first of two stretches and what occurs in the second. -/
theorem append (h : Leftmost n P places) (h' : Leftmost n Q others)
    (hbefore : ∀ a b, P a → Q b → a + n ≤ b) :
    Leftmost n (fun a => P a ∨ Q a) (places ++ others) := by
  refine ⟨fun a ha => ?_, ?_, fun a ha => ?_⟩
  · rcases List.mem_append.mp ha with ha | ha
    · exact .inl (h.sound a ha)
    · exact .inr (h'.sound a ha)
  · exact List.pairwise_append.mpr ⟨h.apart, h'.apart, fun a ha b hb =>
      hbefore a b (h.sound a ha) (h'.sound b hb)⟩
  · rcases ha with ha | ha
    · obtain ⟨b, hb, hover⟩ := h.complete a ha
      exact ⟨b, List.mem_append_left _ hb, hover⟩
    · obtain ⟨b, hb, hover⟩ := h'.complete a ha
      exact ⟨b, List.mem_append_right _ hb, hover⟩

theorem shift (start : Nat) (h : Leftmost n P places) :
    Leftmost n (fun a => ∃ i, a = start + i ∧ P i) (places.map (start + ·)) := by
  refine ⟨fun a ha => ?_, ?_, ?_⟩
  · obtain ⟨i, hi, rfl⟩ := List.mem_map.mp ha
    exact ⟨i, rfl, h.sound i hi⟩
  · rw [List.pairwise_map]
    exact h.apart.imp fun hle => by omega
  · rintro a ⟨i, rfl, hi⟩
    obtain ⟨b, hb, hle, hlt⟩ := h.complete i hi
    exact ⟨start + b, List.mem_map_of_mem hb, by omega, by omega⟩

end Leftmost
