import Throng.Core.FileNames

/-!
# Names of copies

A copy keeps its name where nothing has it, and otherwise gets the first numbered one that
nothing has. The numbers are `u32`s, and `none` stands for running out of them.
-/

namespace Throng

/-- A name cut before its last dot, if that is not its first character. -/
def splitExtension (name : List Char) : List Char × List Char :=
  (name.reverse.idxOf? '.').elim (name, []) fun k =>
    let i := name.length - 1 - k
    if i = 0 then (name, []) else (name.take i, name.drop i)

/-- The `n`-th name that is tried. -/
def copyCandidate (name : List Char) (n : Nat) : List Char :=
  let parts := splitExtension name
  if n = 1 then parts.1 ++ " copy".toList ++ parts.2
  else parts.1 ++ " copy ".toList ++ Nat.toDigits 10 n ++ parts.2

/-- The loop of `copy_name` from number `n`, with so many numbers left. -/
def copySearch (existing : List Char → Bool) (name : List Char) : Nat → Nat → Option (List Char)
  | 0, _ => none
  | left + 1, n =>
      if existing (copyCandidate name n) then copySearch existing name left (n + 1)
      else some (copyCandidate name n)

/-- The numbers that a `u32` counts, from 1. -/
def copyNumbers : Nat := 4294967295

/-- A name for a copy of `name` that does not collide with anything that exists. -/
def copyName (existing : List Char → Bool) (name : List Char) : Option (List Char) :=
  if existing name then copySearch existing name copyNumbers 1 else some name

namespace CopyName

variable {existing : List Char → Bool} {name unique : List Char} {left n : Nat}

/-! ## The search -/

theorem copySearch_eq_none : copySearch existing name left n = none ↔
    ∀ m, n ≤ m → m < n + left → existing (copyCandidate name m) = true := by
  induction left generalizing n with
  | zero => exact iff_of_true rfl fun m hle hlt => absurd hlt (by omega)
  | succ left ih =>
      rw [copySearch]
      split
      · next htaken =>
          rw [ih]
          constructor
          · intro h m hle hlt
            rcases Nat.eq_or_lt_of_le hle with rfl | hless
            · exact htaken
            · exact h m hless (by omega)
          · exact fun h m hle hlt => h m (by omega) (by omega)
      · next hfree =>
          refine iff_of_false (Option.some_ne_none _) fun h =>
            hfree (h n (Nat.le_refl n) (by omega))

/-- What the search finds is the first that does not exist. -/
theorem copySearch_eq_some (h : copySearch existing name left n = some unique) :
    ∃ m, n ≤ m ∧ m < n + left ∧ unique = copyCandidate name m ∧ existing unique = false ∧
      ∀ k, n ≤ k → k < m → existing (copyCandidate name k) = true := by
  induction left generalizing n with
  | zero => cases h
  | succ left ih =>
      rw [copySearch] at h
      split at h
      · next htaken =>
          obtain ⟨m, hle, hlt, heq, hfree, hfirst⟩ := ih h
          refine ⟨m, by omega, by omega, heq, hfree, fun k hk hkm => ?_⟩
          rcases Nat.eq_or_lt_of_le hk with rfl | hless
          · exact htaken
          · exact hfirst k hless hkm
      · next hfree =>
          obtain rfl := Option.some.inj h
          exact ⟨n, Nat.le_refl n, by omega, rfl, Bool.eq_false_iff.mpr hfree,
            fun k hk hkn => absurd hkn (by omega)⟩

/-- A free name, or else the first numbered one that is free. -/
def FirstFree (existing : List Char → Bool) (name unique : List Char) : Prop :=
  existing unique = false ∧ (unique = name ∨ existing name = true ∧
    ∃ n, 1 ≤ n ∧ n ≤ copyNumbers ∧ unique = copyCandidate name n ∧
      ∀ k, 1 ≤ k → k < n → existing (copyCandidate name k) = true)

theorem firstFree_of_copyName (h : copyName existing name = some unique) :
    FirstFree existing name unique := by
  rw [copyName] at h
  split at h
  · next htaken =>
      obtain ⟨n, hle, hlt, heq, hfree, hfirst⟩ := copySearch_eq_some h
      exact ⟨hfree, .inr ⟨htaken, n, hle, by omega, heq, hfirst⟩⟩
  · next hfree =>
      obtain rfl := Option.some.inj h
      exact ⟨Bool.eq_false_iff.mpr hfree, .inl rfl⟩

/-- The search runs out of numbers only where all of them are taken. -/
theorem copyName_eq_none : copyName existing name = none ↔ existing name = true ∧
    ∀ n, 1 ≤ n → n ≤ copyNumbers → existing (copyCandidate name n) = true := by
  rw [copyName]
  split
  · next htaken =>
      rw [copySearch_eq_none, and_iff_right htaken]
      exact forall_congr' fun n => forall_congr' fun _ => by rw [Nat.add_comm, Nat.lt_succ_iff]
  · next hfree => exact iff_of_false (Option.some_ne_none _) fun h => hfree h.1

/-! ## The names tried -/

theorem splitExtension_append (name : List Char) :
    (splitExtension name).1 ++ (splitExtension name).2 = name := by
  rw [splitExtension]
  cases name.reverse.idxOf? '.' with
  | none => exact List.append_nil name
  | some k =>
      rw [Option.elim_some]
      dsimp only
      split
      · exact List.append_nil name
      · exact List.take_append_drop _ name

theorem stem_ne_nil (h : name ≠ []) : (splitExtension name).1 ≠ [] := by
  rw [splitExtension]
  cases name.reverse.idxOf? '.' with
  | none => exact h
  | some k =>
      rw [Option.elim_some]
      dsimp only
      split
      · exact h
      · next hi =>
          rw [Ne, List.take_eq_nil_iff, not_or]
          exact ⟨hi, h⟩

/-- What stands between the stem and the extension of the `n`-th name. -/
def numbered (n : Nat) : List Char :=
  " copy".toList ++ if n = 1 then [] else ' ' :: Nat.toDigits 10 n

theorem copyCandidate_eq (name : List Char) (n : Nat) : copyCandidate name n =
    (splitExtension name).1 ++ (numbered n ++ (splitExtension name).2) := by
  rw [copyCandidate, numbered]
  split
  · rw [List.append_nil, List.append_assoc]
  · have hblank : " copy ".toList = " copy".toList ++ [' '] := by decide
    rw [hblank]
    simp only [List.append_assoc, List.cons_append, List.nil_append]

/-- Different numbers give different names. -/
theorem copyCandidate_inj {m : Nat} (h : copyCandidate name n = copyCandidate name m) : n = m := by
  rw [copyCandidate_eq, copyCandidate_eq, List.append_right_inj, List.append_left_inj, numbered,
    numbered, List.append_right_inj] at h
  split at h
  · next hn =>
      split at h
      · next hm => rw [hn, hm]
      · cases h
  · split at h
    · cases h
    · have hvalue := congrArg (Nat.ofDigitChars 10 · 0) (List.cons.inj h).2
      rwa [Nat.ofDigitChars_ten_toDigits, Nat.ofDigitChars_ten_toDigits] at hvalue

/-- Fewer things than there are numbers leave a number free. -/
theorem exists_free {α : Type*} {f : Nat → α} (hf : Function.Injective f) {taken : List α}
    (hfew : taken.length < copyNumbers) : ∃ n, 1 ≤ n ∧ n ≤ copyNumbers ∧ f n ∉ taken := by
  by_contra hnone
  have hsubset : (List.range' 1 copyNumbers).map f ⊆ taken := by
    intro a hmem
    obtain ⟨n, hn, rfl⟩ := List.mem_map.mp hmem
    obtain ⟨hle, hlt⟩ := List.mem_range'_1.mp hn
    by_contra hfree
    exact hnone ⟨n, hle, by omega, hfree⟩
  have hlength := (List.subperm_of_subset (List.Nodup.map hf List.nodup_range') hsubset).length_le
  rw [List.length_map, List.length_range'] at hlength
  omega

theorem mem_numbered {c : Char} (h : c ∈ numbered n) :
    c ∈ " copy".toList ∨ c.isDigit = true := by
  rw [numbered, List.mem_append] at h
  rcases h with h | h
  · exact .inl h
  · split at h
    · exact absurd h List.not_mem_nil
    · rcases List.mem_cons.mp h with rfl | h
      · exact .inl (by decide)
      · exact .inr (Nat.isDigit_of_mem_toDigits (by decide) (by decide) h)

/-- What is not in the name is in none of those tried, but for what is put in. -/
theorem notMem_copyCandidate {c : Char} (hname : c ∉ name) (hcopy : c ∉ " copy".toList)
    (hdigit : c.isDigit = false) : c ∉ copyCandidate name n := by
  rw [← splitExtension_append name, List.mem_append, not_or] at hname
  rw [copyCandidate_eq, List.mem_append, List.mem_append, not_or, not_or]
  refine ⟨hname.1, fun h => ?_, hname.2⟩
  rcases mem_numbered h with h | h
  · exact hcopy h
  · rw [hdigit] at h
    cases h

open PathRules (Plain)

theorem mem_blank_copyCandidate (name : List Char) (n : Nat) : ' ' ∈ copyCandidate name n := by
  rw [copyCandidate_eq]
  exact List.mem_append_right _ (List.mem_append_left _ (List.mem_append_left _ (by decide)))

theorem plain_copyCandidate (h : Plain name) (n : Nat) : Plain (copyCandidate name n) := by
  have hblank := mem_blank_copyCandidate name n
  refine ⟨?_, ?_, ?_, notMem_copyCandidate h.2.2.2 (by decide) (by decide)⟩
  · exact List.ne_nil_of_mem hblank
  · intro heq
    rw [heq] at hblank
    exact absurd hblank (by decide)
  · intro heq
    rw [heq] at hblank
    exact absurd hblank (by decide)

theorem drive_copyCandidate {rules : PathRules} (hne : name ≠ [])
    (h : PathOn.drive rules name = []) (n : Nat) :
      PathOn.drive rules (copyCandidate name n) = [] := by
  have hstem := stem_ne_nil hne
  have hjoin := splitExtension_append name
  rw [copyCandidate_eq]
  cases hcases : (splitExtension name).1 with
  | nil => exact absurd hcases hstem
  | cons c stem =>
      rw [hcases] at hjoin
      cases stem with
      | nil =>
          rw [numbered]
          exact PathRules.drive_second (by decide) _
      | cons d stem =>
          rw [← hjoin] at h
          rw [← h]
          exact PathRules.drive_congr c d _ _

end CopyName

end Throng
