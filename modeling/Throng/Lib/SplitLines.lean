import Mathlib.Data.List.Basic
import Throng.Lib.Patch

/-!
# Lines of a list

`SplitLines.split brk l` cuts a list after every element that `brk` marks; each line
keeps the mark it ends with and the last line has none, so there is one line more
than there are marks. Position `i` stands in the line whose number is the count of
marks before it.

The rules say how the lines of `xs ++ ys` come from those of the parts. Replacing a
stretch in the middle therefore leaves every line before the one it starts in and
every line after the one it ends in as it was.
-/

namespace SplitLines

variable {α : Type*} (brk : α → Bool)

/-- `x` put in front of the first line. -/
def consLine (x : α) : List (List α) → List (List α)
  | [] => [[x]]
  | line :: rest => (x :: line) :: rest

/-- The lines of a list, each with the mark that ends it. -/
def split : List α → List (List α)
  | [] => [[]]
  | x :: xs => if brk x then [x] :: split xs else consLine x (split xs)

/-- The number of the line that position `i` stands in. -/
def lineOf (l : List α) (i : Nat) : Nat := (l.take i).countP brk

@[simp] theorem split_nil : split brk [] = [[]] := rfl

theorem flatten_consLine (x : α) (lines : List (List α)) :
    (consLine x lines).flatten = x :: lines.flatten := by
  cases lines <;> rfl

theorem split_ne_nil (l : List α) : split brk l ≠ [] := by
  cases l with
  | nil => simp [split]
  | cons x xs =>
      rw [split]
      by_cases hx : brk x = true
      · simp [hx]
      · cases h : split brk xs <;> simp [hx, consLine]

/-- The first line and the rest. -/
theorem exists_split (l : List α) : ∃ line rest, split brk l = line :: rest := by
  cases h : split brk l with
  | nil => exact absurd h (split_ne_nil brk l)
  | cons line rest => exact ⟨line, rest, rfl⟩

theorem split_cons_of_brk {x : α} (h : brk x = true) (xs : List α) :
    split brk (x :: xs) = [x] :: split brk xs := by
  rw [split, if_pos h]

theorem split_cons_of_not_brk {x : α} (h : brk x = false) {xs line : List α}
    {rest : List (List α)} (hxs : split brk xs = line :: rest) :
    split brk (x :: xs) = (x :: line) :: rest := by
  rw [split, if_neg (by simp [h]), hxs, consLine]

@[simp] theorem length_split (l : List α) : (split brk l).length = l.countP brk + 1 := by
  induction l with
  | nil => rfl
  | cons x xs ih =>
      obtain ⟨line, rest, hxs⟩ := exists_split brk xs
      cases hx : brk x with
      | true => rw [split_cons_of_brk brk hx, List.length_cons, ih, List.countP_cons_of_pos hx]
      | false =>
          rw [split_cons_of_not_brk brk hx hxs, List.countP_cons_of_neg (by simp [hx]), ← ih, hxs]
          rfl

/-- The lines together are the list. -/
@[simp] theorem flatten_split (l : List α) : (split brk l).flatten = l := by
  induction l with
  | nil => rfl
  | cons x xs ih =>
      obtain ⟨line, rest, hxs⟩ := exists_split brk xs
      cases hx : brk x with
      | true => rw [split_cons_of_brk brk hx, List.flatten_cons, ih]; rfl
      | false =>
          rw [split_cons_of_not_brk brk hx hxs, List.flatten_cons, List.cons_append,
            ← List.flatten_cons, ← hxs, ih]

/-- The last line of `xs` runs on into the first line of `ys`. -/
theorem split_append (xs ys : List α) {line : List α} {rest : List (List α)}
    (hys : split brk ys = line :: rest) :
    ∃ full tail, split brk xs = full ++ [tail] ∧
      split brk (xs ++ ys) = full ++ (tail ++ line) :: rest := by
  induction xs with
  | nil => exact ⟨[], [], rfl, hys⟩
  | cons x xs ih =>
      obtain ⟨full, tail, hxs, happ⟩ := ih
      cases hx : brk x with
      | true =>
          refine ⟨[x] :: full, tail, ?_, ?_⟩
          · rw [split_cons_of_brk brk hx, hxs]
            rfl
          · rw [List.cons_append, split_cons_of_brk brk hx, happ]
            rfl
      | false =>
          cases full with
          | nil =>
              refine ⟨[], x :: tail, ?_, ?_⟩
              · exact split_cons_of_not_brk brk hx hxs
              · exact split_cons_of_not_brk brk hx happ
          | cons first full =>
              refine ⟨(x :: first) :: full, tail, ?_, ?_⟩
              · exact split_cons_of_not_brk brk hx hxs
              · exact split_cons_of_not_brk brk hx happ

/-- The lines that end inside `xs` do not depend on what follows. -/
theorem take_split_append (xs ys : List α) :
    (split brk (xs ++ ys)).take (xs.countP brk) = (split brk xs).dropLast := by
  obtain ⟨line, rest, hys⟩ := exists_split brk ys
  obtain ⟨full, tail, hxs, happ⟩ := split_append brk xs ys hys
  have hlen : xs.countP brk = full.length := by
    have h := length_split brk xs
    rw [hxs, List.length_append] at h
    simpa using h.symm
  rw [happ, hxs, hlen, List.take_left', List.dropLast_concat]
  rfl

/-- The lines that start inside `ys` do not depend on what comes before. -/
theorem drop_split_append (xs ys : List α) :
    (split brk (xs ++ ys)).drop (xs.countP brk + 1) = (split brk ys).tail := by
  obtain ⟨line, rest, hys⟩ := exists_split brk ys
  obtain ⟨full, tail, hxs, happ⟩ := split_append brk xs ys hys
  have hlen : xs.countP brk = full.length := by
    have h := length_split brk xs
    rw [hxs, List.length_append] at h
    simpa using h.symm
  rw [happ, hys, hlen, List.drop_append]
  simp

/-- Replacing a stretch of a list replaces the lines from the one it starts in to the
one it ends in. -/
theorem patch_append (before middle middle' after : List α) :
    Patch (split brk (before ++ middle ++ after)) (split brk (before ++ middle' ++ after))
      (before.countP brk) ((before ++ middle).countP brk) ((before ++ middle').countP brk) := by
  refine ⟨?_, ?_, ?_, ?_, ?_, ?_⟩
  · rw [List.countP_append]
    exact Nat.le_add_right _ _
  · rw [List.countP_append]
    exact Nat.le_add_right _ _
  · simp only [length_split, List.countP_append]
    omega
  · simp only [length_split, List.countP_append]
    omega
  · rw [List.append_assoc, List.append_assoc, take_split_append, take_split_append]
  · rw [drop_split_append, drop_split_append]

end SplitLines
