import Throng.Editor.Change

/-!
# Cursors and selections

Offsets are in characters. A selection belongs to a view; the history keeps the
editing view's selection before and after each step.
-/

namespace Throng.Editor

/-- One selection range: `anchor` stays put while `head`, the caret, moves. -/
structure Range where
  anchor : Nat
  head : Nat
  /-- The display column a run of vertical moves aims for. -/
  goal : Option Nat
deriving DecidableEq, Repr

namespace Range

def new (anchor head : Nat) : Range := { anchor, head, goal := none }

def point (offset : Nat) : Range := new offset offset

/-- `Range::from`, the lower end. -/
def lower (range : Range) : Nat := min range.anchor range.head

/-- `Range::to`, the upper end. -/
def upper (range : Range) : Nat := max range.anchor range.head

def isEmpty (range : Range) : Bool := range.anchor = range.head

/-- Same span, ignoring direction and goal. -/
def sameSpan (range other : Range) : Bool :=
  range.lower = other.lower && range.upper = other.upper

/-- This range after `tx`: a caret ends up after text inserted where it sits, and text
inserted at a selection's edge stays outside it. -/
def map (range : Range) (tx : Transaction) : Range :=
  if range.isEmpty then
    let head := tx.map range.head true
    { anchor := head, head := head, goal := range.goal }
  else
    let lower := tx.map range.lower true
    let upper := max (tx.map range.upper false) lower
    if range.anchor ≤ range.head then { anchor := lower, head := upper, goal := range.goal }
    else { anchor := upper, head := lower, goal := range.goal }

end Range

/-- A view's selection: one or more ranges, one of them primary. -/
structure Selection where
  ranges : List Range
  primary : Nat
  primary_lt : primary < ranges.length
deriving DecidableEq, Repr

namespace Selection

def point (offset : Nat) : Selection where
  ranges := [Range.point offset]
  primary := 0
  primary_lt := Nat.one_pos

/-- The order of `sort_by_key(|(_, r)| (r.from(), r.to()))`. -/
def before (a b : Nat × Range) : Bool :=
  a.2.lower < b.2.lower || (a.2.lower = b.2.lower && a.2.upper ≤ b.2.upper)

def overlaps (last range : Range) : Bool :=
  range.lower < last.upper || (range.lower = last.upper && (range.isEmpty || last.isEmpty))

/-- The last merged range with another added to it. -/
def join (last range : Range) : Range :=
  let lower := min last.lower range.lower
  let upper := max last.upper range.upper
  if last.anchor ≤ last.head then Range.new lower upper else Range.new upper lower

/-- One turn of the merging loop: the ranges merged so far, and which is primary. -/
def mergeNext (primary : Nat) (merged : List Range × Nat) (next : Nat × Range) :
    List Range × Nat :=
  match merged.1.getLast? with
  | some last =>
      if overlaps last next.2 then
        (merged.1.dropLast ++ [join last next.2],
          if next.1 = primary then merged.1.length - 1 else merged.2)
      else (merged.1 ++ [next.2], if next.1 = primary then merged.1.length else merged.2)
  | none => (merged.1 ++ [next.2], if next.1 = primary then merged.1.length else merged.2)

/-- The ranges merged, in the order they start. -/
def merged (ranges : List Range) (primary : Nat) : List Range × Nat :=
  ((ranges.zipIdx.map fun entry => (entry.2, entry.1)).mergeSort before).foldl
    (mergeNext (min primary (ranges.length - 1))) ([], 0)

theorem mergeNext_lt (primary : Nat) {state : List Range × Nat} (next : Nat × Range)
    (h : state.2 ≤ state.1.length) (hnil : state.1 = [] ∨ state.2 < state.1.length) :
    (mergeNext primary state next).2 < (mergeNext primary state next).1.length := by
  rw [mergeNext]
  cases hlast : state.1.getLast? with
  | none =>
      have hnone := List.getLast?_eq_none_iff.1 hlast
      split <;> simp_all
  | some last =>
      have hne : state.1 ≠ [] := by
        rintro hnone
        rw [hnone] at hlast
        cases hlast
      have hlt := hnil.resolve_left hne
      have hpos := List.length_pos_iff.2 hne
      dsimp only
      split
      · rw [List.length_append, List.length_dropLast, List.length_singleton]
        split <;> omega
      · rw [List.length_append, List.length_singleton]
        split <;> omega

theorem foldl_mergeNext_lt (primary : Nat) (entries : List (Nat × Range))
    {state : List Range × Nat} (h : state.2 < state.1.length) :
    (entries.foldl (mergeNext primary) state).2 <
      (entries.foldl (mergeNext primary) state).1.length := by
  induction entries generalizing state with
  | nil => exact h
  | cons next entries ih => exact ih (mergeNext_lt primary next (Nat.le_of_lt h) (.inr h))

theorem merged_lt {ranges : List Range} (h : ranges ≠ []) (primary : Nat) :
    (merged ranges primary).2 < (merged ranges primary).1.length := by
  have hlen := (List.mergeSort_perm
    (ranges.zipIdx.map fun entry => (entry.2, entry.1)) before).length_eq
  rw [List.length_map, List.length_zipIdx] at hlen
  rw [merged]
  cases hsorted : (ranges.zipIdx.map fun entry => (entry.2, entry.1)).mergeSort before with
  | nil =>
      rw [hsorted] at hlen
      exact absurd (List.length_eq_zero_iff.1 hlen.symm) h
  | cons next entries =>
      exact foldl_mergeNext_lt _ entries (mergeNext_lt _ next (Nat.le_refl 0) (.inl rfl))

/-- Build from ranges in any order; overlapping ones merge. -/
def new (ranges : List Range) (primary : Nat) (h : ranges ≠ []) : Selection where
  ranges := (merged ranges primary).1
  primary := (merged ranges primary).2
  primary_lt := merged_lt h primary

theorem ranges_ne_nil (selection : Selection) : selection.ranges ≠ [] :=
  List.ne_nil_of_length_pos (Nat.zero_lt_of_lt selection.primary_lt)

/-- Apply `f` to every range and re-normalise. -/
def transform (selection : Selection) (f : Range → Range) : Selection :=
  new (selection.ranges.map f) selection.primary (by simpa using selection.ranges_ne_nil)

/-- This selection after `tx`. -/
def map (selection : Selection) (tx : Transaction) : Selection :=
  selection.transform fun range => range.map tx

/-- Clamp every offset into a document of `len` characters. -/
def clamp (selection : Selection) (len : Nat) : Selection :=
  selection.transform fun range =>
    { anchor := min range.anchor len, head := min range.head len, goal := range.goal }

end Selection

end Throng.Editor
