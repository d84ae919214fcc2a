import Throng.Editor.Commands
import Throng.Editor.UndoRun

/-!
# Editing with many carets

A command replaces the ranges of a selection all at once and puts each caret into its own
replacement. Ranges of a selection in normal form that touch are not carets, so the start
of each is taken past everything that is put in before it and before everything that is
put in after. Deleting takes away exactly what the spans of the carets cover together,
and each caret is left where its span was.
-/

namespace Throng.Editor

open Splice (weave taken given)

namespace Commands

variable {doc doc' : TextDoc} {selection : Selection}

/-! ## Carets -/

/-- The carets of the selection stand at the places, one caret where places coincide, and
the primary one at its place. -/
structure CaretsAt (selection : Selection) (places : List Nat) (primary : Nat) : Prop where
  sound : ∀ range ∈ selection.ranges,
    ∃ place ∈ places, range.lower = place ∧ range.upper = place
  complete : ∀ place ∈ places,
    ∃ range ∈ selection.ranges, range.lower = place ∧ range.upper = place
  primary : ∃ range, selection.ranges[selection.primary]? = some range ∧
    places[primary]? = some range.head

theorem lower_point (place : Nat) : (Range.point place).lower = place := Nat.min_self _

theorem upper_point (place : Nat) : (Range.point place).upper = place := Nat.max_self _

theorem head_eq_of_caret {range : Range} {place : Nat} (hlower : range.lower = place)
    (hupper : range.upper = place) : range.head = place := by
  rw [Range.lower] at hlower
  rw [Range.upper] at hupper
  omega

theorem caretsAt_new {places : List Nat} {primary : Nat} (h : primary < places.length)
    (hne : places.map Range.point ≠ []) :
    CaretsAt (Selection.new (places.map Range.point) primary hne) places primary := by
  have hnorm := Selection.new_normalised (places.map Range.point) primary hne
  have hcaret : ∀ range ∈ (Selection.new (places.map Range.point) primary hne).ranges,
      range.lower = range.upper := by
    intro range hrange
    by_contra hlt
    have hle := range.lower_le_upper
    obtain ⟨point, hpoint, hcovers⟩ :=
      (hnorm.covers range.lower).1 ⟨range, hrange, Nat.le_refl _, by omega⟩
    obtain ⟨place, -, rfl⟩ := List.mem_map.1 hpoint
    rw [Range.Covers, lower_point, upper_point] at hcovers
    omega
  have htouches (pos : Nat) := Selection.exists_new
    (fun _ _ hle hover => Selection.touches_join hle hover pos) (places.map Range.point) primary hne
  refine ⟨?_, ?_, ?_⟩
  · intro range hrange
    have hupper := hcaret range hrange
    obtain ⟨point, hpoint, htouch⟩ :=
      (htouches range.lower).1 ⟨range, hrange, Nat.le_refl _, by omega⟩
    obtain ⟨place, hplace, rfl⟩ := List.mem_map.1 hpoint
    rw [Range.Touches, lower_point, upper_point] at htouch
    exact ⟨place, hplace, by omega, by omega⟩
  · intro place hplace
    obtain ⟨range, hrange, htouch⟩ := (htouches place).2
      ⟨Range.point place, List.mem_map_of_mem hplace,
        Nat.le_of_eq (lower_point place), Nat.le_of_eq (upper_point place).symm⟩
    have hupper := hcaret range hrange
    rw [Range.Touches] at htouch
    exact ⟨range, hrange, by omega, by omega⟩
  · obtain ⟨given, kept, hgiven, hkept, hin⟩ := hnorm.primary
    have hupper := hcaret kept (List.mem_of_getElem? hkept)
    rw [List.length_map, Nat.min_eq_left (by omega), List.getElem?_map] at hgiven
    obtain ⟨place, hplace, rfl⟩ := Option.map_eq_some_iff.1 hgiven
    rw [Range.LiesIn, lower_point, upper_point] at hin
    have hle := kept.lower_le_upper
    refine ⟨kept, hkept, ?_⟩
    rw [hplace, head_eq_of_caret (show kept.lower = place by omega) (by omega)]

/-! ## One undo step -/

/-- The command is one step of the history that takes the text there and back, and undoing
puts the selection back, unless typing on extends the step before; where it changes
nothing it is none. -/
def OneStep (doc doc' : TextDoc) (selection : Selection) (edited : Edited) : Prop :=
  (doc' = doc ∧ edited.applied = none) ∨
    ∃ revision : Revision, doc'.history = doc.history.record revision ∧
      revision.tx.apply doc.rope = some doc'.rope ∧
      revision.tx.invert.apply doc'.rope = some doc.rope ∧
      revision.before = selection ∧ revision.after = edited.selection ∧
      (doc.history.merges revision = false → ∃ undone applied,
        doc'.undo = some (undone, some (applied, selection.clamp doc.rope.length)) ∧
          undone.rope = doc.rope)

theorem undoStep_record {history : History} {revision : Revision}
    (h : history.merges revision = false) :
    ∃ history', (history.record revision).undoStep = some (history', revision) := by
  have hpushed : history.pushed revision = history.undo ++ [revision] := by
    rw [History.pushed]
    cases history.undo.getLast? with
    | none => rfl
    | some last =>
        dsimp only
        rw [h, if_neg Bool.false_ne_true]
  have hlast : (history.record revision).undo.getLast? = some revision := by
    have hlen : (history.undo ++ [revision]).length - maxEntries ≤ history.undo.length := by
      rw [List.length_append, List.length_singleton, maxEntries]
      omega
    rw [History.record, hpushed, List.drop_append_of_le_length hlen, List.getLast?_concat]
  rw [History.undoStep, hlast]
  exact ⟨_, rfl⟩

/-- A step that does not join the one before it is undone by itself. -/
theorem exists_undo_of_record {revision : Revision}
    (hhistory : doc'.history = doc.history.record revision)
    (hback : revision.tx.invert.apply doc'.rope = some doc.rope)
    (hmerges : doc.history.merges revision = false) : ∃ undone applied,
      doc'.undo = some (undone, some (applied, revision.before.clamp doc.rope.length)) ∧
        undone.rope = doc.rope := by
  obtain ⟨history', hundo⟩ := undoStep_record hmerges
  obtain ⟨doc₂, applied₂, hdoc₂, hrope₂, -⟩ :=
    TextDoc.apply_of_rope { doc' with history := history' } hback
  refine ⟨doc₂, applied₂, ?_, hrope₂⟩
  rw [TextDoc.undo, hhistory]
  simp only [hundo]
  rw [hdoc₂, Option.map_some, hrope₂]

/-- A transaction that applies is recorded as one step. -/
theorem exists_edit_record {tx : Transaction} {rope : Rope} (hempty : tx.isEmpty = false)
    (happ : tx.apply doc.rope = some rope) (selection after : Selection) (kind : EditKind)
    (nowMs : Nat) :
    ∃ doc' applied, doc.edit tx selection after kind nowMs = some (doc', some applied) ∧
      doc'.rope = rope ∧ doc'.history =
        doc.history.record { tx, before := selection, after, kind, timeMs := nowMs } := by
  obtain ⟨doc₁, applied, hdoc₁, hrope, hhistory, -⟩ := TextDoc.apply_of_rope doc happ
  let revision : Revision := { tx, before := selection, after, kind, timeMs := nowMs }
  refine ⟨{ doc₁ with history := doc₁.history.record revision }, applied, ?_, hrope, ?_⟩
  · rw [TextDoc.edit, if_neg (by simp [hempty]), hdoc₁, Option.map_some]
  · rw [hhistory]

theorem exists_edit {tx : Transaction} {rope : Rope} (happ : tx.apply doc.rope = some rope)
    (hback : tx.invert.apply rope = some doc.rope) (selection after : Selection)
    (kind : EditKind) (nowMs : Nat) :
    ∃ doc' applied, doc.edit tx selection after kind nowMs = some (doc', applied) ∧
      doc'.rope = rope ∧ OneStep doc doc' selection { applied := applied, selection := after } := by
  by_cases hempty : tx.isEmpty = true
  · have hnil : tx.changes = [] := List.isEmpty_iff.1 hempty
    have hrope : doc.rope = rope := by
      rw [Transaction.apply, hnil, List.foldlM_nil] at happ
      exact Option.some.inj happ
    exact ⟨doc, none, by rw [TextDoc.edit, if_pos hempty], hrope, .inl ⟨rfl, rfl⟩⟩
  · obtain ⟨doc', applied, hedit, hrope, hhistory⟩ := exists_edit_record
      (Bool.eq_false_iff.2 hempty) happ selection after kind nowMs
    rw [← hrope] at happ hback
    exact ⟨doc', some applied, hedit, hrope, .inr ⟨_, hhistory, happ, hback, rfl, rfl,
      exists_undo_of_record hhistory hback⟩⟩

/-! ## Where the start of a range goes -/

section

open Transaction (moved toSplice length_take_drop)

variable {rope : Rope} {edit : Nat × Nat × List Char} {pos : Nat}

theorem moved_of_le (hlen : edit.2.1 ≤ rope.length) (h : pos ≤ edit.1) :
    moved rope edit pos false = pos := by
  have hremoved := length_take_drop edit.1 hlen
  rw [moved]
  split
  · rcases Nat.lt_or_eq_of_le h with hlt | rfl
    · exact Change.map_of_lt hlt
    · simp only [Change.map, Bool.false_eq_true, if_false, or_false]
      split_ifs <;> omega
  · rfl

/-- Past an edit, also right past it when it is not an insertion. -/
theorem moved_of_ge (hle : edit.1 ≤ edit.2.1) (hlen : edit.2.1 ≤ rope.length)
    (h : edit.2.1 < pos ∨ (edit.2.1 = pos ∧ edit.1 < edit.2.1)) :
    moved rope edit pos false + (edit.2.1 - edit.1) = pos + edit.2.2.length := by
  rcases h with hgt | ⟨rfl, hlt⟩
  · exact Transaction.moved_of_gt false hle hlen hgt
  · have hremoved := length_take_drop edit.1 hlen
    rw [moved]
    split
    · simp only [Change.map]
      split_ifs <;> omega
    · next hsame =>
        rw [not_not] at hsame
        rw [← hsame, hremoved]

/-- Edits that start at or after a position leave it. -/
theorem foldl_moved_of_le (edits : List (Nat × Nat × List Char))
    (hwithin : ∀ edit ∈ edits, edit.2.1 ≤ rope.length) (h : ∀ edit ∈ edits, pos ≤ edit.1) :
    edits.foldl (fun pos edit => moved rope edit pos false) pos = pos := by
  induction edits with
  | nil => rfl
  | cons edit edits ih =>
      rw [List.foldl_cons,
        moved_of_le (hwithin edit List.mem_cons_self) (h edit List.mem_cons_self)]
      exact ih (fun e he => hwithin e (List.mem_cons_of_mem _ he)) fun e he =>
        h e (List.mem_cons_of_mem _ he)

/-- Of two edits one after the other: apart, or the first is not an insertion. -/
def Before (a b : Nat × Nat × List Char) : Prop := a.2.1 < b.1 ∨ (a.2.1 = b.1 ∧ a.1 < a.2.1)

/-- Edits before a position, from the end backwards, move it by what they take and give. -/
theorem foldl_moved_of_ge (edits : List (Nat × Nat × List Char))
    (hwithin : ∀ edit ∈ edits, edit.1 ≤ edit.2.1 ∧ edit.2.1 ≤ rope.length)
    (horder : edits.Pairwise fun a b => Before b a)
    (h : ∀ edit ∈ edits, edit.2.1 < pos ∨ (edit.2.1 = pos ∧ edit.1 < edit.2.1)) :
    edits.foldl (fun pos edit => moved rope edit pos false) pos + taken (edits.map toSplice) =
      pos + given (edits.map toSplice) := by
  induction edits generalizing pos with
  | nil => rfl
  | cons edit edits ih =>
      rw [List.pairwise_cons] at horder
      obtain ⟨hle, hlen⟩ := hwithin edit List.mem_cons_self
      have hmoved := moved_of_ge hle hlen (h edit List.mem_cons_self)
      have hpast := h edit List.mem_cons_self
      have hnext := @ih (moved rope edit pos false)
        (fun e he => hwithin e (List.mem_cons_of_mem _ he)) horder.2 (fun e he => by
          have hbefore := horder.1 e he
          rw [Before] at hbefore
          omega)
      rw [List.foldl_cons]
      simp only [taken, given, toSplice, List.map_cons, List.sum_cons] at hnext ⊢
      omega

end

/-! ## Replacing every range -/

section

open Transaction (toSplice inOrder Disjoint replace)

variable (f : Nat → Range → List Char × Nat)

theorem map_fst_replacements (selection : Selection) :
    (replacements f selection).map Prod.fst = selection.ranges := by
  refine List.ext_getElem? fun i => ?_
  rw [replacements, List.getElem?_map, List.getElem?_mapIdx, Option.map_map]
  exact congrFun Option.map_id _

/-- The replacements as ranges replaced, in order. -/
def splicesOf (selection : Selection) : List (Splice Char) := (editsOf f selection).map toSplice

theorem editsOf_eq {selection : Selection} {i : Nat} {r : Range × List Char × Nat}
    (hr : (replacements f selection)[i]? = some r) : editsOf f selection =
      (editsOf f selection).take i ++ (r.1.lower, r.1.upper, r.2.1) ::
        (editsOf f selection).drop (i + 1) := by
  have hedit : (editsOf f selection)[i]? = some (r.1.lower, r.1.upper, r.2.1) := by
    rw [editsOf, List.getElem?_map, hr]
    rfl
  obtain ⟨hlt, hget⟩ := List.getElem?_eq_some_iff.1 hedit
  rw [← hget, ← List.drop_eq_getElem_cons hlt, List.take_append_drop]

/-- What stands before the `i`-th replacement, which is that of `range`. -/
def front (rope : Rope) (selection : Selection) (i : Nat) (range : Range) : Rope :=
  weave (rope.take range.lower) 0 ((splicesOf f selection).take i)

/-- The text after `replace_each`, the step in the history, and the carets, each so many
characters into its replacement. -/
structure Replaced (doc : TextDoc) (selection : Selection) (doc' : TextDoc) (edited : Edited) :
    Prop where
  text : doc'.rope = weave doc.rope 0 (splicesOf f selection)
  step : OneStep doc doc' selection edited
  placed : ∀ i range text offset, (replacements f selection)[i]? = some (range, text, offset) →
    doc'.rope = front f doc.rope selection i range ++ text ++
      weave doc.rope range.upper ((splicesOf f selection).drop (i + 1))
  carets : CaretsAt edited.selection
    ((replacements f selection).mapIdx fun i r =>
      (front f doc.rope selection i r.1).length + r.2.2) selection.primary

variable {f} (hnormal : Selection.Normal selection.ranges)
  (hwithin : ∀ range ∈ selection.ranges, range.upper ≤ doc.rope.length)

include hnormal

theorem pairwise_replacements :
    (replacements f selection).Pairwise fun a b => a.1.Follows b.1 := by
  rw [Selection.Normal, ← map_fst_replacements f selection] at hnormal
  exact List.pairwise_map.1 hnormal

theorem pairwise_editsOf : (editsOf f selection).Pairwise Before := by
  refine List.pairwise_map.2 ((pairwise_replacements hnormal).imp ?_)
  intro a b hab
  rw [Range.Follows, Range.isEmpty_eq_false] at hab
  rw [Before]
  dsimp only
  omega

include hwithin

theorem disjoint_editsOf : Disjoint doc.rope.length (editsOf f selection) where
  within := by
    intro edit hedit
    obtain ⟨r, hr, rfl⟩ := List.mem_map.1 hedit
    have hmem : r.1 ∈ selection.ranges := by
      rw [← map_fst_replacements f selection]
      exact List.mem_map_of_mem hr
    exact ⟨r.1.lower_le_upper, hwithin r.1 hmem⟩
  apart := (pairwise_editsOf hnormal).imp fun hab => by
    rw [Before] at hab
    omega
  empty := by
    refine List.pairwise_map.2 ((pairwise_replacements hnormal).imp ?_)
    intro a b hab
    rw [Range.Follows, Range.isEmpty_eq_false, Range.isEmpty_eq_false] at hab
    rw [Transaction.EmptyApart]
    dsimp only
    omega

theorem mergeSort_editsOf : (editsOf f selection).mergeSort Transaction.earlier =
    editsOf f selection := by
  have hdisjoint := disjoint_editsOf (f := f) hnormal hwithin
  refine Transaction.mergeSort_earlier_of_order (fun edit hedit => (hdisjoint.within edit hedit).1)
    ((pairwise_editsOf hnormal).imp fun hab => ?_)
  rw [Before] at hab
  omega

theorem inOrder_editsOf : inOrder (editsOf f selection) = splicesOf f selection := by
  rw [inOrder, mergeSort_editsOf hnormal hwithin, splicesOf]

/-- The start of a range goes to the start of what replaces it. -/
theorem map_lower {tx : Transaction} (htx : replace doc.rope (editsOf f selection) = some tx)
    {i : Nat} {r : Range × List Char × Nat} (hr : (replacements f selection)[i]? = some r) :
    tx.map r.1.lower false = (front f doc.rope selection i r.1).length := by
  have hdisjoint := disjoint_editsOf (f := f) hnormal hwithin
  have hcut := editsOf_eq f hr
  have horder := pairwise_editsOf (f := f) hnormal
  have hedit : ∀ edit ∈ editsOf f selection, edit.1 ≤ edit.2.1 ∧ edit.2.1 ≤ doc.rope.length :=
    hdisjoint.within
  have hsame : front f doc.rope selection i r.1 =
      weave (doc.rope.take r.1.lower) 0 (((editsOf f selection).take i).map toSplice) := by
    rw [front, splicesOf, List.map_take]
  obtain ⟨changes, hchanges, rfl⟩ := Option.map_eq_some_iff.1 htx
  rw [Transaction.map_replaceOne (hdisjoint.perm (List.mergeSort_perm _ _).symm).within hchanges,
    Transaction.mergeSort_later_eq hdisjoint, mergeSort_editsOf hnormal hwithin, hsame]
  rw [hcut] at hedit horder
  rw [show (editsOf f selection).reverse =
    ((r.1.lower, r.1.upper, r.2.1) :: (editsOf f selection).drop (i + 1)).reverse ++
      ((editsOf f selection).take i).reverse by rw [← List.reverse_append, ← hcut],
    List.foldl_append]
  obtain ⟨hlow, hhigh, hcross⟩ := List.pairwise_append.1 horder
  rw [List.pairwise_cons] at hhigh
  have hleft : ∀ edit ∈ (editsOf f selection).take i, edit.1 ≤ edit.2.1 ∧
      edit.2.1 ≤ doc.rope.length := fun edit hmem => hedit edit (List.mem_append_left _ hmem)
  have hbefore : ∀ edit ∈ (editsOf f selection).take i, Before edit
      (r.1.lower, r.1.upper, r.2.1) := fun edit hmem => hcross edit hmem _ List.mem_cons_self
  have hlower : r.1.lower ≤ doc.rope.length := by
    have hself := hedit (r.1.lower, r.1.upper, r.2.1)
      (List.mem_append_right _ List.mem_cons_self)
    exact Nat.le_trans hself.1 hself.2
  have hstay := @foldl_moved_of_le doc.rope r.1.lower
    ((r.1.lower, r.1.upper, r.2.1) :: (editsOf f selection).drop (i + 1)).reverse
    (fun edit hmem => (hedit edit (List.mem_append_right _ (List.mem_reverse.1 hmem))).2)
    (fun edit hmem => by
      rcases List.mem_cons.1 (List.mem_reverse.1 hmem) with rfl | hmem
      · exact Nat.le_refl _
      · have hafter := hhigh.1 edit hmem
        have hself := r.1.lower_le_upper
        rw [Before] at hafter
        dsimp only at hafter
        omega)
  have hmoved := @foldl_moved_of_ge doc.rope r.1.lower
    ((editsOf f selection).take i).reverse
    (fun edit hmem => hleft edit (List.mem_reverse.1 hmem)) (List.pairwise_reverse.2 hlow)
    (fun edit hmem => hbefore edit (List.mem_reverse.1 hmem))
  have hlen := Splice.length_weave (l := doc.rope.take r.1.lower) (n := 0)
    (((editsOf f selection).take i).map toSplice) (Nat.zero_le _)
    (fun a ha => by
      obtain ⟨edit, hmem, rfl⟩ := List.mem_map.1 ha
      have hpast := hbefore edit hmem
      rw [Before] at hpast
      rw [List.length_take_of_le hlower]
      exact ⟨(hleft edit hmem).1, show edit.2.1 ≤ r.1.lower by omega⟩)
    (fun _ _ => Nat.zero_le _)
    (List.pairwise_map.2 (hlow.imp fun {a b} hab => show a.2.1 ≤ b.1 by
      rw [Before] at hab
      omega))
  rw [taken, given, List.map_reverse, List.map_reverse, List.map_reverse, List.sum_reverse,
    List.sum_reverse] at hmoved
  rw [List.length_take_of_le hlower, taken, given] at hlen
  rw [hstay]
  omega

/-- The text falls apart at each replacement. -/
theorem weave_splicesOf {i : Nat} {r : Range × List Char × Nat}
    (hr : (replacements f selection)[i]? = some r) :
    weave doc.rope 0 (splicesOf f selection) = front f doc.rope selection i r.1 ++ r.2.1 ++
      weave doc.rope r.1.upper ((splicesOf f selection).drop (i + 1)) := by
  have hdisjoint := disjoint_editsOf (f := f) hnormal hwithin
  have hcut := editsOf_eq f hr
  have horder := pairwise_editsOf (f := f) hnormal
  have hedit := hdisjoint.within
  rw [hcut] at horder hedit
  obtain ⟨-, hhigh, hcross⟩ := List.pairwise_append.1 horder
  rw [List.pairwise_cons] at hhigh
  have hsplices : splicesOf f selection = (splicesOf f selection).take i ++
      ⟨r.1.lower, r.1.upper, r.2.1⟩ :: (splicesOf f selection).drop (i + 1) := by
    rw [splicesOf, ← List.map_take, ← List.map_drop]
    conv_lhs => rw [hcut, List.map_append, List.map_cons]
    rfl
  have hstart : ((doc.rope.take r.1.lower).drop r.1.lower : Rope) = [] :=
    List.drop_eq_nil_of_le (List.length_take_le _ _)
  conv_lhs => rw [hsplices]
  rw [Splice.weave_append (Nat.zero_le r.1.lower), weave, hstart, List.nil_append, front,
    List.append_assoc]
  · intro a ha
    rw [splicesOf, ← List.map_take] at ha
    obtain ⟨edit, hmem, rfl⟩ := List.mem_map.1 ha
    have hpast := hcross edit hmem _ List.mem_cons_self
    rw [Before] at hpast
    dsimp only at hpast
    exact ⟨(hedit edit (List.mem_append_left _ hmem)).1, show edit.2.1 ≤ r.1.lower by omega⟩
  · intro a ha
    rcases List.mem_cons.1 ha with rfl | ha
    · exact Nat.le_refl _
    · rw [splicesOf, ← List.map_drop] at ha
      obtain ⟨edit, hmem, rfl⟩ := List.mem_map.1 ha
      have hafter := hhigh.1 edit hmem
      have hself := r.1.lower_le_upper
      rw [Before] at hafter
      dsimp only at hafter
      exact show r.1.lower ≤ edit.1 by omega

/-- `replace_each` on a selection in normal form. -/
theorem replaceEach_spec (kind : EditKind) (nowMs : Nat) :
    ∃ doc' edited, replaceEach doc selection kind nowMs f = some (doc', edited) ∧
      Replaced f doc selection doc' edited := by
  have hdisjoint := disjoint_editsOf (f := f) hnormal hwithin
  obtain ⟨tx, rope, htx, hsim⟩ :=
    Transaction.replace_simultaneous doc.rope (editsOf f selection) hdisjoint
  have htext := hsim.text
  rw [inOrder_editsOf hnormal hwithin] at htext
  have hlen : (replacements f selection).length = selection.ranges.length := by
    rw [replacements, List.length_mapIdx]
  have hplaces : (replacements f selection).map
      (fun r => Range.point (tx.map r.1.lower false + r.2.2)) =
        ((replacements f selection).mapIdx fun i r =>
          (front f doc.rope selection i r.1).length + r.2.2).map Range.point := by
    refine List.ext_getElem? fun i => ?_
    rw [List.getElem?_map, List.getElem?_map, List.getElem?_mapIdx]
    cases hr : (replacements f selection)[i]? with
    | none => rfl
    | some r =>
        simp only [Option.map_some]
        rw [map_lower hnormal hwithin htx hr]
  have hne := replacements_ne_nil f selection
  obtain ⟨doc', applied, hedit, hrope, hstep⟩ := exists_edit hsim.apply hsim.invert selection
    (Selection.new ((replacements f selection).map
      fun r => Range.point (tx.map r.1.lower false + r.2.2)) selection.primary (by simpa using hne))
    kind nowMs
  refine ⟨doc', _, ?_, ?_, hstep, ?_, ?_⟩
  · rw [replaceEach, htx, Option.bind_some]
    dsimp only
    rw [hedit, Option.map_some]
  · rw [hrope, htext]
  · intro i range text offset hr
    rw [hrope, htext]
    exact weave_splicesOf hnormal hwithin hr
  · simp only [hplaces]
    refine caretsAt_new ?_ _
    rw [List.length_mapIdx, hlen]
    exact selection.primary_lt

end

end Commands

end Throng.Editor
