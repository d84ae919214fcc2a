import Throng.Editor.LineSpans
import Throng.Editor.Replacing
import Throng.Editor.SelectionNormal
import Throng.Editor.UndoRun
import Throng.Lib.Clamp
import Mathlib.Order.Nat

/-!
# The other views of a document

After the edits of a frame every view but the one they came from follows them, one record
at a time, with the text as the last of them left it. Each step bounds the view's carets by
that text, also the steps before the last, whose carets are places in texts that are gone.
A caret that stood further on in one of them is moved, unless the edits that were left take
it and the end of the text to the same place.
-/

namespace Throng.Editor

/-- Text inserted where a position is can only move it on. -/
theorem Change.map_false_le_true (change : Change) (pos : Nat) :
    change.map pos false ≤ change.map pos true := by
  simp only [map, Bool.false_eq_true, if_false, if_true, or_false, or_true]
  split_ifs <;> omega

theorem Transaction.map_false_le_true (tx : Transaction) (pos : Nat) :
    tx.map pos false ≤ tx.map pos true := by
  obtain ⟨changes⟩ := tx
  induction changes generalizing pos with
  | nil => exact Nat.le_refl _
  | cons change changes ih =>
      rw [map_cons, map_cons]
      exact Nat.le_trans (map_mono ⟨changes⟩ false (change.map_false_le_true pos)) (ih _)

namespace Range

/-- One range of `Selection::clamp`. -/
def clamp (len : Nat) (range : Range) : Range :=
  { anchor := min range.anchor len, head := min range.head len, goal := range.goal }

theorem lower_clamp (len : Nat) (range : Range) :
    (range.clamp len).lower = min range.lower len := by
  simp only [clamp, lower]
  omega

theorem upper_clamp (len : Nat) (range : Range) :
    (range.clamp len).upper = min range.upper len := by
  simp only [clamp, upper]
  omega

theorem lower_map (range : Range) (tx : Transaction) :
    (range.map tx).lower = tx.map range.lower true := by
  rw [map]
  by_cases hempty : range.isEmpty = true
  · rw [if_pos hempty]
    rw [isEmpty, decide_eq_true_eq] at hempty
    simp only [lower, hempty, Nat.min_self]
  · rw [if_neg hempty]
    split
    · exact Nat.min_eq_left (Nat.le_max_right _ _)
    · exact Nat.min_eq_right (Nat.le_max_right _ _)

theorem upper_map (range : Range) (tx : Transaction) :
    (range.map tx).upper = max (tx.map range.upper false) (tx.map range.lower true) := by
  rw [map]
  by_cases hempty : range.isEmpty = true
  · rw [if_pos hempty]
    rw [isEmpty, decide_eq_true_eq] at hempty
    have hle := tx.map_false_le_true range.head
    simp only [lower, upper, hempty, Nat.min_self, Nat.max_self, Nat.max_eq_right hle]
  · rw [if_neg hempty]
    split
    · exact Nat.max_eq_right (Nat.le_max_right _ _)
    · exact Nat.max_eq_left (Nat.le_max_right _ _)

/-- The order of the two ends, unless they have met. -/
def SameWay (range moved : Range) : Prop :=
  moved.goal = range.goal ∧ if range.anchor ≤ range.head then moved.anchor ≤ moved.head
    else moved.head ≤ moved.anchor

theorem SameWay.refl (range : Range) : range.SameWay range := by
  refine ⟨rfl, ?_⟩
  split <;> omega

theorem SameWay.map {range moved : Range} (h : range.SameWay moved) (tx : Transaction) :
    range.SameWay (moved.map tx) := by
  obtain ⟨hgoal, horder⟩ := h
  rw [Range.map, isEmpty]
  by_cases hempty : moved.anchor = moved.head
  · rw [if_pos (decide_eq_true hempty)]
    refine ⟨hgoal, ?_⟩
    split <;> exact Nat.le_refl _
  · rw [if_neg (by rwa [decide_eq_true_eq])]
    split at horder
    · rw [if_pos horder]
      refine ⟨hgoal, ?_⟩
      rw [if_pos ‹_›]
      exact Nat.le_max_right _ _
    · rw [if_neg (by omega)]
      refine ⟨hgoal, ?_⟩
      rw [if_neg ‹_›]
      exact Nat.le_max_right _ _

theorem SameWay.clamp {range moved : Range} (h : range.SameWay moved) (len : Nat) :
    range.SameWay (moved.clamp len) := by
  obtain ⟨hgoal, horder⟩ := h
  refine ⟨hgoal, ?_⟩
  simp only [Range.clamp]
  split at horder
  · rw [if_pos ‹_›]
    omega
  · rw [if_neg ‹_›]
    omega

/-- Two ranges that went the way of a third are told apart by their ends. -/
theorem SameWay.eq {range a b : Range} (ha : range.SameWay a) (hb : range.SameWay b)
    (hlower : a.lower = b.lower) (hupper : a.upper = b.upper) : a = b := by
  obtain ⟨hagoal, haorder⟩ := ha
  obtain ⟨hbgoal, hborder⟩ := hb
  obtain ⟨anchor, head, goal⟩ := a
  obtain ⟨anchor', head', goal'⟩ := b
  simp only [lower, upper] at *
  rw [Range.mk.injEq]
  split at haorder
  · rw [if_pos ‹_›] at hborder
    exact ⟨by omega, by omega, hagoal.trans hbgoal.symm⟩
  · rw [if_neg ‹_›] at hborder
    exact ⟨by omega, by omega, hagoal.trans hbgoal.symm⟩

/-! ## Through all the edits -/

/-- The range mapped through the records, one after the other. -/
def mapAll (range : Range) (edits : List Applied) : Range :=
  edits.foldl (fun range applied => range.map applied.tx) range

/-- The same, bounded by `len` after every one of them. -/
def followAll (len : Nat) (range : Range) (edits : List Applied) : Range :=
  edits.foldl (fun range applied => (range.map applied.tx).clamp len) range

/-- Where the records take a position. -/
def placeAll (edits : List Applied) (pos : Nat) (past : Bool) : Nat :=
  edits.foldl (fun pos applied => applied.tx.map pos past) pos

/-- The maps of a position, one for each record. -/
def places (past : Bool) (edits : List Applied) : List (Nat → Nat) :=
  edits.map fun applied pos => applied.tx.map pos past

theorem placeAll_eq (edits : List Applied) (pos : Nat) (past : Bool) :
    placeAll edits pos past = Clamp.run (places past edits) pos := by
  rw [placeAll, Clamp.run, places, List.foldl_map]

theorem places_mono (past : Bool) (edits : List Applied) :
    ∀ f ∈ places past edits, Monotone f := by
  intro f hf
  obtain ⟨applied, -, rfl⟩ := List.mem_map.1 hf
  exact applied.tx.map_mono past

theorem placeAll_mono (edits : List Applied) (past : Bool) :
    Monotone fun pos => placeAll edits pos past := by
  simp only [placeAll_eq]
  exact Clamp.run_mono (places_mono past edits)

theorem placeAll_false_le_true (edits : List Applied) (pos : Nat) :
    placeAll edits pos false ≤ placeAll edits pos true := by
  induction edits generalizing pos with
  | nil => exact Nat.le_refl _
  | cons applied edits ih =>
      exact Nat.le_trans (placeAll_mono edits false (applied.tx.map_false_le_true pos)) (ih _)

theorem lower_mapAll (range : Range) (edits : List Applied) :
    (range.mapAll edits).lower = placeAll edits range.lower true := by
  induction edits generalizing range with
  | nil => rfl
  | cons applied edits ih =>
      rw [mapAll, List.foldl_cons, ← mapAll, ih, lower_map]
      rfl

theorem upper_mapAll (range : Range) (edits : List Applied) : (range.mapAll edits).upper =
    max (placeAll edits range.upper false) (placeAll edits range.lower true) := by
  induction edits generalizing range with
  | nil => exact (Nat.max_eq_left range.lower_le_upper).symm
  | cons applied edits ih =>
      have hle := placeAll_false_le_true edits (applied.tx.map range.lower true)
      rw [mapAll, List.foldl_cons, ← mapAll, ih, upper_map, lower_map,
        (placeAll_mono edits false).map_max, Nat.max_assoc, Nat.max_eq_right hle]
      rfl

theorem sameWay_mapAll {range moved : Range} (h : range.SameWay moved) (edits : List Applied) :
    range.SameWay (moved.mapAll edits) := by
  induction edits generalizing moved with
  | nil => exact h
  | cons applied edits ih => exact ih (h.map applied.tx)

variable {len : Nat}

theorem lower_followAll (range : Range) (edits : List Applied) :
    (range.followAll len edits).lower = Clamp.clamped len (places true edits) range.lower := by
  induction edits generalizing range with
  | nil => rfl
  | cons applied edits ih =>
      rw [followAll, List.foldl_cons, ← followAll, ih, lower_clamp, lower_map]
      rfl

theorem clamped_false_le_true (edits : List Applied) (pos : Nat) :
    Clamp.clamped len (places false edits) pos ≤ Clamp.clamped len (places true edits) pos := by
  induction edits generalizing pos with
  | nil => exact Nat.le_refl _
  | cons applied edits ih =>
      have hstep : min (applied.tx.map pos false) len ≤ min (applied.tx.map pos true) len :=
        min_le_min_right len (applied.tx.map_false_le_true pos)
      exact Nat.le_trans (Clamp.clamped_mono (places_mono false edits) hstep) (ih _)

theorem upper_followAll (range : Range) (edits : List Applied) :
    (range.followAll len edits).upper =
      max (Clamp.clamped len (places false edits) range.upper)
        (Clamp.clamped len (places true edits) range.lower) := by
  induction edits generalizing range with
  | nil => exact (Nat.max_eq_left range.lower_le_upper).symm
  | cons applied edits ih =>
      have hle := @clamped_false_le_true len edits (min (applied.tx.map range.lower true) len)
      rw [followAll, List.foldl_cons, ← followAll, ih, lower_clamp, upper_clamp, upper_map,
        lower_map, min_max_distrib_right,
        (Clamp.clamped_mono (places_mono false edits)).map_max, Nat.max_assoc, Nat.max_eq_right hle]
      rfl

theorem sameWay_followAll {range moved : Range} (h : range.SameWay moved) (edits : List Applied) :
    range.SameWay (moved.followAll len edits) := by
  induction edits generalizing moved with
  | nil => exact h
  | cons applied edits ih => exact ih ((h.map applied.tx).clamp len)

/-- Wherever one of its ends has come to lie past `len`, the records that are left take
that place and `len` to the same one. -/
def EndsRejoin (len : Nat) (range : Range) (edits : List Applied) : Prop :=
  ∀ done rest, edits = done ++ rest → done ≠ [] →
    ((range.mapAll done).lower ≤ len ∨
      placeAll rest len true = placeAll rest (range.mapAll done).lower true) ∧
    ((range.mapAll done).upper ≤ len ∨
      max (placeAll rest len false) (placeAll rest (range.mapAll done).lower true) =
        max (placeAll rest (range.mapAll done).upper false)
          (placeAll rest (range.mapAll done).lower true))

/-- The records up to a point and those after it, for the maps of a position. -/
theorem forall_places (past : Bool) (edits : List Applied)
    (P : List (Nat → Nat) → List (Nat → Nat) → Prop) :
    (∀ fs gs, places past edits = fs ++ gs → fs ≠ [] → P fs gs) ↔
      ∀ done rest, edits = done ++ rest → done ≠ [] → P (places past done) (places past rest) := by
  constructor
  · rintro h done rest rfl hne
    exact h _ _ List.map_append (by rwa [places, Ne, List.map_eq_nil_iff])
  · intro h fs gs hsplit hne
    obtain ⟨done, rest, rfl, rfl, rfl⟩ := List.map_eq_append_iff.1 hsplit
    exact h done rest rfl fun hnil => hne (by rw [hnil, List.map_nil])

theorem placeAll_append (done rest : List Applied) (pos : Nat) (past : Bool) :
    placeAll (done ++ rest) pos past = placeAll rest (placeAll done pos past) past :=
  List.foldl_append

theorem lower_followAll_iff (range : Range) (edits : List Applied) :
    (range.followAll len edits).lower = (range.mapAll edits).lower ↔
      ∀ done rest, edits = done ++ rest → done ≠ [] → (range.mapAll done).lower ≤ len ∨
        placeAll rest len true = placeAll rest (range.mapAll done).lower true := by
  rw [lower_followAll, lower_mapAll, placeAll_eq, Clamp.clamped_eq_run_iff (places_mono true edits),
    forall_places]
  refine forall₂_congr fun done rest => forall₂_congr ?_
  rintro rfl -
  rw [lower_mapAll, ← placeAll_eq, ← placeAll_eq, ← placeAll_eq, placeAll_append]

/-- Where the records that are left take the upper end, put as where they take the end it
was at the start. -/
theorem max_placeAll_mapAll (range : Range) (done rest : List Applied) :
    max (placeAll rest (range.mapAll done).upper false)
        (placeAll rest (range.mapAll done).lower true) =
      max (placeAll (done ++ rest) range.upper false)
        (placeAll (done ++ rest) range.lower true) := by
  have hle := placeAll_false_le_true rest (range.mapAll done).lower
  rw [upper_mapAll, lower_mapAll] at *
  rw [(placeAll_mono rest false).map_max, Nat.max_assoc, Nat.max_eq_right hle, ← placeAll_append,
    ← placeAll_append]

/-- The upper end can only have been moved past `len` by the lower one when the records
left over take the two together. -/
theorem upper_rejoins_iff (range : Range) (done rest : List Applied) :
    (placeAll done range.upper false ≤ len ∨
      max (placeAll rest len false) (placeAll (done ++ rest) range.lower true) =
        max (placeAll (done ++ rest) range.upper false)
          (placeAll (done ++ rest) range.lower true)) ↔
    ((range.mapAll done).upper ≤ len ∨
      max (placeAll rest len false) (placeAll rest (range.mapAll done).lower true) =
        max (placeAll rest (range.mapAll done).upper false)
          (placeAll rest (range.mapAll done).lower true)) := by
  rw [max_placeAll_mapAll, lower_mapAll, ← placeAll_append, upper_mapAll, Nat.max_le]
  refine ⟨?_, Or.imp_left And.left⟩
  rintro (hupper | heq)
  · rcases Nat.lt_or_ge len (placeAll done range.lower true) with hover | hle
    · have hlen := placeAll_mono rest false hover.le
      have hend := placeAll_mono rest false (hupper.trans hover.le)
      have hle := placeAll_false_le_true rest (placeAll done range.lower true)
      simp only [← placeAll_append] at hlen hend hle
      refine .inr ?_
      rw [Nat.max_eq_right (hlen.trans hle), Nat.max_eq_right (hend.trans hle)]
    · exact .inl ⟨hupper, hle⟩
  · exact .inr heq

theorem upper_followAll_iff {range : Range} {edits : List Applied}
    (hlower : (range.followAll len edits).lower = (range.mapAll edits).lower) :
    (range.followAll len edits).upper = (range.mapAll edits).upper ↔
      ∀ done rest, edits = done ++ rest → done ≠ [] → (range.mapAll done).upper ≤ len ∨
        max (placeAll rest len false) (placeAll rest (range.mapAll done).lower true) =
          max (placeAll rest (range.mapAll done).upper false)
            (placeAll rest (range.mapAll done).lower true) := by
  rw [lower_followAll, lower_mapAll] at hlower
  rw [upper_followAll, upper_mapAll, hlower, placeAll_eq edits range.upper,
    Clamp.clamped_eq_iff (places_mono false edits), forall_places]
  refine forall₂_congr fun done rest => forall₂_congr ?_
  rintro rfl -
  rw [← upper_rejoins_iff, ← placeAll_eq, ← placeAll_eq, ← placeAll_eq]

/-- Following a range leaves its ends where mapping leaves them. -/
theorem followAll_eq_iff (range : Range) (edits : List Applied) :
    range.followAll len edits = range.mapAll edits ↔ EndsRejoin len range edits := by
  have hends : range.followAll len edits = range.mapAll edits ↔
      (range.followAll len edits).lower = (range.mapAll edits).lower ∧
        (range.followAll len edits).upper = (range.mapAll edits).upper := by
    refine ⟨fun heq => by rw [heq]; exact ⟨rfl, rfl⟩, ?_⟩
    rintro ⟨hlower, hupper⟩
    exact (sameWay_followAll (SameWay.refl range) edits).eq
      (sameWay_mapAll (SameWay.refl range) edits) hlower hupper
  rw [hends]
  constructor
  · rintro ⟨hlower, hupper⟩ done rest hsplit hne
    exact ⟨(lower_followAll_iff range edits).1 hlower done rest hsplit hne,
      (upper_followAll_iff hlower).1 hupper done rest hsplit hne⟩
  · intro h
    have hlower := (lower_followAll_iff range edits).2 fun done rest hsplit hne =>
      (h done rest hsplit hne).1
    exact ⟨hlower, (upper_followAll_iff hlower).2 fun done rest hsplit hne =>
      (h done rest hsplit hne).2⟩

end Range

/-! ## The views -/

theorem TextDoc.transaction_of_apply {doc doc' : TextDoc} {tx : Transaction} {applied : Applied}
    (h : doc.apply tx = some (doc', applied)) :
    applied.tx = tx ∧ tx.apply doc.rope = some doc'.rope := by
  obtain ⟨state, hstate, happlied⟩ := Option.map_eq_some_iff.1 h
  rw [TextDoc.applied, Prod.mk.injEq] at happlied
  obtain ⟨rfl, rfl⟩ := happlied
  refine ⟨rfl, ?_⟩
  rw [← foldlM_applyChange tx.changes doc.rope none, hstate]
  rfl

/-- An edit that the text allows is made and reported. -/
theorem TextDoc.exists_reports {doc : TextDoc} {tx : Transaction} {rope : Rope}
    (hne : tx.isEmpty = false) (h : tx.apply doc.rope = some rope) :
    ∃ doc' applied, doc.Reports doc' applied ∧ doc'.rope = rope ∧ applied.tx = tx := by
  obtain ⟨result, applied, happ, hrope, -⟩ := apply_of_rope doc h
  have hedit : ∃ doc', doc'.rope = rope ∧
      doc.edit tx (Selection.point 0) (Selection.point 0) .other 0 = some (doc', some applied) := by
    rw [edit, if_neg (by rw [hne]; exact Bool.false_ne_true), happ, Option.map_some]
    refine ⟨_, ?_, rfl⟩
    exact hrope
  obtain ⟨doc', hdoc', hedit⟩ := hedit
  exact ⟨doc', applied, .inl ⟨_, _, _, _, _, hedit⟩, hdoc', (transaction_of_apply happ).1⟩

/-- The edits of a frame, from `doc` to `doc'`, with what each of them reported. What a
document holds beside its text may have changed between them. -/
inductive Frame : TextDoc → List Applied → TextDoc → Prop
  | done {doc doc' : TextDoc} (h : doc'.rope = doc.rope) : Frame doc [] doc'
  | step {doc start middle doc' : TextDoc} {applied : Applied} {edits : List Applied}
      (h : start.rope = doc.rope) (hreports : start.Reports middle applied)
      (hrest : Frame middle edits doc') : Frame doc (applied :: edits) doc'

namespace CodeView

/-- `CodeView::follow`, on the view's selection. -/
def follow (buf : TextDoc) (selection : Selection) (applied : Applied) : Selection :=
  (selection.map applied.tx).clamp buf.rope.length

/-- What `after_edits` does to the selection of a view the edits did not come from. -/
def afterEdits (buf : TextDoc) (edits : List Applied) (selection : Selection) : Selection :=
  edits.foldl (follow buf) selection

/-- The selection mapped through all the transactions in order. -/
def mapAll (edits : List Applied) (selection : Selection) : Selection :=
  edits.foldl (fun selection applied => selection.map applied.tx) selection

/-- The selection with `range` alone. -/
def alone (range : Range) : Selection where
  ranges := [range]
  primary := 0
  primary_lt := Nat.one_pos

end CodeView

namespace Selection

/-- No end of the selection is past `len`. -/
def Within (len : Nat) (selection : Selection) : Prop :=
  ∀ range ∈ selection.ranges, range.upper ≤ len

instance (len : Nat) (selection : Selection) : Decidable (selection.Within len) :=
  inferInstanceAs (Decidable (∀ range ∈ selection.ranges, range.upper ≤ len))

theorem normal_map (selection : Selection) (tx : Transaction) :
    Normal (selection.map tx).ranges := by
  rw [map, transform]
  exact new_normal _ _ _

theorem transform_of_map_eq {selection : Selection} (hnormal : Normal selection.ranges)
    {f : Range → Range} (h : selection.ranges.map f = selection.ranges) :
    selection.transform f = selection := by
  simp only [transform, h]
  exact new_of_normal hnormal

theorem clamp_of_within {selection : Selection} {len : Nat} (hnormal : Normal selection.ranges)
    (h : selection.Within len) : selection.clamp len = selection := by
  refine transform_of_map_eq hnormal ?_
  conv_rhs => rw [← List.map_id selection.ranges]
  refine List.map_congr_left fun range hrange => ?_
  have hupper := h range hrange
  rw [Range.upper, Nat.max_le] at hupper
  rw [id, Nat.min_eq_left hupper.1, Nat.min_eq_left hupper.2]

theorem within_map {selection : Selection} {tx : Transaction} {rope rope' : Rope}
    (h : tx.apply rope = some rope') (hwithin : selection.Within rope.length) :
    (selection.map tx).Within rope'.length := by
  intro range hrange
  rw [map, transform] at hrange
  obtain ⟨moved, hmoved, -, hupper⟩ := (exists_new
    (fun _ _ hle hover => touches_join hle hover range.upper)
    (selection.ranges.map fun range => range.map tx) selection.primary
    (by simpa using selection.ranges_ne_nil)).1
      ⟨range, hrange, range.lower_le_upper, Nat.le_refl _⟩
  obtain ⟨given, hgiven, rfl⟩ := List.mem_map.1 hmoved
  have hend := hwithin given hgiven
  have hstart := Nat.le_trans given.lower_le_upper hend
  rw [Range.upper_map] at hupper
  exact hupper.trans (Nat.max_le.2 ⟨Transaction.map_le h hend, Transaction.map_le h hstart⟩)

end Selection

namespace CodeView

open Selection

variable {doc doc' buf : TextDoc} {edits : List Applied} {selection : Selection}

/-- The records of a frame take the text to the last one, and a selection in the text to
one in the last. -/
theorem within_mapAll (h : Frame doc edits doc') (hwithin : selection.Within doc.rope.length) :
    (mapAll edits selection).Within doc'.rope.length := by
  induction h generalizing selection with
  | done h =>
      rw [h]
      exact hwithin
  | step h hreports hrest ih =>
      obtain ⟨start', tx, result, hstart, happ, hmiddle⟩ := hreports.exists_apply
      obtain ⟨htx, hrope⟩ := TextDoc.transaction_of_apply happ
      have hmapped : (selection.map tx).Within result.rope.length :=
        within_map hrope (by rwa [hstart, h])
      rw [← htx, ← hmiddle] at hmapped
      exact ih hmapped

theorem map_alone (range : Range) (tx : Transaction) :
    (alone range).map tx = alone (range.map tx) :=
  @new_of_normal (alone (range.map tx)) (List.pairwise_singleton _ _)

theorem follow_alone (range : Range) (applied : Applied) :
    follow buf (alone range) applied =
      alone ((range.map applied.tx).clamp buf.rope.length) := by
  rw [follow, map_alone]
  exact @new_of_normal (alone _) (List.pairwise_singleton _ _)

/-- A selection of one range has it as its primary one. -/
theorem eq_alone {range : Range} (h : selection.ranges = [range]) : selection = alone range := by
  obtain ⟨ranges, primary, hprimary⟩ := selection
  dsimp only at h
  subst h
  obtain rfl : primary = 0 := Nat.lt_one_iff.mp hprimary
  rfl

theorem mapAll_alone (range : Range) (edits : List Applied) :
    mapAll edits (alone range) = alone (range.mapAll edits) := by
  induction edits generalizing range with
  | nil => rfl
  | cons applied edits ih => rw [mapAll, List.foldl_cons, map_alone, ← mapAll, ih]; rfl

theorem afterEdits_alone (range : Range) (edits : List Applied) :
    afterEdits buf edits (alone range) = alone (range.followAll buf.rope.length edits) := by
  induction edits generalizing range with
  | nil => rfl
  | cons applied edits ih => rw [afterEdits, List.foldl_cons, follow_alone, ← afterEdits, ih]; rfl

theorem afterEdits_of_within (h : ∀ done rest, edits = done ++ rest → done ≠ [] →
    (mapAll done selection).Within buf.rope.length) :
    afterEdits buf edits selection = mapAll edits selection := by
  induction edits generalizing selection with
  | nil => rfl
  | cons applied edits ih =>
      have hfirst : follow buf selection applied = selection.map applied.tx :=
        clamp_of_within (normal_map _ _) (h [applied] edits rfl (List.cons_ne_nil _ _))
      rw [afterEdits, List.foldl_cons, hfirst]
      refine ih fun done rest hsplit hne => ?_
      exact h (applied :: done) rest (congrArg _ hsplit) (List.cons_ne_nil _ _)

/-- What a view that follows the edits of a frame makes of its selection. No mapped end is
outside the text the frame leaves, so there is nothing to bound; the selection is the mapped
one while no end is past that text after any of the records; and a selection of one range is
the mapped one exactly when the records still to come take what is past that text back to
where they take its end. Several ranges may be bounded to one place and join there. -/
theorem afterEdits_iff (hframe : Frame doc edits doc')
    (hwithin : selection.Within doc.rope.length) :
    (mapAll edits selection).Within doc'.rope.length ∧
    ((∀ done rest, edits = done ++ rest → done ≠ [] →
        (mapAll done selection).Within doc'.rope.length) →
      afterEdits doc' edits selection = mapAll edits selection) ∧
    ∀ range, selection.ranges = [range] →
      (afterEdits doc' edits selection = mapAll edits selection ↔
        range.EndsRejoin doc'.rope.length edits) := by
  refine ⟨within_mapAll hframe hwithin, afterEdits_of_within, fun range hrange => ?_⟩
  rw [eq_alone hrange, afterEdits_alone, mapAll_alone, ← Range.followAll_eq_iff]
  refine ⟨fun heq => ?_, fun heq => by rw [heq]⟩
  exact List.singleton_inj.1 (congrArg Selection.ranges heq)

/-- Three characters inserted at the start of a text of two and taken out again. -/
theorem exists_frame : ∃ doc' inserted deleted,
    Frame (TextDoc.new ['a', 'b']) [inserted, deleted] doc' ∧ doc'.rope = ['a', 'b'] ∧
      inserted.tx = ⟨[⟨0, [], ['x', 'y', 'z']⟩]⟩ ∧ deleted.tx = ⟨[⟨0, ['x', 'y', 'z'], []⟩]⟩ := by
  obtain ⟨middle, inserted, hinserted, hmiddle, htx⟩ :=
    @TextDoc.exists_reports (TextDoc.new ['a', 'b']) ⟨[⟨0, [], ['x', 'y', 'z']⟩]⟩
      ['x', 'y', 'z', 'a', 'b'] rfl rfl
  obtain ⟨last, deleted, hdeleted, hlast, htx'⟩ :=
    @TextDoc.exists_reports middle ⟨[⟨0, ['x', 'y', 'z'], []⟩]⟩ ['a', 'b'] rfl
      (by rw [hmiddle]; rfl)
  exact ⟨last, inserted, deleted, .step rfl hinserted (.step rfl hdeleted (.done rfl)), hlast, htx,
    htx'⟩

/-- The caret at the start stays there. -/
theorem afterEdits_iff_start : ∃ doc' edits, Frame (TextDoc.new ['a', 'b']) edits doc' ∧
    (mapAll edits (Selection.point 0)).Within doc'.rope.length ∧
    ((∀ done rest, edits = done ++ rest → done ≠ [] →
        (mapAll done (Selection.point 0)).Within doc'.rope.length) →
      afterEdits doc' edits (Selection.point 0) = mapAll edits (Selection.point 0)) ∧
    ∀ range, (Selection.point 0).ranges = [range] →
      (afterEdits doc' edits (Selection.point 0) = mapAll edits (Selection.point 0) ↔
        range.EndsRejoin doc'.rope.length edits) := by
  obtain ⟨doc', inserted, deleted, hframe, -⟩ := exists_frame
  exact ⟨doc', [inserted, deleted], hframe, afterEdits_iff hframe (by decide)⟩

/-- The caret at the end is taken to the start. -/
theorem not_follows : ∃ doc' edits, Frame (TextDoc.new ['a', 'b']) edits doc' ∧
    (Selection.point 2).Within (TextDoc.new ['a', 'b']).rope.length ∧
      mapAll edits (Selection.point 2) = Selection.point 2 ∧
        afterEdits doc' edits (Selection.point 2) = Selection.point 0 := by
  obtain ⟨doc', inserted, deleted, hframe, hrope, htx, htx'⟩ := exists_frame
  refine ⟨doc', [inserted, deleted], hframe, by decide, ?_, ?_⟩
  · have hmap : (Range.point 2).mapAll [inserted, deleted] = Range.point 2 := by
      rw [Range.mapAll, List.foldl_cons, List.foldl_cons, htx, htx']
      rfl
    exact (mapAll_alone _ _).trans (congrArg alone hmap)
  · have hmap : (Range.point 2).followAll doc'.rope.length [inserted, deleted] =
        Range.point 0 := by
      rw [Range.followAll, hrope, List.foldl_cons, List.foldl_cons, htx, htx']
      rfl
    exact (afterEdits_alone _ _).trans (congrArg alone hmap)

end CodeView

end Throng.Editor
