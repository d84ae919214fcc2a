import Throng.Editor.Find
import Mathlib.Order.Monotone.Basic

/-!
# A transaction is a simultaneous replacement

Ranges of a text that do not overlap are replaced all at once, whatever order they are
given in, and positions follow. A position that no range touches goes to where its
character is; any other stays between its neighbours, since the map of each change keeps
the order of positions. A replacement that changes nothing is dropped from the
transaction, and for positions that no range touches that makes no difference.
-/

namespace Throng.Editor

open Splice (taken given weave)

namespace Change

variable {change : Change} {pos : Nat} {past : Bool}

theorem map_of_lt (h : pos < change.offset) : change.map pos past = pos := if_pos h

theorem map_of_gt (h : change.offset + change.removed.length < pos) :
    change.map pos past = pos - change.removed.length + change.inserted.length := by
  simp only [map]
  rw [if_neg (by omega), if_pos h]

theorem map_mono (change : Change) (past : Bool) : Monotone fun pos => change.map pos past := by
  intro pos pos' hle
  cases past <;> simp only [map, Bool.false_eq_true, if_false, if_true, or_false, or_true] <;>
    split_ifs <;> omega

/-- A position in the text stays in the text. -/
theorem map_le {rope rope' : Rope} (h : change.apply rope = some rope') (hpos : pos ≤ rope.length) :
    change.map pos past ≤ rope'.length := by
  obtain ⟨front, removed, back, hfront, hremoved, rfl, rfl⟩ := exists_of_apply h
  simp only [List.length_append, hfront, hremoved] at hpos ⊢
  simp only [map]
  split_ifs <;> omega

end Change

namespace Transaction

theorem map_cons (change : Change) (changes : List Change) (pos : Nat) (past : Bool) :
    map ⟨change :: changes⟩ pos past = map ⟨changes⟩ (change.map pos past) past := rfl

theorem map_mono (tx : Transaction) (past : Bool) : Monotone fun pos => tx.map pos past := by
  obtain ⟨changes⟩ := tx
  induction changes with
  | nil => exact fun _ _ hle => hle
  | cons change changes ih => exact fun _ _ hle => ih (change.map_mono past hle)

theorem map_le {tx : Transaction} {rope rope' : Rope} {pos : Nat} {past : Bool}
    (h : tx.apply rope = some rope') (hpos : pos ≤ rope.length) :
    tx.map pos past ≤ rope'.length := by
  obtain ⟨changes⟩ := tx
  induction changes generalizing rope pos with
  | nil =>
      rw [apply_nil, Option.some.injEq] at h
      exact h ▸ hpos
  | cons change changes ih =>
      rw [apply_cons] at h
      obtain ⟨middle, hmiddle, hrest⟩ := Option.bind_eq_some_iff.1 h
      rw [map_cons]
      exact ih (Change.map_le hmiddle hpos) hrest

/-- The order in which the edits stand in the text. -/
def earlier (a b : Nat × Nat × List Char) : Bool :=
  a.1 < b.1 || (a.1 = b.1 && a.2.1 ≤ b.2.1)

/-- The edits in the order of the text, as ranges replaced. -/
def inOrder (edits : List (Nat × Nat × List Char)) : List (Splice Char) :=
  (edits.mergeSort earlier).map toSplice

/-- Not two empty ranges at one place. -/
def EmptyApart (a b : Nat × Nat × List Char) : Prop := a.1 = a.2.1 → b.1 = b.2.1 → a.1 ≠ b.1

instance : Std.Symm EmptyApart := ⟨fun _ _ h hb ha => (h ha hb).symm⟩

instance : DecidableRel EmptyApart := fun a b =>
  inferInstanceAs (Decidable (a.1 = a.2.1 → b.1 = b.2.1 → a.1 ≠ b.1))

/-- The edits are ranges of a text of `len` characters that do not overlap, with at most
one empty range at a place. -/
structure Disjoint (len : Nat) (edits : List (Nat × Nat × List Char)) : Prop where
  within : ∀ edit ∈ edits, edit.1 ≤ edit.2.1 ∧ edit.2.1 ≤ len
  apart : edits.Pairwise fun a b => a.2.1 ≤ b.1 ∨ b.2.1 ≤ a.1
  empty : edits.Pairwise EmptyApart

instance (len : Nat) (edits : List (Nat × Nat × List Char)) : Decidable (Disjoint len edits) :=
  decidable_of_iff ((∀ edit ∈ edits, edit.1 ≤ edit.2.1 ∧ edit.2.1 ≤ len) ∧
    edits.Pairwise (fun a b => a.2.1 ≤ b.1 ∨ b.2.1 ≤ a.1) ∧
      edits.Pairwise EmptyApart)
    ⟨fun h => ⟨h.1, h.2.1, h.2.2⟩, fun h => ⟨h.within, h.apart, h.empty⟩⟩

variable {len : Nat} {edits : List (Nat × Nat × List Char)}

theorem Disjoint.perm (h : Disjoint len edits) {others : List (Nat × Nat × List Char)}
    (hperm : edits.Perm others) : Disjoint len others where
  within := fun edit hedit => h.within edit (hperm.mem_iff.2 hedit)
  apart := hperm.pairwise h.apart fun hab => hab.symm
  empty := hperm.pairwise h.empty fun hab => Std.Symm.symm _ _ hab

theorem pairwise_earlier (h : Disjoint len edits) :
    (edits.mergeSort earlier).Pairwise fun a b => a.2.1 ≤ b.1 := by
  have hsorted := h.perm (List.mergeSort_perm edits earlier).symm
  have horder : (edits.mergeSort earlier).Pairwise fun a b => earlier a b = true := by
    apply List.pairwise_mergeSort
    · intro a b c hab hbc
      simp only [earlier, Bool.or_eq_true, Bool.and_eq_true, decide_eq_true_eq] at *
      omega
    · intro a b
      simp only [earlier, Bool.or_eq_true, Bool.and_eq_true, decide_eq_true_eq]
      omega
  refine (horder.and (hsorted.apart.and hsorted.empty)).imp_of_mem ?_
  intro a b ha hb hab
  have harange := hsorted.within a ha
  have hbrange := hsorted.within b hb
  simp only [earlier, EmptyApart, Bool.or_eq_true, Bool.and_eq_true, decide_eq_true_eq] at hab
  omega

/-- Edits that come in the order of the text. -/
theorem mergeSort_earlier_of_order (hwithin : ∀ edit ∈ edits, edit.1 ≤ edit.2.1)
    (horder : edits.Pairwise fun a b => a.2.1 ≤ b.1) : edits.mergeSort earlier = edits := by
  refine List.mergeSort_of_pairwise (horder.imp_of_mem ?_)
  intro a b ha hb hab
  have harange := hwithin a ha
  have hbrange := hwithin b hb
  simp only [earlier, Bool.or_eq_true, Bool.and_eq_true, decide_eq_true_eq]
  omega

/-- The order from the end backwards is the order of the text the other way. -/
theorem mergeSort_later_eq (h : Disjoint len edits) :
    edits.mergeSort later = (edits.mergeSort earlier).reverse := by
  have hperm : (edits.mergeSort later).Perm (edits.mergeSort earlier).reverse :=
    (List.mergeSort_perm edits later).trans
      ((List.mergeSort_perm edits earlier).symm.trans (List.reverse_perm _).symm)
  have hsorted := h.perm (List.mergeSort_perm edits later).symm
  refine hperm.eq_of_pairwise (fun a b ha hb hab hba => ?_)
    (pairwise_later (fun edit hedit => (h.within edit hedit).1) h.apart)
    (List.pairwise_reverse.2 (pairwise_earlier h))
  have hmem := hperm.mem_iff.2 hb
  have harange := hsorted.within a ha
  have hbrange := hsorted.within b hmem
  by_contra hne
  have hempty := hsorted.empty.forall ha hmem hne
  exact hempty (by omega) (by omega) (by omega)

/-- What one edit of the text does. -/
theorem replaceOne_eq {rope : Rope} {edit : Nat × Nat × List Char} (hle : edit.1 ≤ edit.2.1)
    (hlen : edit.2.1 ≤ rope.length) : replaceOne rope edit =
      some (if (rope.take edit.2.1).drop edit.1 ≠ edit.2.2 then
        some ⟨edit.1, (rope.take edit.2.1).drop edit.1, edit.2.2⟩ else none) := by
  rw [replaceOne, Nat.min_eq_left (Nat.le_trans hle hlen), Nat.min_eq_left hlen, Rope.slice,
    if_pos ⟨hle, hlen⟩]
  rfl

/-- Where the edit takes a position; one that is dropped leaves it. -/
def moved (rope : Rope) (edit : Nat × Nat × List Char) (pos : Nat) (past : Bool) : Nat :=
  if (rope.take edit.2.1).drop edit.1 ≠ edit.2.2 then
    Change.map ⟨edit.1, (rope.take edit.2.1).drop edit.1, edit.2.2⟩ pos past
  else pos

theorem length_take_drop {rope : Rope} (start : Nat) {stop : Nat} (hlen : stop ≤ rope.length) :
    ((rope.take stop).drop start).length = stop - start := by
  rw [List.length_drop, List.length_take_of_le hlen]

theorem moved_of_lt {rope : Rope} {edit : Nat × Nat × List Char} {pos : Nat} {past : Bool}
    (h : pos < edit.1) : moved rope edit pos past = pos := by
  rw [moved]
  split
  · exact Change.map_of_lt h
  · rfl

theorem moved_of_gt {rope : Rope} {edit : Nat × Nat × List Char} {pos : Nat} (past : Bool)
    (hle : edit.1 ≤ edit.2.1) (hlen : edit.2.1 ≤ rope.length) (h : edit.2.1 < pos) :
    moved rope edit pos past + (edit.2.1 - edit.1) = pos + edit.2.2.length := by
  have hremoved := length_take_drop edit.1 hlen
  rw [moved]
  split
  · rw [Change.map_of_gt (by dsimp only; omega)]
    dsimp only
    omega
  · next hsame =>
      rw [not_not] at hsame
      rw [← hsame, hremoved]

/-- The map of a transaction is that of its edits one after the other. -/
theorem map_replaceOne {rope : Rope} {edits : List (Nat × Nat × List Char)}
    {changes : List (Option Change)} (hwithin : ∀ edit ∈ edits, edit.1 ≤ edit.2.1 ∧
      edit.2.1 ≤ rope.length) (h : edits.mapM (replaceOne rope) = some changes) (pos : Nat)
    (past : Bool) : map ⟨changes.reduceOption⟩ pos past =
      edits.foldl (fun pos edit => moved rope edit pos past) pos := by
  induction edits generalizing changes pos with
  | nil =>
      obtain rfl : [] = changes := Option.some.inj h
      rfl
  | cons edit edits ih =>
      obtain ⟨hle, hlen⟩ := hwithin edit List.mem_cons_self
      rw [List.mapM_cons, replaceOne_eq hle hlen] at h
      obtain ⟨one, hone, h⟩ := Option.bind_eq_some_iff.1 h
      obtain ⟨rest, hrest, hchanges⟩ := Option.bind_eq_some_iff.1 h
      obtain rfl := Option.some.inj hone
      obtain rfl := Option.some.inj hchanges
      rw [List.foldl_cons, ← ih (fun e he => hwithin e (List.mem_cons_of_mem _ he)) hrest, moved]
      by_cases hsame : (rope.take edit.2.1).drop edit.1 = edit.2.2
      · rw [if_neg (not_not.2 hsame), if_neg (not_not.2 hsame), List.reduceOption_cons_of_none]
      · rw [if_pos hsame, if_pos hsame, List.reduceOption_cons_of_some, map_cons]

/-- A position that no edit touches moves by what the edits before it take and give. -/
theorem foldl_moved {rope : Rope} {edits : List (Nat × Nat × List Char)} {pos : Nat}
    (past : Bool) (hwithin : ∀ edit ∈ edits, edit.1 ≤ edit.2.1 ∧ edit.2.1 ≤ rope.length)
    (horder : edits.Pairwise fun a b => b.2.1 ≤ a.1)
    (hkept : ∀ edit ∈ edits, pos < edit.1 ∨ edit.2.1 < pos) :
    edits.foldl (fun pos edit => moved rope edit pos past) pos +
        taken ((edits.filter fun edit => edit.2.1 < pos).map toSplice) =
      pos + given ((edits.filter fun edit => edit.2.1 < pos).map toSplice) := by
  induction edits generalizing pos with
  | nil => rfl
  | cons edit edits ih =>
      rw [List.pairwise_cons] at horder
      obtain ⟨hle, hlen⟩ := hwithin edit List.mem_cons_self
      have hrest : ∀ e ∈ edits, e.1 ≤ e.2.1 ∧ e.2.1 ≤ rope.length := fun e he =>
        hwithin e (List.mem_cons_of_mem _ he)
      rw [List.foldl_cons]
      rcases hkept edit List.mem_cons_self with hlt | hgt
      · have hnot : ¬ edit.2.1 < pos := by omega
        rw [moved_of_lt hlt, List.filter_cons, if_neg (by rwa [decide_eq_true_eq])]
        exact ih hrest horder.2 fun e he => hkept e (List.mem_cons_of_mem _ he)
      · have hmoved := moved_of_gt past hle hlen hgt
        -- the edits left to make stand before this one, so also before the moved position
        have hbefore : ∀ e ∈ edits, e.2.1 < pos ∧ e.2.1 < moved rope edit pos past := by
          intro e he
          have hstart := horder.1 e he
          omega
        have hall (q : Nat) (hq : ∀ e ∈ edits, e.2.1 < q) :
            edits.filter (fun e => e.2.1 < q) = edits :=
          List.filter_eq_self.2 fun e he => decide_eq_true (hq e he)
        have hnext := ih hrest horder.2 fun e he => .inr (hbefore e he).2
        rw [hall _ fun e he => (hbefore e he).2] at hnext
        rw [List.filter_cons, if_pos (decide_eq_true hgt), hall _ fun e he => (hbefore e he).1]
        simp only [taken, given, toSplice, List.map_cons, List.sum_cons] at hnext ⊢
        omega

/-- The text up to `pos` with the edits before it made. -/
def wovenTo (rope : Rope) (edits : List (Nat × Nat × List Char)) (pos : Nat) : Rope :=
  weave (rope.take pos) 0 ((inOrder edits).filter fun a => a.stop < pos)

/-- The text from `pos` on with the edits after it made. -/
def wovenFrom (rope : Rope) (edits : List (Nat × Nat × List Char)) (pos : Nat) : Rope :=
  weave rope pos ((inOrder edits).filter fun a => pos < a.start)

/-- `tx` takes `rope` to `rope'` as replacing the edits all at once does, back again when
it is inverted, and positions with it: one that no edit touches to where its character
is, the others in order and into the text. -/
structure Simultaneous (rope : Rope) (edits : List (Nat × Nat × List Char)) (tx : Transaction)
    (rope' : Rope) : Prop where
  text : rope' = weave rope 0 (inOrder edits)
  apply : tx.apply rope = some rope'
  invert : tx.invert.apply rope' = some rope
  kept : ∀ past, ∀ pos ≤ rope.length, (∀ edit ∈ edits, pos < edit.1 ∨ edit.2.1 < pos) →
    rope' = wovenTo rope edits pos ++ wovenFrom rope edits pos ∧
      tx.map pos past = (wovenTo rope edits pos).length ∧ rope'[tx.map pos past]? = rope[pos]?
  mono : ∀ past, Monotone fun pos => tx.map pos past
  within : ∀ past, ∀ pos ≤ rope.length, tx.map pos past ≤ rope'.length

theorem mem_inOrder {a : Splice Char} : a ∈ inOrder edits ↔ ∃ edit ∈ edits, toSplice edit = a := by
  rw [inOrder, List.mem_map]
  simp only [(List.mergeSort_perm edits earlier).mem_iff]

theorem Disjoint.inOrder_within (h : Disjoint len edits) :
    ∀ a ∈ inOrder edits, a.Within len := by
  intro a ha
  obtain ⟨edit, hedit, rfl⟩ := mem_inOrder.1 ha
  exact h.within edit hedit

theorem Disjoint.inOrder_pairwise (h : Disjoint len edits) :
    (inOrder edits).Pairwise fun a b => a.stop ≤ b.start :=
  List.pairwise_map.2 (pairwise_earlier h)

theorem foldl_later_eq_weave {rope : Rope} (h : Disjoint rope.length edits) :
    ((edits.mergeSort later).map toSplice).foldl Splice.apply rope =
      weave rope 0 (inOrder edits) := by
  have hreverse : (edits.mergeSort later).map toSplice = (inOrder edits).reverse := by
    rw [mergeSort_later_eq h, inOrder, List.map_reverse]
  rw [hreverse, Splice.foldl_apply_eq_weave _
    (fun a ha => h.inOrder_within a (List.mem_reverse.1 ha))
    (List.pairwise_reverse.2 h.inOrder_pairwise), List.reverse_reverse]

theorem weave_eq_append {rope : Rope} (h : Disjoint rope.length edits) {pos : Nat}
    (hkept : ∀ edit ∈ edits, pos < edit.1 ∨ edit.2.1 < pos) :
    weave rope 0 (inOrder edits) = wovenTo rope edits pos ++ wovenFrom rope edits pos := by
  have hsplit := Splice.filter_append_filter (n := pos)
    (fun a ha => (h.inOrder_within a ha).1) h.inOrder_pairwise fun a ha => by
      obtain ⟨edit, hedit, rfl⟩ := mem_inOrder.1 ha
      exact hkept edit hedit
  rw [wovenTo, wovenFrom, ← Splice.weave_append (Nat.zero_le pos), hsplit]
  · intro a ha
    obtain ⟨hmem, hstop⟩ := List.mem_filter.1 ha
    exact ⟨(h.inOrder_within a hmem).1, Nat.le_of_lt (of_decide_eq_true hstop)⟩
  · intro a ha
    exact Nat.le_of_lt (of_decide_eq_true (List.mem_filter.1 ha).2)

theorem map_eq_length {rope : Rope} (h : Disjoint rope.length edits) {tx : Transaction}
    (htx : replace rope edits = some tx) {pos : Nat} (past : Bool) (hpos : pos ≤ rope.length)
    (hkept : ∀ edit ∈ edits, pos < edit.1 ∨ edit.2.1 < pos) :
    tx.map pos past = (wovenTo rope edits pos).length := by
  have hperm := List.mergeSort_perm edits later
  have hsorted := h.perm hperm.symm
  obtain ⟨changes, hchanges, rfl⟩ := Option.map_eq_some_iff.1 htx
  have hmoved := foldl_moved past hsorted.within
    (pairwise_later (fun edit hedit => (h.within edit hedit).1) h.apart)
    fun edit hedit => hkept edit (hperm.mem_iff.1 hedit)
  have hfilter : ((edits.mergeSort later).filter fun edit => edit.2.1 < pos).map toSplice =
      ((inOrder edits).filter fun a => a.stop < pos).reverse := by
    rw [mergeSort_later_eq h, inOrder, List.filter_reverse, List.map_reverse, List.filter_map]
    rfl
  have hlen := Splice.length_weave (l := rope.take pos) (n := 0)
    ((inOrder edits).filter fun a => a.stop < pos) (Nat.zero_le _)
    (fun a ha => ?_) (fun a _ => Nat.zero_le _) (h.inOrder_pairwise.filter _)
  · rw [List.length_take_of_le hpos] at hlen
    rw [map_replaceOne hsorted.within hchanges, wovenTo]
    rw [hfilter, taken, given, List.map_reverse, List.map_reverse, List.sum_reverse,
      List.sum_reverse] at hmoved
    rw [taken, given] at hlen
    omega
  · obtain ⟨hmem, hstop⟩ := List.mem_filter.1 ha
    rw [List.length_take_of_le hpos]
    exact ⟨(h.inOrder_within a hmem).1, Nat.le_of_lt (of_decide_eq_true hstop)⟩

/-- Replacing ranges that do not overlap replaces them all at once. -/
theorem replace_simultaneous (rope : Rope) (edits : List (Nat × Nat × List Char))
    (h : Disjoint rope.length edits) :
    ∃ tx rope', replace rope edits = some tx ∧ Simultaneous rope edits tx rope' := by
  obtain ⟨tx, htx, happ⟩ := apply_replace rope h.within h.apart
  rw [foldl_later_eq_weave h] at happ
  have hinvert : tx.invert.apply (weave rope 0 (inOrder edits)) = some rope := by
    obtain ⟨tx', htx', hfits⟩ :=
      fits_replace rope (fun edit hedit => (h.within edit hedit).1) h.apart
    obtain rfl : tx = tx' := Option.some.inj (htx.symm.trans htx')
    obtain ⟨rope', happ', hback⟩ := apply_of_fits hfits
    rw [happ, Option.some.injEq] at happ'
    rwa [happ']
  refine ⟨tx, _, htx, rfl, happ, hinvert, ?_, tx.map_mono, fun past pos hpos => map_le happ hpos⟩
  intro past pos hpos hkept
  have hcut := weave_eq_append h hkept
  have hmap := map_eq_length h htx past hpos hkept
  refine ⟨hcut, hmap, ?_⟩
  rw [hmap, hcut, List.getElem?_append_right (Nat.le_refl _), Nat.sub_self,
    ← List.head?_eq_getElem?, wovenFrom, Splice.head?_weave]
  · exact fun a ha => h.inOrder_within a (List.mem_of_mem_filter ha)
  · exact fun a ha => of_decide_eq_true (List.mem_filter.1 ha).2

/-- An insertion before a range, one that changes nothing, and a deletion. -/
theorem replace_simultaneous_touching :
    ∃ tx rope', replace ['a', 'b', 'c', 'd', 'e'] [(4, 5, []), (1, 1, ['x']), (1, 3, ['b', 'c'])] =
      some tx ∧ Simultaneous ['a', 'b', 'c', 'd', 'e']
        [(4, 5, []), (1, 1, ['x']), (1, 3, ['b', 'c'])] tx rope' :=
  replace_simultaneous _ _ (by decide)

end Transaction

end Throng.Editor
