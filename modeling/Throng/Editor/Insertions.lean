import Throng.Editor.LineStarts

/-!
# Text put in at several places

A transaction that only puts text in makes its changes from the end of the text backwards, so
each stands where it was asked for and moves what comes after it. Of two at one place the one
given later is made later, and so stands before the other.
-/

namespace Throng.Editor

open Splice (weave)

/-- Text put in at a place, as a range replaced. -/
def inserted (placed : Nat × List Char) : Splice Char := ⟨placed.1, placed.1, placed.2⟩

namespace Transaction

/-- Text put in at a place, as an edit. -/
def insertion (placed : Nat × List Char) : Nat × Nat × List Char := (placed.1, placed.1, placed.2)

/-- The order in which insertions are made. -/
def laterPlace (a b : Nat × List Char) : Bool := b.1 ≤ a.1

/-- How much is put in before a position. -/
def putBefore (placed : List (Nat × List Char)) (pos : Nat) : Nat :=
  ((placed.filter fun p => p.1 < pos).map fun p => p.2.length).sum

variable {rope : Rope} {placed low high : List (Nat × List Char)} {pos : Nat}

theorem putBefore_cons (p : Nat × List Char) (placed : List (Nat × List Char)) (pos : Nat) :
    putBefore (p :: placed) pos = (if p.1 < pos then p.2.length else 0) + putBefore placed pos := by
  rw [putBefore, List.filter_cons, putBefore]
  split
  · next h => rw [if_pos (of_decide_eq_true h), List.map_cons, List.sum_cons]
  · next h => rw [if_neg (by simpa using h), Nat.zero_add]

theorem putBefore_append (low high : List (Nat × List Char)) (pos : Nat) :
    putBefore (low ++ high) pos = putBefore low pos + putBefore high pos := by
  rw [putBefore, List.filter_append, List.map_append, List.sum_append, putBefore, putBefore]

theorem putBefore_of_ge (h : ∀ p ∈ placed, pos ≤ p.1) : putBefore placed pos = 0 := by
  rw [putBefore, List.filter_eq_nil_iff.mpr]
  · rfl
  · intro p hp
    have hle := h p hp
    simpa using hle

theorem putBefore_of_lt (h : ∀ p ∈ placed, p.1 < pos) :
    putBefore placed pos = (placed.map fun p => p.2.length).sum := by
  rw [putBefore, List.filter_eq_self.mpr fun p hp => decide_eq_true (h p hp)]

theorem putBefore_mono (placed : List (Nat × List Char)) {pos later : Nat} (h : pos ≤ later) :
    putBefore placed pos ≤ putBefore placed later := by
  induction placed with
  | nil => exact Nat.le_refl _
  | cons p placed ih =>
      rw [putBefore_cons, putBefore_cons]
      split_ifs <;> omega

/-- Past a place stands what is put in there. -/
theorem putBefore_add_le {p : Nat × List Char} (h : p ∈ placed) :
    putBefore placed p.1 + p.2.length ≤ putBefore placed (p.1 + 1) := by
  induction placed with
  | nil => exact absurd h List.not_mem_nil
  | cons q placed ih =>
      rw [putBefore_cons, putBefore_cons]
      rcases List.mem_cons.mp h with rfl | hmem
      · have hmono := putBefore_mono placed (Nat.le_add_right p.1 1)
        rw [if_neg (Nat.lt_irrefl _), if_pos (Nat.lt_succ_self _)]
        omega
      · have hrest := ih hmem
        split_ifs <;> omega

/-! ## The order of the changes -/

theorem mergeSort_insertion (placed : List (Nat × List Char)) :
    (placed.map insertion).mergeSort later = (placed.mergeSort laterPlace).map insertion := by
  refine (List.map_mergeSort fun a _ b _ => ?_).symm
  rw [Bool.eq_iff_iff]
  rw [later, insertion, insertion, laterPlace, Bool.or_eq_true, Bool.and_eq_true]
  simp only [decide_eq_true_eq]
  omega

theorem laterPlace_trans (a b c : Nat × List Char) (hab : laterPlace a b = true)
    (hbc : laterPlace b c = true) : laterPlace a c = true := by
  simp only [laterPlace, decide_eq_true_eq] at *
  omega

theorem laterPlace_total (a b : Nat × List Char) : (laterPlace a b || laterPlace b a) = true := by
  simp only [laterPlace, Bool.or_eq_true, decide_eq_true_eq]
  omega

theorem pairwise_laterPlace (placed : List (Nat × List Char)) :
    (placed.mergeSort laterPlace).Pairwise fun a b => b.1 ≤ a.1 :=
  (List.pairwise_mergeSort laterPlace_trans laterPlace_total placed).imp of_decide_eq_true

/-- Places one behind the other, and before all others, come last, from the end backwards. -/
theorem mergeSort_append_of_lt (hlow : low.Pairwise fun a b => a.1 < b.1)
    (hcross : ∀ a ∈ low, ∀ b ∈ high, a.1 < b.1) :
    (low ++ high).mergeSort laterPlace = high.mergeSort laterPlace ++ low.reverse := by
  induction low with
  | nil => rw [List.nil_append, List.reverse_nil, List.append_nil]
  | cons a low ih =>
      obtain ⟨hfirst, hlow⟩ := List.pairwise_cons.mp hlow
      obtain ⟨before, after, hsort, hrest, -⟩ :=
        List.mergeSort_cons laterPlace_trans laterPlace_total a (low ++ high)
      have hsorted := pairwise_laterPlace (a :: (low ++ high))
      rw [hsort, List.pairwise_append, List.pairwise_cons] at hsorted
      -- nothing stands before `a`, so all the others come first
      have hafter : after = [] := by
        refine List.eq_nil_iff_forall_not_mem.mpr fun b hb => ?_
        have hle := hsorted.2.1.1 b hb
        have hmem : b ∈ low ++ high := (List.mergeSort_perm _ laterPlace).mem_iff.mp
          (hrest ▸ List.mem_append_right _ hb)
        rcases List.mem_append.mp hmem with hmem | hmem
        · exact absurd (hfirst b hmem) (Nat.not_lt.mpr hle)
        · exact absurd (hcross a List.mem_cons_self b hmem) (Nat.not_lt.mpr hle)
      rw [hafter, List.append_nil] at hrest
      rw [List.cons_append, hsort, hafter, ← hrest, ih hlow fun b hb =>
        hcross b (List.mem_cons_of_mem _ hb), List.reverse_cons, List.append_assoc]

/-! ## What the insertions do -/

theorem moved_insertion (p : Nat × List Char) (pos : Nat) :
    moved rope (insertion p) pos false = if p.1 < pos then pos + p.2.length else pos := by
  by_cases hnil : p.2 = []
  · have hempty : ((rope.take p.1).drop p.1 : Rope) = [] :=
      List.drop_eq_nil_of_le (List.length_take_le _ _)
    rw [moved, insertion]
    dsimp only
    rw [hempty, hnil, if_neg (not_not.mpr rfl), List.length_nil, Nat.add_zero, ite_self]
  · rw [insertion, moved_insert hnil, Moves]
    simp

theorem foldl_moved_insertion (hsorted : placed.Pairwise fun a b => b.1 ≤ a.1) (pos : Nat) :
    (placed.map insertion).foldl (fun pos edit => moved rope edit pos false) pos =
      pos + putBefore placed pos := by
  induction placed generalizing pos with
  | nil => rfl
  | cons p placed ih =>
      obtain ⟨hle, hsorted⟩ := List.pairwise_cons.mp hsorted
      rw [List.map_cons, List.foldl_cons, moved_insertion, ih hsorted, putBefore_cons]
      split
      · next hlt =>
          rw [putBefore_of_lt fun q hq => Nat.lt_of_le_of_lt (hle q hq) hlt,
            putBefore_of_lt fun q hq =>
              Nat.lt_of_le_of_lt (hle q hq) (Nat.lt_of_lt_of_le hlt (Nat.le_add_right _ _)),
            Nat.add_assoc]
      · rw [Nat.zero_add]

/-- The text with everything put in, in the order in which it stands there. -/
def woven (rope : Rope) (placed : List (Nat × List Char)) : Rope :=
  weave rope 0 ((placed.mergeSort laterPlace).reverse.map inserted)

theorem replace_insertions (rope : Rope) (hwithin : ∀ p ∈ placed, p.1 ≤ rope.length) :
    ∃ tx, replace rope (placed.map insertion) = some tx ∧
      tx.apply rope = some (woven rope placed) ∧
      tx.invert.apply (woven rope placed) = some rope ∧
        ∀ pos, tx.map pos false = pos + putBefore placed pos := by
  have hperm := List.mergeSort_perm placed laterPlace
  have hranges : ∀ edit ∈ placed.map insertion, edit.1 ≤ edit.2.1 ∧ edit.2.1 ≤ rope.length := by
    intro edit hedit
    obtain ⟨p, hp, rfl⟩ := List.mem_map.mp hedit
    exact ⟨Nat.le_refl _, hwithin p hp⟩
  have hapart : (placed.map insertion).Pairwise fun a b => a.2.1 ≤ b.1 ∨ b.2.1 ≤ a.1 :=
    List.pairwise_map.mpr (List.pairwise_of_forall fun a b => Nat.le_total a.1 b.1)
  obtain ⟨tx, htx, happly⟩ := apply_replace rope hranges hapart
  obtain ⟨tx', htx', hfits⟩ := fits_replace rope (fun edit hedit => (hranges edit hedit).1) hapart
  obtain rfl : tx = tx' := Option.some.inj (htx.symm.trans htx')
  obtain ⟨rope', happly', hinvert⟩ := apply_of_fits hfits
  have htext : ((placed.map insertion).mergeSort later).map toSplice =
      (placed.mergeSort laterPlace).map inserted := by
    rw [mergeSort_insertion, List.map_map]
    rfl
  have hweave := Splice.foldl_apply_eq_weave (l := rope)
    ((placed.mergeSort laterPlace).map inserted) (fun a ha => by
      obtain ⟨p, hp, rfl⟩ := List.mem_map.mp ha
      exact ⟨Nat.le_refl _, hwithin p (hperm.mem_iff.mp hp)⟩)
    (List.pairwise_map.mpr (pairwise_laterPlace placed))
  rw [htext, hweave, ← List.map_reverse, ← woven] at happly
  obtain rfl : _ = rope' := Option.some.inj (happly.symm.trans happly')
  refine ⟨tx, htx, happly, hinvert, fun pos => ?_⟩
  obtain ⟨changes, hchanges, rfl⟩ := Option.map_eq_some_iff.mp htx
  have hput : putBefore (placed.mergeSort laterPlace) pos = putBefore placed pos :=
    ((hperm.filter _).map _).sum_nat
  rw [map_replaceOne (fun edit hedit => hranges edit
      ((List.mergeSort_perm _ later).mem_iff.mp hedit)) hchanges, mergeSort_insertion,
    foldl_moved_insertion (pairwise_laterPlace placed), hput]

/-- Something put in at the end stands at the end. -/
theorem weave_concat_end {n : Nat} {splices : List (Splice Char)} (hn : n ≤ rope.length)
    (hwithin : ∀ a ∈ splices, a.Within rope.length) (text : List Char) :
    weave rope n (splices ++ [inserted (rope.length, text)]) = weave rope n splices ++ text := by
  rw [Splice.weave_append hn hwithin fun a ha => by
    obtain rfl := List.mem_singleton.mp ha
    exact Nat.le_refl _, List.take_length]
  simp [weave, inserted]

theorem within_inserted {len : Nat} (h : ∀ p ∈ placed, p.1 ≤ len) :
    ∀ a ∈ placed.map inserted, a.Within len := by
  intro a ha
  obtain ⟨p, hp, rfl⟩ := List.mem_map.mp ha
  exact ⟨Nat.le_refl _, h p hp⟩

theorem length_woven (hwithin : ∀ p ∈ placed, p.1 ≤ rope.length) :
    (woven rope placed).length = rope.length + (placed.map fun p => p.2.length).sum := by
  have hperm := List.mergeSort_perm placed laterPlace
  have hlen := Splice.length_weave (l := rope) (n := 0)
    ((placed.mergeSort laterPlace).reverse.map inserted) (Nat.zero_le _)
    (within_inserted fun p hp => hwithin p (hperm.mem_iff.mp (List.mem_reverse.mp hp)))
    (fun _ _ => Nat.zero_le _)
    (List.pairwise_map.mpr (List.pairwise_reverse.mpr (pairwise_laterPlace placed)))
  have htaken : Splice.taken ((placed.mergeSort laterPlace).reverse.map inserted) = 0 := by
    rw [Splice.taken, List.map_map]
    simp [Function.comp_def, inserted]
  have hgiven : Splice.given ((placed.mergeSort laterPlace).reverse.map inserted) =
      (placed.map fun p => p.2.length).sum := by
    rw [Splice.given, List.map_map]
    exact (((List.reverse_perm _).trans hperm).map _).sum_nat
  rw [htaken, hgiven] at hlen
  exact hlen

/-- Places one behind the other, and before all others, are filled first. -/
theorem woven_append_of_lt (hlow : low.Pairwise fun a b => a.1 < b.1)
    (hcross : ∀ a ∈ low, ∀ b ∈ high, a.1 < b.1) : woven rope (low ++ high) =
      weave rope 0 (low.map inserted ++ (high.mergeSort laterPlace).reverse.map inserted) := by
  rw [woven, mergeSort_append_of_lt hlow hcross, List.reverse_append, List.reverse_reverse,
    List.map_append]

theorem woven_of_lt (hlow : low.Pairwise fun a b => a.1 < b.1) :
    woven rope low = weave rope 0 (low.map inserted) := by
  have hall := @woven_append_of_lt rope low [] hlow fun _ _ _ h => absurd h List.not_mem_nil
  rw [List.append_nil, List.mergeSort_nil, List.reverse_nil, List.map_nil, List.append_nil] at hall
  exact hall

section

variable (hlow : low.Pairwise fun a b => a.1 < b.1) (hend : ∀ p ∈ low, p.1 < rope.length)

include hlow hend

theorem woven_concat_end (text : List Char) : woven rope (low ++ [(rope.length, text)]) =
    weave rope 0 (low.map inserted) ++ text := by
  rw [woven_append_of_lt hlow fun a ha b hb => by
    obtain rfl := List.mem_singleton.mp hb
    exact hend a ha, List.mergeSort_singleton]
  exact weave_concat_end (Nat.zero_le _) (within_inserted fun p hp => Nat.le_of_lt (hend p hp)) text

/-- Of two at the end of the text the second comes first. -/
theorem woven_concat_two (text more : List Char) :
    woven rope (low ++ [(rope.length, text), (rope.length, more)]) =
      weave rope 0 (low.map inserted) ++ more ++ text := by
  have hsorted : [(rope.length, text), (rope.length, more)].mergeSort laterPlace =
      [(rope.length, text), (rope.length, more)] :=
    List.mergeSort_of_pairwise (by simp [laterPlace])
  have hwithin := within_inserted fun p hp => Nat.le_of_lt (hend p hp)
  rw [woven_append_of_lt hlow fun a ha b hb => by
    rw [List.mem_pair] at hb
    rcases hb with rfl | rfl <;> exact hend a ha, hsorted]
  have hsplit : low.map inserted ++
      ([(rope.length, text), (rope.length, more)].reverse.map inserted) =
        (low.map inserted ++ [inserted (rope.length, more)]) ++ [inserted (rope.length, text)] := by
    rw [List.append_assoc]
    rfl
  rw [hsplit, weave_concat_end (Nat.zero_le _) fun a ha => ?_,
    weave_concat_end (Nat.zero_le _) hwithin]
  rcases List.mem_append.mp ha with ha | ha
  · exact hwithin a ha
  · obtain rfl := List.mem_singleton.mp ha
    exact ⟨Nat.le_refl _, Nat.le_refl _⟩

end

/-- The text up to a place that nothing is put in at, and what stands there. -/
theorem woven_cut (hlow : low.Pairwise fun a b => a.1 < b.1) {n : Nat} (hn : n ≤ rope.length)
    (hbefore : ∀ p ∈ low, p.1 < n) (hafter : ∀ p ∈ high, n < p.1 ∧ p.1 ≤ rope.length) :
    ∃ front back, woven rope (low ++ high) = front ++ back ∧
      front.length = n + (low.map fun p => p.2.length).sum ∧ back.head? = rope[n]? := by
  have hhigh : ∀ p ∈ (high.mergeSort laterPlace).reverse, n < p.1 ∧ p.1 ≤ rope.length :=
    fun p hp => hafter p ((List.mergeSort_perm _ _).mem_iff.mp (List.mem_reverse.mp hp))
  have hstarts : ∀ a ∈ (high.mergeSort laterPlace).reverse.map inserted, n < a.start := by
    intro a ha
    obtain ⟨p, hp, rfl⟩ := List.mem_map.mp ha
    exact (hhigh p hp).1
  have hfront := @length_woven (rope.take n) low fun p hp => by
    rw [List.length_take_of_le hn]
    exact Nat.le_of_lt (hbefore p hp)
  rw [List.length_take_of_le hn, woven_of_lt hlow] at hfront
  refine ⟨_, _, ?_, hfront, Splice.head?_weave (within_inserted fun p hp => (hhigh p hp).2) hstarts⟩
  rw [woven_append_of_lt hlow fun a ha b hb => Nat.lt_trans (hbefore a ha) (hafter b hb).1]
  exact Splice.weave_append (Nat.zero_le _)
    (within_inserted fun p hp => Nat.le_of_lt (hbefore p hp))
    fun a ha => Nat.le_of_lt (hstarts a ha)

end Transaction

end Throng.Editor
