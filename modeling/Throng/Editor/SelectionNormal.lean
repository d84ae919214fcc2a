import Throng.Editor.Selection

/-!
# The normal form of a selection

Ranges are merged in one pass over them in the order they start. What has been merged so
far is in normal form, holds what was read and nothing else, and the last of its ranges
starts no later than what is still to be read; the turn of the loop that keeps this is
`Merging.next`. A selection in normal form goes through the pass as it is.
-/

namespace Throng.Editor

namespace Range

variable {a b : Range}

theorem lower_le_upper (range : Range) : range.lower ≤ range.upper :=
  Nat.le_trans (Nat.min_le_left _ _) (Nat.le_max_left _ _)

theorem isEmpty_eq_true (range : Range) : range.isEmpty = true ↔ range.lower = range.upper := by
  simp only [isEmpty, lower, upper, decide_eq_true_eq]
  omega

theorem isEmpty_eq_false (range : Range) : range.isEmpty = false ↔ range.lower < range.upper := by
  simp only [isEmpty, lower, upper, decide_eq_false_iff_not]
  omega

/-- The character at `i` is in the range. -/
def Covers (i : Nat) (range : Range) : Prop := range.lower ≤ i ∧ i < range.upper

/-- Position `i` is inside the range or at its edge. -/
def Touches (i : Nat) (range : Range) : Prop := range.lower ≤ i ∧ i ≤ range.upper

/-- Position `i` is inside the range or at its edge, and the range is not a caret. -/
def TouchesText (i : Nat) (range : Range) : Prop := range.isEmpty = false ∧ range.Touches i

/-- `range` lies within `other`. -/
def LiesIn (range other : Range) : Prop :=
  other.lower ≤ range.lower ∧ range.upper ≤ other.upper

/-- The order of the normal form: one range after the other, the two touching only when
neither is a caret. -/
def Follows (a b : Range) : Prop :=
  a.upper < b.lower ∨ (a.upper = b.lower ∧ a.isEmpty = false ∧ b.isEmpty = false)

instance (a b : Range) : Decidable (a.Follows b) := inferInstanceAs (Decidable (_ ∨ _))

theorem LiesIn.refl (range : Range) : range.LiesIn range := ⟨Nat.le_refl _, Nat.le_refl _⟩

theorem LiesIn.trans {c : Range} (h : a.LiesIn b) (h' : b.LiesIn c) : a.LiesIn c :=
  ⟨Nat.le_trans h'.1 h.1, Nat.le_trans h.2 h'.2⟩

end Range

namespace Selection

open Range

variable {last range : Range}

@[simp] theorem lower_new (anchor head : Nat) :
    (Range.new anchor head).lower = min anchor head := rfl

@[simp] theorem upper_new (anchor head : Nat) :
    (Range.new anchor head).upper = max anchor head := rfl

theorem lower_join (last range : Range) :
    (join last range).lower = min last.lower range.lower := by
  have hlast := last.lower_le_upper
  rw [join]
  split
  · rw [lower_new]
    omega
  · rw [lower_new]
    omega

theorem upper_join (last range : Range) :
    (join last range).upper = max last.upper range.upper := by
  have hlast := last.lower_le_upper
  rw [join]
  split
  · rw [upper_new]
    omega
  · rw [upper_new]
    omega

theorem overlaps_iff : overlaps last range = true ↔ range.lower < last.upper ∨
    (range.lower = last.upper ∧ (range.isEmpty = true ∨ last.isEmpty = true)) := by
  rw [overlaps, Bool.or_eq_true, Bool.and_eq_true, Bool.or_eq_true, decide_eq_true_eq,
    decide_eq_true_eq]

/-- Read in order, a range overlaps the last one or follows it. -/
theorem follows_of_not_overlaps (h : overlaps last range = false) : last.Follows range := by
  rw [← Bool.not_eq_true, overlaps_iff] at h
  simp only [not_or, not_and, Bool.not_eq_true] at h
  rcases Nat.lt_or_ge last.upper range.lower with hlt | hge
  · exact .inl hlt
  · have heq : range.lower = last.upper := by omega
    exact .inr ⟨heq.symm, (h.2 heq).2, (h.2 heq).1⟩

/-! What a merged range covers is what the two covered. -/

theorem lower_le_of_overlaps (h : overlaps last range = true) : range.lower ≤ last.upper := by
  rw [overlaps_iff] at h
  omega

theorem isEmpty_join (h : last.isEmpty = false) : (join last range).isEmpty = false := by
  rw [isEmpty_eq_false] at h ⊢
  rw [lower_join, upper_join]
  omega

theorem covers_join (hle : last.lower ≤ range.lower) (h : overlaps last range = true) (i : Nat) :
    (join last range).Covers i ↔ last.Covers i ∨ range.Covers i := by
  have hupper := lower_le_of_overlaps h
  simp only [Range.Covers, lower_join, upper_join]
  omega

theorem touches_join (hle : last.lower ≤ range.lower) (h : overlaps last range = true) (i : Nat) :
    (join last range).Touches i ↔ last.Touches i ∨ range.Touches i := by
  have hupper := lower_le_of_overlaps h
  simp only [Range.Touches, lower_join, upper_join]
  omega

/-- A caret that is merged with text lies in it. -/
theorem touchesText_join (hle : last.lower ≤ range.lower) (h : overlaps last range = true)
    (i : Nat) :
    (join last range).TouchesText i ↔ last.TouchesText i ∨ range.TouchesText i := by
  have hlast := last.lower_le_upper
  have hrange := range.lower_le_upper
  rw [overlaps_iff, isEmpty_eq_true, isEmpty_eq_true] at h
  simp only [Range.TouchesText, Range.Touches, isEmpty_eq_false, lower_join, upper_join]
  omega

/-- The normal form: sorted and disjoint, two ranges touching only when neither is a
caret. -/
def Normal (ranges : List Range) : Prop := ranges.Pairwise Follows

instance (ranges : List Range) : Decidable (Normal ranges) :=
  inferInstanceAs (Decidable (List.Pairwise Follows ranges))

theorem Follows.trans {a b c : Range} (h : a.Follows b) (h' : b.Follows c) : a.Follows c := by
  have hb := b.lower_le_upper
  simp only [Range.Follows, isEmpty_eq_false] at *
  omega

theorem Follows.join {a : Range} (h : a.Follows last) (hle : last.lower ≤ range.lower) :
    a.Follows (join last range) := by
  rcases h with h | ⟨h, ha, hlast⟩
  · rw [Range.Follows, lower_join]
    omega
  · refine .inr ⟨?_, ha, isEmpty_join hlast⟩
    rw [lower_join]
    omega

/-- A property of ranges that a merged range has when one of the two has it. -/
def Additive (P : Range → Prop) : Prop :=
  ∀ last range : Range, last.lower ≤ range.lower → overlaps last range = true →
    (P (join last range) ↔ P last ∨ P range)

/-- The state of the loop once `done` is read. -/
structure Merging (primary : Nat) (done : List (Nat × Range)) (state : List Range × Nat) :
    Prop where
  normal : Normal state.1
  same : ∀ P, Additive P → ((∃ range ∈ state.1, P range) ↔ ∃ entry ∈ done, P entry.2)
  started : ∀ range ∈ state.1, ∃ entry ∈ done, range.lower ≤ entry.2.lower
  holds : ∀ entry ∈ done, entry.1 = primary →
    ∃ range, state.1[state.2]? = some range ∧ entry.2.LiesIn range

theorem Merging.nil (primary : Nat) : Merging primary [] ([], 0) where
  normal := List.Pairwise.nil
  same := by simp
  started := by simp
  holds := by simp

/-- A range that follows the last one, or is the first, is added. -/
theorem Merging.push {primary : Nat} {done : List (Nat × Range)} {state : List Range × Nat}
    {next : Nat × Range} (h : Merging primary done state)
    (hfollows : ∀ range ∈ state.1, range.Follows next.2) (hnew : ∀ entry ∈ done, entry.1 ≠ next.1) :
    Merging primary (done ++ [next])
      (state.1 ++ [next.2], if next.1 = primary then state.1.length else state.2) where
  normal := List.pairwise_append.2 ⟨h.normal, List.pairwise_singleton _ _, by simpa using hfollows⟩
  same := by
    intro P hP
    simp only [List.mem_append, List.mem_singleton, or_and_right, exists_or, exists_eq_left,
      h.same P hP]
  started := by
    intro range hrange
    rcases List.mem_append.1 hrange with hrange | hrange
    · obtain ⟨entry, hentry, hle⟩ := h.started range hrange
      exact ⟨entry, List.mem_append_left _ hentry, hle⟩
    · rw [List.mem_singleton.1 hrange]
      exact ⟨next, List.mem_append_right _ List.mem_cons_self, Nat.le_refl _⟩
  holds := by
    intro entry hentry hprimary
    rcases List.mem_append.1 hentry with hentry | hentry
    · have hother : next.1 ≠ primary := fun heq => hnew entry hentry (hprimary.trans heq.symm)
      obtain ⟨range, hrange, hin⟩ := h.holds entry hentry hprimary
      refine ⟨range, ?_, hin⟩
      rw [if_neg hother]
      exact List.getElem?_append_left (List.getElem?_eq_some_iff.1 hrange).1 ▸ hrange
    · rw [List.mem_singleton] at hentry
      subst hentry
      refine ⟨entry.2, ?_, LiesIn.refl _⟩
      rw [if_pos hprimary]
      exact List.getElem?_concat_length

/-- A range that overlaps the last one is merged with it. -/
theorem Merging.merge {primary index : Nat} {done : List (Nat × Range)} {init : List Range}
    {last : Range} {next : Nat × Range} (h : Merging primary done (init ++ [last], index))
    (hover : overlaps last next.2 = true) (hle : last.lower ≤ next.2.lower)
    (hnew : ∀ entry ∈ done, entry.1 ≠ next.1) :
    Merging primary (done ++ [next])
      (init ++ [join last next.2], if next.1 = primary then init.length else index) where
  normal := by
    obtain ⟨hinit, -, hlast⟩ := List.pairwise_append.1 h.normal
    refine List.pairwise_append.2 ⟨hinit, List.pairwise_singleton _ _, ?_⟩
    intro a ha b hb
    rw [List.mem_singleton.1 hb]
    exact Follows.join (hlast a ha last List.mem_cons_self) hle
  same := by
    intro P hP
    have hsame := h.same P hP
    simp only [List.mem_append, List.mem_singleton, or_and_right, exists_or, exists_eq_left,
      hP last next.2 hle hover] at hsame ⊢
    rw [← hsame, or_assoc]
  started := by
    intro range hrange
    rcases List.mem_append.1 hrange with hrange | hrange
    · obtain ⟨entry, hentry, hstart⟩ := h.started range (List.mem_append_left _ hrange)
      exact ⟨entry, List.mem_append_left _ hentry, hstart⟩
    · rw [List.mem_singleton.1 hrange]
      refine ⟨next, List.mem_append_right _ List.mem_cons_self, ?_⟩
      rw [lower_join]
      exact Nat.min_le_right _ _
  holds := by
    have hgrown : ∀ range, (init ++ [last])[index]? = some range →
        ∃ range', (init ++ [join last next.2])[index]? = some range' ∧ range.LiesIn range' := by
      intro range hrange
      rcases Nat.lt_trichotomy index init.length with hlt | heq | hgt
      · rw [List.getElem?_append_left hlt] at hrange ⊢
        exact ⟨range, hrange, LiesIn.refl _⟩
      · subst heq
        rw [List.getElem?_concat_length, Option.some.injEq] at hrange
        refine ⟨_, List.getElem?_concat_length, ?_⟩
        rw [← hrange, LiesIn, lower_join, upper_join]
        exact ⟨Nat.min_le_left _ _, Nat.le_max_left _ _⟩
      · rw [List.getElem?_eq_none (by simp; omega)] at hrange
        cases hrange
    intro entry hentry hprimary
    rcases List.mem_append.1 hentry with hentry | hentry
    · have hother : next.1 ≠ primary := fun heq => hnew entry hentry (hprimary.trans heq.symm)
      obtain ⟨range, hrange, hin⟩ := h.holds entry hentry hprimary
      obtain ⟨range', hrange', hin'⟩ := hgrown range hrange
      rw [if_neg hother]
      exact ⟨range', hrange', hin.trans hin'⟩
    · rw [List.mem_singleton] at hentry
      subst hentry
      refine ⟨join last entry.2, ?_, ?_⟩
      · rw [if_pos hprimary]
        exact List.getElem?_concat_length
      · rw [LiesIn, lower_join, upper_join]
        exact ⟨Nat.min_le_right _ _, Nat.le_max_right _ _⟩

/-- One turn of the loop. -/
theorem Merging.next {primary : Nat} {done : List (Nat × Range)} {state : List Range × Nat}
    {next : Nat × Range} (h : Merging primary done state)
    (hlater : ∀ entry ∈ done, entry.2.lower ≤ next.2.lower)
    (hnew : ∀ entry ∈ done, entry.1 ≠ next.1) :
    Merging primary (done ++ [next]) (mergeNext primary state next) := by
  obtain ⟨out, index⟩ := state
  rcases List.eq_nil_or_concat out with rfl | ⟨init, last, rfl⟩
  · exact h.push (by simp) hnew
  · rw [List.concat_eq_append] at h ⊢
    have hle : last.lower ≤ next.2.lower := by
      obtain ⟨entry, hentry, hstart⟩ := h.started last (by simp)
      exact Nat.le_trans hstart (hlater entry hentry)
    rw [mergeNext, List.getLast?_concat]
    dsimp only
    by_cases hover : overlaps last next.2 = true
    · rw [if_pos hover, List.dropLast_concat, List.length_append, List.length_singleton,
        Nat.add_sub_cancel]
      exact h.merge hover hle hnew
    · rw [if_neg hover]
      have hfollows := follows_of_not_overlaps (Bool.not_eq_true _ ▸ hover)
      refine h.push (fun range hrange => ?_) hnew
      rcases List.mem_append.1 hrange with hrange | hrange
      · exact Follows.trans
          ((List.pairwise_append.1 h.normal).2.2 range hrange last List.mem_cons_self) hfollows
      · rw [List.mem_singleton.1 hrange]
        exact hfollows

theorem Merging.foldl {primary : Nat} {done entries : List (Nat × Range)}
    {state : List Range × Nat} (h : Merging primary done state)
    (horder : (done ++ entries).Pairwise fun a b => a.2.lower ≤ b.2.lower ∧ a.1 ≠ b.1) :
    Merging primary (done ++ entries) (entries.foldl (mergeNext primary) state) := by
  induction entries generalizing done state with
  | nil => rwa [List.append_nil]
  | cons next entries ih =>
      have hbefore : ∀ entry ∈ done, entry.2.lower ≤ next.2.lower ∧ entry.1 ≠ next.1 :=
        fun entry hentry =>
          (List.pairwise_append.1 horder).2.2 entry hentry next List.mem_cons_self
      rw [List.append_cons] at horder ⊢
      exact ih (h.next (fun entry hentry => (hbefore entry hentry).1)
        fun entry hentry => (hbefore entry hentry).2) horder

/-- The ranges with their numbers, in the order they are merged. -/
def entries (ranges : List Range) : List (Nat × Range) :=
  (ranges.zipIdx.map fun entry => (entry.2, entry.1)).mergeSort before

theorem perm_entries (ranges : List Range) :
    (entries ranges).Perm (ranges.zipIdx.map fun entry => (entry.2, entry.1)) :=
  List.mergeSort_perm _ _

theorem mem_entries {ranges : List Range} {i : Nat} {range : Range} :
    (i, range) ∈ entries ranges ↔ ranges[i]? = some range := by
  rw [(perm_entries ranges).mem_iff, List.mem_map]
  constructor
  · rintro ⟨⟨range', i'⟩, hmem, heq⟩
    rw [Prod.mk.injEq] at heq
    obtain ⟨rfl, rfl⟩ := heq
    exact List.mem_zipIdx_iff_getElem?.1 hmem
  · intro h
    exact ⟨(range, i), List.mem_zipIdx_iff_getElem?.2 h, rfl⟩

theorem before_total (a b : Nat × Range) : before a b || before b a := by
  simp only [before, Bool.or_eq_true, Bool.and_eq_true, decide_eq_true_eq]
  omega

theorem before_trans (a b c : Nat × Range) (hab : before a b = true) (hbc : before b c = true) :
    before a c = true := by
  simp only [before, Bool.or_eq_true, Bool.and_eq_true, decide_eq_true_eq] at *
  omega

theorem pairwise_entries (ranges : List Range) :
    (entries ranges).Pairwise fun a b => a.2.lower ≤ b.2.lower ∧ a.1 ≠ b.1 := by
  have hsorted : (entries ranges).Pairwise fun a b => before a b = true :=
    List.pairwise_mergeSort before_trans before_total _
  have hkeys : ((entries ranges).map Prod.fst).Nodup := by
    refine ((perm_entries ranges).map Prod.fst).nodup_iff.2 ?_
    rw [List.map_map]
    have hkeys : ranges.zipIdx.map (Prod.fst ∘ fun entry => (entry.2, entry.1)) =
        List.range' 0 ranges.length := by
      rw [← List.zipIdx_map_snd]
      rfl
    rw [hkeys]
    exact List.nodup_range'
  refine (hsorted.and (List.pairwise_map.1 hkeys)).imp ?_
  intro a b hab
  refine ⟨?_, hab.2⟩
  have hbefore := hab.1
  simp only [before, Bool.or_eq_true, Bool.and_eq_true, decide_eq_true_eq] at hbefore
  omega

theorem merging_merged (ranges : List Range) (primary : Nat) :
    Merging (min primary (ranges.length - 1)) (entries ranges) (merged ranges primary) :=
  (Merging.nil _).foldl (pairwise_entries ranges)

/-! ## A selection in normal form stays as it is -/

/-- The numbers go on from those of the ranges already there. -/
theorem foldl_mergeNext_of_normal (primary : Nat) (done rest : List Range) (index : Nat)
    (h : Normal (done ++ rest)) :
    (((rest.zipIdx done.length).map fun entry => (entry.2, entry.1)).foldl (mergeNext primary)
      (done, index)) = (done ++ rest,
        if done.length ≤ primary ∧ primary < (done ++ rest).length then primary else index) := by
  induction rest generalizing done index with
  | nil =>
      rw [List.zipIdx_nil, List.map_nil, List.foldl_nil, List.append_nil, if_neg (by omega)]
  | cons range rest ih =>
      have hstep : mergeNext primary (done, index) (done.length, range) =
          (done ++ [range], if done.length = primary then done.length else index) := by
        rcases List.eq_nil_or_concat done with rfl | ⟨init, last, rfl⟩
        · rfl
        · rw [List.concat_eq_append] at h ⊢
          have hfollows : last.Follows range :=
            (List.pairwise_append.1 h).2.2 last (by simp) range List.mem_cons_self
          have hover : ¬ overlaps last range = true := by
            have hlast := last.lower_le_upper
            rw [overlaps_iff, isEmpty_eq_true, isEmpty_eq_true]
            simp only [Range.Follows, isEmpty_eq_false] at hfollows
            omega
          rw [mergeNext, List.getLast?_concat]
          dsimp only
          rw [if_neg hover]
      rw [List.append_cons] at h
      rw [List.zipIdx_cons, List.map_cons, List.foldl_cons, hstep]
      have hnext := ih _ (if done.length = primary then done.length else index) h
      rw [List.length_append, List.length_singleton] at hnext
      rw [hnext, ← List.append_cons]
      congr 1
      rw [List.append_cons, List.length_append, List.length_append, List.length_singleton]
      split_ifs <;> omega

theorem merged_of_normal {ranges : List Range} (h : Normal ranges) {primary : Nat}
    (hprimary : primary < ranges.length) : merged ranges primary = (ranges, primary) := by
  have hsorted : (ranges.zipIdx.map fun entry => (entry.2, entry.1)).Pairwise
      fun a b => before a b = true := by
    rw [List.pairwise_map]
    have hpairs : (ranges.zipIdx.map Prod.fst).Pairwise Follows := by
      rw [List.zipIdx_map_fst]
      exact h
    refine (List.pairwise_map.1 hpairs).imp ?_
    intro a b hab
    have ha := a.1.lower_le_upper
    simp only [Range.Follows, isEmpty_eq_false] at hab
    simp only [before, Bool.or_eq_true, Bool.and_eq_true, decide_eq_true_eq]
    omega
  have hfold := foldl_mergeNext_of_normal primary [] ranges 0 h
  rw [merged, List.mergeSort_of_pairwise hsorted, Nat.min_eq_left (by omega)]
  rw [List.length_nil, List.nil_append, if_pos ⟨Nat.zero_le _, hprimary⟩] at hfold
  exact hfold

theorem new_of_normal {selection : Selection} (h : Normal selection.ranges) :
    new selection.ranges selection.primary selection.ranges_ne_nil = selection := by
  obtain ⟨ranges, primary, hprimary⟩ := selection
  have hmerged := merged_of_normal h hprimary
  simp only [new, hmerged]

/-! ## The result -/

/-- The bare carets: positions of carets that touch no other range. -/
def BareCaret (ranges : List Range) (pos : Nat) : Prop :=
  (∃ range ∈ ranges, range.lower = pos ∧ range.upper = pos) ∧
    ∀ range ∈ ranges, range.Touches pos → range.lower = pos ∧ range.upper = pos

theorem bareCaret_iff {ranges : List Range} {pos : Nat} : BareCaret ranges pos ↔
    (∃ range ∈ ranges, range.Touches pos) ∧ ¬ ∃ range ∈ ranges, range.TouchesText pos := by
  constructor
  · rintro ⟨⟨range, hrange, hlower, hupper⟩, hbare⟩
    refine ⟨⟨range, hrange, Nat.le_of_eq hlower, Nat.le_of_eq hupper.symm⟩, ?_⟩
    rintro ⟨other, hother, hempty, htouches⟩
    obtain ⟨hlower', hupper'⟩ := hbare other hother htouches
    rw [isEmpty_eq_false] at hempty
    omega
  · rintro ⟨⟨range, hrange, htouches⟩, hbare⟩
    have hcaret : ∀ other ∈ ranges, other.Touches pos → other.lower = pos ∧ other.upper = pos := by
      intro other hother htouches
      have hempty : ¬ other.isEmpty = false := fun hempty =>
        hbare ⟨other, hother, hempty, htouches⟩
      rw [isEmpty_eq_false] at hempty
      have hle := other.lower_le_upper
      rw [Touches] at htouches
      omega
    exact ⟨⟨range, hrange, hcaret range hrange htouches⟩, hcaret⟩

/-- `selection` is the list of ranges with its primary number, brought into normal form. -/
structure Normalised (ranges : List Range) (primary : Nat) (selection : Selection) : Prop where
  normal : Normal selection.ranges
  covers : ∀ i, (∃ range ∈ selection.ranges, range.Covers i) ↔ ∃ range ∈ ranges, range.Covers i
  carets : ∀ pos, BareCaret selection.ranges pos ↔ BareCaret ranges pos
  primary : ∃ given kept, ranges[min primary (ranges.length - 1)]? = some given ∧
    selection.ranges[selection.primary]? = some kept ∧ given.LiesIn kept
  again : new selection.ranges selection.primary selection.ranges_ne_nil = selection
  mapped : ∀ tx, Normal (selection.map tx).ranges
  clamped : ∀ len, Normal (selection.clamp len).ranges

theorem exists_entries (ranges : List Range) (P : Range → Prop) :
    (∃ entry ∈ entries ranges, P entry.2) ↔ ∃ range ∈ ranges, P range := by
  constructor
  · rintro ⟨⟨i, range⟩, hmem, hrange⟩
    exact ⟨range, List.mem_of_getElem? (mem_entries.1 hmem), hrange⟩
  · rintro ⟨range, hmem, hrange⟩
    obtain ⟨i, hi⟩ := List.getElem?_of_mem hmem
    exact ⟨(i, range), mem_entries.2 hi, hrange⟩

theorem new_normal (ranges : List Range) (primary : Nat) (h : ranges ≠ []) :
    Normal (new ranges primary h).ranges := (merging_merged ranges primary).normal

theorem exists_new {P : Range → Prop} (hP : Additive P) (ranges : List Range) (primary : Nat)
    (h : ranges ≠ []) :
    (∃ range ∈ (new ranges primary h).ranges, P range) ↔ ∃ range ∈ ranges, P range :=
  ((merging_merged ranges primary).same P hP).trans (exists_entries ranges P)

/-- `Selection::new` normalises. -/
theorem new_normalised (ranges : List Range) (primary : Nat) (h : ranges ≠ []) :
    Normalised ranges primary (new ranges primary h) where
  normal := new_normal ranges primary h
  covers := fun i => exists_new (fun _ _ hle hover => covers_join hle hover i) ranges primary h
  carets := by
    intro pos
    rw [bareCaret_iff, bareCaret_iff,
      exists_new (fun _ _ hle hover => touches_join hle hover pos) ranges primary h,
      exists_new (fun _ _ hle hover => touchesText_join hle hover pos) ranges primary h]
  primary := by
    have hpos := List.length_pos_iff.2 h
    have hlt : min primary (ranges.length - 1) < ranges.length := by omega
    have hgiven := List.getElem?_eq_getElem hlt
    obtain ⟨kept, hkept, hin⟩ := (merging_merged ranges primary).holds _ (mem_entries.2 hgiven) rfl
    exact ⟨_, kept, hgiven, hkept, hin⟩
  again := new_of_normal (new_normal ranges primary h)
  mapped := by
    intro tx
    rw [map, transform]
    exact new_normal _ _ _
  clamped := by
    intro len
    rw [clamp, transform]
    exact new_normal _ _ _

/-- A caret at the start of a backward selection, the primary one, and two selections that
touch. -/
theorem new_normalised_touching :
    Normalised [Range.new 8 5, Range.point 5, Range.new 2 5] 1
      (new [Range.new 8 5, Range.point 5, Range.new 2 5] 1 (List.cons_ne_nil _ _)) :=
  new_normalised _ _ (List.cons_ne_nil _ _)

end Selection

end Throng.Editor
