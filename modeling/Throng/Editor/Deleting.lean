import Throng.Editor.CommandsRun

/-!
# Deleting with many carets

The spans that Backspace, Delete and Cut take for the carets may overlap. Merged in the
order they start they cover the same characters, and without the empty ones they are
ranges of the text apart from each other; replacing each by nothing leaves the characters
that no span covers.
-/

namespace Throng.Editor

open Splice (weave)

namespace Commands

/-! ## What the spans leave -/

/-- The character at `i` is in one of the spans. -/
def covered (spans : List (Nat × Nat)) (i : Nat) : Bool :=
  spans.any fun span => span.1 ≤ i && i < span.2

/-- What the spans leave of a text that starts at offset `n`. -/
def keptFrom (spans : List (Nat × Nat)) (n : Nat) (text : Rope) : Rope :=
  ((text.zipIdx n).filter fun c => !covered spans c.2).map Prod.fst

/-- What the spans leave of a text. -/
def kept (spans : List (Nat × Nat)) (text : Rope) : Rope := keptFrom spans 0 text

variable {spans : List (Nat × Nat)} {n : Nat}

theorem covered_iff {i : Nat} :
    covered spans i = true ↔ ∃ span ∈ spans, span.1 ≤ i ∧ i < span.2 := by
  simp only [covered, List.any_eq_true, Bool.and_eq_true, decide_eq_true_eq]

theorem covered_eq_false {i : Nat} :
    covered spans i = false ↔ ∀ span ∈ spans, i < span.1 ∨ span.2 ≤ i := by
  rw [← Bool.not_eq_true, covered_iff]
  constructor
  · intro h span hspan
    by_contra hin
    exact h ⟨span, hspan, by omega, by omega⟩
  · rintro h ⟨span, hspan, hin⟩
    have hout := h span hspan
    omega

theorem keptFrom_append (spans : List (Nat × Nat)) (n : Nat) (text more : Rope) :
    keptFrom spans n (text ++ more) =
      keptFrom spans n text ++ keptFrom spans (n + text.length) more := by
  rw [keptFrom, List.zipIdx_append, List.filter_append, List.map_append]
  rfl

theorem mem_zipIdx_bounds {text : Rope} {c : Char × Nat} (h : c ∈ text.zipIdx n) :
    n ≤ c.2 ∧ c.2 < n + text.length := by
  obtain ⟨hle, hlt, -⟩ := List.mem_zipIdx h
  exact ⟨hle, hlt⟩

theorem keptFrom_congr {others : List (Nat × Nat)} {text : Rope}
    (h : ∀ i, n ≤ i → i < n + text.length → covered spans i = covered others i) :
    keptFrom spans n text = keptFrom others n text := by
  rw [keptFrom, keptFrom]
  congr 1
  refine List.filter_congr fun c hc => ?_
  obtain ⟨hle, hlt⟩ := mem_zipIdx_bounds hc
  rw [h c.2 hle hlt]

/-- Where no span is nothing is lost. -/
theorem keptFrom_eq_self {text : Rope}
    (h : ∀ i, n ≤ i → i < n + text.length → covered spans i = false) :
    keptFrom spans n text = text := by
  rw [keptFrom, List.filter_eq_self.2, List.zipIdx_map_fst]
  intro c hc
  obtain ⟨hle, hlt⟩ := mem_zipIdx_bounds hc
  rw [h c.2 hle hlt, Bool.not_false]

/-- Inside the spans nothing is left. -/
theorem keptFrom_eq_nil {text : Rope}
    (h : ∀ i, n ≤ i → i < n + text.length → covered spans i = true) :
    keptFrom spans n text = [] := by
  rw [keptFrom, List.filter_eq_nil_iff.2, List.map_nil]
  intro c hc
  obtain ⟨hle, hlt⟩ := mem_zipIdx_bounds hc
  rw [h c.2 hle hlt, Bool.not_true]
  exact Bool.false_ne_true

/-- Between two offsets that the spans cover nothing is left. -/
theorem kept_take_eq {text : Rope} {low high : Nat} (hle : low ≤ high) (hlen : high ≤ text.length)
    (h : ∀ i, low ≤ i → i < high → covered spans i = true) :
    kept spans (text.take low) = kept spans (text.take high) := by
  have hsplit : text.take high = text.take low ++ (text.take high).drop low := by
    have hjoin := List.take_append_drop low (text.take high)
    rw [List.take_take, Nat.min_eq_left hle] at hjoin
    exact hjoin.symm
  rw [kept, kept, hsplit, keptFrom_append, List.length_take_of_le (by omega)]
  have hnil : keptFrom spans (0 + low) ((text.take high).drop low) = [] := by
    refine keptFrom_eq_nil fun i hlow hhigh => ?_
    rw [List.length_drop, List.length_take_of_le hlen] at hhigh
    exact h i (by omega) (by omega)
  rw [hnil, List.append_nil]

/-! ## Merging the spans -/

/-- Ranges of a text of `len` characters one after the other. -/
structure Ordered (len : Nat) (spans : List (Nat × Nat)) : Prop where
  within : ∀ span ∈ spans, span.1 ≤ span.2 ∧ span.2 ≤ len
  order : spans.Pairwise fun a b => a.2 ≤ b.1

/-- The state of the merging loop once `done` is read. -/
structure MergedSpans (len : Nat) (done out : List (Nat × Nat)) : Prop extends Ordered len out where
  same : ∀ i, covered out i = covered done i
  started : ∀ span ∈ out, ∃ read ∈ done, span.1 ≤ read.1

theorem covered_append (spans others : List (Nat × Nat)) (i : Nat) :
    covered (spans ++ others) i = (covered spans i || covered others i) := List.any_append

theorem covered_singleton (span : Nat × Nat) (i : Nat) :
    covered [span] i = (decide (span.1 ≤ i) && decide (i < span.2)) := Bool.or_false _

theorem MergedSpans.push {len : Nat} {done out : List (Nat × Nat)} {span : Nat × Nat}
    (h : MergedSpans len done out) (hspan : span.1 ≤ span.2 ∧ span.2 ≤ len)
    (hlast : ∀ other ∈ out, other.2 ≤ span.1) :
    MergedSpans len (done ++ [span]) (out ++ [span]) where
  within := by
    intro other hother
    rcases List.mem_append.1 hother with hother | hother
    · exact h.within other hother
    · exact List.mem_singleton.1 hother ▸ hspan
  order := List.pairwise_append.2 ⟨h.order, List.pairwise_singleton _ _, fun other hother b hb =>
    List.mem_singleton.1 hb ▸ hlast other hother⟩
  same := by
    intro i
    rw [covered_append, covered_append, h.same]
  started := by
    intro other hother
    rcases List.mem_append.1 hother with hother | hother
    · obtain ⟨read, hread, hle⟩ := h.started other hother
      exact ⟨read, List.mem_append_left _ hread, hle⟩
    · exact ⟨span, List.mem_append_right _ List.mem_cons_self,
        Nat.le_of_eq (by rw [List.mem_singleton.1 hother])⟩

theorem MergedSpans.grow {len : Nat} {done init : List (Nat × Nat)} {last span : Nat × Nat}
    (h : MergedSpans len done (init ++ [last])) (hspan : span.1 ≤ span.2 ∧ span.2 ≤ len)
    (hstart : last.1 ≤ span.1) (hover : span.1 < last.2) :
    MergedSpans len (done ++ [span]) (init ++ [(last.1, max last.2 span.2)]) where
  within := by
    intro other hother
    rcases List.mem_append.1 hother with hother | hother
    · exact h.within other (List.mem_append_left _ hother)
    · have hself := h.within last (List.mem_append_right _ List.mem_cons_self)
      rw [List.mem_singleton.1 hother]
      exact ⟨by dsimp only; omega, by dsimp only; omega⟩
  order := by
    obtain ⟨hinit, -, hlast⟩ := List.pairwise_append.1 h.order
    refine List.pairwise_append.2 ⟨hinit, List.pairwise_singleton _ _, fun other hother b hb => ?_⟩
    rw [List.mem_singleton.1 hb]
    exact hlast other hother last List.mem_cons_self
  same := by
    intro i
    have hsame := h.same i
    rw [covered_append, covered_singleton] at hsame
    rw [covered_append, covered_append, covered_singleton, covered_singleton, ← hsame,
      Bool.or_assoc]
    congr 1
    rw [Bool.eq_iff_iff]
    simp only [Bool.and_eq_true, Bool.or_eq_true, decide_eq_true_eq]
    omega
  started := by
    intro other hother
    rcases List.mem_append.1 hother with hother | hother
    · obtain ⟨read, hread, hle⟩ := h.started other (List.mem_append_left _ hother)
      exact ⟨read, List.mem_append_left _ hread, hle⟩
    · refine ⟨span, List.mem_append_right _ List.mem_cons_self, ?_⟩
      rw [List.mem_singleton.1 hother]
      exact hstart

theorem MergedSpans.next {len : Nat} {done out : List (Nat × Nat)} {span : Nat × Nat}
    (h : MergedSpans len done out) (hspan : span.1 ≤ span.2 ∧ span.2 ≤ len)
    (hlater : ∀ read ∈ done, read.1 ≤ span.1) :
    MergedSpans len (done ++ [span]) (mergeSpan out span) := by
  rcases List.eq_nil_or_concat out with rfl | ⟨init, last, rfl⟩
  · exact h.push hspan (by simp)
  · rw [List.concat_eq_append] at h ⊢
    rw [mergeSpan, List.getLast?_concat]
    dsimp only
    have hstart : last.1 ≤ span.1 := by
      obtain ⟨read, hread, hle⟩ := h.started last (by simp)
      exact Nat.le_trans hle (hlater read hread)
    by_cases hover : span.1 < last.2
    · rw [if_pos hover, List.dropLast_concat]
      exact h.grow hspan hstart hover
    · rw [if_neg hover]
      refine h.push hspan fun other hother => ?_
      rcases List.mem_append.1 hother with hother | hother
      · have hinit := (List.pairwise_append.1 h.order).2.2 other hother last List.mem_cons_self
        have hself := (h.within last (List.mem_append_right _ List.mem_cons_self)).1
        omega
      · rw [List.mem_singleton.1 hother]
        omega

theorem MergedSpans.nil (len : Nat) : MergedSpans len [] [] :=
  ⟨⟨by simp, List.Pairwise.nil⟩, fun _ => rfl, by simp⟩

theorem MergedSpans.foldl {len : Nat} {done rest out : List (Nat × Nat)}
    (h : MergedSpans len done out) (hrest : ∀ span ∈ rest, span.1 ≤ span.2 ∧ span.2 ≤ len)
    (horder : (done ++ rest).Pairwise fun a b => a.1 ≤ b.1) :
    MergedSpans len (done ++ rest) (rest.foldl mergeSpan out) := by
  induction rest generalizing done out with
  | nil => rwa [List.append_nil]
  | cons span rest ih =>
      have hlater : ∀ read ∈ done, read.1 ≤ span.1 := fun read hread =>
        (List.pairwise_append.1 horder).2.2 read hread span List.mem_cons_self
      rw [List.append_cons] at horder ⊢
      exact ih (h.next (hrest span List.mem_cons_self) hlater)
        (fun other hother => hrest other (List.mem_cons_of_mem _ hother)) horder

theorem mergedSpans_merged {len : Nat} (h : ∀ span ∈ spans, span.1 ≤ span.2 ∧ span.2 ≤ len) :
    MergedSpans len (spans.mergeSort spanBefore) (merged spans) := by
  have hperm := List.mergeSort_perm spans spanBefore
  have horder : (spans.mergeSort spanBefore).Pairwise fun a b => spanBefore a b = true := by
    apply List.pairwise_mergeSort
    · intro a b c hab hbc
      simp only [spanBefore, Bool.or_eq_true, Bool.and_eq_true, decide_eq_true_eq] at *
      omega
    · intro a b
      simp only [spanBefore, Bool.or_eq_true, Bool.and_eq_true, decide_eq_true_eq]
      omega
  refine (MergedSpans.nil len).foldl (fun span hspan => h span (hperm.mem_iff.1 hspan))
    (horder.imp ?_)
  intro a b hab
  simp only [spanBefore, Bool.or_eq_true, Bool.and_eq_true, decide_eq_true_eq] at hab
  omega

theorem covered_perm {others : List (Nat × Nat)} (h : spans.Perm others) (i : Nat) :
    covered spans i = covered others i := by
  rw [Bool.eq_iff_iff, covered_iff, covered_iff]
  simp only [h.mem_iff]

/-- The spans that are deleted cover what the spans cover. -/
theorem covered_deletions {len : Nat} (h : ∀ span ∈ spans, span.1 ≤ span.2 ∧ span.2 ≤ len)
    (i : Nat) : covered (deletions spans) i = covered spans i := by
  rw [← covered_perm (List.mergeSort_perm spans spanBefore), ← (mergedSpans_merged h).same,
    Bool.eq_iff_iff, covered_iff, covered_iff, deletions]
  constructor
  · rintro ⟨span, hspan, hin⟩
    exact ⟨span, List.mem_of_mem_filter hspan, hin⟩
  · rintro ⟨span, hspan, hin⟩
    exact ⟨span, List.mem_filter.2 ⟨hspan, decide_eq_true (by omega)⟩, hin⟩

theorem ordered_deletions {len : Nat} (h : ∀ span ∈ spans, span.1 ≤ span.2 ∧ span.2 ≤ len) :
    Ordered len (deletions spans) where
  within := fun span hspan => (mergedSpans_merged h).within span (List.mem_of_mem_filter hspan)
  order := (mergedSpans_merged h).order.filter _

/-! ## Replacing the spans by nothing -/

/-- A span as a range replaced by nothing. -/
def erase (span : Nat × Nat) : Splice Char := ⟨span.1, span.2, []⟩

theorem covered_cons (span : Nat × Nat) (spans : List (Nat × Nat)) (i : Nat) :
    covered (span :: spans) i =
      ((decide (span.1 ≤ i) && decide (i < span.2)) || covered spans i) := rfl

/-- What the first of the spans leaves between `n` and `pos`, and what the others do. -/
theorem keptFrom_cons {len : Nat} {span : Nat × Nat} (h : Ordered len (span :: spans))
    {text : Rope} {pos : Nat} (hfrom : n ≤ span.1) (hpos : pos ≤ text.length) :
    keptFrom (span :: spans) n ((text.take pos).drop n) =
      (text.take (min span.1 pos)).drop n ++
        keptFrom spans span.2 ((text.take pos).drop span.2) := by
  have hspan := (h.within span List.mem_cons_self).1
  have horder := List.pairwise_cons.1 h.order
  have hrest (i : Nat) (hi : i < span.2) : covered spans i = false :=
    covered_eq_false.2 fun other hother => .inl (Nat.lt_of_lt_of_le hi (horder.1 other hother))
  rcases Nat.le_total pos span.1 with hbefore | hafter
  · have hnil : ((text.take pos).drop span.2 : Rope) = [] :=
      List.drop_eq_nil_of_le (by rw [List.length_take]; omega)
    rw [Nat.min_eq_right hbefore, hnil, show keptFrom spans span.2 [] = [] from rfl,
      List.append_nil]
    refine keptFrom_eq_self fun i hlow hhigh => ?_
    rw [List.length_drop, List.length_take_of_le hpos] at hhigh
    rw [covered_cons, hrest i (by omega), Bool.or_false, Bool.and_eq_false_iff]
    exact .inl (decide_eq_false (by omega))
  · have hparts : (text.take pos).drop n = (text.take span.1).drop n ++
        ((text.take (min span.2 pos)).drop span.1 ++ (text.take pos).drop span.2) := by
      have hfirst := List.take_append_drop (span.1 - n) ((text.take pos).drop n)
      rw [List.drop_drop, Nat.add_sub_cancel' hfrom, List.take_drop, Nat.add_sub_cancel' hfrom,
        List.take_take, Nat.min_eq_left hafter] at hfirst
      have hsecond := List.take_append_drop (span.2 - span.1) ((text.take pos).drop span.1)
      rw [List.drop_drop, Nat.add_sub_cancel' hspan, List.take_drop, Nat.add_sub_cancel' hspan,
        List.take_take] at hsecond
      rw [hsecond, hfirst]
    have hlen : ((text.take span.1).drop n).length = span.1 - n := by
      rw [List.length_drop, List.length_take_of_le (by omega)]
    have hmid : ((text.take (min span.2 pos)).drop span.1).length = min span.2 pos - span.1 := by
      rw [List.length_drop, List.length_take_of_le (by omega)]
    rw [Nat.min_eq_left hafter, hparts, keptFrom_append, keptFrom_append, hlen, hmid]
    have hfirst : keptFrom (span :: spans) n ((text.take span.1).drop n) =
        (text.take span.1).drop n := by
      refine keptFrom_eq_self fun i hlow hhigh => ?_
      rw [covered_cons, hrest i (by omega), Bool.or_false, Bool.and_eq_false_iff]
      exact .inl (decide_eq_false (by omega))
    have hsecond : keptFrom (span :: spans) (n + (span.1 - n))
        ((text.take (min span.2 pos)).drop span.1) = [] := by
      refine keptFrom_eq_nil fun i hlow hhigh => ?_
      rw [covered_cons, decide_eq_true (by omega), decide_eq_true (by omega)]
      rfl
    rw [hfirst, hsecond, List.nil_append]
    congr 1
    rcases Nat.le_total pos span.2 with hin | hpast
    · have hnil : ((text.take pos).drop span.2 : Rope) = [] :=
        List.drop_eq_nil_of_le (by rw [List.length_take]; omega)
      rw [hnil]
      rfl
    · rw [show n + (span.1 - n) + (min span.2 pos - span.1) = span.2 by omega]
      refine keptFrom_congr fun i hlow hhigh => ?_
      rw [covered_cons, decide_eq_false (show ¬ i < span.2 by omega), Bool.and_false,
        Bool.false_or]

/-- Replaced by nothing, the spans leave what they do not cover. -/
theorem weave_erase {text : Rope} (h : Ordered text.length spans)
    (hfrom : ∀ span ∈ spans, n ≤ span.1) :
    weave text n (spans.map erase) = keptFrom spans n (text.drop n) := by
  induction spans generalizing n with
  | nil =>
      rw [List.map_nil, weave]
      exact (keptFrom_eq_self fun _ _ _ => rfl).symm
  | cons span spans ih =>
      have horder := List.pairwise_cons.1 h.order
      have hspan := h.within span List.mem_cons_self
      have hrest : Ordered text.length spans :=
        ⟨fun other hother => h.within other (List.mem_cons_of_mem _ hother), horder.2⟩
      have hcons := keptFrom_cons h (hfrom span List.mem_cons_self) (Nat.le_refl text.length)
      rw [List.take_length, Nat.min_eq_left (by omega)] at hcons
      rw [hcons, List.map_cons, weave, ← ih hrest horder.1]
      exact congrArg (· ++ _) (List.append_nil _)

section

open Transaction (moved length_take_drop)

variable {rope : Rope}

/-- A deletion takes a position inside it to its start. -/
theorem moved_erase {span : Nat × Nat} {pos : Nat} (hlt : span.1 < span.2)
    (hlen : span.2 ≤ rope.length) : moved rope (span.1, span.2, []) pos false =
      if pos ≤ span.1 then pos else if pos ≤ span.2 then span.1 else pos - (span.2 - span.1) := by
  have hremoved := length_take_drop span.1 hlen
  have hne : (rope.take span.2).drop span.1 ≠ [] := by
    intro hnil
    rw [hnil, List.length_nil] at hremoved
    omega
  rw [moved, if_pos hne]
  simp only [Change.map, hremoved, List.length_nil, Bool.false_eq_true, if_false, or_false]
  split_ifs <;> omega

/-- A position goes to where what is left of the text before it ends. -/
theorem foldr_moved_erase {pos : Nat} (h : Ordered rope.length spans)
    (hlt : ∀ span ∈ spans, span.1 < span.2) (hfrom : ∀ span ∈ spans, n ≤ span.1)
    (hn : n ≤ pos) (hpos : pos ≤ rope.length) :
    spans.foldr (fun span pos => moved rope (span.1, span.2, []) pos false) pos =
      n + (keptFrom spans n ((rope.take pos).drop n)).length := by
  have hstay : ∀ spans : List (Nat × Nat), (∀ span ∈ spans, span.1 < span.2) →
      (∀ span ∈ spans, span.2 ≤ rope.length) → (∀ span ∈ spans, pos ≤ span.1) →
        spans.foldr (fun span pos => moved rope (span.1, span.2, []) pos false) pos = pos := by
    intro spans hlt hlen hle
    induction spans with
    | nil => rfl
    | cons span spans ih =>
        rw [List.foldr_cons, ih (fun s hs => hlt s (List.mem_cons_of_mem _ hs))
          (fun s hs => hlen s (List.mem_cons_of_mem _ hs))
          (fun s hs => hle s (List.mem_cons_of_mem _ hs)),
          moved_erase (hlt span List.mem_cons_self) (hlen span List.mem_cons_self),
          if_pos (hle span List.mem_cons_self)]
  induction spans generalizing n with
  | nil =>
      rw [List.foldr_nil, keptFrom_eq_self fun _ _ _ => rfl, List.length_drop,
        List.length_take_of_le hpos]
      omega
  | cons span spans ih =>
      have horder := List.pairwise_cons.1 h.order
      have hspan := h.within span List.mem_cons_self
      have hlt' : ∀ s ∈ spans, s.1 < s.2 := fun s hs => hlt s (List.mem_cons_of_mem _ hs)
      have hrest : Ordered rope.length spans :=
        ⟨fun other hother => h.within other (List.mem_cons_of_mem _ hother), horder.2⟩
      rw [List.foldr_cons, moved_erase (hlt span List.mem_cons_self) hspan.2,
        keptFrom_cons h (hfrom span List.mem_cons_self) hpos, List.length_append,
        List.length_drop, List.length_take_of_le (by omega)]
      have hstart := hfrom span List.mem_cons_self
      rcases Nat.le_total pos span.2 with hin | hpast
      · have hnil : ((rope.take pos).drop span.2 : Rope) = [] :=
          List.drop_eq_nil_of_le (by rw [List.length_take]; omega)
        rw [hstay spans hlt' (fun s hs => (hrest.within s hs).2) (fun s hs =>
          Nat.le_trans hin (horder.1 s hs)), hnil,
          show (keptFrom spans span.2 []).length = 0 from rfl]
        split_ifs <;> omega
      · rw [ih hrest hlt' horder.1 hpast]
        split_ifs <;> omega

end

/-! ## The commands -/

section

open Transaction (replace Disjoint toSplice inOrder)

variable {doc : TextDoc} {selection : Selection}

/-- The text after a deletion of the spans, the step in the history, and the carets, each
left where its span was. -/
structure Deleted (doc : TextDoc) (selection : Selection) (spans : List (Nat × Nat))
    (doc' : TextDoc) (edited : Edited) : Prop where
  text : doc'.rope = kept spans doc.rope
  step : OneStep doc doc' selection edited
  carets : CaretsAt edited.selection
    (spans.map fun span => (kept spans (doc.rope.take span.1)).length) selection.primary
  gone : ∀ span ∈ spans, kept spans (doc.rope.take span.1) = kept spans (doc.rope.take span.2)

/-- The deletions as edits. -/
def eraseEdits (spans : List (Nat × Nat)) : List (Nat × Nat × List Char) :=
  (deletions spans).map fun span => (span.1, span.2, [])

theorem order_eraseEdits {len : Nat} (h : ∀ span ∈ spans, span.1 ≤ span.2 ∧ span.2 ≤ len) :
    (eraseEdits spans).Pairwise fun a b => a.2.1 ≤ b.1 :=
  List.pairwise_map.2 (ordered_deletions h).order

theorem lt_of_mem_deletions {span : Nat × Nat} (h : span ∈ deletions spans) : span.1 < span.2 :=
  of_decide_eq_true (List.mem_filter.1 h).2

theorem disjoint_eraseEdits {len : Nat} (h : ∀ span ∈ spans, span.1 ≤ span.2 ∧ span.2 ≤ len) :
    Disjoint len (eraseEdits spans) where
  within := by
    intro edit hedit
    obtain ⟨span, hspan, rfl⟩ := List.mem_map.1 hedit
    exact (ordered_deletions h).within span hspan
  apart := (order_eraseEdits h).imp Or.inl
  empty := by
    refine List.pairwise_map.2 ((ordered_deletions h).order.imp_of_mem ?_)
    intro a b ha _ _ hempty
    have hlt := lt_of_mem_deletions ha
    dsimp only at hempty
    omega

theorem mergeSort_eraseEdits {len : Nat} (h : ∀ span ∈ spans, span.1 ≤ span.2 ∧ span.2 ≤ len) :
    (eraseEdits spans).mergeSort Transaction.earlier = eraseEdits spans :=
  Transaction.mergeSort_earlier_of_order
    (fun edit hedit => ((disjoint_eraseEdits h).within edit hedit).1) (order_eraseEdits h)

theorem kept_deletions {len : Nat} (h : ∀ span ∈ spans, span.1 ≤ span.2 ∧ span.2 ≤ len)
    (text : Rope) : keptFrom (deletions spans) 0 text = kept spans text :=
  keptFrom_congr fun i _ _ => covered_deletions h i

theorem weave_eraseEdits {rope : Rope}
    (h : ∀ span ∈ spans, span.1 ≤ span.2 ∧ span.2 ≤ rope.length) :
    weave rope 0 (inOrder (eraseEdits spans)) = kept spans rope := by
  rw [inOrder, mergeSort_eraseEdits h, eraseEdits, List.map_map, ← kept_deletions h]
  exact weave_erase (ordered_deletions h) fun _ _ => Nat.zero_le _

theorem map_eraseEdits {rope : Rope}
    (h : ∀ span ∈ spans, span.1 ≤ span.2 ∧ span.2 ≤ rope.length) {tx : Transaction}
    (htx : replace rope (eraseEdits spans) = some tx) {pos : Nat} (hpos : pos ≤ rope.length) :
    tx.map pos false = (kept spans (rope.take pos)).length := by
  have hdisjoint := disjoint_eraseEdits h
  obtain ⟨changes, hchanges, rfl⟩ := Option.map_eq_some_iff.1 htx
  rw [Transaction.map_replaceOne (hdisjoint.perm (List.mergeSort_perm _ _).symm).within hchanges,
    Transaction.mergeSort_later_eq hdisjoint, mergeSort_eraseEdits h, List.foldl_reverse,
    eraseEdits, List.foldr_map, foldr_moved_erase (ordered_deletions h)
      (fun _ => lt_of_mem_deletions) (fun _ _ => Nat.zero_le _) (Nat.zero_le _) hpos,
    Nat.zero_add, List.drop_zero, kept_deletions h]

variable {g : Range → Nat × Nat}

theorem within_of_around {len : Nat} {ranges : List Range} (h : ∀ range ∈ ranges,
    (g range).1 ≤ range.lower ∧ range.upper ≤ (g range).2 ∧ (g range).2 ≤ len) :
    ∀ span ∈ ranges.map g, span.1 ≤ span.2 ∧ span.2 ≤ len := by
  intro span hspan
  obtain ⟨range, hrange, rfl⟩ := List.mem_map.1 hspan
  have hin := h range hrange
  have hle := range.lower_le_upper
  exact ⟨by omega, hin.2.2⟩

/-- Inside its span a range is left where the span begins. -/
theorem kept_lower {rope : Rope} (h : ∀ range ∈ selection.ranges,
    (g range).1 ≤ range.lower ∧ range.upper ≤ (g range).2 ∧ (g range).2 ≤ rope.length)
    {range : Range} (hrange : range ∈ selection.ranges) {pos : Nat} (hlow : (g range).1 ≤ pos)
    (hhigh : pos ≤ (g range).2) : kept (selection.ranges.map g) (rope.take (g range).1) =
      kept (selection.ranges.map g) (rope.take pos) := by
  have hlen := (h range hrange).2.2
  refine kept_take_eq hlow (by omega) fun i hi hlt => ?_
  exact covered_iff.2 ⟨g range, List.mem_map_of_mem hrange, hi, by omega⟩

/-- With nothing to delete the spans are carets, and the selection stays. -/
theorem caretsAt_self {rope : Rope} (h : ∀ range ∈ selection.ranges,
    (g range).1 ≤ range.lower ∧ range.upper ≤ (g range).2 ∧ (g range).2 ≤ rope.length)
    (hnone : ∀ i, covered (selection.ranges.map g) i = false) :
    CaretsAt selection ((selection.ranges.map g).map fun span =>
      (kept (selection.ranges.map g) (rope.take span.1)).length) selection.primary := by
  have hplace : ∀ range ∈ selection.ranges,
      (kept (selection.ranges.map g) (rope.take (g range).1)).length = range.lower ∧
        range.lower = range.upper := by
    intro range hrange
    have hin := h range hrange
    have hle := range.lower_le_upper
    have hempty : ¬ (g range).1 < (g range).2 := by
      intro hlt
      have hself := covered_eq_false.1 (hnone (g range).1) (g range) (List.mem_map_of_mem hrange)
      omega
    rw [kept, keptFrom_eq_self fun i _ _ => hnone i, List.length_take_of_le (by omega)]
    omega
  rw [List.map_map]
  refine ⟨?_, ?_, ?_⟩
  · intro range hrange
    obtain ⟨hlen, hcaret⟩ := hplace range hrange
    exact ⟨_, List.mem_map_of_mem hrange, hlen.symm, hcaret ▸ hlen.symm⟩
  · intro place hmem
    obtain ⟨range, hrange, rfl⟩ := List.mem_map.1 hmem
    obtain ⟨hlen, hcaret⟩ := hplace range hrange
    exact ⟨range, hrange, hlen.symm, hcaret ▸ hlen.symm⟩
  · have hprimary := List.getElem?_eq_getElem selection.primary_lt
    have hrange := List.getElem_mem selection.primary_lt
    obtain ⟨hlen, hcaret⟩ := hplace _ hrange
    refine ⟨_, hprimary, ?_⟩
    rw [List.getElem?_map, hprimary, Option.map_some]
    exact congrArg some (hlen.trans (head_eq_of_caret rfl hcaret.symm).symm)

theorem deleteSpans_spec (h : ∀ range ∈ selection.ranges,
    (g range).1 ≤ range.lower ∧ range.upper ≤ (g range).2 ∧ (g range).2 ≤ doc.rope.length)
    (kind : EditKind) (nowMs : Nat) :
    ∃ doc' edited, deleteSpans doc selection (selection.ranges.map g) kind nowMs =
      some (doc', edited) ∧ Deleted doc selection (selection.ranges.map g) doc' edited := by
  have hwithin := within_of_around h
  have hgone : ∀ span ∈ selection.ranges.map g,
      kept (selection.ranges.map g) (doc.rope.take span.1) =
        kept (selection.ranges.map g) (doc.rope.take span.2) := by
    intro span hspan
    have hle := (hwithin span hspan).1
    obtain ⟨range, hrange, rfl⟩ := List.mem_map.1 hspan
    exact kept_lower h hrange hle (Nat.le_refl _)
  by_cases hnone : deletions (selection.ranges.map g) = []
  · have huncovered (i : Nat) : covered (selection.ranges.map g) i = false := by
      rw [← covered_deletions hwithin, hnone]
      rfl
    refine ⟨doc, _, by rw [deleteSpans, if_pos hnone], ?_, .inl ⟨rfl, rfl⟩,
      caretsAt_self h huncovered, hgone⟩
    exact (keptFrom_eq_self fun i _ _ => huncovered i).symm
  · obtain ⟨tx, rope, htx, hsim⟩ := Transaction.replace_simultaneous doc.rope
      (eraseEdits (selection.ranges.map g)) (disjoint_eraseEdits hwithin)
    have hplaces : selection.ranges.map (fun range => Range.point (tx.map range.lower false)) =
        ((selection.ranges.map g).map fun span =>
          (kept (selection.ranges.map g) (doc.rope.take span.1)).length).map Range.point := by
      rw [List.map_map, List.map_map]
      refine List.map_congr_left fun range hrange => ?_
      have hin := h range hrange
      have hle := range.lower_le_upper
      rw [map_eraseEdits hwithin htx (by omega), ← kept_lower h hrange hin.1 (by omega)]
      rfl
    obtain ⟨doc', applied, hedit, hrope, hstep⟩ := exists_edit hsim.apply hsim.invert selection
      (selection.transform fun range => Range.point (tx.map range.lower false)) kind nowMs
    refine ⟨doc', _, ?_, ?_, hstep, ?_, hgone⟩
    · rw [deleteSpans, if_neg hnone]
      rw [eraseEdits] at htx
      rw [htx, Option.bind_some]
      dsimp only
      rw [hedit, Option.map_some]
    · rw [hrope, hsim.text, weave_eraseEdits hwithin]
    · simp only [Selection.transform, hplaces]
      refine caretsAt_new ?_ _
      rw [List.length_map, List.length_map]
      exact selection.primary_lt

variable (table : CharTable)

theorem stepForward_le (rest : List Char) : stepForward table rest ≤ rest.length := by
  cases rest with
  | nil => exact Nat.le_refl 0
  | cons first rest =>
      simp only [stepForward]
      split
      · exact Nat.succ_le_succ (Nat.zero_le _)
      · have hlen := congrArg List.length (List.takeWhile_append_dropWhile
          (p := fun c => decide (Lines.charClass table c = CharClass.space)) (l := first :: rest))
        rw [List.length_append] at hlen
        split
        · omega
        · next c run hdrop =>
            rw [hdrop] at hlen
            have hrun : ((c :: run).takeWhile fun d => decide
                (Lines.charClass table d = Lines.charClass table c)).length ≤ (c :: run).length :=
              (List.takeWhile_prefix _).length_le
            split <;> omega

theorem head_of_isEmpty {range : Range} (h : range.isEmpty = true) :
    range.lower = range.head ∧ range.upper = range.head := by
  rw [Range.isEmpty, decide_eq_true_eq] at h
  rw [Range.lower, Range.upper, h]
  exact ⟨Nat.min_self _, Nat.max_self _⟩

theorem backspaceStart_le (rope : Rope) (unit : MoveUnit) (style : IndentStyle) (head : Nat) :
    backspaceStart table rope unit style head ≤ head := by
  cases unit with
  | word =>
      rw [backspaceStart, stepWord, if_neg Bool.false_ne_true]
      omega
  | char =>
      rw [backspaceStart]
      dsimp only
      split <;> omega

theorem backward_around {rope : Rope} {range : Range} (unit : MoveUnit) (style : IndentStyle)
    (h : range.upper ≤ rope.length) {span : Nat × Nat}
    (hspan : span = if !range.isEmpty then (range.lower, range.upper)
      else (backspaceStart table rope unit style range.head, range.head)) :
    span.1 ≤ range.lower ∧ range.upper ≤ span.2 ∧ span.2 ≤ rope.length := by
  cases hempty : range.isEmpty with
  | false =>
      rw [hempty, Bool.not_false, if_pos rfl] at hspan
      rw [hspan]
      exact ⟨Nat.le_refl _, Nat.le_refl _, h⟩
  | true =>
      obtain ⟨hlower, hupper⟩ := head_of_isEmpty hempty
      have hstart := backspaceStart_le table rope unit style range.head
      rw [hempty, Bool.not_true, if_neg Bool.false_ne_true] at hspan
      rw [hspan]
      dsimp only
      omega

theorem forward_around {rope : Rope} {range : Range} (unit : MoveUnit)
    (h : range.upper ≤ rope.length) {span : Nat × Nat}
    (hspan : span = if !range.isEmpty then (range.lower, range.upper)
      else (range.head, match unit with
        | .char => min (range.head + 1) rope.length
        | .word => stepWord table rope range.head true)) :
    span.1 ≤ range.lower ∧ range.upper ≤ span.2 ∧ span.2 ≤ rope.length := by
  cases hempty : range.isEmpty with
  | false =>
      rw [hempty, Bool.not_false, if_pos rfl] at hspan
      rw [hspan]
      exact ⟨Nat.le_refl _, Nat.le_refl _, h⟩
  | true =>
      obtain ⟨hlower, hupper⟩ := head_of_isEmpty hempty
      rw [hempty, Bool.not_true, if_neg Bool.false_ne_true] at hspan
      rw [hspan]
      cases unit with
      | char =>
          dsimp only
          omega
      | word =>
          have hstep := stepForward_le table (rope.drop (min range.head rope.length))
          rw [List.length_drop] at hstep
          rw [stepWord, if_pos rfl]
          dsimp only
          omega

theorem cut_around {rope : Rope} {range : Range} (h : range.upper ≤ rope.length)
    {span : Nat × Nat}
    (hspan : span = if range.isEmpty then wholeLineSpan rope (Lines.lineOf rope range.head)
      else (range.lower, range.upper)) :
    span.1 ≤ range.lower ∧ range.upper ≤ span.2 ∧ span.2 ≤ rope.length := by
  cases hempty : range.isEmpty with
  | false =>
      rw [hempty, if_neg Bool.false_ne_true] at hspan
      rw [hspan]
      exact ⟨Nat.le_refl _, Nat.le_refl _, h⟩
  | true =>
      obtain ⟨hlower, hupper⟩ := head_of_isEmpty hempty
      have hstart :=
          @Lines.lineStart_lineOf_le rope range.head (show range.head ≤ rope.length by omega)
      rw [hempty, if_pos rfl] at hspan
      rw [hspan, wholeLineSpan]
      split
      · next hnext =>
          have hlt := Lines.lt_lineStart_succ (show range.head ≤ rope.length by omega) hnext
          have hle := Rope.lineToChar_le_length rope (Lines.lineOf rope range.head + 1)
          omega
      · split
        · dsimp only
          omega
        · dsimp only
          omega

/-- Editing with a selection in normal form: whatever replaces the ranges, typing, Enter
and pasting among them, and Backspace, Delete and Cut. -/
structure MultiCaret (doc : TextDoc) (selection : Selection) : Prop where
  replaceEach : ∀ kind nowMs f, ∃ doc' edited,
    replaceEach doc selection kind nowMs f = some (doc', edited) ∧
      Replaced f doc selection doc' edited
  insertText : ∀ text nowMs, ∃ doc' edited,
    insertText doc selection text nowMs = some (doc', edited) ∧
      Replaced (fun _ _ => (text, text.length)) doc selection doc' edited
  insertNewline : ∀ style nowMs, ∃ doc' edited,
    insertNewline doc selection style nowMs = some (doc', edited) ∧
      Replaced (fun _ range => newlineAt doc.rope style range) doc selection doc' edited
  pasteEach : ∀ clip nowMs, ∃ doc' edited,
    pasteEach doc selection clip nowMs = some (doc', edited) ∧
      Replaced (fun i _ => (pasteRow clip selection i, (pasteRow clip selection i).length)) doc
        selection doc' edited
  deleteBackward : ∀ unit style nowMs, ∃ doc' edited,
    deleteBackward table doc selection unit style nowMs = some (doc', edited) ∧
      Deleted doc selection (backwardSpans table doc.rope selection unit style) doc' edited
  deleteForward : ∀ unit nowMs, ∃ doc' edited,
    deleteForward table doc selection unit nowMs = some (doc', edited) ∧
      Deleted doc selection (forwardSpans table doc.rope selection unit) doc' edited
  cut : ∀ column nowMs, ∃ doc' edited,
    cut doc selection column nowMs = some (copy doc.rope selection column, doc', edited) ∧
      Deleted doc selection (cutSpans doc.rope selection) doc' edited

/-- Every command that edits at each caret does so in one transaction, over a selection in order
and within the text. -/
theorem multiCaret (hnormal : Selection.Normal selection.ranges)
    (hwithin : ∀ range ∈ selection.ranges, range.upper ≤ doc.rope.length) :
    MultiCaret table doc selection where
  replaceEach := fun kind nowMs _ => replaceEach_spec hnormal hwithin kind nowMs
  insertText := fun _ nowMs => replaceEach_spec hnormal hwithin _ nowMs
  insertNewline := fun _ nowMs => replaceEach_spec hnormal hwithin _ nowMs
  pasteEach := fun _ nowMs => replaceEach_spec hnormal hwithin _ nowMs
  deleteBackward := fun unit style nowMs => deleteSpans_spec
    (fun range hrange => backward_around table unit style (hwithin range hrange) rfl) _ nowMs
  deleteForward := fun unit nowMs => deleteSpans_spec
    (fun range hrange => forward_around table unit (hwithin range hrange) rfl) _ nowMs
  cut := by
    intro column nowMs
    obtain ⟨doc', edited, hdelete, hdeleted⟩ := @deleteSpans_spec doc selection _
      (fun range hrange => cut_around (hwithin range hrange) rfl) .other nowMs
    refine ⟨doc', edited, ?_, hdeleted⟩
    rw [Commands.cut, cutSpans, hdelete, Option.map_some]

/-- Two selections that touch and a caret. -/
theorem multiCaret_touching : MultiCaret asciiTable (TextDoc.new ['a', 'b', 'c', '\n', 'd'])
    { ranges := [Range.new 0 2, Range.new 3 2, Range.point 5], primary := 2,
      primary_lt := by decide } :=
  multiCaret asciiTable (by decide) (by decide)

end

end Commands

end Throng.Editor
