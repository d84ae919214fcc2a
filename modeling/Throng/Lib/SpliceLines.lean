import Throng.Lib.Splice
import Throng.Lib.SplitLines

/-!
# Lines of a list with ranges replaced

Ranges that hold no mark are each on one line, and where the new lists hold none either,
replacing them leaves as many lines, and every line that no range is on as it was.
-/

namespace SplitLines

variable {α : Type*} (brk : α → Bool) {l l' : List α} {a : Splice α} {splices : List (Splice α)}

/-- The range and what is put in its place hold no mark. -/
structure Inline (l : List α) (a : Splice α) : Prop where
  old : ((l.take a.stop).drop a.start).countP brk = 0
  new : a.new.countP brk = 0

/-- `l'` has the lines of `l` but for those that `splices` are on. -/
structure SameLines (l l' : List α) (splices : List (Splice α)) : Prop where
  length : (split brk l').length = (split brk l).length
  same : ∀ i, (∀ a ∈ splices, lineOf brk l a.start ≠ i) → (split brk l')[i]? = (split brk l)[i]?

variable {brk}

/-- A stretch that starts and ends on one line. -/
theorem getElem?_of_patch {lines lines' : List (List α)} {n i : Nat} (h : Patch lines lines' n n n)
    (hi : n ≠ i) : lines'[i]? = lines[i]? := by
  rcases Nat.lt_or_gt_of_ne hi with hafter | hbefore
  · obtain ⟨k, rfl⟩ := Nat.exists_eq_add_of_lt hafter
    have hdrop := congrArg (fun lines => lines[k]?) h.drop
    simp only [List.getElem?_drop] at hdrop
    rw [Nat.add_right_comm n 1 k] at hdrop
    exact hdrop.symm
  · have htake := congrArg (fun lines => lines[i]?) h.take
    simp only [List.getElem?_take_of_lt hbefore] at htake
    exact htake.symm

theorem sameLines_apply (hrange : a.Within l.length) (h : Inline brk l a) :
    SameLines brk l (Splice.apply l a) [a] := by
  have hold := @Splice.take_drop_drop _ _ l hrange.1
  have hpatch := patch_append brk (l.take a.start) ((l.take a.stop).drop a.start) a.new
    (l.drop a.stop)
  rw [hold, List.countP_append, List.countP_append, h.old, h.new, Nat.add_zero,
    ← Splice.apply_of_le hrange.1 hrange.2] at hpatch
  refine ⟨?_, fun i hi => getElem?_of_patch hpatch (hi a List.mem_cons_self)⟩
  have hlength := hpatch.length_eq
  omega

/-- Ranges in order, replaced all at once. -/
theorem sameLines_weave (hrange : ∀ a ∈ splices, a.Within l.length)
    (horder : splices.Pairwise fun a b => a.stop ≤ b.start)
    (h : ∀ a ∈ splices, Inline brk l a) : SameLines brk l (Splice.weave l 0 splices) splices := by
  have hfold := @Splice.foldr_apply_eq _ l 0 splices (Nat.zero_le _) hrange
    (fun _ _ => Nat.zero_le _) horder
  rw [List.take_zero, List.nil_append] at hfold
  rw [← hfold]
  clear hfold
  induction splices with
  | nil => exact ⟨rfl, fun _ _ => rfl⟩
  | cons a splices ih =>
      rw [List.pairwise_cons] at horder
      obtain ⟨hlength, hsame⟩ := ih (fun b hb => hrange b (List.mem_cons_of_mem _ hb)) horder.2
        fun b hb => h b (List.mem_cons_of_mem _ hb)
      obtain ⟨hle, hstop⟩ := hrange a List.mem_cons_self
      -- the ranges behind `a` have left what is in front of them
      have hfront := @Splice.foldr_apply_eq _ l a.stop splices hstop
        (fun b hb => hrange b (List.mem_cons_of_mem _ hb)) horder.1 horder.2
      have htake : (splices.foldr (fun a l => Splice.apply l a) l).take a.stop = l.take a.stop := by
        rw [hfront, List.take_left' (List.length_take_of_le hstop)]
      have hlen : a.stop ≤ (splices.foldr (fun a l => Splice.apply l a) l).length := by
        rw [hfront, List.length_append, List.length_take_of_le hstop]
        exact Nat.le_add_right _ _
      have hline : lineOf brk (splices.foldr (fun a l => Splice.apply l a) l) a.start =
          lineOf brk l a.start := by
        have hstart := congrArg (List.take a.start) htake
        rw [List.take_take, List.take_take, Nat.min_eq_left hle] at hstart
        rw [lineOf, lineOf, hstart]
      have hinline := h a List.mem_cons_self
      obtain ⟨hlength', hsame'⟩ := @sameLines_apply _ brk _ _ ⟨hle, hlen⟩
        ⟨by rw [htake]; exact hinline.old, hinline.new⟩
      refine ⟨hlength'.trans hlength, fun i hi => ?_⟩
      refine (hsame' i fun b hb => ?_).trans
        (hsame i fun b hb => hi b (List.mem_cons_of_mem _ hb))
      rw [List.mem_singleton.1 hb, hline]
      exact hi a List.mem_cons_self

end SplitLines
