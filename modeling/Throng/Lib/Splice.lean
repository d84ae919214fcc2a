import Mathlib.Algebra.GroupWithZero.Nat
import Mathlib.Data.List.Pairwise
import Mathlib.Data.List.Perm.Basic

/-!
# Ranges replaced in a list

A splice puts a list in the place of a range of another. It leaves what comes before the
range, and where the new list is as long as the range also what comes after it in place.
So ranges that are given in the places of the original list are still right when they are
replaced from the end backwards, or in any order by lists of their own length.

What comes out then is `weave`, which goes through the ranges from the front: what stands
between them and the new lists in turn. It may be cut at any place between two ranges.
-/

/-- A range of a list and what is to stand there. -/
structure Splice (α : Type*) where
  start : Nat
  stop : Nat
  new : List α

namespace Splice

variable {α : Type*} {a b : Splice α} {l : List α} {splices : List (Splice α)} {i n : Nat}

/-- Put the new list in the place of the range, if the list reaches so far. -/
def apply (l : List α) (a : Splice α) : List α :=
  if a.start ≤ a.stop ∧ a.stop ≤ l.length then l.take a.start ++ a.new ++ l.drop a.stop else l

/-- One of the two ranges ends before the other begins. -/
def Apart (a b : Splice α) : Prop := a.stop ≤ b.start ∨ b.stop ≤ a.start

/-- The new list is as long as the range. -/
def Even (a : Splice α) : Prop := a.new.length = a.stop - a.start

theorem apply_of_le (hle : a.start ≤ a.stop) (hlen : a.stop ≤ l.length) :
    apply l a = l.take a.start ++ a.new ++ l.drop a.stop := if_pos ⟨hle, hlen⟩

theorem apply_of_out (h : ¬ (a.start ≤ a.stop ∧ a.stop ≤ l.length)) : apply l a = l := if_neg h

theorem take_drop_drop (hle : a.start ≤ a.stop) :
    l.take a.start ++ (l.take a.stop).drop a.start ++ l.drop a.stop = l := by
  have hjoin := List.take_append_drop a.start (l.take a.stop)
  rw [List.take_take, Nat.min_eq_left hle] at hjoin
  rw [hjoin, List.take_append_drop]

/-- Where the range holds the new list already nothing changes. -/
theorem apply_same (hsame : (l.take a.stop).drop a.start = a.new) : apply l a = l := by
  rw [apply]
  split
  · next hin => rw [← hsame, take_drop_drop hin.1]
  · rfl

/-- What comes before the range stays. -/
theorem take_apply (h : n ≤ a.start) : (apply l a).take n = l.take n := by
  rw [apply]
  split
  · next hin =>
      have hlen : n ≤ (l.take a.start).length := by
        rw [List.length_take]
        omega
      rw [List.append_assoc, List.take_append_of_le_length hlen, List.take_take,
        Nat.min_eq_left h]
  · rfl

theorem take_foldl (h : ∀ a ∈ splices, n ≤ a.start) :
    (splices.foldl apply l).take n = l.take n := by
  induction splices generalizing l with
  | nil => rfl
  | cons a splices ih =>
      rw [List.foldl_cons, ih fun b hb => h b (List.mem_cons_of_mem _ hb),
        take_apply (h a List.mem_cons_self)]

theorem length_apply (h : a.Even) : (apply l a).length = l.length := by
  rw [apply]
  split
  · next hin =>
      rw [List.length_append, List.length_append, List.length_take, List.length_drop, h]
      omega
  · rfl

theorem length_foldl (h : ∀ a ∈ splices, a.Even) :
    (splices.foldl apply l).length = l.length := by
  induction splices generalizing l with
  | nil => rfl
  | cons a splices ih =>
      rw [List.foldl_cons, ih fun b hb => h b (List.mem_cons_of_mem _ hb),
        length_apply (h a List.mem_cons_self)]

theorem getElem?_apply (h : a.Even) (hle : a.start ≤ a.stop) (hlen : a.stop ≤ l.length) :
    (apply l a)[i]? = if a.start ≤ i ∧ i < a.stop then a.new[i - a.start]? else l[i]? := by
  have hstart : (l.take a.start).length = a.start := List.length_take_of_le (by omega)
  rw [apply_of_le hle hlen, List.append_assoc, List.getElem?_append, List.getElem?_append, hstart,
    h]
  rcases Nat.lt_or_ge i a.start with hbefore | hafter
  · rw [if_pos hbefore, if_neg (by omega), List.getElem?_take_of_lt hbefore]
  · rw [if_neg (by omega)]
    rcases Nat.lt_or_ge i a.stop with hin | hout
    · rw [if_pos (by omega), if_pos ⟨hafter, hin⟩]
    · rw [if_neg (by omega), if_neg (by omega), List.getElem?_drop]
      congr 1
      omega

/-- Outside the range everything stays in place. -/
theorem getElem?_apply_of_out (h : a.Even) (hout : i < a.start ∨ a.stop ≤ i) :
    (apply l a)[i]? = l[i]? := by
  by_cases hin : a.start ≤ a.stop ∧ a.stop ≤ l.length
  · rw [getElem?_apply h hin.1 hin.2, if_neg (by omega)]
  · rw [apply_of_out hin]

theorem getElem?_foldl_of_out (heven : ∀ a ∈ splices, a.Even)
    (hout : ∀ a ∈ splices, i < a.start ∨ a.stop ≤ i) : (splices.foldl apply l)[i]? = l[i]? := by
  induction splices generalizing l with
  | nil => rfl
  | cons a splices ih =>
      rw [List.foldl_cons, ih (fun b hb => heven b (List.mem_cons_of_mem _ hb))
        fun b hb => hout b (List.mem_cons_of_mem _ hb),
        getElem?_apply_of_out (heven a List.mem_cons_self) (hout a List.mem_cons_self)]

/-- Splices of their own length in ranges apart commute. -/
theorem apply_comm (ha : a.Even) (hb : b.Even) (hapart : a.Apart b) (l : List α) :
    apply (apply l a) b = apply (apply l b) a := by
  by_cases hina : a.start ≤ a.stop ∧ a.stop ≤ l.length
  · by_cases hinb : b.start ≤ b.stop ∧ b.stop ≤ l.length
    · refine List.ext_getElem? fun i => ?_
      rw [getElem?_apply hb hinb.1 (by rw [length_apply ha]; exact hinb.2),
        getElem?_apply ha hina.1 hina.2,
        getElem?_apply ha hina.1 (by rw [length_apply hb]; exact hina.2),
        getElem?_apply hb hinb.1 hinb.2]
      by_cases hia : a.start ≤ i ∧ i < a.stop
      · rw [if_neg (by rw [Apart] at hapart; omega), if_pos hia, if_pos hia]
      · rw [if_neg hia, if_neg hia]
    · have hout : ¬ (b.start ≤ b.stop ∧ b.stop ≤ (apply l a).length) := by rwa [length_apply ha]
      rw [apply_of_out hout, apply_of_out hinb]
  · have hout : ¬ (a.start ≤ a.stop ∧ a.stop ≤ (apply l b).length) := by rwa [length_apply hb]
    rw [apply_of_out hout, apply_of_out hina]

instance : Std.Symm (@Apart α) := ⟨fun _ _ => Or.symm⟩

/-- Splices of their own length in ranges apart may be made in any order. -/
theorem foldl_perm {others : List (Splice α)} (hperm : splices.Perm others)
    (heven : ∀ a ∈ splices, a.Even) (hapart : splices.Pairwise Apart) (l : List α) :
    splices.foldl apply l = others.foldl apply l := by
  refine hperm.foldl_eq' (fun a ha b hb z => ?_) l
  by_cases hne : a = b
  · rw [hne]
  · exact apply_comm (heven a ha) (heven b hb)
      (hapart.forall ha hb hne) z

/-- There is one order from the end backwards. -/
theorem eq_of_backwards {others : List (Splice α)} (hperm : splices.Perm others)
    (hranges : ∀ a ∈ splices, a.start < a.stop)
    (h : splices.Pairwise fun a b => b.stop ≤ a.start)
    (h' : others.Pairwise fun a b => b.stop ≤ a.start) : splices = others := by
  refine hperm.eq_of_pairwise (fun a b ha hb hab hba => ?_) h h'
  have ha' := hranges a ha
  have hb' := hranges b (hperm.mem_iff.mpr hb)
  omega

/-! ## Replacing all at once -/

/-- The list from `n` on with every range replaced, the ranges in order. -/
def weave (l : List α) : Nat → List (Splice α) → List α
  | n, [] => l.drop n
  | n, a :: splices => (l.take a.start).drop n ++ a.new ++ weave l a.stop splices

theorem mem_weave {x : α} {splices : List (Splice α)} (h : x ∈ weave l n splices) :
    x ∈ l ∨ ∃ a ∈ splices, x ∈ a.new := by
  induction splices generalizing n with
  | nil => exact .inl (List.mem_of_mem_drop h)
  | cons a splices ih =>
      rw [weave, List.mem_append, List.mem_append] at h
      rcases h with (hfront | hnew) | hback
      · exact .inl (List.mem_of_mem_take (List.mem_of_mem_drop hfront))
      · exact .inr ⟨a, List.mem_cons_self, hnew⟩
      · refine (ih hback).imp_right ?_
        rintro ⟨b, hb, hnew⟩
        exact ⟨b, List.mem_cons_of_mem _ hb, hnew⟩

/-- The range is one of the first `n` places of a list. -/
def Within (n : Nat) (a : Splice α) : Prop := a.start ≤ a.stop ∧ a.stop ≤ n

theorem foldr_apply_eq (splices : List (Splice α)) (hn : n ≤ l.length)
    (hrange : ∀ a ∈ splices, a.Within l.length) (hfrom : ∀ a ∈ splices, n ≤ a.start)
    (horder : splices.Pairwise fun a b => a.stop ≤ b.start) :
    splices.foldr (fun a l => apply l a) l = l.take n ++ weave l n splices := by
  induction splices generalizing n with
  | nil => rw [List.foldr_nil, weave, List.take_append_drop]
  | cons a splices ih =>
      rw [List.pairwise_cons] at horder
      obtain ⟨hle, hlen⟩ := hrange a List.mem_cons_self
      have hstart := hfrom a List.mem_cons_self
      have hstop : (l.take a.stop).length = a.stop := List.length_take_of_le hlen
      rw [List.foldr_cons, ih hlen (fun b hb => hrange b (List.mem_cons_of_mem _ hb)) horder.1
        horder.2, apply_of_le hle (by rw [List.length_append, hstop]; omega),
        List.take_append_of_le_length (by omega), List.take_take, Nat.min_eq_left hle,
        List.drop_left' hstop, weave, ← List.append_assoc, ← List.append_assoc]
      have hjoin := List.take_append_drop n (l.take a.start)
      rw [List.take_take, Nat.min_eq_left hstart] at hjoin
      rw [hjoin]

/-- Ranges replaced one after the other from the end backwards are replaced all at
once. -/
theorem foldl_apply_eq_weave (splices : List (Splice α))
    (hrange : ∀ a ∈ splices, a.Within l.length)
    (horder : splices.Pairwise fun a b => b.stop ≤ a.start) :
    splices.foldl apply l = weave l 0 splices.reverse := by
  have hfold := foldr_apply_eq (l := l) (n := 0) splices.reverse (Nat.zero_le _)
    (fun a ha => hrange a (List.mem_reverse.1 ha)) (fun a _ => Nat.zero_le _)
    (List.pairwise_reverse.2 horder)
  rw [List.foldr_reverse] at hfold
  exact hfold

/-- Cut between two ranges. -/
theorem weave_append {low high : List (Splice α)} {m : Nat} (hmn : m ≤ n)
    (hlow : ∀ a ∈ low, a.Within n) (hhigh : ∀ a ∈ high, n ≤ a.start) :
    weave l m (low ++ high) = weave (l.take n) m low ++ weave l n high := by
  induction low generalizing m with
  | cons a low ih =>
      obtain ⟨hle, hn⟩ := hlow a List.mem_cons_self
      rw [List.cons_append, weave, weave, ih hn fun b hb => hlow b (List.mem_cons_of_mem _ hb),
        List.take_take, Nat.min_eq_left (by omega), List.append_assoc _ (weave _ _ _)]
  | nil =>
      rw [List.nil_append]
      cases high with
      | nil =>
          rw [weave, weave, weave, List.drop_take]
          have hdrop := List.take_append_drop (n - m) (l.drop m)
          rw [List.drop_drop, Nat.add_sub_cancel' hmn] at hdrop
          exact hdrop.symm
      | cons b high =>
          have hb := hhigh b List.mem_cons_self
          rw [weave, weave, weave, ← List.append_assoc, ← List.append_assoc]
          have hdrop := List.take_append_drop (n - m) ((l.take b.start).drop m)
          rw [List.drop_drop, Nat.add_sub_cancel' hmn, List.take_drop, Nat.add_sub_cancel' hmn,
            List.take_take, Nat.min_eq_left hb] at hdrop
          rw [hdrop]

/-- The list begins where it is cut. -/
theorem head?_weave {high : List (Splice α)} (hrange : ∀ a ∈ high, a.Within l.length)
    (hhigh : ∀ a ∈ high, n < a.start) : (weave l n high).head? = l[n]? := by
  cases high with
  | nil => rw [weave, List.head?_drop]
  | cons b high =>
      obtain ⟨hle, hlen⟩ := hrange b List.mem_cons_self
      have hb := hhigh b List.mem_cons_self
      have hget : ((l.take b.start).drop n).head? = some l[n] := by
        rw [List.head?_drop, List.getElem?_take_of_lt hb, List.getElem?_eq_getElem]
      rw [weave, List.append_assoc, List.head?_append, hget, List.getElem?_eq_getElem]
      rfl

/-- A place that no range touches cuts the ranges in two. -/
theorem filter_append_filter (hle : ∀ a ∈ splices, a.start ≤ a.stop)
    (horder : splices.Pairwise fun a b => a.stop ≤ b.start)
    (hkept : ∀ a ∈ splices, n < a.start ∨ a.stop < n) :
    splices.filter (fun a => a.stop < n) ++ splices.filter (fun a => n < a.start) = splices := by
  induction splices with
  | nil => rfl
  | cons a splices ih =>
      rw [List.pairwise_cons] at horder
      have ha := hle a List.mem_cons_self
      rcases hkept a List.mem_cons_self with hbefore | hafter
      · have hrest : ∀ b ∈ a :: splices, n < b.start := by
          intro b hb
          rcases List.mem_cons.1 hb with rfl | hb
          · exact hbefore
          · have hab := horder.1 b hb
            omega
        have hnone : (a :: splices).filter (fun a => a.stop < n) = [] := by
          refine List.filter_eq_nil_iff.2 fun b hb => ?_
          have hstart := hrest b hb
          have hrange := hle b hb
          rw [decide_eq_true_eq]
          omega
        rw [hnone, List.nil_append]
        exact List.filter_eq_self.2 fun b hb => decide_eq_true (hrest b hb)
      · have hnot : ¬ n < a.start := by omega
        simp only [List.filter_cons, hafter, hnot, decide_true, decide_false, if_true,
          Bool.false_eq_true, if_false, List.cons_append]
        rw [ih (fun b hb => hle b (List.mem_cons_of_mem _ hb)) horder.2 fun b hb =>
          hkept b (List.mem_cons_of_mem _ hb)]

/-- How many places the ranges take away. -/
def taken (splices : List (Splice α)) : Nat := (splices.map fun a => a.stop - a.start).sum

/-- How many places come in their stead. -/
def given (splices : List (Splice α)) : Nat := (splices.map fun a => a.new.length).sum

theorem length_weave (splices : List (Splice α)) (hn : n ≤ l.length)
    (hrange : ∀ a ∈ splices, a.Within l.length) (hfrom : ∀ a ∈ splices, n ≤ a.start)
    (horder : splices.Pairwise fun a b => a.stop ≤ b.start) :
    (weave l n splices).length + taken splices + n = l.length + given splices := by
  induction splices generalizing n with
  | nil =>
      rw [weave, List.length_drop]
      exact Nat.sub_add_cancel hn
  | cons a splices ih =>
      rw [List.pairwise_cons] at horder
      obtain ⟨hle, hlen⟩ := hrange a List.mem_cons_self
      have hstart := hfrom a List.mem_cons_self
      have hrest := ih hlen (fun b hb => hrange b (List.mem_cons_of_mem _ hb)) horder.1 horder.2
      rw [weave, List.length_append, List.length_append, List.length_drop,
        List.length_take_of_le (Nat.le_trans hle hlen)]
      simp only [taken, given, List.map_cons, List.sum_cons] at hrest ⊢
      omega

end Splice
