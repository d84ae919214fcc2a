import Mathlib.Algebra.GroupWithZero.Nat
import Throng.Editor.Lines

/-!
# Rows and positions

The rows before each line are the running sums of the row counts. A row is looked up in
them, and a position among the starts of its line's rows; both searches find the last
entry that is not past what is looked for.
-/

namespace Throng.Editor

/-- The loop that sums the counts up, from `sum` rows. -/
def rowsFrom : Nat → List Nat → List Nat
  | sum, [] => [sum]
  | sum, count :: counts => sum :: rowsFrom (sum + count) counts

/-- `iter().rposition(p)`. -/
def rposition {α : Type*} (p : α → Bool) : List α → Option Nat
  | [] => none
  | x :: xs =>
      match rposition p xs with
      | some i => some (i + 1)
      | none => if p x then some 0 else none

/-- The last line whose first row is not after `row`: from an entry that the binary search
hits on through all that are equal, or before the place where it would insert. -/
def searchRow (firsts : List Nat) (row : Nat) : Nat :=
  match firsts.idxOf? row with
  | some l => l + ((firsts.drop (l + 1)).takeWhile (· = row)).length
  | none => firsts.countP (· < row) - 1

namespace Wrap

/-- `ensure_prefix`. -/
def ensured (wrap : Wrap) : Wrap :=
  if wrap.rowsBeforeValid then wrap
  else { wrap with rowsBefore := rowsFrom 0 wrap.counts, rowsBeforeValid := true }

/-- All visual rows in the document. -/
def totalRows (wrap : Wrap) : Nat := max (wrap.ensured.rowsBefore.getLast?.getD 1) 1

/-- The first visual row of `line`. -/
def firstRowOf (wrap : Wrap) (line : Nat) : Nat :=
  wrap.ensured.rowsBefore.getD (min line (wrap.counts.length - 1)) 0

/-- The line holding visual row `row`, and which of its rows it is. -/
def lineAtRow (wrap : Wrap) (row : Nat) : Nat × Nat :=
  let lines := wrap.counts.length
  if lines = 0 then (0, 0)
  else
    let line := min (searchRow (wrap.ensured.rowsBefore.take lines) row) (lines - 1)
    (line, row - wrap.ensured.rowsBefore.getD line 0)

variable (unicodeWidth : Char → Option Nat)

/-- Visual row and display column of a character position. -/
def locate (wrap : Wrap) (rope : Rope) (pos : Nat) : Nat × Nat :=
  let line := Lines.lineOf rope pos
  let text := Lines.lineText rope line
  let index := pos - Lines.lineStart rope line
  let starts := rowStarts unicodeWidth text wrap.width wrap.tab
  let sub := (rposition (· ≤ index) starts).getD 0
  let start := starts.getD sub 0
  (wrap.firstRowOf line + sub,
    Lines.displayCol unicodeWidth (text.drop start) (index - start) wrap.tab)

/-- The character position in visual row `row` nearest display column `col`. -/
def position (wrap : Wrap) (rope : Rope) (row col : Nat) : Nat :=
  let found := wrap.lineAtRow (min row (wrap.totalRows - 1))
  let text := Lines.lineText rope found.1
  let starts := rowStarts unicodeWidth text wrap.width wrap.tab
  let sub := min found.2 (starts.length - 1)
  let start := starts.getD sub 0
  let stop := starts[sub + 1]?.getD text.length
  let index := Lines.indexAtCol unicodeWidth ((text.drop start).take (stop - start)) col wrap.tab
  -- a wrapped row's last position belongs to the next row; stay on this one
  let index :=
    if sub + 1 < starts.length ∧ index ≥ stop - start ∧ stop > start then stop - start - 1
    else index
  Lines.lineStart rope found.1 + start + index

end Wrap

/-! ## The searches -/

theorem length_rowsFrom (sum : Nat) (counts : List Nat) :
    (rowsFrom sum counts).length = counts.length + 1 := by
  induction counts generalizing sum with
  | nil => rfl
  | cons count counts ih => rw [rowsFrom, List.length_cons, ih, List.length_cons]

theorem getElem?_rowsFrom (sum : Nat) {counts : List Nat} {i : Nat} (h : i ≤ counts.length) :
    (rowsFrom sum counts)[i]? = some (sum + (counts.take i).sum) := by
  induction counts generalizing sum i with
  | nil =>
      obtain rfl : i = 0 := Nat.le_zero.1 h
      rfl
  | cons count counts ih =>
      cases i with
      | zero => rfl
      | succ i =>
          rw [rowsFrom, List.getElem?_cons_succ, ih (sum + count) (Nat.le_of_succ_le_succ h),
            List.take_succ_cons, List.sum_cons, Nat.add_assoc]

theorem sum_take_mono (counts : List Nat) {i j : Nat} (h : i ≤ j) :
    (counts.take i).sum ≤ (counts.take j).sum := by
  obtain ⟨k, rfl⟩ := Nat.exists_eq_add_of_le h
  rw [List.take_add, List.sum_append]
  exact Nat.le_add_right _ _

theorem sum_take_succ {counts : List Nat} {i count : Nat} (h : counts[i]? = some count) :
    (counts.take (i + 1)).sum = (counts.take i).sum + count := by
  rw [List.take_add_one, h, Option.toList_some, List.sum_append, List.sum_singleton]

theorem rposition_eq_none {α : Type*} {p : α → Bool} {l : List α} (h : rposition p l = none) :
    ∀ x ∈ l, p x = false := by
  induction l with
  | nil => simp
  | cons x xs ih =>
      rw [rposition] at h
      cases hxs : rposition p xs with
      | some i => simp [hxs] at h
      | none =>
          simp only [hxs] at h
          intro y hy
          rcases List.mem_cons.1 hy with rfl | hy
          · cases hp : p y with
            | false => rfl
            | true => simp [hp] at h
          · exact ih hxs y hy

/-- The last entry with the property. -/
theorem rposition_eq_some {α : Type*} {p : α → Bool} {l : List α} {i : Nat}
    (h : rposition p l = some i) :
    (∃ x, l[i]? = some x ∧ p x = true) ∧ ∀ j x, i < j → l[j]? = some x → p x = false := by
  induction l generalizing i with
  | nil => cases h
  | cons y ys ih =>
      rw [rposition] at h
      cases hys : rposition p ys with
      | some k =>
          simp only [hys, Option.some.injEq] at h
          subst h
          obtain ⟨hfound, hlast⟩ := ih hys
          refine ⟨hfound, fun j x hj hx => ?_⟩
          cases j with
          | zero => omega
          | succ j => exact hlast j x (by omega) hx
      | none =>
          simp only [hys] at h
          cases hp : p y with
          | false => simp [hp] at h
          | true =>
              simp only [hp, if_true, Option.some.injEq] at h
              subst h
              refine ⟨⟨y, rfl, hp⟩, fun j x hj hx => ?_⟩
              cases j with
              | zero => omega
              | succ j => exact rposition_eq_none hys x (List.mem_of_getElem? hx)

/-- In an ascending list the entries below a bound come first. -/
theorem lt_countP_iff {l : List Nat} (h : l.Pairwise (· ≤ ·)) (bound : Nat) {i x : Nat}
    (hx : l[i]? = some x) : i < l.countP (· < bound) ↔ x < bound := by
  induction l generalizing i with
  | nil => cases hx
  | cons y ys ih =>
      rw [List.pairwise_cons] at h
      cases i with
      | zero =>
          obtain rfl : y = x := Option.some.inj hx
          by_cases hy : y < bound
          · rw [List.countP_cons, if_pos (decide_eq_true hy)]
            omega
          · have hnone : ys.countP (· < bound) = 0 := by
              refine List.countP_eq_zero.2 fun z hz => ?_
              have hle := h.1 z hz
              rw [decide_eq_true_eq]
              omega
            rw [List.countP_cons, if_neg (by rwa [decide_eq_true_eq]), hnone]
            omega
      | succ i =>
          rw [List.getElem?_cons_succ] at hx
          have hle := h.1 x (List.mem_of_getElem? hx)
          have hrest := ih h.2 hx
          by_cases hy : y < bound
          · rw [List.countP_cons, if_pos (decide_eq_true hy), ← hrest]
            omega
          · have hnone : ys.countP (· < bound) = 0 := by
              refine List.countP_eq_zero.2 fun z hz => ?_
              have hle := h.1 z hz
              rw [decide_eq_true_eq]
              omega
            rw [List.countP_cons, if_neg (by rwa [decide_eq_true_eq]), hnone]
            omega

/-- A run of entries stops where the property fails. -/
theorem takeWhile_stop {α : Type*} {p : α → Bool} {l : List α} {x : α}
    (h : l[(l.takeWhile p).length]? = some x) : p x = false := by
  induction l with
  | nil => cases h
  | cons y ys ih =>
      cases hp : p y with
      | true =>
          rw [List.takeWhile_cons_of_pos hp, List.length_cons, List.getElem?_cons_succ] at h
          exact ih h
      | false =>
          rw [List.takeWhile_cons_of_neg (by simp [hp])] at h
          obtain rfl : y = x := Option.some.inj h
          exact hp

theorem takeWhile_run {α : Type*} {p : α → Bool} {l : List α} {i : Nat}
    (h : i < (l.takeWhile p).length) : ∃ x, l[i]? = some x ∧ p x = true := by
  induction l generalizing i with
  | nil => cases h
  | cons y ys ih =>
      cases hp : p y with
      | false =>
          rw [List.takeWhile_cons_of_neg (by simp [hp])] at h
          cases h
      | true =>
          rw [List.takeWhile_cons_of_pos hp, List.length_cons] at h
          cases i with
          | zero => exact ⟨y, rfl, hp⟩
          | succ i => exact ih (Nat.lt_of_succ_lt_succ h)

/-- The row is in or after the line the search answers, and before the next. -/
theorem searchRow_spec {firsts : List Nat} {row : Nat} (h : firsts.Pairwise (· ≤ ·))
    (hzero : firsts.head? = some 0) :
    (∃ x, firsts[searchRow firsts row]? = some x ∧ x ≤ row) ∧
      ∀ x, firsts[searchRow firsts row + 1]? = some x → row < x := by
  rw [searchRow]
  cases hidx : firsts.idxOf? row with
  | none =>
      have hnot : row ∉ firsts := List.idxOf?_eq_none_iff.1 hidx
      have hpos : 0 < row := by
        rcases Nat.eq_zero_or_pos row with rfl | hpos
        · exact absurd (List.mem_of_mem_head? hzero) hnot
        · exact hpos
      have hfirst : firsts[0]? = some 0 := by rwa [← List.head?_eq_getElem?]
      have hcount := (lt_countP_iff h row hfirst).2 hpos
      have hle : firsts.countP (· < row) ≤ firsts.length := List.countP_le_length
      have hlast := List.getElem?_eq_getElem
        (show firsts.countP (· < row) - 1 < firsts.length by omega)
      dsimp only
      refine ⟨⟨_, hlast, Nat.le_of_lt ((lt_countP_iff h row hlast).1 (by omega))⟩, fun x hx => ?_⟩
      have hover : ¬ x < row := fun hlt => by
        have hbelow := (lt_countP_iff h row hx).2 hlt
        omega
      have hne : x ≠ row := fun heq => hnot (heq ▸ List.mem_of_getElem? hx)
      omega
  | some l =>
      obtain ⟨hlt, hrow, -⟩ := List.idxOf?_eq_some_iff.1 hidx
      have hget : firsts[l]? = some row := by rw [List.getElem?_eq_getElem hlt, hrow]
      dsimp only
      refine ⟨⟨row, ?_, Nat.le_refl _⟩, fun x hx => ?_⟩
      · rcases Nat.eq_zero_or_pos ((firsts.drop (l + 1)).takeWhile (· = row)).length with
          hnil | hpos
        · rw [hnil]
          exact hget
        · obtain ⟨y, hy, heq⟩ := takeWhile_run (Nat.sub_one_lt_of_lt hpos)
          rw [List.getElem?_drop, of_decide_eq_true heq] at hy
          rw [← hy]
          congr 1
          omega
      · rw [Nat.add_right_comm, ← List.getElem?_drop] at hx
        have hne := of_decide_eq_false (@takeWhile_stop _ (fun y => decide (y = row)) _ _ hx)
        have hle : row ≤ x := by
          rw [List.getElem?_drop] at hx
          obtain ⟨hlen, hval⟩ := List.getElem?_eq_some_iff.1 hx
          have hle := List.pairwise_iff_getElem.1 h _ _ hlt hlen (by omega)
          rwa [hrow, hval] at hle
        omega

/-! ## The starts of a line's rows -/

/-- The rows of a line start at its beginning and then further and further inside it. -/
structure RowsOf (line : List Char) (starts : List Nat) : Prop where
  head : starts.head? = some 0
  increasing : starts.Pairwise (· < ·)
  inside : ∀ start ∈ starts, start = 0 ∨ start < line.length

theorem breakAt_le (softBreak : Option Nat) (rowStart i : Nat) :
    breakAt softBreak rowStart i ≤ i := by
  cases softBreak with
  | none => exact Nat.le_refl i
  | some b =>
      rw [breakAt]
      split
      · next hb => exact hb.2
      · exact Nat.le_refl i

variable {unicodeWidth : Char → Option Nat}

/-- A row is added after those there are and inside the line. -/
theorem RowsOf.add {line : List Char} {starts : List Nat} {rowStart start : Nat}
    (h : RowsOf line starts) (hle : ∀ s ∈ starts, s ≤ rowStart) (hlt : rowStart < start)
    (hlen : start < line.length) : RowsOf line (starts ++ [start]) where
  head := by
    rw [List.head?_append, h.head]
    rfl
  increasing := List.pairwise_append.2 ⟨h.increasing, List.pairwise_singleton _ _,
    fun s hs t ht => by
      have hs := hle s hs
      rw [List.mem_singleton.1 ht]
      omega⟩
  inside := by
    intro s hs
    rcases List.mem_append.1 hs with hs | hs
    · exact h.inside s hs
    · exact .inr (List.mem_singleton.1 hs ▸ hlen)

theorem rowsOf_rowStartsFrom {line : List Char} {width tab : Nat} {starts : List Nat}
    {rowStart col : Nat} {softBreak : Option Nat} {i : Nat} (h : RowsOf line starts)
    (hle : ∀ s ∈ starts, s ≤ rowStart) :
    RowsOf line (rowStartsFrom unicodeWidth line width tab starts rowStart col softBreak i) := by
  fun_induction rowStartsFrom unicodeWidth line width tab starts rowStart col softBreak i with
  | case1 starts rowStart col softBreak i hi c w hfull start ih =>
      have hlt := lt_breakAt softBreak hfull.2
      have hstart := breakAt_le softBreak rowStart i
      refine ih (h.add hle hlt (Nat.lt_of_le_of_lt hstart hi)) fun s hs => ?_
      rcases List.mem_append.1 hs with hs | hs
      · exact Nat.le_of_lt (Nat.lt_of_le_of_lt (hle s hs) hlt)
      · exact Nat.le_of_eq (List.mem_singleton.1 hs)
  | case2 starts rowStart col softBreak i hi c w hfull ih => exact ih h hle
  | case3 starts rowStart col softBreak i hi => exact h

theorem rowsOf_rowStarts (line : List Char) (width : Option Nat) (tab : Nat) :
    RowsOf line (rowStarts unicodeWidth line width tab) := by
  have hzero : RowsOf line [0] := ⟨rfl, List.pairwise_singleton _ _, by simp⟩
  rw [rowStarts]
  split
  · exact rowsOf_rowStartsFrom hzero (by simp)
  · exact hzero

theorem RowsOf.length_pos {line : List Char} {starts : List Nat} (h : RowsOf line starts) :
    0 < starts.length := by
  cases starts with
  | nil => cases h.head
  | cons start starts => exact Nat.succ_pos _

/-- The row a position of the line is in. -/
theorem RowsOf.exists_row {line : List Char} {starts : List Nat} (h : RowsOf line starts)
    (index : Nat) : ∃ sub start, (rposition (· ≤ index) starts).getD 0 = sub ∧
      starts[sub]? = some start ∧ start ≤ index ∧
        ∀ next, starts[sub + 1]? = some next → index < next := by
  cases hfound : rposition (fun start => decide (start ≤ index)) starts with
  | none =>
      have hzero := rposition_eq_none hfound 0 (List.mem_of_mem_head? h.head)
      rw [decide_eq_false_iff_not] at hzero
      exact absurd (Nat.zero_le index) hzero
  | some sub =>
      obtain ⟨⟨start, hstart, hle⟩, hlast⟩ := rposition_eq_some hfound
      refine ⟨sub, start, rfl, hstart, of_decide_eq_true hle, fun next hnext => ?_⟩
      have hnot := of_decide_eq_false (hlast (sub + 1) next (Nat.lt_succ_self _) hnext)
      omega

/-- A position between the start of a row and that of the next is in the row. -/
theorem RowsOf.row_eq {line : List Char} {starts : List Nat} (h : RowsOf line starts)
    {index sub start : Nat} (hstart : starts[sub]? = some start) (hle : start ≤ index)
    (hnext : ∀ next, starts[sub + 1]? = some next → index < next) :
    (rposition (· ≤ index) starts).getD 0 = sub := by
  obtain ⟨sub', start', hfound, hstart', hle', hnext'⟩ := h.exists_row index
  rw [hfound]
  obtain ⟨hlen, hget⟩ := List.getElem?_eq_some_iff.1 hstart
  obtain ⟨hlen', hget'⟩ := List.getElem?_eq_some_iff.1 hstart'
  have hmono := List.pairwise_iff_getElem.1 h.increasing
  rcases Nat.lt_trichotomy sub' sub with hlt | heq | hgt
  · have hsucc := List.getElem?_eq_getElem (show sub' + 1 < starts.length by omega)
    have habove := hnext' _ hsucc
    rcases Nat.lt_or_eq_of_le (show sub' + 1 ≤ sub from hlt) with hless | rfl
    · have hstep := hmono (sub' + 1) sub (by omega) hlen hless
      omega
    · omega
  · exact heq
  · have hsucc := List.getElem?_eq_getElem (show sub + 1 < starts.length by omega)
    have habove := hnext _ hsucc
    rcases Nat.lt_or_eq_of_le (show sub + 1 ≤ sub' from hgt) with hless | rfl
    · have hstep := hmono (sub + 1) sub' (by omega) hlen' hless
      omega
    · omega

theorem indexFrom_bounds (target tab : Nat) (line : List Char) (index col : Nat) :
    index ≤ Lines.indexFrom unicodeWidth target tab line index col ∧
      Lines.indexFrom unicodeWidth target tab line index col ≤ index + line.length := by
  induction line generalizing index col with
  | nil => exact ⟨Nat.le_refl _, Nat.le_refl _⟩
  | cons c line ih =>
      rw [Lines.indexFrom, List.length_cons]
      have hrest := ih (index + 1) (col + Lines.charWidth unicodeWidth c col tab)
      split
      · split <;> omega
      · omega

theorem indexAtCol_le (line : List Char) (target tab : Nat) :
    Lines.indexAtCol unicodeWidth line target tab ≤ line.length := by
  have hbounds := (@indexFrom_bounds unicodeWidth target tab line 0 0).2
  rwa [Nat.zero_add] at hbounds

end Throng.Editor
