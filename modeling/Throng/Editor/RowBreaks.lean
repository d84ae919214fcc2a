import Throng.Editor.Rows

/-!
# Where rows break

A row is the text from one start to the next, and its tabs are measured from its own start.
The loop of `row_starts` reads a row's characters until one of them no longer fits, and
may then go back to the last space or tab of the row, so that it reads what follows
that once more. What it holds on to is that the rows it has closed are sound and that the
part read of the open row fits, or is one character.
-/

namespace Throng.Editor

/-- The rows of a line that start at `starts`. -/
def rowsAt (chars : List Char) : List Nat → List (List Char)
  | [] => []
  | [start] => [chars.drop start]
  | start :: next :: starts => (chars.take next).drop start :: rowsAt chars (next :: starts)

/-- A character after which a row may break. -/
def BreaksAfter (c : Char) : Prop := c = ' ' ∨ c = '\t'

/-- A row ends after a space or a tab, or holds none. -/
def Whole (row : List Char) : Prop :=
  (∃ c, row.getLast? = some c ∧ BreaksAfter c) ∨ ∀ c ∈ row, ¬BreaksAfter c

section

variable (unicodeWidth : Char → Option Nat)

/-- Columns of a row, from its own start. -/
def rowWidth (row : List Char) (tab : Nat) : Nat :=
  Lines.displayCol unicodeWidth row row.length tab

/-- A row is no wider than the view, or a character and others of no width behind it. -/
def Fits (width tab : Nat) (row : List Char) : Prop :=
  rowWidth unicodeWidth row tab ≤ width ∨
    ∃ c rest, row = c :: rest ∧ ∀ d ∈ rest, ∀ col, Lines.charWidth unicodeWidth d col tab = 0

/-- The starts break a line into rows as they should. -/
structure RowsBroken (chars : List Char) (width tab : Nat) (starts : List Nat) : Prop where
  rowsOf : RowsOf chars starts
  flatten : (rowsAt chars starts).flatten = chars
  fits : ∀ row ∈ rowsAt chars starts, Fits unicodeWidth width tab row
  whole : ∀ row ∈ (rowsAt chars starts).dropLast, Whole row

/-- The loop of `row_starts` before character `i`: the rows before the open one are closed, and
the open one is read from `rowStart` up to `i`. -/
structure Filling (chars : List Char) (width tab : Nat) (starts : List Nat) (rowStart col : Nat)
    (softBreak : Option Nat) (i : Nat) : Prop where
  last : starts.getLast? = some rowStart
  order : rowStart ≤ i
  column : rowWidth unicodeWidth ((chars.take i).drop rowStart) tab = col
  room : col ≤ width ∨ i ≤ rowStart + 1
  soft : ∀ b, softBreak = some b →
    rowStart < b ∧ b ≤ i ∧ ∃ c, chars[b - 1]? = some c ∧ BreaksAfter c
  noSoft : softBreak = none → ∀ c ∈ (chars.take i).drop rowStart, ¬BreaksAfter c
  fits : ∀ row ∈ (rowsAt chars starts).dropLast, Fits unicodeWidth width tab row
  whole : ∀ row ∈ (rowsAt chars starts).dropLast, Whole row

end

/-! ## Rows -/

/-- A start behind the others closes the last row there. -/
theorem rowsAt_concat {chars : List Char} {starts : List Nat} {start : Nat}
    (h : starts.getLast? = some start) (next : Nat) :
    rowsAt chars (starts ++ [next]) =
      (rowsAt chars starts).dropLast ++ [(chars.take next).drop start, chars.drop next] := by
  induction starts with
  | nil => cases h
  | cons first starts ih =>
      cases starts with
      | nil =>
          obtain rfl : first = start := Option.some.inj h
          rfl
      | cons second starts =>
          have hrest := ih (by rwa [List.getLast?_cons_cons] at h)
          have hne : rowsAt chars (second :: starts) ≠ [] := by
            cases starts <;> exact List.cons_ne_nil _ _
          change (chars.take second).drop first :: rowsAt chars (second :: starts ++ [next]) = _
          rw [hrest, rowsAt, List.dropLast_cons_of_ne_nil hne, List.cons_append]

/-- The last row is what follows the last start. -/
theorem rowsAt_eq_dropLast {chars : List Char} {starts : List Nat} {start : Nat}
    (h : starts.getLast? = some start) :
    rowsAt chars starts = (rowsAt chars starts).dropLast ++ [chars.drop start] := by
  induction starts with
  | nil => cases h
  | cons first starts ih =>
      cases starts with
      | nil =>
          obtain rfl : first = start := Option.some.inj h
          rfl
      | cons second starts =>
          have hrest := ih (by rwa [List.getLast?_cons_cons] at h)
          have hne : rowsAt chars (second :: starts) ≠ [] := by
            cases starts <;> exact List.cons_ne_nil _ _
          rw [rowsAt, List.dropLast_cons_of_ne_nil hne, List.cons_append, ← hrest]

/-- The rows make up the line from the first start on. -/
theorem flatten_rowsAt (chars : List Char) {start : Nat} {starts : List Nat}
    (h : (start :: starts).Pairwise (· < ·)) :
    (rowsAt chars (start :: starts)).flatten = chars.drop start := by
  induction starts generalizing start with
  | nil => exact List.append_nil _
  | cons next starts ih =>
      obtain ⟨hlt, hrest⟩ := List.pairwise_cons.1 h
      have hle : start ≤ next := Nat.le_of_lt (hlt next List.mem_cons_self)
      rw [rowsAt, List.flatten_cons, ih hrest]
      calc (chars.take next).drop start ++ chars.drop next
          = (chars.take next).drop start ++ (chars.drop start).drop (next - start) := by
            rw [List.drop_drop, Nat.add_sub_cancel' hle]
        _ = (chars.drop start).take (next - start) ++ (chars.drop start).drop (next - start) := by
            rw [List.drop_take]
        _ = chars.drop start := List.take_append_drop _ _

/-! ## Widths -/

section

variable {unicodeWidth : Char → Option Nat}

theorem rowWidth_nil (tab : Nat) : rowWidth unicodeWidth [] tab = 0 := rfl

theorem rowWidth_concat (row : List Char) (c : Char) (tab : Nat) :
    rowWidth unicodeWidth (row ++ [c]) tab =
      rowWidth unicodeWidth row tab +
        Lines.charWidth unicodeWidth c (rowWidth unicodeWidth row tab) tab := by
  rw [rowWidth, rowWidth, Lines.displayCol, Lines.displayCol, List.take_length, List.take_length,
    List.foldl_append]
  rfl

theorem le_foldl_width (row : List Char) (tab col : Nat) :
    col ≤ row.foldl (fun col c => col + Lines.charWidth unicodeWidth c col tab) col := by
  induction row generalizing col with
  | nil => exact Nat.le_refl col
  | cons c row ih => exact Nat.le_trans (Nat.le_add_right _ _) (ih _)

/-- A longer row is no narrower. -/
theorem rowWidth_le_append (unicodeWidth : Char → Option Nat) (row more : List Char) (tab : Nat) :
    rowWidth unicodeWidth row tab ≤ rowWidth unicodeWidth (row ++ more) tab := by
  rw [rowWidth, rowWidth, Lines.displayCol, Lines.displayCol, List.take_length, List.take_length,
    List.foldl_append]
  exact le_foldl_width more tab _

/-- The row up to `stop` is no wider than the one up to `i`. -/
theorem rowWidth_take_le (chars : List Char) (rowStart tab : Nat) {stop i : Nat} (h : stop ≤ i) :
    rowWidth unicodeWidth ((chars.take stop).drop rowStart) tab ≤
      rowWidth unicodeWidth ((chars.take i).drop rowStart) tab := by
  have hfront : (chars.take stop).drop rowStart =
      ((chars.take i).drop rowStart).take (stop - rowStart) := by
    rw [List.drop_take, List.drop_take, List.take_take,
      Nat.min_eq_left (Nat.sub_le_sub_right h rowStart)]
  have hrow := List.take_append_drop (stop - rowStart) ((chars.take i).drop rowStart)
  rw [hfront]
  calc rowWidth unicodeWidth (((chars.take i).drop rowStart).take (stop - rowStart)) tab
      ≤ rowWidth unicodeWidth (((chars.take i).drop rowStart).take (stop - rowStart) ++
          ((chars.take i).drop rowStart).drop (stop - rowStart)) tab :=
        rowWidth_le_append unicodeWidth _ _ tab
    _ = rowWidth unicodeWidth ((chars.take i).drop rowStart) tab := by rw [hrow]

/-- A row of one character fits in any view. -/
theorem fits_singleton (width tab : Nat) (c : Char) : Fits unicodeWidth width tab [c] :=
  .inr ⟨c, [], rfl, nofun⟩

theorem fits_of_length_le {width tab : Nat} {row : List Char} (h : row.length ≤ 1) :
    Fits unicodeWidth width tab row := by
  rcases row with _ | ⟨c, _ | ⟨d, row⟩⟩
  · exact .inl (Nat.zero_le width)
  · exact fits_singleton width tab c
  · simp at h

/-! ## The loop -/

variable {chars : List Char} {width tab : Nat} {starts : List Nat} {rowStart col : Nat}
  {softBreak : Option Nat} {i : Nat}

/-- Reading starts with an empty row. -/
theorem Filling.start : Filling unicodeWidth chars width tab [0] 0 0 none 0 where
  last := rfl
  order := Nat.le_refl 0
  column := rfl
  room := .inl (Nat.zero_le width)
  soft := nofun
  noSoft _ := nofun
  fits := nofun
  whole := nofun

/-- Up to the character before which it breaks, the open row fits. -/
theorem Filling.fits_open (h : Filling unicodeWidth chars width tab starts rowStart col softBreak i)
    {stop : Nat} (hstop : stop ≤ i) :
    Fits unicodeWidth width tab ((chars.take stop).drop rowStart) := by
  rcases h.room with hroom | hone
  · refine .inl (Nat.le_trans (rowWidth_take_le chars rowStart tab hstop) ?_)
    rwa [h.column]
  · refine fits_of_length_le ?_
    rw [List.length_drop, List.length_take]
    omega

/-- Where a full row breaks, it is a whole one. -/
theorem Filling.whole_open
    (h : Filling unicodeWidth chars width tab starts rowStart col softBreak i)
    (hi : i < chars.length) :
    Whole ((chars.take (breakAt softBreak rowStart i)).drop rowStart) := by
  cases softBreak with
  | none => exact .inr (h.noSoft rfl)
  | some b =>
      obtain ⟨hlt, hle, c, hc, hbreaks⟩ := h.soft b rfl
      refine .inl ⟨c, ?_, hbreaks⟩
      have hlen : ((chars.take b).drop rowStart).length = b - rowStart := by
        rw [List.length_drop, List.length_take, Nat.min_eq_left (by omega)]
      rw [breakAt, if_pos ⟨hlt, hle⟩, List.getLast?_eq_getElem?, hlen, List.getElem?_drop,
        List.getElem?_take_of_lt (by omega), ← hc]
      congr 1
      omega

/-- A row that is full is closed, and an empty one opened behind it. -/
theorem Filling.close (h : Filling unicodeWidth chars width tab starts rowStart col softBreak i)
    (hi : i < chars.length) :
    Filling unicodeWidth chars width tab (starts ++ [breakAt softBreak rowStart i])
      (breakAt softBreak rowStart i) 0 none (breakAt softBreak rowStart i) := by
  have hrows := @rowsAt_concat chars _ _ h.last (breakAt softBreak rowStart i)
  have hclosed : (rowsAt chars (starts ++ [breakAt softBreak rowStart i])).dropLast =
      (rowsAt chars starts).dropLast ++
        [(chars.take (breakAt softBreak rowStart i)).drop rowStart] := by
    rw [hrows, List.dropLast_append_cons, List.dropLast_cons_of_ne_nil (List.cons_ne_nil _ _)]
    rfl
  have hempty :
      (chars.take (breakAt softBreak rowStart i)).drop (breakAt softBreak rowStart i) = [] :=
    List.drop_eq_nil_of_le (List.length_take_le _ _)
  refine ⟨List.getLast?_concat, Nat.le_refl _, ?_, .inl (Nat.zero_le width), nofun, ?_, ?_, ?_⟩
  · rw [hempty, rowWidth_nil]
  · rw [hempty]
    exact fun _ => nofun
  · intro row hrow
    rw [hclosed] at hrow
    rcases List.mem_append.1 hrow with hrow | hrow
    · exact h.fits row hrow
    · rw [List.mem_singleton.1 hrow]
      exact h.fits_open (breakAt_le softBreak rowStart i)
  · intro row hrow
    rw [hclosed] at hrow
    rcases List.mem_append.1 hrow with hrow | hrow
    · exact h.whole row hrow
    · rw [List.mem_singleton.1 hrow]
      exact h.whole_open hi

/-- A character that fits goes into the open row, and so does the first of a row in any case. -/
theorem Filling.read (h : Filling unicodeWidth chars width tab starts rowStart col softBreak i)
    (hi : i < chars.length)
    (hfull : ¬(col + Lines.charWidth unicodeWidth chars[i] col tab > width ∧ i > rowStart)) :
    Filling unicodeWidth chars width tab starts rowStart
      (col + Lines.charWidth unicodeWidth chars[i] col tab)
      (if chars[i] = ' ' ∨ chars[i] = '\t' then some (i + 1) else softBreak) (i + 1) := by
  have horder := h.order
  have hrow : (chars.take (i + 1)).drop rowStart = (chars.take i).drop rowStart ++ [chars[i]] := by
    rw [List.take_succ_eq_append_getElem hi, List.drop_append_of_le_length]
    rw [List.length_take]
    omega
  refine ⟨h.last, Nat.le_succ_of_le horder, ?_, ?_, ?_, ?_, h.fits, h.whole⟩
  · rw [hrow, rowWidth_concat, h.column]
  · by_cases hwide : col + Lines.charWidth unicodeWidth chars[i] col tab > width
    · exact .inr (Nat.succ_le_succ (Nat.le_of_not_lt fun hlt => hfull ⟨hwide, hlt⟩))
    · exact .inl (Nat.le_of_not_lt hwide)
  · intro b hb
    split at hb
    · next hbreaks =>
        obtain rfl := Option.some.inj hb
        exact ⟨Nat.lt_succ_of_le horder, Nat.le_refl _, chars[i],
          List.getElem?_eq_getElem hi, hbreaks⟩
    · obtain ⟨hlt, hle, hc⟩ := h.soft b hb
      exact ⟨hlt, Nat.le_succ_of_le hle, hc⟩
  · intro hnone c hc
    split at hnone
    · cases hnone
    · next hbreaks =>
        rw [hrow] at hc
        rcases List.mem_append.1 hc with hc | hc
        · exact h.noSoft hnone c hc
        · rw [List.mem_singleton.1 hc]
          exact hbreaks

/-- What the loop answers once all is read: every row fits, and all but the last are whole. -/
theorem Filling.broken
    (h : Filling unicodeWidth chars width tab starts rowStart col softBreak i) :
    let starts := rowStartsFrom unicodeWidth chars width tab starts rowStart col softBreak i
    (∀ row ∈ rowsAt chars starts, Fits unicodeWidth width tab row) ∧
      ∀ row ∈ (rowsAt chars starts).dropLast, Whole row := by
  fun_induction rowStartsFrom unicodeWidth chars width tab starts rowStart col softBreak i with
  | case1 starts rowStart col softBreak i hi c w hfull start ih => exact ih (h.close hi)
  | case2 starts rowStart col softBreak i hi c w hfull ih => exact ih (h.read hi hfull)
  | case3 starts rowStart col softBreak i hi =>
      refine ⟨fun row hrow => ?_, h.whole⟩
      rw [rowsAt_eq_dropLast h.last] at hrow
      rcases List.mem_append.1 hrow with hrow | hrow
      · exact h.fits row hrow
      · have hlast := h.fits_open (Nat.le_refl i)
        rw [List.take_of_length_le (Nat.le_of_not_lt hi)] at hlast
        rwa [List.mem_singleton.1 hrow]

/-- Rows are broken as they should be: they start at the beginning and further and further
inside the line, each fits in the view unless one character of it alone does not, and a
word is broken only in a row with no space or tab to break after. -/
theorem rowStarts_broken (chars : List Char) {width : Nat} (hpos : 0 < width) (tab : Nat) :
    RowsBroken unicodeWidth chars width tab (rowStarts unicodeWidth chars (some width) tab) := by
  have hrows := @rowsOf_rowStarts unicodeWidth chars (some width) tab
  have hstarts : rowStarts unicodeWidth chars (some width) tab =
      rowStartsFrom unicodeWidth chars width tab [0] 0 0 none 0 := by
    rw [rowStarts, Option.filter_some, if_pos (decide_eq_true hpos)]
  obtain ⟨hfits, hwhole⟩ := (@Filling.start unicodeWidth chars width tab).broken
  rw [← hstarts] at hfits hwhole
  refine ⟨hrows, ?_, hfits, hwhole⟩
  cases hlist : rowStarts unicodeWidth chars (some width) tab with
  | nil =>
      rw [hlist] at hrows
      cases hrows.head
  | cons first starts =>
      rw [hlist] at hrows
      obtain rfl : first = 0 := Option.some.inj hrows.head
      exact flatten_rowsAt chars hrows.increasing

end

/-- Words of one column a letter in a view of twelve columns. -/
theorem rowStarts_broken_words :
    RowsBroken (fun _ => some 1) "hello world again".toList 12 4
      (rowStarts (fun _ => some 1) "hello world again".toList (some 12) 4) :=
  rowStarts_broken "hello world again".toList (by decide) 4

end Throng.Editor
