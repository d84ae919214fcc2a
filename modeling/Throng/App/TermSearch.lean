import Mathlib.Data.List.DropRight
import Mathlib.Data.Prod.Lex
import Throng.Editor.FindExact

/-!
# Finding in a terminal

The scrollback and the screen are read out row by row, rows that the terminal wrapped as one line,
and the text is searched as an editor's is. A match is given by its first and its last cell.
-/

namespace Throng

open Editor

/-- A cell of the terminal. -/
structure Cell where
  c : Char
  /-- The second half of a wide character, or the blank in front of one that did not fit. -/
  spacer : Bool
deriving DecidableEq, Repr

/-- A row of the grid: as many cells as the grid has columns. -/
structure GridRow (cols : Nat) where
  cells : List Cell
  length_eq : cells.length = cols
  /-- The terminal wrapped the line here. -/
  wrapped : Bool

structure Grid where
  cols : Nat
  /-- How many of the rows are in the scrollback. -/
  history : Nat
  rows : List (GridRow cols)

/-- A cell's place, as (grid line, column). Lines are negative in the scrollback. -/
abbrev CellPos := Int ×ₗ Nat

/-- A match: first and last cell. -/
abbrev CellSpan := CellPos × CellPos

namespace TermSearch

/-- The text so far and the cell each character came from, the newest first. -/
structure Collected where
  text : List Char
  cells : List CellPos

def Collected.push (got : Collected) (c : Char) (pos : CellPos) : Collected :=
  ⟨c :: got.text, pos :: got.cells⟩

/-- The cells of a row from a column on. -/
def addCells (line : Int) : Nat → List Cell → Collected → Collected
  | _, [], got => got
  | col, cell :: cells, got =>
      addCells line (col + 1) cells
        (if cell.spacer then got else got.push cell.c (toLex (line, col)))

/-- Trailing blanks are not text. -/
def trimEnd (line : Int) : List Char → List CellPos → Collected
  | c :: text, pos :: cells =>
      if c = ' ' ∧ (ofLex pos).1 = line then trimEnd line text cells else ⟨c :: text, pos :: cells⟩
  | text, cells => ⟨text, cells⟩

def addRow {cols : Nat} (line : Int) (row : GridRow cols) (got : Collected) : Collected :=
  let got := addCells line 0 row.cells got
  if row.wrapped then got
  else (trimEnd line got.text got.cells).push '\n' (toLex (line, cols - 1))

def addRows {cols : Nat} : Int → List (GridRow cols) → Collected → Collected
  | _, [], got => got
  | line, row :: rows, got => addRows (line + 1) rows (addRow line row got)

def collect (grid : Grid) : Collected := addRows (-grid.history) grid.rows ⟨[], []⟩

variable (letters : Letters)

/-- The most matches that are found. -/
def searchLimit : Nat := 100000

/-- Every match of `query` in the scrollback and screen, in order. -/
def search (grid : Grid) (query : Query) : List CellSpan :=
  if query.term = [] then []
  else
    let got := collect grid
    let cells := got.cells.reverse
    (Find.findAll letters got.text.reverse query searchLimit).filterMap fun range =>
      match cells[range.1]?, cells[range.2 - 1]? with
      | some first, some last => some (first, last)
      | _, _ => none

/-! ## What is read out -/

/-- The characters of a row from a column on, each with its cell. -/
def rowFrom (line : Int) : Nat → List Cell → List (CellPos × Char)
  | _, [] => []
  | col, cell :: cells =>
      if cell.spacer then rowFrom line (col + 1) cells
      else (toLex (line, col), cell.c) :: rowFrom line (col + 1) cells

def isBlank (entry : CellPos × Char) : Bool := entry.2 = ' '

/-- What is read of a row: one that the terminal did not wrap has no blanks at its end, and ends the
line. -/
def readRow {cols : Nat} (line : Int) (row : GridRow cols) : List (CellPos × Char) :=
  if row.wrapped then rowFrom line 0 row.cells
  else (rowFrom line 0 row.cells).rdropWhile isBlank ++ [(toLex (line, cols - 1), '\n')]

def readRows {cols : Nat} : Int → List (GridRow cols) → List (CellPos × Char)
  | _, [] => []
  | line, row :: rows => readRow line row ++ readRows (line + 1) rows

def readOut (grid : Grid) : List (CellPos × Char) := readRows (-grid.history) grid.rows

/-- The text and the cells of what was read. -/
def collected (entries : List (CellPos × Char)) : Collected :=
  ⟨(entries.map Prod.snd).reverse, (entries.map Prod.fst).reverse⟩

variable {cols : Nat} {line : Int} {entries : List (CellPos × Char)}

theorem collected_concat (entries : List (CellPos × Char)) (entry : CellPos × Char) :
    collected (entries ++ [entry]) =
      ⟨entry.2 :: (collected entries).text, entry.1 :: (collected entries).cells⟩ := by
  simp [collected]

theorem push_collected (c : Char) (pos : CellPos) :
    (collected entries).push c pos = collected (entries ++ [(pos, c)]) :=
  (collected_concat entries (pos, c)).symm

theorem addCells_collected (line : Int) (col : Nat) (cells : List Cell)
    (entries : List (CellPos × Char)) :
    addCells line col cells (collected entries) =
      collected (entries ++ rowFrom line col cells) := by
  induction cells generalizing col entries with
  | nil => rw [addCells, rowFrom, List.append_nil]
  | cons cell cells ih =>
      rw [addCells, rowFrom]
      split
      · exact ih (col + 1) entries
      · rw [push_collected, ih, List.append_assoc]
        rfl

/-- Blanks are dropped in the row only. -/
theorem trimEnd_collected {row : List (CellPos × Char)}
    (hbefore : ∀ entry ∈ entries, (ofLex entry.1).1 < line)
    (hrow : ∀ entry ∈ row, (ofLex entry.1).1 = line) :
    trimEnd line (collected (entries ++ row)).text (collected (entries ++ row)).cells =
      collected (entries ++ row.rdropWhile isBlank) := by
  induction row using List.reverseRecOn with
  | nil =>
      rw [List.rdropWhile_nil, List.append_nil]
      cases entries using List.reverseRecOn with
      | nil => rfl
      | append_singleton front entry =>
          have hline := hbefore entry (List.mem_append_right _ List.mem_cons_self)
          rw [collected_concat, trimEnd, if_neg fun h => absurd h.2 (Int.ne_of_lt hline)]
  | append_singleton row entry ih =>
      have hline := hrow entry (List.mem_append_right _ List.mem_cons_self)
      have hrest := ih fun other hother => hrow other (List.mem_append_left _ hother)
      rw [← List.append_assoc, collected_concat, trimEnd]
      by_cases hblank : entry.2 = ' '
      · rw [List.rdropWhile_concat_pos isBlank row entry (decide_eq_true hblank), ← hrest,
          if_pos ⟨hblank, hline⟩]
      · rw [List.rdropWhile_concat_neg isBlank row entry fun h => hblank (of_decide_eq_true h),
          if_neg fun h => hblank h.1, ← List.append_assoc, collected_concat]

theorem mem_rowFrom {col : Nat} {cells : List Cell} {entry : CellPos × Char}
    (h : entry ∈ rowFrom line col cells) :
    (ofLex entry.1).1 = line ∧ col ≤ (ofLex entry.1).2 ∧
      (ofLex entry.1).2 < col + cells.length := by
  induction cells generalizing col with
  | nil => cases h
  | cons cell cells ih =>
      have hlater (hmem : entry ∈ rowFrom line (col + 1) cells) :
          (ofLex entry.1).1 = line ∧ col ≤ (ofLex entry.1).2 ∧
            (ofLex entry.1).2 < col + (cell :: cells).length := by
        obtain ⟨hline, hlow, hhigh⟩ := ih hmem
        rw [List.length_cons]
        exact ⟨hline, by omega, by omega⟩
      rw [rowFrom] at h
      split at h
      · exact hlater h
      · rcases List.mem_cons.mp h with rfl | h
        · exact ⟨rfl, Nat.le_refl _, by rw [List.length_cons]; dsimp only [ofLex_toLex]; omega⟩
        · exact hlater h

theorem mem_readRow {row : GridRow cols} {entry : CellPos × Char}
    (h : entry ∈ readRow line row) : (ofLex entry.1).1 = line := by
  rw [readRow] at h
  split at h
  · exact (mem_rowFrom h).1
  · rcases List.mem_append.mp h with h | h
    · have hkept := List.rdropWhile_prefix isBlank (rowFrom line 0 row.cells)
      exact (mem_rowFrom (hkept.subset h)).1
    · rw [List.mem_singleton.mp h]
      rfl

theorem mem_readRows {rows : List (GridRow cols)} {entry : CellPos × Char}
    (h : entry ∈ readRows line rows) : line ≤ (ofLex entry.1).1 := by
  induction rows generalizing line with
  | nil => cases h
  | cons row rows ih =>
      rcases List.mem_append.mp h with h | h
      · exact (mem_readRow h).ge
      · have hle := ih h
        omega

theorem mem_readRows_lt {rows : List (GridRow cols)} {entry : CellPos × Char}
    (h : entry ∈ readRows line rows) : (ofLex entry.1).1 < line + rows.length := by
  induction rows generalizing line with
  | nil => cases h
  | cons row rows ih =>
      rw [List.length_cons]
      rcases List.mem_append.mp h with h | h
      · have heq := mem_readRow h
        omega
      · have hlt := ih h
        omega

theorem addRow_collected {row : GridRow cols}
    (hbefore : ∀ entry ∈ entries, (ofLex entry.1).1 < line) :
    addRow line row (collected entries) = collected (entries ++ readRow line row) := by
  rw [addRow, readRow, addCells_collected]
  split
  · rfl
  · rw [trimEnd_collected hbefore fun entry hentry => (mem_rowFrom hentry).1, push_collected,
      List.append_assoc]

theorem addRows_collected {rows : List (GridRow cols)}
    (hbefore : ∀ entry ∈ entries, (ofLex entry.1).1 < line) :
    addRows line rows (collected entries) = collected (entries ++ readRows line rows) := by
  induction rows generalizing line entries with
  | nil => rw [addRows, readRows, List.append_nil]
  | cons row rows ih =>
      rw [addRows, readRows, addRow_collected hbefore, ih, List.append_assoc]
      intro entry hentry
      rcases List.mem_append.mp hentry with hentry | hentry
      · have hlt := hbefore entry hentry
        omega
      · have heq := mem_readRow hentry
        omega

theorem collect_eq (grid : Grid) : collect grid = collected (readOut grid) := by
  have hnone : ∀ entry ∈ ([] : List (CellPos × Char)), (ofLex entry.1).1 < -(grid.history : Int) :=
    fun _ h => absurd h List.not_mem_nil
  exact addRows_collected hnone

/-! ## In order -/

/-- One character comes before another: its cell is before the other's, or a line ends there. -/
def Ahead (a b : CellPos × Char) : Prop := a.1 ≤ b.1 ∧ (b.2 = '\n' ∨ a.1 < b.1)

theorem ahead_of_lt {a b : CellPos × Char} (h : a.1 < b.1) : Ahead a b := ⟨h.le, .inr h⟩

theorem lt_of_line {a b : CellPos} (h : (ofLex a).1 < (ofLex b).1) : a < b :=
  Prod.Lex.lt_iff.mpr (.inl h)

theorem ordered_rowFrom (line : Int) (col : Nat) (cells : List Cell) :
    (rowFrom line col cells).Pairwise fun a b => a.1 < b.1 := by
  induction cells generalizing col with
  | nil => exact .nil
  | cons cell cells ih =>
      rw [rowFrom]
      split
      · exact ih (col + 1)
      · refine List.pairwise_cons.mpr ⟨fun entry hentry => ?_, ih (col + 1)⟩
        obtain ⟨hline, hlow, -⟩ := mem_rowFrom hentry
        exact Prod.Lex.lt_iff.mpr (.inr ⟨hline.symm, hlow⟩)

theorem ordered_readRow (line : Int) (row : GridRow cols) : (readRow line row).Pairwise Ahead := by
  have hrow := ordered_rowFrom line 0 row.cells
  have hkept := List.rdropWhile_prefix isBlank (rowFrom line 0 row.cells)
  rw [readRow]
  split
  · exact hrow.imp ahead_of_lt
  · refine List.pairwise_append.mpr
      ⟨(hrow.sublist hkept.sublist).imp ahead_of_lt,
        List.pairwise_singleton _ _, fun a ha b hb => ?_⟩
    obtain ⟨hline, -, hcol⟩ := mem_rowFrom (hkept.subset ha)
    rw [List.mem_singleton.mp hb]
    refine ⟨Prod.Lex.le_iff.mpr (.inr ⟨hline, ?_⟩), .inl rfl⟩
    rw [row.length_eq] at hcol
    dsimp only [ofLex_toLex]
    omega

theorem ordered_readRows (line : Int) (rows : List (GridRow cols)) :
    (readRows line rows).Pairwise Ahead := by
  induction rows generalizing line with
  | nil => exact .nil
  | cons row rows ih =>
      refine List.pairwise_append.mpr ⟨ordered_readRow line row, ih (line + 1), fun a ha b hb => ?_⟩
      refine ahead_of_lt (lt_of_line ?_)
      have heq := mem_readRow ha
      have hle := mem_readRows hb
      omega

/-! ## What is found -/

variable {letters} {query : Query} {a b : Nat}

/-- The cell that a character of what is read out came from. -/
def cellAt (entries : List (CellPos × Char)) (a : Nat) : CellPos :=
  (entries[a]?.map Prod.fst).getD (toLex (0, 0))

theorem getElem?_cellAt (h : a < entries.length) :
    ∃ entry, entries[a]? = some entry ∧ cellAt entries a = entry.1 := by
  refine ⟨entries[a], List.getElem?_eq_getElem h, ?_⟩
  rw [cellAt, List.getElem?_eq_getElem h]
  rfl

theorem ahead_of_index (h : entries.Pairwise Ahead) {entry other : CellPos × Char} (hlt : a < b)
    (ha : entries[a]? = some entry) (hb : entries[b]? = some other) : Ahead entry other := by
  obtain ⟨hla, rfl⟩ := List.getElem?_eq_some_iff.mp ha
  obtain ⟨hlb, rfl⟩ := List.getElem?_eq_some_iff.mp hb
  exact List.pairwise_iff_getElem.mp h a b hla hlb hlt

/-- An occurrence is in the text, and begins with no line break. -/
theorem occurs_within {rope : Rope} (h : Find.Occurs letters rope query a) :
    0 < query.term.length ∧ a + query.term.length ≤ rope.length ∧
      ∃ c, rope[a]? = some c ∧ c ≠ '\n' := by
  obtain ⟨before, line, after, i, hlines, ha, hon, hsame⟩ := h
  have hpos : 0 < query.term.length := List.length_pos_iff.mpr hon.nonempty
  have hrope : before.flatten.length + (line.length + after.flatten.length) = rope.length := by
    rw [← Find.flatten_lines rope, hlines, List.flatten_append, List.flatten_cons,
      List.length_append, List.length_append]
  have hwithin := hon.within
  have hle : a + query.term.length ≤ rope.length := by omega
  refine ⟨hpos, hle, rope[a], List.getElem?_eq_getElem (by omega), fun hbreak => hon.short ?_⟩
  rw [hsame, ← hbreak]
  refine List.mem_iff_getElem?.mpr ⟨0, ?_⟩
  rw [List.getElem?_take, if_pos hpos, List.getElem?_drop, Nat.add_zero,
    List.getElem?_eq_getElem (by omega)]

theorem search_eq (letters : Letters) (grid : Grid) (query : Query) :
    search letters grid query =
      (Find.findAll letters ((readOut grid).map Prod.snd) query searchLimit).filterMap fun range =>
        match ((readOut grid).map Prod.fst)[range.1]?,
            ((readOut grid).map Prod.fst)[range.2 - 1]? with
        | some first, some last => some (first, last)
        | _, _ => none := by
  rw [search]
  split
  · next hnil => rw [Find.findAll, if_pos (.inl hnil), List.filterMap_nil]
  · rw [collect_eq]
    simp only [collected, List.reverse_reverse]

theorem filterMap_map_eq {α β γ : Type} {f : β → Option γ} {g : α → β} {h : α → γ} {l : List α}
    (hall : ∀ a ∈ l, f (g a) = some (h a)) : (l.map g).filterMap f = l.map h := by
  rw [List.filterMap_map, ← List.filterMap_eq_map]
  exact List.filterMap_congr hall

/-- What is found are the leftmost occurrences apart in what is read out, each from the cell of its
first character to that of its last; each match comes behind the one before. -/
structure Found (letters : Letters) (grid : Grid) (query : Query) (places : List Nat) : Prop where
  leftmost : Leftmost query.term.length
    (Find.Occurs letters ((readOut grid).map Prod.snd) query) places
  within : ∀ a ∈ places, a + query.term.length ≤ (readOut grid).length
  spans : search letters grid query = (places.take searchLimit).map fun a =>
    (cellAt (readOut grid) a, cellAt (readOut grid) (a + query.term.length - 1))
  apart : (search letters grid query).Pairwise fun m m' => m.2 < m'.1
  forward : ∀ m ∈ search letters grid query, m.1 ≤ m.2

theorem found_search (letters : Letters) (grid : Grid) (query : Query) (hterm : '\n' ∉ query.term) :
    ∃ places, Found letters grid query places := by
  obtain ⟨places, hplaces, hfound⟩ :=
    Find.findAll_leftmost letters ((readOut grid).map Prod.snd) hterm
  have hordered : (readOut grid).Pairwise Ahead := ordered_readRows _ _
  have hin : ∀ a ∈ places, 0 < query.term.length ∧ a + query.term.length ≤ (readOut grid).length ∧
      ∃ entry, (readOut grid)[a]? = some entry ∧ cellAt (readOut grid) a = entry.1 ∧
        entry.2 ≠ '\n' := by
    intro a ha
    obtain ⟨hpos, hle, c, hc, hbreak⟩ := occurs_within (hplaces.sound a ha)
    rw [List.length_map] at hle
    obtain ⟨entry, hentry, hcell⟩ := getElem?_cellAt (by omega : a < (readOut grid).length)
    rw [List.getElem?_map, hentry] at hc
    cases hc
    exact ⟨hpos, hle, entry, hentry, hcell, hbreak⟩
  have hlimit : max searchLimit 1 = searchLimit := Nat.max_eq_left (by decide)
  have hspans : search letters grid query = (places.take searchLimit).map fun a =>
      (cellAt (readOut grid) a, cellAt (readOut grid) (a + query.term.length - 1)) := by
    rw [search_eq, hfound, hlimit, ← List.map_take]
    refine filterMap_map_eq fun a ha => ?_
    obtain ⟨hpos, hle, entry, hentry, hcell, -⟩ := hin a (List.mem_of_mem_take ha)
    obtain ⟨last, hlast, hcell'⟩ :=
      getElem?_cellAt (by omega : a + query.term.length - 1 < (readOut grid).length)
    simp only [List.getElem?_map, hentry, hlast, hcell, hcell', Option.map_some]
  refine ⟨places, hplaces, fun a ha => (hin a ha).2.1, hspans, ?_, ?_⟩
  · rw [hspans, List.pairwise_map]
    refine (hplaces.apart.sublist (List.take_sublist _ _)).imp_of_mem fun {a b} ha hb hapart => ?_
    obtain ⟨hpos, hle, -⟩ := hin a (List.mem_of_mem_take ha)
    obtain ⟨-, -, first, hfirst, hcell, hbreak⟩ := hin b (List.mem_of_mem_take hb)
    obtain ⟨last, hlast, hcell'⟩ :=
      getElem?_cellAt (by omega : a + query.term.length - 1 < (readOut grid).length)
    dsimp only
    rw [hcell, hcell']
    exact (ahead_of_index hordered (by omega) hlast hfirst).2.resolve_left hbreak
  · rw [hspans]
    intro m hm
    obtain ⟨a, ha, rfl⟩ := List.mem_map.mp hm
    obtain ⟨hpos, hle, first, hfirst, hcell, -⟩ := hin a (List.mem_of_mem_take ha)
    obtain ⟨last, hlast, hcell'⟩ :=
      getElem?_cellAt (by omega : a + query.term.length - 1 < (readOut grid).length)
    dsimp only
    rcases Nat.eq_or_lt_of_le (by omega : a ≤ a + query.term.length - 1) with heq | hlt
    · rw [← heq]
    · rw [hcell, hcell']
      exact (ahead_of_index hordered hlt hfirst hlast).1

/-- A match starts in a row of the grid. -/
theorem Found.onGrid {grid : Grid} {places : List Nat} {m : CellSpan}
    (h : Found letters grid query places) (hm : m ∈ search letters grid query) :
    -grid.history ≤ (ofLex m.1).1 ∧ (ofLex m.1).1 < -grid.history + grid.rows.length := by
  have hpos : 0 < query.term.length := by
    refine List.length_pos_iff.mpr fun hnil => ?_
    rw [search, if_pos hnil] at hm
    cases hm
  rw [h.spans] at hm
  obtain ⟨a, ha, rfl⟩ := List.mem_map.mp hm
  have hwithin := h.within a (List.mem_of_mem_take ha)
  obtain ⟨entry, hentry, hcell⟩ := getElem?_cellAt (by omega : a < (readOut grid).length)
  have hmem := List.mem_of_getElem? hentry
  dsimp only
  rw [hcell]
  exact ⟨mem_readRows hmem, mem_readRows_lt hmem⟩

end TermSearch

end Throng
