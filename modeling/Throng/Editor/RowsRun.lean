import Throng.Editor.Commands
import Throng.Editor.Rows
import Throng.Editor.WrapRun

/-!
# Positions and rows agree where lines end with LF

The text of a line is what stands before its LF. A line that the rope ends at another
character keeps that character in its text, so that the end of the text is the start of
the next line: End leaves the line, and a column past the text is a position of the next
row. The row counts are `u32`s, so that a line of more rows has fewer in the table than
it has.
-/

namespace Throng.Editor

variable {unicodeWidth : Char → Option Nat} {wrap : Wrap} {rope : Rope}

namespace Lines

theorem lineText_of_getElem? {line : Nat} {raw : List Char}
    (h : (Rope.lines rope)[line]? = some raw) : lineText rope line = trimmed raw := by
  have hlt : line < Rope.lenLines rope := (List.getElem?_eq_some_iff.1 h).1
  rw [lineText, Nat.min_eq_left (by omega), List.getD_eq_getElem?_getD, h]
  rfl

theorem length_trimmed (raw : List Char) :
    (trimmed raw).length + (if raw.getLast? = some '\n' then 1 else 0) = raw.length := by
  rw [trimmed]
  split
  · next hlast =>
      have hne : raw ≠ [] := by
        rintro rfl
        cases hlast
      have hpos := List.length_pos_iff.2 hne
      rw [List.length_dropLast]
      omega
  · exact Nat.add_zero _

/-- The end of a line is the end of its text. -/
theorem lineEnd_of_getElem? {line : Nat} {raw : List Char}
    (h : (Rope.lines rope)[line]? = some raw) :
    lineEnd rope line = Rope.lineToChar rope line + (trimmed raw).length := by
  have hlt : line < Rope.lenLines rope := (List.getElem?_eq_some_iff.1 h).1
  have hlen := length_trimmed raw
  rw [lineEnd, Nat.min_eq_left (by omega), List.getD_eq_getElem?_getD, h]
  simp only [Option.getD_some]
  omega

/-- Every line but the last ends with LF. -/
def EndWithLf (rope : Rope) : Prop :=
  ∀ line raw, line + 1 < Rope.lenLines rope → (Rope.lines rope)[line]? = some raw →
    raw.getLast? = some '\n'

theorem exists_line {pos : Nat} (hpos : pos ≤ rope.length) : ∃ raw,
    (Rope.lines rope)[lineOf rope pos]? = some raw ∧
      Rope.lineToChar rope (lineOf rope pos) ≤ pos ∧ lineOf rope pos < Rope.lenLines rope := by
  have hlt := lineOf_lt rope pos
  have hle := lineStart_lineOf_le hpos
  rw [lineStart_of_lt hlt] at hle
  exact ⟨_, List.getElem?_eq_getElem hlt, hle, hlt⟩

/-- Where lines end with LF, a position up to the end of a line's text is in the line. -/
theorem EndWithLf.lineOf_eq (h : EndWithLf rope) {line pos : Nat} {raw : List Char}
    (hraw : (Rope.lines rope)[line]? = some raw) (hlow : Rope.lineToChar rope line ≤ pos)
    (hhigh : pos ≤ Rope.lineToChar rope line + (trimmed raw).length) : lineOf rope pos = line := by
  have hlt : line < Rope.lenLines rope := (List.getElem?_eq_some_iff.1 hraw).1
  have hlen := length_trimmed raw
  have hnext := Rope.lineToChar_succ hraw
  have hend := Rope.lineToChar_le_length rope (line + 1)
  rw [lineOf, Nat.min_eq_left (by omega)]
  refine Rope.charToLine_eq_of_between hlt hlow fun hmore => ?_
  rw [if_pos (h line raw hmore hraw)] at hlen
  omega

/-- A position before the next line is in the line. -/
theorem lineOf_eq_of_lt {line pos : Nat} {raw : List Char}
    (hraw : (Rope.lines rope)[line]? = some raw) (hlow : Rope.lineToChar rope line ≤ pos)
    (hhigh : pos < Rope.lineToChar rope line + raw.length) : lineOf rope pos = line := by
  have hlt : line < Rope.lenLines rope := (List.getElem?_eq_some_iff.1 hraw).1
  have hnext := Rope.lineToChar_succ hraw
  have hend := Rope.lineToChar_le_length rope (line + 1)
  rw [lineOf, Nat.min_eq_left (by omega)]
  exact Rope.charToLine_eq_of_between hlt hlow fun _ => by omega

end Lines

namespace Wrap

/-- The table is that of the text, and what is kept of the running sums is theirs. -/
structure Shows (unicodeWidth : Char → Option Nat) (wrap : Wrap) (rope : Rope) : Prop where
  counts : wrap.counts = (Wrap.new unicodeWidth rope wrap.width wrap.tab).counts
  kept : wrap.rowsBeforeValid = true → wrap.rowsBefore = rowsFrom 0 wrap.counts

/-- The rows of a line. -/
def startsOf (unicodeWidth : Char → Option Nat) (wrap : Wrap) (raw : List Char) : List Nat :=
  rowStarts unicodeWidth (Lines.trimmed raw) wrap.width wrap.tab

variable (unicodeWidth) in
theorem rowsOf_startsOf (wrap : Wrap) (raw : List Char) :
    RowsOf (Lines.trimmed raw) (startsOf unicodeWidth wrap raw) := rowsOf_rowStarts _ _ _

/-- No line has more rows than a `u32` counts. -/
def RowsFit (unicodeWidth : Char → Option Nat) (wrap : Wrap) (rope : Rope) : Prop :=
  ∀ raw ∈ Rope.lines rope, (startsOf unicodeWidth wrap raw).length < 4294967296

/-- The rows before a line. -/
def rowsTo (wrap : Wrap) (line : Nat) : Nat := (wrap.counts.take line).sum

theorem Shows.new (rope : Rope) (width : Option Nat) (tab : Nat) :
    Shows unicodeWidth (Wrap.new unicodeWidth rope width tab) rope := by
  refine ⟨rfl, fun h => ?_⟩
  rw [Wrap.new, rebuild] at h
  cases h

theorem Shows.counts_eq (h : Shows unicodeWidth wrap rope) :
    wrap.counts = (Rope.lines rope).map (countLine unicodeWidth wrap.width wrap.tab) :=
  h.counts.trans (counts_new unicodeWidth rope wrap.width wrap.tab)

theorem Shows.length_counts (h : Shows unicodeWidth wrap rope) :
    wrap.counts.length = Rope.lenLines rope := by
  rw [h.counts_eq, List.length_map, Rope.lenLines]

theorem Shows.rowsBefore (h : Shows unicodeWidth wrap rope) :
    wrap.ensured.rowsBefore = rowsFrom 0 wrap.counts := by
  rw [ensured]
  split
  · next hvalid => exact h.kept hvalid
  · rfl

/-- The rows of a line in the table. -/
theorem Shows.rowsTo_succ (h : Shows unicodeWidth wrap rope) {line : Nat} {raw : List Char}
    (hraw : (Rope.lines rope)[line]? = some raw) : wrap.rowsTo (line + 1) =
      wrap.rowsTo line + (startsOf unicodeWidth wrap raw).length % 4294967296 := by
  have hcount : wrap.counts[line]? = some (countLine unicodeWidth wrap.width wrap.tab raw) := by
    rw [h.counts_eq, List.getElem?_map, hraw]
    rfl
  rw [rowsTo, sum_take_succ hcount, rowsTo, countLine, startsOf]
  split
  · next hnone =>
      rw [Option.isNone_iff_eq_none.1 hnone]
      rfl
  · rfl

theorem Shows.totalRows (h : Shows unicodeWidth wrap rope) :
    wrap.totalRows = max (wrap.rowsTo (Rope.lenLines rope)) 1 := by
  have hlast := getElem?_rowsFrom 0 (Nat.le_refl wrap.counts.length)
  rw [Wrap.totalRows, h.rowsBefore, List.getLast?_eq_getElem?, length_rowsFrom,
    Nat.add_sub_cancel, hlast, Option.getD_some, Nat.zero_add, ← h.length_counts]
  rfl

theorem Shows.firstRowOf (h : Shows unicodeWidth wrap rope) {line : Nat}
    (hline : line < Rope.lenLines rope) : wrap.firstRowOf line = wrap.rowsTo line := by
  have hlen := h.length_counts
  rw [Wrap.firstRowOf, h.rowsBefore, Nat.min_eq_left (by omega), List.getD_eq_getElem?_getD,
    getElem?_rowsFrom 0 (by omega), Option.getD_some, Nat.zero_add, rowsTo]

/-- The line a row is looked up to. -/
theorem Shows.lineAtRow (h : Shows unicodeWidth wrap rope) (row : Nat) :
    ∃ line, wrap.lineAtRow row = (line, row - wrap.rowsTo line) ∧ line < Rope.lenLines rope ∧
      wrap.rowsTo line ≤ row ∧
        (line + 1 < Rope.lenLines rope → row < wrap.rowsTo (line + 1)) := by
  have hlen := h.length_counts
  have hpos := Rope.lenLines_pos rope
  have hget : ∀ i, i < wrap.counts.length →
      ((rowsFrom 0 wrap.counts).take wrap.counts.length)[i]? = some (wrap.rowsTo i) := by
    intro i hi
    rw [List.getElem?_take_of_lt hi, getElem?_rowsFrom 0 (Nat.le_of_lt hi), Nat.zero_add, rowsTo]
  have hsize : ((rowsFrom 0 wrap.counts).take wrap.counts.length).length = wrap.counts.length := by
    rw [List.length_take, length_rowsFrom]
    omega
  have horder : ((rowsFrom 0 wrap.counts).take wrap.counts.length).Pairwise (· ≤ ·) := by
    refine List.pairwise_iff_getElem.2 fun i j hi hj hij => ?_
    have hi' := (List.getElem?_eq_some_iff.1 (hget i (by omega))).2
    have hj' := (List.getElem?_eq_some_iff.1 (hget j (by omega))).2
    rw [hi', hj']
    exact sum_take_mono wrap.counts (Nat.le_of_lt hij)
  obtain ⟨⟨x, hx, hle⟩, hnext⟩ := @searchRow_spec _ row horder
    (by rw [List.head?_eq_getElem?, hget 0 (by omega)]; rfl)
  have hin := (List.getElem?_eq_some_iff.1 hx).1
  rw [hsize] at hin
  rw [hget _ hin, Option.some.injEq] at hx
  subst hx
  refine ⟨_, ?_, by omega, hle, fun hmore => hnext _ (hget _ (by omega))⟩
  rw [Wrap.lineAtRow, if_neg (by omega), h.rowsBefore, Nat.min_eq_left (by omega)]
  dsimp only
  rw [List.getD_eq_getElem?_getD, getElem?_rowsFrom 0 (by omega), Option.getD_some, Nat.zero_add]
  rfl

theorem rowsTo_mono (wrap : Wrap) {i j : Nat} (h : i ≤ j) : wrap.rowsTo i ≤ wrap.rowsTo j :=
  sum_take_mono wrap.counts h

/-- A row between the first of a line and that of the next is the line's. -/
theorem Shows.lineAtRow_eq (h : Shows unicodeWidth wrap rope) {line row : Nat}
    (hline : line < Rope.lenLines rope) (hlow : wrap.rowsTo line ≤ row)
    (hhigh : row < wrap.rowsTo (line + 1)) :
      wrap.lineAtRow row = (line, row - wrap.rowsTo line) := by
  obtain ⟨found, hfound, hlt, hle, hnext⟩ := h.lineAtRow row
  have heq : found = line := by
    rcases Nat.lt_trichotomy found line with hless | heq | hmore
    · have habove := hnext (by omega)
      have hmono := wrap.rowsTo_mono (show found + 1 ≤ line from hless)
      omega
    · exact heq
    · have hmono := wrap.rowsTo_mono (show line + 1 ≤ found from hmore)
      omega
  rw [hfound, heq]

/-- Where a position is drawn: in the row of its line that it stands in. -/
theorem Shows.locate (h : Shows unicodeWidth wrap rope) {pos : Nat} {raw : List Char}
    (hraw : (Rope.lines rope)[Lines.lineOf rope pos]? = some raw) :
    ∃ sub, sub < (startsOf unicodeWidth wrap raw).length ∧
      (rposition (· ≤ pos - Rope.lineToChar rope (Lines.lineOf rope pos))
        (startsOf unicodeWidth wrap raw)).getD 0 = sub ∧
      (wrap.locate unicodeWidth rope pos).1 = wrap.rowsTo (Lines.lineOf rope pos) + sub := by
  have hlt := Lines.lineOf_lt rope pos
  have hrows := rowsOf_startsOf unicodeWidth wrap raw
  obtain ⟨sub, start, hfound, hstart, -, -⟩ :=
    hrows.exists_row (pos - Rope.lineToChar rope (Lines.lineOf rope pos))
  refine ⟨sub, (List.getElem?_eq_some_iff.1 hstart).1, hfound, ?_⟩
  rw [Wrap.locate]
  dsimp only
  rw [Lines.lineText_of_getElem? hraw, Lines.lineStart_of_lt hlt, h.firstRowOf hlt]
  exact congrArg (wrap.rowsTo (Lines.lineOf rope pos) + ·) hfound

/-- A column of a row is a position of the row: past its start, before the start of the
next, and at most at the end of the line's text. -/
theorem exists_index (wrap : Wrap) {raw : List Char} {sub start : Nat}
    (hstart : (startsOf unicodeWidth wrap raw)[sub]? = some start) (col : Nat) :
    ∃ index, (let stop := (startsOf unicodeWidth wrap raw)[sub + 1]?.getD (Lines.trimmed raw).length
        let index := Lines.indexAtCol unicodeWidth
          (((Lines.trimmed raw).drop start).take (stop - start)) col wrap.tab
        if sub + 1 < (startsOf unicodeWidth wrap raw).length ∧ index ≥ stop - start ∧ stop > start
        then stop - start - 1 else index) = index ∧
      start + index ≤ (Lines.trimmed raw).length ∧
        ∀ next, (startsOf unicodeWidth wrap raw)[sub + 1]? = some next → start + index < next := by
  have hrows := rowsOf_startsOf unicodeWidth wrap raw
  refine ⟨_, rfl, ?_⟩
  have hle : start ≤ (Lines.trimmed raw).length := by
    rcases hrows.inside start (List.mem_of_getElem? hstart) with rfl | hlt
    · exact Nat.zero_le _
    · exact Nat.le_of_lt hlt
  dsimp only
  have hindex := @indexAtCol_le unicodeWidth (((Lines.trimmed raw).drop start).take
    ((startsOf unicodeWidth wrap raw)[sub + 1]?.getD (Lines.trimmed raw).length - start))
    col wrap.tab
  rw [List.length_take, List.length_drop] at hindex
  cases hnext : (startsOf unicodeWidth wrap raw)[sub + 1]? with
  | none =>
      have hlen := List.getElem?_eq_none_iff.1 hnext
      rw [hnext, Option.getD_none] at hindex
      rw [Option.getD_none, if_neg (by omega)]
      exact ⟨by omega, by simp⟩
  | some next =>
      obtain ⟨hlen, hget⟩ := List.getElem?_eq_some_iff.1 hnext
      obtain ⟨hlen', hget'⟩ := List.getElem?_eq_some_iff.1 hstart
      have hless := List.pairwise_iff_getElem.1 hrows.increasing sub (sub + 1) hlen' hlen
        (Nat.lt_succ_self sub)
      have hinside : next < (Lines.trimmed raw).length := by
        rcases hrows.inside next (List.mem_of_getElem? hnext) with rfl | hlt
        · omega
        · exact hlt
      have hbelow : start < next := by omega
      rw [hnext, Option.getD_some] at hindex
      rw [Option.getD_some]
      refine ⟨?_, ?_⟩
      · split_ifs <;> omega
      · intro other hother
        obtain rfl := Option.some.inj hother
        split_ifs <;> omega

variable (unicodeWidth) in
/-- Positions and rows agree, and End stays on its line, so that a second End moves no
further. -/
structure RowsAgree (wrap : Wrap) (rope : Rope) : Prop where
  stays : ∀ row < wrap.totalRows, ∀ col,
    (wrap.locate unicodeWidth rope (wrap.position unicodeWidth rope row col)).1 = row
  belongs : ∀ pos ≤ rope.length, (wrap.locate unicodeWidth rope pos).1 < wrap.totalRows ∧
    (wrap.lineAtRow (wrap.locate unicodeWidth rope pos).1).1 = Lines.lineOf rope pos
  ends : ∀ range : Range, range.head ≤ rope.length → ∀ extend,
    Lines.lineOf rope (Commands.lineEndMoved rope extend range).head =
        Lines.lineOf rope range.head ∧
      Commands.lineEndMoved rope extend (Commands.lineEndMoved rope extend range) =
        Commands.lineEndMoved rope extend range

theorem Shows.rowsTo_succ_of_fit (h : Shows unicodeWidth wrap rope)
    (hfit : RowsFit unicodeWidth wrap rope) {line : Nat} {raw : List Char}
    (hraw : (Rope.lines rope)[line]? = some raw) :
    wrap.rowsTo (line + 1) = wrap.rowsTo line + (startsOf unicodeWidth wrap raw).length := by
  rw [h.rowsTo_succ hraw, Nat.mod_eq_of_lt (hfit raw (List.mem_of_getElem? hraw))]

variable (unicodeWidth) in
theorem startsOf_pos (wrap : Wrap) (raw : List Char) :
    0 < (startsOf unicodeWidth wrap raw).length :=
  (rowsOf_startsOf unicodeWidth wrap raw).length_pos

theorem Shows.locate_position (h : Shows unicodeWidth wrap rope) (hlf : Lines.EndWithLf rope)
    (hfit : RowsFit unicodeWidth wrap rope) {row : Nat} (hrow : row < wrap.totalRows) (col : Nat) :
    (wrap.locate unicodeWidth rope (wrap.position unicodeWidth rope row col)).1 = row := by
  obtain ⟨line, hline, hlt, hlow, hhigh⟩ := h.lineAtRow row
  obtain ⟨raw, hraw⟩ : ∃ raw, (Rope.lines rope)[line]? = some raw :=
    ⟨_, List.getElem?_eq_getElem hlt⟩
  have hsucc := h.rowsTo_succ_of_fit hfit hraw
  have hstarts := startsOf_pos unicodeWidth wrap raw
  have hbelow : row < wrap.rowsTo (line + 1) := by
    rcases Nat.lt_or_ge (line + 1) (Rope.lenLines rope) with hmore | hlast
    · exact hhigh hmore
    · rw [h.totalRows] at hrow
      have heq : line + 1 = Rope.lenLines rope := by omega
      rw [← heq] at hrow
      omega
  have hsub : row - wrap.rowsTo line < (startsOf unicodeWidth wrap raw).length := by omega
  have hstart := List.getElem?_eq_getElem hsub
  obtain ⟨start, hstart⟩ : ∃ start, (startsOf unicodeWidth wrap raw)[row - wrap.rowsTo line]? =
    some start := ⟨_, hstart⟩
  obtain ⟨index, hindex, hend, hnext⟩ := wrap.exists_index hstart col
  have hposition : wrap.position unicodeWidth rope row col =
      Rope.lineToChar rope line + start + index := by
    rw [Wrap.position, Nat.min_eq_left (by omega), hline]
    dsimp only
    rw [Lines.lineText_of_getElem? hraw, Lines.lineStart_of_lt hlt]
    rw [startsOf] at hindex hstart hsub
    rw [Nat.min_eq_left (by omega), List.getD_eq_getElem?_getD, hstart, Option.getD_some]
    dsimp only at hindex
    rw [hindex]
  have hof : Lines.lineOf rope (Rope.lineToChar rope line + start + index) = line :=
    hlf.lineOf_eq hraw (by omega) (by omega)
  have hpos : Rope.lineToChar rope line + start + index ≤ rope.length := by
    have hnextLine := Rope.lineToChar_succ hraw
    have hlen := Rope.lineToChar_le_length rope (line + 1)
    have htrim := Lines.length_trimmed raw
    omega
  rw [hposition]
  obtain ⟨sub, -, hfound, hlocate⟩ := h.locate (hof.symm ▸ hraw)
  rw [hlocate, hof]
  rw [hof, show Rope.lineToChar rope line + start + index - Rope.lineToChar rope line =
    start + index by omega] at hfound
  have hsame := (rowsOf_rowStarts (Lines.trimmed raw) wrap.width wrap.tab).row_eq hstart
    (Nat.le_add_right start index) hnext
  rw [startsOf] at hfound
  rw [hsame] at hfound
  omega

theorem Shows.locate_belongs (h : Shows unicodeWidth wrap rope)
    (hfit : RowsFit unicodeWidth wrap rope) {pos : Nat} (hpos : pos ≤ rope.length) :
    (wrap.locate unicodeWidth rope pos).1 < wrap.totalRows ∧
      (wrap.lineAtRow (wrap.locate unicodeWidth rope pos).1).1 = Lines.lineOf rope pos := by
  obtain ⟨raw, hraw, -, hlt⟩ := Lines.exists_line hpos
  obtain ⟨sub, hsub, -, hlocate⟩ := h.locate hraw
  have hsucc := h.rowsTo_succ_of_fit hfit hraw
  have htotal := wrap.rowsTo_mono (show Lines.lineOf rope pos + 1 ≤ Rope.lenLines rope from hlt)
  rw [hlocate, h.lineAtRow_eq hlt (Nat.le_add_right _ _) (by omega), h.totalRows]
  exact ⟨by omega, rfl⟩

/-- Where lines end with LF, End stays on the line. -/
theorem lineOf_lineEnd (hlf : Lines.EndWithLf rope) {pos : Nat} (hpos : pos ≤ rope.length) :
    Lines.lineOf rope (Lines.lineEnd rope (Lines.lineOf rope pos)) = Lines.lineOf rope pos := by
  obtain ⟨raw, hraw, -, -⟩ := Lines.exists_line hpos
  rw [Lines.lineEnd_of_getElem? hraw]
  exact hlf.lineOf_eq hraw (Nat.le_add_right _ _) (Nat.le_refl _)

theorem head_lineEndMoved (rope : Rope) (extend : Bool) (range : Range) :
    (Commands.lineEndMoved rope extend range).head =
      Lines.lineEnd rope (Lines.lineOf rope range.head) := by
  rw [Commands.lineEndMoved, Range.putHead]
  split <;> rfl

theorem lineEndMoved_ends (hlf : Lines.EndWithLf rope) {range : Range}
    (hhead : range.head ≤ rope.length) (extend : Bool) :
    Lines.lineOf rope (Commands.lineEndMoved rope extend range).head =
        Lines.lineOf rope range.head ∧
      Commands.lineEndMoved rope extend (Commands.lineEndMoved rope extend range) =
        Commands.lineEndMoved rope extend range := by
  have hstay : Lines.lineOf rope (Commands.lineEndMoved rope extend range).head =
      Lines.lineOf rope range.head := by
    rw [head_lineEndMoved, lineOf_lineEnd hlf hhead]
  refine ⟨hstay, ?_⟩
  rw [Commands.lineEndMoved, hstay, Commands.lineEndMoved]
  cases extend with
  | false => rfl
  | true => rfl

/-- A line that ends with another character is left by End. -/
theorem RowsAgree.endWithLf (h : RowsAgree unicodeWidth wrap rope) : Lines.EndWithLf rope := by
  intro line raw hmore hraw
  by_contra hlast
  have hne := Rope.ne_nil_of_lt_lenLines hmore hraw
  have hlen := List.length_pos_iff.2 hne
  have hnext := Rope.lineToChar_succ hraw
  have hbound := Rope.lineToChar_le_length rope (line + 1)
  have hof : Lines.lineOf rope (Rope.lineToChar rope line) = line :=
    Lines.lineOf_eq_of_lt hraw (Nat.le_refl _) (by omega)
  have hend := (h.ends (Range.point (Rope.lineToChar rope line))
    (show Rope.lineToChar rope line ≤ rope.length by omega) false).1
  have htrim := Lines.length_trimmed raw
  rw [if_neg hlast, Nat.add_zero] at htrim
  rw [head_lineEndMoved, show (Range.point (Rope.lineToChar rope line)).head =
    Rope.lineToChar rope line from rfl, hof, Lines.lineEnd_of_getElem? hraw, htrim, ← hnext] at hend
  have hbefore := Lines.lineOf_lt rope (Rope.lineToChar rope (line + 1))
  have hstart : Lines.lineOf rope (Rope.lineToChar rope (line + 1)) = line + 1 := by
    rw [Lines.lineOf, Nat.min_eq_left hbound]
    refine Rope.charToLine_eq_of_between hmore (Nat.le_refl _) fun hmore' => ?_
    obtain ⟨raw', hraw'⟩ : ∃ raw', (Rope.lines rope)[line + 1]? = some raw' :=
      ⟨_, List.getElem?_eq_getElem hmore⟩
    have hlen' := List.length_pos_iff.2 (Rope.ne_nil_of_lt_lenLines hmore' hraw')
    have hnext' := Rope.lineToChar_succ hraw'
    omega
  omega

/-- The last row of a line with too many rows is looked up to another line. -/
theorem RowsAgree.rowsFit (h : RowsAgree unicodeWidth wrap rope)
    (hshows : Shows unicodeWidth wrap rope) : RowsFit unicodeWidth wrap rope := by
  intro raw hmem
  obtain ⟨line, hraw⟩ := List.getElem?_of_mem hmem
  by_contra hmany
  have hlt : line < Rope.lenLines rope := (List.getElem?_eq_some_iff.1 hraw).1
  have hrows := rowsOf_startsOf unicodeWidth wrap raw
  have hsize : (startsOf unicodeWidth wrap raw).length - 1 <
      (startsOf unicodeWidth wrap raw).length := by omega
  have hget := List.getElem?_eq_getElem hsize
  obtain ⟨last, hlast⟩ : ∃ last, (startsOf unicodeWidth wrap raw)[
    (startsOf unicodeWidth wrap raw).length - 1]? = some last := ⟨_, hget⟩
  obtain ⟨first, hfirst⟩ : ∃ first, (startsOf unicodeWidth wrap raw)[0]? = some first :=
    ⟨_, List.getElem?_eq_getElem (by omega)⟩
  have hpositive : first < last := by
    obtain ⟨hlen, hval⟩ := List.getElem?_eq_some_iff.1 hfirst
    obtain ⟨hlen', hval'⟩ := List.getElem?_eq_some_iff.1 hlast
    have hless := List.pairwise_iff_getElem.1 hrows.increasing _ _ hlen hlen' (by omega)
    rwa [hval, hval'] at hless
  have hinside : last < (Lines.trimmed raw).length := by
    rcases hrows.inside last (List.mem_of_getElem? hlast) with rfl | hinside
    · exact absurd hpositive (Nat.not_lt_zero first)
    · exact hinside
  have htrim := Lines.length_trimmed raw
  have hnext := Rope.lineToChar_succ hraw
  have hbound := Rope.lineToChar_le_length rope (line + 1)
  have hof : Lines.lineOf rope (Rope.lineToChar rope line + last) = line :=
    Lines.lineOf_eq_of_lt hraw (Nat.le_add_right _ _) (by omega)
  obtain ⟨hbelow, hbelongs⟩ := h.belongs (Rope.lineToChar rope line + last) (by omega)
  obtain ⟨sub, -, hfound, hlocate⟩ := hshows.locate (hof.symm ▸ hraw)
  rw [hof, Nat.add_sub_cancel_left] at hfound
  have hrow := hrows.row_eq hlast (Nat.le_refl last) fun next hnext => by
    have hover := (List.getElem?_eq_some_iff.1 hnext).1
    omega
  rw [hrow] at hfound
  rw [hlocate, hof] at hbelow hbelongs
  obtain ⟨found, hline, -, -, hbefore⟩ := hshows.lineAtRow (wrap.rowsTo line + sub)
  rw [hline] at hbelongs
  dsimp only at hbelongs
  subst hbelongs
  have hsucc := hshows.rowsTo_succ hraw
  have hmod := Nat.mod_lt (startsOf unicodeWidth wrap raw).length (show 0 < 4294967296 by decide)
  rcases Nat.lt_or_ge (found + 1) (Rope.lenLines rope) with hmore | hend
  · have hrow := hbefore hmore
    omega
  · rw [hshows.totalRows, show Rope.lenLines rope = found + 1 by omega] at hbelow
    omega

/-- Positions and rows agree exactly where lines end with LF and have no more rows than
are counted. -/
theorem rowsAgree_iff (h : Shows unicodeWidth wrap rope) :
    RowsAgree unicodeWidth wrap rope ↔
      Lines.EndWithLf rope ∧ RowsFit unicodeWidth wrap rope := by
  constructor
  · exact fun hagree => ⟨hagree.endWithLf, hagree.rowsFit h⟩
  · rintro ⟨hlf, hfit⟩
    exact ⟨fun row hrow col => h.locate_position hlf hfit hrow col,
      fun pos hpos => h.locate_belongs hfit hpos,
      fun range hhead extend => lineEndMoved_ends hlf hhead extend⟩

/-- Every character one column wide. -/
def oneWide (_ : Char) : Option Nat := some 1

theorem rowsAgree_iff_wrapped :
    RowsAgree oneWide (Wrap.new oneWide ['a', 'b', 'c', '\n'] (some 2) 4) ['a', 'b', 'c', '\n'] ↔
      Lines.EndWithLf ['a', 'b', 'c', '\n'] ∧
        RowsFit oneWide (Wrap.new oneWide ['a', 'b', 'c', '\n'] (some 2) 4) ['a', 'b', 'c', '\n'] :=
  rowsAgree_iff (Shows.new _ _ _)

/-- After a form feed End goes to the next line. -/
theorem not_rowsAgree : ¬ RowsAgree oneWide (Wrap.new oneWide ['a', '\x0C', 'b'] none 4)
    ['a', '\x0C', 'b'] := by
  intro h
  have hend := (h.ends (Range.point 0) (by decide) false).1
  exact absurd hend (by decide)

end Wrap

end Throng.Editor
