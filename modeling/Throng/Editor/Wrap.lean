import Throng.Editor.Doc

/-!
# Visual rows

How a document's lines break across the view at a given width. Only a row count per
line is kept for the whole document, and an edit recounts only the lines it touched.
The width of a character is the `unicode-width` crate's and stands as a parameter.
-/

namespace Throng.Editor

namespace Lines

/-- A line's text without its LF. -/
def trimmed (text : List Char) : List Char :=
  if text.getLast? = some '\n' then text.dropLast else text

/-- The line's text without its LF; past the end, the last line's. -/
def lineText (rope : Rope) (line : Nat) : List Char :=
  trimmed ((Rope.lines rope).getD (min line (Rope.lenLines rope - 1)) [])

/-- Columns a character occupies at display column `col`. -/
def charWidth (unicodeWidth : Char → Option Nat) (c : Char) (col tab : Nat) : Nat :=
  if c = '\t' then
    let tab := max tab 1
    tab - col % tab
  else (unicodeWidth c).getD 0

end Lines

/-- Where a row that is full at `i` ends: after its last space if it has one. -/
def breakAt (softBreak : Option Nat) (rowStart i : Nat) : Nat :=
  match softBreak with
  | some b => if b > rowStart ∧ b ≤ i then b else i
  | none => i

theorem lt_breakAt (softBreak : Option Nat) {rowStart i : Nat} (h : rowStart < i) :
    rowStart < breakAt softBreak rowStart i := by
  cases softBreak with
  | none => exact h
  | some b =>
      by_cases hb : b > rowStart ∧ b ≤ i
      · rw [breakAt, if_pos hb]
        exact hb.1
      · rw [breakAt, if_neg hb]
        exact h

section

variable (unicodeWidth : Char → Option Nat)

/-- The loop of `row_starts` from character `i`, at column `col` of the row that starts
at `rowStart`. -/
def rowStartsFrom (chars : List Char) (width tab : Nat) (starts : List Nat)
    (rowStart col : Nat) (softBreak : Option Nat) (i : Nat) : List Nat :=
  if h : i < chars.length then
    let c := chars[i]
    let w := Lines.charWidth unicodeWidth c col tab
    if hfull : col + w > width ∧ i > rowStart then
      let start := breakAt softBreak rowStart i
      rowStartsFrom chars width tab (starts ++ [start]) start 0 none start
    else
      rowStartsFrom chars width tab starts rowStart (col + w)
        (if c = ' ' ∨ c = '\t' then some (i + 1) else softBreak) (i + 1)
  else starts
termination_by (chars.length - rowStart, chars.length - i)
decreasing_by
  · have hlt := lt_breakAt softBreak hfull.2
    exact Prod.Lex.left _ _ (by omega)
  · exact Prod.Lex.right _ (by omega)

/-- Where a line's visual rows start. -/
def rowStarts (line : List Char) (width : Option Nat) (tab : Nat) : List Nat :=
  match width.filter (· > 0) with
  | some width => rowStartsFrom unicodeWidth line width tab [0] 0 0 none 0
  | none => [0]

end

/-- Row counts for every line of a document at one width. -/
structure Wrap where
  width : Option Nat
  tab : Nat
  /-- `u32`s. -/
  counts : List Nat
  /-- `prefix`: the rows before each line, rebuilt on demand. -/
  rowsBefore : List Nat
  rowsBeforeValid : Bool
deriving DecidableEq, Repr

namespace Wrap

variable (unicodeWidth : Char → Option Nat)

def count (wrap : Wrap) (rope : Rope) (line : Nat) : Nat :=
  if wrap.width.isNone then 1
  else
    (rowStarts unicodeWidth (Lines.lineText rope line) wrap.width wrap.tab).length % 4294967296

/-- Recount every line. -/
def rebuild (wrap : Wrap) (rope : Rope) : Wrap :=
  { wrap with
    counts := (List.range (Rope.lenLines rope)).map (wrap.count unicodeWidth rope)
    rowsBeforeValid := false }

/-- Wrap `rope` at `width` columns (`none`: one row per line). -/
def new (rope : Rope) (width : Option Nat) (tab : Nat) : Wrap :=
  rebuild unicodeWidth
    { width := width, tab := tab, counts := [], rowsBefore := [], rowsBeforeValid := false } rope

/-- The counts once the touched lines are recounted; `none` where the clamp panics. -/
def spliced (wrap : Wrap) (rope : Rope) (applied : Applied) : Option (List Nat) :=
  let total := Rope.lenLines rope
  let oldLast := max ((applied.lastLine : Int) - applied.lineDelta) ((applied.firstLine : Int) - 1)
  let size := wrap.counts.length
  if applied.firstLine ≤ size then
    let start := min applied.firstLine size
    let stop := max applied.firstLine (min (max (oldLast + 1) 0).toNat size)
    let newLines := List.range' applied.firstLine
      (min (applied.lastLine + 1) total - applied.firstLine)
    some (wrap.counts.take start ++ newLines.map (wrap.count unicodeWidth rope) ++
      wrap.counts.drop stop)
  else none

/-- Carry the counts across an edit, recounting only the lines it touched. -/
def apply (wrap : Wrap) (rope : Rope) (applied : Applied) : Option Wrap :=
  (wrap.spliced unicodeWidth rope applied).map fun counts =>
    let wrap := { wrap with counts := counts }
    let wrap := if counts.length ≠ Rope.lenLines rope then wrap.rebuild unicodeWidth rope else wrap
    { wrap with rowsBeforeValid := false }

end Wrap

end Throng.Editor
