import Throng.Editor.CommandsRun
import Throng.Editor.Insertions
import Throng.Editor.TextLines

/-!
# Pasting

A clip of whole lines goes in above the lines of the carets, a column at one caret becomes a
block, and everything else is typed into the ranges.

The rows of a column go onto the line of the caret and those after it, at the display column of
the caret with tabs four wide; a line that is too short is padded, and past the last line new
ones are added. Whatever is put in at the end of the text is one more edit there, after that
of the row on the last line.
-/

namespace Throng.Editor

namespace Commands

open Transaction (insertion)

/-! ## Whole lines -/

/-- The lines of the carets, each once. -/
def caretLines (rope : Rope) (selection : Selection) : List Nat :=
  (selection.ranges.map fun range => Lines.lineOf rope range.head).foldl
    (fun seen line => if seen.contains line then seen else seen ++ [line]) []

/-- `paste` of whole lines at bare carets. -/
def pasteLines (doc : TextDoc) (selection : Selection) (clip : Clip) (nowMs : Nat) :
    Option (TextDoc × Edited) :=
  let text := if clip.text.getLast? = some '\n' then clip.text else clip.text ++ ['\n']
  let edits := (caretLines doc.rope selection).map fun line =>
    insertion (Lines.lineStart doc.rope line, text)
  (Transaction.replace doc.rope edits).bind fun tx =>
    let after := selection.transform fun range => Range.point (tx.map range.head true)
    (doc.edit tx selection after .other nowMs).map fun result =>
      (result.1, { applied := result.2, selection := after })

/-! ## A column -/

/-- The tab stops that a column is pasted by. -/
def columnTab : Nat := 4

variable (unicodeWidth : Char → Option Nat)

/-- The display column a column is pasted at. -/
def caretColumn (rope : Rope) (caret : Nat) : Nat :=
  let line := Lines.lineOf rope caret
  Lines.displayCol unicodeWidth (Lines.lineText rope line) (caret - Lines.lineStart rope line)
    columnTab

/-- Where the `i`-th row goes on a line that is there, and what is put in. -/
def rowEdit (rope : Rope) (pad : Char) (firstLine col i : Nat) (row : List Char) :
    Nat × List Char :=
  let line := firstLine + i
  let text := Lines.lineText rope line
  let width := Lines.displayCol unicodeWidth text text.length columnTab
  if width < col then (Lines.lineEnd rope line, List.replicate (col - width) pad ++ row)
  else (Lines.lineStart rope line + Lines.indexAtCol unicodeWidth text col columnTab, row)

/-- The rows past the last line. -/
def appendedRows (pad : Char) (col : Nat) (rows : List (List Char)) : List Char :=
  rows.flatMap fun row => '\n' :: (List.replicate col pad ++ row)

/-- The edits of the rows on lines that are there. -/
def placedRows (rope : Rope) (caret : Nat) (pad : Char) (rows : List (List Char)) :
    List (Nat × List Char) :=
  let firstLine := Lines.lineOf rope caret
  (rows.take (Rope.lenLines rope - firstLine)).mapIdx
    (rowEdit unicodeWidth rope pad firstLine (caretColumn unicodeWidth rope caret))

/-- All that `paste_column` puts in. -/
def columnEdits (rope : Rope) (caret : Nat) (pad : Char) (rows : List (List Char)) :
    List (Nat × List Char) :=
  let appended := appendedRows pad (caretColumn unicodeWidth rope caret)
    (rows.drop (Rope.lenLines rope - Lines.lineOf rope caret))
  placedRows unicodeWidth rope caret pad rows ++
    if appended = [] then [] else [(rope.length, appended)]

/-- The carets after the rows; at the end when no row went onto a line. -/
def pastedCarets (tx : Transaction) (rope : Rope) (placed : List (Nat × List Char)) :
    List Range :=
  if placed = [] then [Range.point (tx.map rope.length true)]
  else placed.map fun p => Range.point (tx.map p.1 false + p.2.length)

theorem pastedCarets_ne_nil (tx : Transaction) (rope : Rope) (placed : List (Nat × List Char)) :
    pastedCarets tx rope placed ≠ [] := by
  rw [pastedCarets]
  split
  · exact List.cons_ne_nil _ _
  · next h => rwa [Ne, List.map_eq_nil_iff]

def pasteColumn (doc : TextDoc) (selection : Selection) (clip : Clip) (pad : Char) (nowMs : Nat) :
    Option (TextDoc × Edited) :=
  let caret := (selection.ranges.get ⟨selection.primary, selection.primary_lt⟩).head
  let rows := clip.text.splitOn '\n'
  (Transaction.replace doc.rope
    ((columnEdits unicodeWidth doc.rope caret pad rows).map insertion)).bind fun tx =>
      let after := Selection.new
        (pastedCarets tx doc.rope (placedRows unicodeWidth doc.rope caret pad rows)) 0
        (pastedCarets_ne_nil _ _ _)
      (doc.edit tx selection after .other nowMs).map fun result =>
        (result.1, { applied := result.2, selection := after })

/-- Paste a clip. `pad` is the character short lines are padded with for a column. -/
def paste (doc : TextDoc) (selection : Selection) (clip : Clip) (pad : Char) (nowMs : Nat) :
    Option (TextDoc × Edited) :=
  if clip.mode = .fullLine ∧ allEmpty selection = true then pasteLines doc selection clip nowMs
  else if clip.mode = .column ∧ selection.ranges.length = 1 ∧ allEmpty selection = true then
    pasteColumn unicodeWidth doc selection clip pad nowMs
  else pasteEach doc selection clip nowMs

/-! ## A column as a block -/

open Rope (textLines lineToChar insertRows addLines Unbroken)

/-- The display width of a line's text. -/
def widthOf (text : List Char) : Nat := Lines.displayCol unicodeWidth text text.length columnTab

/-- A tab or a wide character of the text reaches over the column. -/
def Straddled (text : List Char) (col : Nat) : Prop :=
  ∃ i < text.length, Lines.displayCol unicodeWidth text i columnTab < col ∧
    col < Lines.displayCol unicodeWidth text (i + 1) columnTab

/-- A row stands on a line so many characters in: at the column if nothing reaches over it,
and on a short line at the end, after the spaces up to the column. -/
structure RowAt (col : Nat) (body row : List Char) (placed : Nat × List Char) : Prop where
  text : placed.2 = List.replicate (col - widthOf unicodeWidth body) ' ' ++ row
  within : placed.1 ≤ body.length
  short : widthOf unicodeWidth body < col → placed.1 = body.length
  column : col ≤ widthOf unicodeWidth body → ¬ Straddled unicodeWidth body col →
    Lines.displayCol unicodeWidth body placed.1 columnTab = col

/-- The lines from the caret's on, each with its row. -/
def rowsOn (rope : Rope) (caret : Nat) (rows : List (List Char)) :
    List (TextLine × List Char) :=
  ((textLines rope).drop (Lines.lineOf rope caret)).zip rows

/-- The lines for the rows past the last one. -/
def addedRows (rope : Rope) (caret : Nat) (rows : List (List Char)) : List (List Char) :=
  (rows.drop (Rope.lenLines rope - Lines.lineOf rope caret)).map fun row =>
    List.replicate (caretColumn unicodeWidth rope caret) ' ' ++ row

/-- The rows stand on the lines from the caret's on and on new ones after the last, nothing
else of the text has changed, and a caret stands right after each row on a line that was there.
The new lines get none. -/
def ColumnPasted (rope : Rope) (caret : Nat) (rows : List (List Char)) (rope' : Rope)
    (selection : Selection) : Prop :=
  let line := Lines.lineOf rope caret
  ∃ placed,
    List.Forall₂ (fun on => RowAt unicodeWidth (caretColumn unicodeWidth rope caret) on.1.body on.2)
      (rowsOn rope caret rows) placed ∧
    textLines rope' =
      addLines ((textLines rope).take line ++ insertRows placed ((textLines rope).drop line))
        (addedRows unicodeWidth rope caret rows) ∧
    CaretsAt selection
      (placed.mapIdx fun i p => lineToChar rope' (line + i) + p.1 + p.2.length) 0

/-- The column is in the line's body: where a line does not end with an LF its text holds what
ends it, and the column may be past that. -/
def InBody (col : Nat) (line : TextLine) : Prop :=
  line.ending = [] ∨ line.ending = ['\n'] ∨ col ≤ widthOf unicodeWidth line.body ∧
    Lines.indexAtCol unicodeWidth (Lines.trimmed line.chars) col columnTab ≤ line.body.length

/-- The last line leaves the end of the text to the rows past it: its row goes in before the
end, or there is nothing in it and no CR for the new line's LF to join. -/
def LeavesEnd (rope : Rope) (col : Nat) (last row : List Char) : Prop :=
  col ≤ widthOf unicodeWidth last ∧
    (Lines.indexAtCol unicodeWidth last col columnTab < last.length ∨
      (row = [] ∧ rope.getLast? ≠ some '\r'))

/-- When a column is pasted as a block. -/
structure PastesAsBlock (rope : Rope) (caret : Nat) (rows : List (List Char)) : Prop where
  unbroken : ∀ row ∈ rows, Unbroken row
  inBody : ∀ on ∈ rowsOn rope caret rows,
    InBody unicodeWidth (caretColumn unicodeWidth rope caret) on.1
  leavesEnd : Rope.lenLines rope - Lines.lineOf rope caret < rows.length →
    ∀ on, (rowsOn rope caret rows).getLast? = some on →
      LeavesEnd unicodeWidth rope (caretColumn unicodeWidth rope caret) on.1.body on.2

end Commands

end Throng.Editor
