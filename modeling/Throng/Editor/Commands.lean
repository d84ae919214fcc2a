import Throng.Editor.Lines
import Throng.Editor.Replacing
import Throng.Editor.SelectionNormal

/-!
# Editing commands

What keys and menu items do to a document and a view's selection. Every edit is one
transaction, so one command is one undo step however many carets it touched. `none`
stands for a panic. The classes of characters that the standard library tells apart,
`is_whitespace` and `is_alphanumeric`, stand as parameters.
-/

namespace Throng.Editor

/-- How the document indents. -/
structure IndentStyle where
  tabs : Bool
  /-- Spaces per level, and the tab stop width when `tabs`. -/
  width : Nat
deriving DecidableEq, Repr

/-- `IndentStyle::unit`. -/
def IndentStyle.unit (style : IndentStyle) : List Char :=
  if style.tabs then ['\t'] else List.replicate (max style.width 1) ' '

/-- What an editing command did. -/
structure Edited where
  applied : Option Applied
  /-- The editing view's selection afterwards. -/
  selection : Selection
deriving DecidableEq, Repr

/-- `Unit`: how far a horizontal move goes. -/
inductive MoveUnit
  | char
  | word
deriving DecidableEq, Repr

/-- Move the caret, keeping the anchor when `extend`, collapsing otherwise. -/
def Range.putHead (range : Range) (head : Nat) (extend : Bool) : Range :=
  if extend then { anchor := range.anchor, head := head, goal := none } else point head

namespace Commands

/-- A range after End. -/
def lineEndMoved (rope : Rope) (extend : Bool) (range : Range) : Range :=
  range.putHead (Lines.lineEnd rope (Lines.lineOf rope range.head)) extend

/-- End: to the end of the line. -/
def moveLineEnd (rope : Rope) (selection : Selection) (extend : Bool) : Selection :=
  selection.transform (lineEndMoved rope extend)

/-! ## Words -/

variable (table : CharTable)

/-- `step_word` forward: how far the next word boundary is in what follows the position. -/
def stepForward (rest : List Char) : Nat :=
  let isSpace := fun c => Lines.charClass table c = .space
  match rest with
  | [] => 0
  | first :: _ =>
      if Lines.charClass table first = .newline then 1
      else
        let spaces := (rest.takeWhile isSpace).length
        match rest.dropWhile isSpace with
        | [] => spaces
        | c :: run =>
            if Lines.charClass table c = .newline then spaces
            else spaces + ((c :: run).takeWhile fun d =>
              Lines.charClass table d = Lines.charClass table c).length

/-- The next word boundary: whitespace is skipped, then a run of one class. Backwards is
the same in the text read the other way. -/
def stepWord (rope : Rope) (pos : Nat) (forward : Bool) : Nat :=
  let p := min pos rope.length
  if forward then p + stepForward table (rope.drop p)
  else p - stepForward table (rope.take p).reverse

/-! ## Replacing -/

/-- What each range is replaced by and how far in its caret goes, the calls of `f` being
numbered. -/
def replacements (f : Nat → Range → List Char × Nat) (selection : Selection) :
    List (Range × List Char × Nat) :=
  selection.ranges.mapIdx fun i range => (range, f i range)

theorem replacements_ne_nil (f : Nat → Range → List Char × Nat) (selection : Selection) :
    replacements f selection ≠ [] := by
  rw [replacements, Ne, List.mapIdx_eq_nil_iff]
  exact selection.ranges_ne_nil

/-- The edits of `replace_each`. -/
def editsOf (f : Nat → Range → List Char × Nat) (selection : Selection) :
    List (Nat × Nat × List Char) :=
  (replacements f selection).map fun r => (r.1.lower, r.1.upper, r.2.1)

/-- Replace every range with the text `f` gives it, putting each caret so many characters
into its replacement. -/
def replaceEach (doc : TextDoc) (selection : Selection) (kind : EditKind) (nowMs : Nat)
    (f : Nat → Range → List Char × Nat) : Option (TextDoc × Edited) :=
  (Transaction.replace doc.rope (editsOf f selection)).bind fun tx =>
    let after := Selection.new
      ((replacements f selection).map fun r => Range.point (tx.map r.1.lower false + r.2.2))
      selection.primary (by simpa using replacements_ne_nil f selection)
    (doc.edit tx selection after kind nowMs).map fun result =>
      (result.1, { applied := result.2, selection := after })

/-- Type text at every caret, replacing any selection. -/
def insertText (doc : TextDoc) (selection : Selection) (text : List Char) (nowMs : Nat) :
    Option (TextDoc × Edited) :=
  let kind := if text.length = 1 && !text.contains '\n' then .insert else .other
  replaceEach doc selection kind nowMs fun _ _ => (text, text.length)

/-- The brackets that Enter opens onto their own lines. -/
def isPair (prev next : Option Char) : Bool :=
  (prev = some '\x7b' && next = some '\x7d') || (prev = some '[' && next = some ']') ||
    (prev = some '(' && next = some ')')

/-- What Enter puts in the place of a range, and how far in the caret goes. -/
def newlineAt (rope : Rope) (style : IndentStyle) (range : Range) : List Char × Nat :=
  let line := Lines.lineOf rope range.lower
  let start := Lines.lineStart rope line
  let text := Lines.lineText rope line
  let beforeCaret := text.take (range.lower - start)
  let indent := Lines.leadingWhitespace beforeCaret
  let prev := if range.lower > start then rope[range.lower - 1]? else none
  let next := if range.upper < rope.length then rope[range.upper]? else none
  if isPair prev next then
    let inner := '\n' :: (indent ++ style.unit)
    (inner ++ '\n' :: indent, inner.length)
  else
    let text := '\n' :: indent
    (text, text.length)

/-- Enter. -/
def insertNewline (doc : TextDoc) (selection : Selection) (style : IndentStyle) (nowMs : Nat) :
    Option (TextDoc × Edited) :=
  replaceEach doc selection .other nowMs fun _ range => newlineAt doc.rope style range

/-! ## Deleting -/

/-- The order of `sort_unstable` on pairs. -/
def spanBefore (a b : Nat × Nat) : Bool := a.1 < b.1 || (a.1 = b.1 && a.2 ≤ b.2)

/-- One turn of the merging loop. -/
def mergeSpan (out : List (Nat × Nat)) (span : Nat × Nat) : List (Nat × Nat) :=
  match out.getLast? with
  | some last =>
      if span.1 < last.2 then out.dropLast ++ [(last.1, max last.2 span.2)] else out ++ [span]
  | none => out ++ [span]

/-- Merge overlapping deletions. -/
def merged (spans : List (Nat × Nat)) : List (Nat × Nat) :=
  (spans.mergeSort spanBefore).foldl mergeSpan []

/-- What is left to delete of the spans. -/
def deletions (spans : List (Nat × Nat)) : List (Nat × Nat) :=
  (merged spans).filter fun span => span.1 < span.2

def deleteSpans (doc : TextDoc) (selection : Selection) (spans : List (Nat × Nat))
    (kind : EditKind) (nowMs : Nat) : Option (TextDoc × Edited) :=
  if deletions spans = [] then some (doc, { applied := none, selection := selection })
  else
    (Transaction.replace doc.rope ((deletions spans).map fun span => (span.1, span.2, []))).bind
      fun tx =>
        let after := selection.transform fun range => Range.point (tx.map range.lower false)
        (doc.edit tx selection after kind nowMs).map fun result =>
          (result.1, { applied := result.2, selection := after })

/-- Where Backspace on a bare caret deletes from: in leading spaces the indent stop before
it. -/
def backspaceStart (rope : Rope) (unit : MoveUnit) (style : IndentStyle) (head : Nat) : Nat :=
  match unit with
  | .word => stepWord table rope head false
  | .char =>
      let lineStart := Lines.lineStart rope (Lines.lineOf rope head)
      let before := (rope.take head).drop lineStart
      if !style.tabs && !before.isEmpty && before.all (· = ' ') then
        let col := before.length
        let width := max style.width 1
        let target := (col - 1) / width * width
        head - (col - target)
      else head - 1

/-- The spans of `delete_backward`. -/
def backwardSpans (rope : Rope) (selection : Selection) (unit : MoveUnit) (style : IndentStyle) :
    List (Nat × Nat) :=
  selection.ranges.map fun range =>
    if !range.isEmpty then (range.lower, range.upper)
    else (backspaceStart table rope unit style range.head, range.head)

/-- Backspace. -/
def deleteBackward (doc : TextDoc) (selection : Selection) (unit : MoveUnit) (style : IndentStyle)
    (nowMs : Nat) : Option (TextDoc × Edited) :=
  deleteSpans doc selection (backwardSpans table doc.rope selection unit style) .delete nowMs

/-- The spans of `delete_forward`. -/
def forwardSpans (rope : Rope) (selection : Selection) (unit : MoveUnit) : List (Nat × Nat) :=
  selection.ranges.map fun range =>
    if !range.isEmpty then (range.lower, range.upper)
    else
      (range.head,
        match unit with
        | .char => min (range.head + 1) rope.length
        | .word => stepWord table rope range.head true)

/-- Delete. -/
def deleteForward (doc : TextDoc) (selection : Selection) (unit : MoveUnit) (nowMs : Nat) :
    Option (TextDoc × Edited) :=
  deleteSpans doc selection (forwardSpans table doc.rope selection unit) .delete nowMs

/-! ## The clipboard -/

/-- How copied text was taken, which decides how it pastes. -/
inductive ClipMode
  | plain
  | fullLine
  | column
deriving DecidableEq, Repr

structure Clip where
  text : List Char
  mode : ClipMode
deriving DecidableEq, Repr

/-- Every range is a bare caret. -/
def allEmpty (selection : Selection) : Bool := selection.ranges.all Range.isEmpty

/-- The line with its break; the last line, which has none, with the one before it. -/
def wholeLineSpan (rope : Rope) (line : Nat) : Nat × Nat :=
  let start := Lines.lineStart rope line
  if line + 1 < Rope.lenLines rope then (start, Rope.lineToChar rope (line + 1))
  else if line > 0 then (start - 1, rope.length)
  else (start, rope.length)

/-- Copy; with nothing selected, the lines of the carets. -/
def copy (rope : Rope) (selection : Selection) (column : Bool) : Clip :=
  let lineOfRange := fun range : Range => Lines.lineOf rope range.head
  if allEmpty selection then
    let lines := (selection.ranges.map lineOfRange).foldl
      (fun seen line => if seen.contains line then seen else seen ++ [line]) []
    { text := (lines.map fun line => Lines.lineText rope line ++ ['\n']).flatten,
      mode := .fullLine }
  else
    let parts := selection.ranges.map fun range =>
      if range.isEmpty then Lines.lineText rope (lineOfRange range)
      else (rope.take range.upper).drop range.lower
    { text := ['\n'].intercalate parts
      mode := if column && selection.ranges.length > 1 then .column else .plain }

/-- The spans of `cut`. -/
def cutSpans (rope : Rope) (selection : Selection) : List (Nat × Nat) :=
  selection.ranges.map fun range =>
    if range.isEmpty then wholeLineSpan rope (Lines.lineOf rope range.head)
    else (range.lower, range.upper)

def cut (doc : TextDoc) (selection : Selection) (column : Bool) (nowMs : Nat) :
    Option (Clip × TextDoc × Edited) :=
  (deleteSpans doc selection (cutSpans doc.rope selection) .other nowMs).map fun result =>
    (copy doc.rope selection column, result)

/-- What `paste` of a clip puts into each range: one row for each where there are as many,
otherwise the whole text. -/
def pasteRow (clip : Clip) (selection : Selection) (i : Nat) : List Char :=
  let rows := clip.text.splitOn '\n'
  if selection.ranges.length > 1 && rows.length = selection.ranges.length then rows.getD i []
  else clip.text

/-- `paste` of a clip into ranges. -/
def pasteEach (doc : TextDoc) (selection : Selection) (clip : Clip) (nowMs : Nat) :
    Option (TextDoc × Edited) :=
  replaceEach doc selection .other nowMs fun i _ =>
    let row := pasteRow clip selection i
    (row, row.length)

end Commands

end Throng.Editor
