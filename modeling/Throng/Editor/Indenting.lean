import Throng.Editor.Commands

/-!
# Indenting

Tab and Shift-Tab. With something selected they indent and outdent the lines that the
selection touches, each once; with bare carets Tab goes to the next tab stop.
-/

namespace Throng.Editor

namespace Lines

/-- Characters in the line, without its LF. -/
def lineLen (rope : Rope) (line : Nat) : Nat := lineEnd rope line - lineStart rope line

end Lines

namespace Commands

/-- `Vec::dedup`. -/
def dedup : List Nat → List Nat
  | [] => []
  | [line] => [line]
  | line :: next :: rest =>
      if line = next then dedup (next :: rest) else line :: dedup (next :: rest)

/-- The lines a range touches: one that ends at the start of a line does not touch it. -/
def touchedBy (rope : Rope) (range : Range) : List Nat :=
  let first := Lines.lineOf rope range.lower
  let last := Lines.lineOf rope range.upper
  let last := if last > first ∧ range.upper = Lines.lineStart rope last then last - 1 else last
  List.range' first (last + 1 - first)

/-- Every line a selection touches, once each. -/
def touchedLines (rope : Rope) (selection : Selection) : List Nat :=
  dedup ((selection.ranges.flatMap (touchedBy rope)).mergeSort fun a b => a ≤ b)

/-- The lines that are indented: of several the empty ones are not. -/
def indentedLines (rope : Rope) (selection : Selection) : List Nat :=
  let touched := touchedLines rope selection
  touched.filter fun line => !(touched.length > 1 && Lines.lineLen rope line = 0)

def indentEdits (rope : Rope) (selection : Selection) (style : IndentStyle) :
    List (Nat × Nat × List Char) :=
  (indentedLines rope selection).map fun line =>
    let start := Lines.lineStart rope line
    (start, start, style.unit)

/-- A range once `tx` has indented its lines. One that starts at the start of a line keeps
covering the new indentation. -/
def indented (rope : Rope) (tx : Transaction) (range : Range) : Range :=
  let atStart := range.lower = Lines.lineStart rope (Lines.lineOf rope range.lower)
  let keepStart := decide atStart && !range.isEmpty
  let lower := tx.map range.lower (!keepStart)
  let upper := max (tx.map range.upper true) lower
  if range.anchor ≤ range.head then Range.new lower upper else Range.new upper lower

/-- Indent every touched line by one level. -/
def indentLines (doc : TextDoc) (selection : Selection) (style : IndentStyle) (nowMs : Nat) :
    Option (TextDoc × Edited) :=
  (Transaction.replace doc.rope (indentEdits doc.rope selection style)).bind fun tx =>
    let after := selection.transform (indented doc.rope tx)
    (doc.edit tx selection after .other nowMs).map fun result =>
      (result.1, { applied := result.2, selection := after })

/-- How many characters of a line are up to one level of its indentation. -/
def levelOf (style : IndentStyle) (text : List Char) : Nat :=
  if text.head? = some '\t' then 1
  else ((text.take (max style.width 1)).takeWhile fun c => c = ' ').length

def outdentEdits (rope : Rope) (selection : Selection) (style : IndentStyle) :
    List (Nat × Nat × List Char) :=
  (touchedLines rope selection).filterMap fun line =>
    let start := Lines.lineStart rope line
    let n := levelOf style (Lines.lineText rope line)
    if n > 0 then some (start, start + n, []) else none

/-- Remove up to one level of indentation from every touched line. -/
def outdentLines (doc : TextDoc) (selection : Selection) (style : IndentStyle) (nowMs : Nat) :
    Option (TextDoc × Edited) :=
  (Transaction.replace doc.rope (outdentEdits doc.rope selection style)).bind fun tx =>
    let after := selection.map tx
    (doc.edit tx selection after .other nowMs).map fun result =>
      (result.1, { applied := result.2, selection := after })

/-- What Tab puts at a bare caret, and how far in the caret goes. -/
def tabAt (unicodeWidth : Char → Option Nat) (rope : Rope) (style : IndentStyle) (range : Range) :
    List Char × Nat :=
  if style.tabs then (['\t'], 1)
  else
    let line := Lines.lineOf rope range.head
    let col := Lines.displayCol unicodeWidth (Lines.lineText rope line)
      (range.head - Lines.lineStart rope line) style.width
    let width := max style.width 1
    let n := width - col % width
    (List.replicate n ' ', n)

/-- Tab. -/
def insertTab (unicodeWidth : Char → Option Nat) (doc : TextDoc) (selection : Selection)
    (style : IndentStyle) (nowMs : Nat) : Option (TextDoc × Edited) :=
  if allEmpty selection then
    replaceEach doc selection .insert nowMs fun _ range => tabAt unicodeWidth doc.rope style range
  else indentLines doc selection style nowMs

end Commands

end Throng.Editor
