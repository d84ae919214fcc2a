import Throng.Editor.Wrap
import Throng.Editor.LineSpans

/-!
# Lines and offsets

Where the lines of a text start and end. A position stands in the line that
`char_to_line` gives: not before its start, and before the start of the next one, if it
is not the last.
-/

namespace Throng.Editor

namespace Rope

/-- `rope.line_to_char(line)`. -/
def lineToChar (rope : Rope) (line : Nat) : Nat := ((lines rope).take line).flatten.length

@[simp] theorem lineToChar_zero (rope : Rope) : lineToChar rope 0 = 0 := rfl

theorem lineToChar_cons_of_ends {c : Char} {rest : Rope} (h : endsLine c rest = true) (line : Nat) :
    lineToChar (c :: rest) (line + 1) = lineToChar rest line + 1 := by
  rw [lineToChar, lines, if_pos h, List.take_succ_cons, List.flatten_cons, List.length_append,
    List.length_singleton, Nat.add_comm]
  rfl

theorem lineToChar_cons_of_not_ends {c : Char} {rest : Rope} (h : endsLine c rest = false)
    (line : Nat) : lineToChar (c :: rest) (line + 1) = lineToChar rest (line + 1) + 1 := by
  rw [lineToChar, lines, if_neg (by simp [h]), lineToChar]
  cases hlines : lines rest with
  | nil => exact absurd hlines (lines_ne_nil rest)
  | cons text texts =>
      rw [SplitLines.consLine, List.take_succ_cons, List.take_succ_cons, List.flatten_cons,
        List.flatten_cons, List.cons_append, List.length_cons]

theorem lenLines_cons_of_ends {c : Char} {rest : Rope} (h : endsLine c rest = true) :
    lenLines (c :: rest) = lenLines rest + 1 := by
  rw [lenLines, lines, if_pos h, List.length_cons]
  rfl

theorem lenLines_cons_of_not_ends {c : Char} {rest : Rope} (h : endsLine c rest = false) :
    lenLines (c :: rest) = lenLines rest := by
  rw [lenLines, lines, if_neg (by simp [h]), lenLines]
  cases hlines : lines rest with
  | nil => exact absurd hlines (lines_ne_nil rest)
  | cons text texts => rfl

theorem lenLines_pos (rope : Rope) : 0 < lenLines rope := List.length_pos_iff.2 (lines_ne_nil rope)

theorem flatten_lines (rope : Rope) : (lines rope).flatten = rope := by
  induction rope with
  | nil => rfl
  | cons c rest ih =>
      rw [lines]
      split
      · rw [List.flatten_cons, ih]
        rfl
      · rw [SplitLines.flatten_consLine, ih]

theorem lineToChar_lenLines (rope : Rope) : lineToChar rope (lenLines rope) = rope.length := by
  rw [lineToChar, lenLines, List.take_length, flatten_lines]

theorem lineToChar_le_length (rope : Rope) (line : Nat) : lineToChar rope line ≤ rope.length := by
  have hjoin := congrArg (fun texts => texts.flatten.length)
    (List.take_append_drop line (lines rope))
  simp only [List.flatten_append, List.length_append, flatten_lines] at hjoin
  rw [lineToChar]
  omega

theorem lineToChar_mono (rope : Rope) {line line' : Nat} (h : line ≤ line') :
    lineToChar rope line ≤ lineToChar rope line' := by
  obtain ⟨more, rfl⟩ := Nat.exists_eq_add_of_le h
  rw [lineToChar, lineToChar, List.take_add, List.flatten_append, List.length_append]
  exact Nat.le_add_right _ _

/-- A line starts where the one before it and its text end. -/
theorem lineToChar_succ {rope : Rope} {line : Nat} {text : List Char}
    (h : (lines rope)[line]? = some text) :
    lineToChar rope (line + 1) = lineToChar rope line + text.length := by
  rw [lineToChar, List.take_add_one, h, Option.toList_some, List.flatten_append,
    List.length_append, List.flatten_singleton]
  rfl

theorem charToLine_lt_lenLines (rope : Rope) (pos : Nat) : charToLine rope pos < lenLines rope := by
  induction rope generalizing pos with
  | nil => cases pos <;> exact Nat.one_pos
  | cons c rest ih =>
      cases pos with
      | zero => exact lenLines_pos _
      | succ pos =>
          have hrest := ih pos
          rw [charToLine]
          cases hends : endsLine c rest with
          | true =>
              rw [lenLines_cons_of_ends hends, if_pos rfl]
              omega
          | false =>
              rw [lenLines_cons_of_not_ends hends, if_neg Bool.false_ne_true]
              omega

/-- A position does not stand before its line. -/
theorem lineToChar_charToLine_le (rope : Rope) (pos : Nat) :
    lineToChar rope (charToLine rope pos) ≤ pos := by
  induction rope generalizing pos with
  | nil => cases pos <;> exact Nat.zero_le _
  | cons c rest ih =>
      cases pos with
      | zero => exact Nat.le_refl 0
      | succ pos =>
          have hrest := ih pos
          rw [charToLine]
          cases hends : endsLine c rest with
          | true =>
              rw [if_pos rfl, Nat.add_comm, lineToChar_cons_of_ends hends]
              exact Nat.succ_le_succ hrest
          | false =>
              rw [if_neg Bool.false_ne_true, Nat.zero_add]
              cases hline : charToLine rest pos with
              | zero => exact Nat.zero_le _
              | succ line =>
                  rw [lineToChar_cons_of_not_ends hends, ← hline]
                  exact Nat.succ_le_succ hrest

/-- A position stands before the next line. -/
theorem lt_lineToChar_charToLine {rope : Rope} {pos : Nat}
    (h : charToLine rope pos + 1 < lenLines rope) :
      pos < lineToChar rope (charToLine rope pos + 1) := by
  induction rope generalizing pos with
  | nil =>
      rw [show lenLines [] = 1 from rfl] at h
      omega
  | cons c rest ih =>
      cases hends : endsLine c rest with
      | true =>
          cases pos with
          | zero =>
              rw [charToLine, lineToChar_cons_of_ends hends]
              exact Nat.succ_pos _
          | succ pos =>
              rw [charToLine, hends, if_pos rfl, lenLines_cons_of_ends hends] at h
              have hrest := @ih pos (by omega)
              rw [charToLine, hends, if_pos rfl, lineToChar_cons_of_ends hends,
                Nat.add_comm 1]
              omega
      | false =>
          rw [lineToChar_cons_of_not_ends hends]
          cases pos with
          | zero => exact Nat.succ_pos _
          | succ pos =>
              rw [charToLine, hends, if_neg Bool.false_ne_true, Nat.zero_add,
                lenLines_cons_of_not_ends hends] at h
              rw [charToLine, hends, if_neg Bool.false_ne_true, Nat.zero_add]
              exact Nat.succ_lt_succ (ih h)

/-- Every line but the last holds what ends it. -/
theorem ne_nil_of_lt_lenLines {rope : Rope} {line : Nat} {text : List Char}
    (h : line + 1 < lenLines rope) (htext : (lines rope)[line]? = some text) : text ≠ [] := by
  induction rope generalizing line text with
  | nil =>
      rw [show lenLines [] = 1 from rfl] at h
      omega
  | cons c rest ih =>
      cases hends : endsLine c rest with
      | true =>
          rw [lenLines_cons_of_ends hends] at h
          rw [lines, if_pos hends] at htext
          cases line with
          | zero =>
              obtain rfl := Option.some.inj htext
              exact List.cons_ne_nil _ _
          | succ line => exact ih (by omega) htext
      | false =>
          rw [lenLines_cons_of_not_ends hends] at h
          rw [lines, if_neg (by simp [hends])] at htext
          cases hlines : lines rest with
          | nil => exact absurd hlines (lines_ne_nil rest)
          | cons first others =>
              rw [hlines, SplitLines.consLine] at htext
              cases line with
              | zero =>
                  obtain rfl := Option.some.inj htext
                  exact List.cons_ne_nil _ _
              | succ line =>
                  refine ih h ?_
                  rw [hlines]
                  exact htext

/-- A position between the start of a line and that of the next stands in it. -/
theorem charToLine_eq_of_between {rope : Rope} {pos line : Nat} (hline : line < lenLines rope)
    (hlow : lineToChar rope line ≤ pos) (hhigh : line + 1 < lenLines rope →
      pos < lineToChar rope (line + 1)) : charToLine rope pos = line := by
  have hbefore := lineToChar_charToLine_le rope pos
  have hlt := charToLine_lt_lenLines rope pos
  rcases Nat.lt_trichotomy (charToLine rope pos) line with hless | heq | hmore
  · have hnext := @lt_lineToChar_charToLine rope pos (by omega)
    have hmono := lineToChar_mono rope (show charToLine rope pos + 1 ≤ line from hless)
    omega
  · exact heq
  · have hnext := hhigh (by omega)
    have hmono := lineToChar_mono rope (show line + 1 ≤ charToLine rope pos from hmore)
    omega

end Rope

/-- How a character groups for word movement and double-click. -/
inductive CharClass
  | word
  | space
  | newline
  | punctuation
deriving DecidableEq, Repr

/-- `char::is_whitespace` and `char::is_alphanumeric`. -/
structure CharTable where
  isWhitespace : Char → Bool
  isAlphanumeric : Char → Bool

/-- Letters as in ASCII. -/
def asciiTable : CharTable where
  isWhitespace := Char.isWhitespace
  isAlphanumeric := Char.isAlphanum

namespace Lines

/-- `class`. -/
def charClass (table : CharTable) (c : Char) : CharClass :=
  if c = '\n' then .newline
  else if table.isWhitespace c then .space
  else if table.isAlphanumeric c || c = '_' then .word
  else .punctuation

/-- The line holding character offset `pos`. -/
def lineOf (rope : Rope) (pos : Nat) : Nat := Rope.charToLine rope (min pos rope.length)

/-- Offset of the first character of `line`. -/
def lineStart (rope : Rope) (line : Nat) : Nat :=
  Rope.lineToChar rope (min line (Rope.lenLines rope - 1))

/-- Offset just before the line's LF, or the end of the document. -/
def lineEnd (rope : Rope) (line : Nat) : Nat :=
  let line := min line (Rope.lenLines rope - 1)
  let slice := (Rope.lines rope).getD line []
  let trailing := if slice.getLast? = some '\n' then 1 else 0
  Rope.lineToChar rope line + slice.length - trailing

/-- The leading whitespace of a line's text. -/
def leadingWhitespace (line : List Char) : List Char := line.takeWhile fun c => c = ' ' || c = '\t'

variable (unicodeWidth : Char → Option Nat)

/-- Display column of character `index` within `line`. -/
def displayCol (line : List Char) (index tab : Nat) : Nat :=
  (line.take index).foldl (fun col c => col + charWidth unicodeWidth c col tab) 0

/-- The loop of `index_at_col` from character `index` at column `col`. -/
def indexFrom (target tab : Nat) : List Char → Nat → Nat → Nat
  | [], index, _ => index
  | c :: line, index, col =>
      let w := charWidth unicodeWidth c col tab
      if col + w > target then
        if target - col > w / 2 ∧ w > 1 then index + 1 else index
      else indexFrom target tab line (index + 1) (col + w)

/-- The character index in `line` nearest display column `target`. -/
def indexAtCol (line : List Char) (target tab : Nat) : Nat :=
  indexFrom unicodeWidth target tab line 0 0

variable {rope : Rope} {pos : Nat}

theorem lineOf_lt (rope : Rope) (pos : Nat) : lineOf rope pos < Rope.lenLines rope :=
  Rope.charToLine_lt_lenLines _ _

theorem lineStart_of_lt {line : Nat} (h : line < Rope.lenLines rope) :
    lineStart rope line = Rope.lineToChar rope line := by
  rw [lineStart, Nat.min_eq_left (by omega)]

theorem lineStart_lineOf_le (hpos : pos ≤ rope.length) :
    lineStart rope (lineOf rope pos) ≤ pos := by
  rw [lineStart_of_lt (lineOf_lt rope pos), lineOf, Nat.min_eq_left hpos]
  exact Rope.lineToChar_charToLine_le rope pos

theorem lt_lineStart_succ (hpos : pos ≤ rope.length)
    (h : lineOf rope pos + 1 < Rope.lenLines rope) :
    pos < Rope.lineToChar rope (lineOf rope pos + 1) := by
  rw [lineOf, Nat.min_eq_left hpos] at h ⊢
  exact Rope.lt_lineToChar_charToLine h

end Lines

end Throng.Editor
