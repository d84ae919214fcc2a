import Throng.Lib.SplitLines

/-!
# The rope

The text of a document as `ropey` holds it: here the list of its characters. An
operation outside the text panics in the source and answers `none` here.

Lines are `ropey`'s, which end at LF, VT, FF, NEL, LS, PS and at a CR that no LF
follows; CR LF ends one line. Every line keeps its terminator and a text always has
a last line without one. Without CRs whether a character ends a line does not depend
on what follows it, and the lines are those of the library.
-/

namespace Throng.Editor

abbrev Rope := List Char

/-- `text.len()`, in bytes. -/
def utf8Len (text : List Char) : Nat := text.foldl (fun len c => len + c.utf8Size) 0

namespace Rope

/-- `rope.remove(start..stop)`. -/
def remove (rope : Rope) (start stop : Nat) : Option Rope :=
  if start ≤ stop ∧ stop ≤ rope.length then some (rope.take start ++ rope.drop stop) else none

/-- `rope.insert(offset, text)`. -/
def insert (rope : Rope) (offset : Nat) (text : List Char) : Option Rope :=
  if offset ≤ rope.length then some (rope.take offset ++ text ++ rope.drop offset) else none

/-- `rope.slice(start..stop)`. -/
def slice (rope : Rope) (start stop : Nat) : Option (List Char) :=
  if start ≤ stop ∧ stop ≤ rope.length then some ((rope.take stop).drop start) else none

/-- The characters that end a line whatever follows. -/
def isBreak (c : Char) : Bool :=
  c = '\n' || c = '\x0B' || c = '\x0C' || c = '\u0085' || c = '\u2028' || c = '\u2029'

/-- Whether `c` ends a line when `rest` follows it. -/
def endsLine (c : Char) (rest : List Char) : Bool :=
  isBreak c || (c = '\r' && rest.head? ≠ some '\n')

/-- The lines of a text, each with its terminator. -/
def lines : Rope → List (List Char)
  | [] => [[]]
  | c :: rest =>
      if endsLine c rest then [c] :: lines rest else SplitLines.consLine c (lines rest)

def lenLines (rope : Rope) : Nat := (lines rope).length

/-- `rope.char_to_line(i)` for `i ≤ len_chars()`: the line ends before `i`. -/
def charToLine : Rope → Nat → Nat
  | _, 0 => 0
  | [], _ + 1 => 0
  | c :: rest, i + 1 => (if endsLine c rest then 1 else 0) + charToLine rest i

theorem endsLine_of_no_cr {c : Char} (h : c ≠ '\r') (rest : List Char) :
    endsLine c rest = isBreak c := by
  simp [endsLine, h]

theorem lines_eq_split {rope : Rope} (h : '\r' ∉ rope) :
    lines rope = SplitLines.split isBreak rope := by
  induction rope with
  | nil => rfl
  | cons c rest ih =>
      rw [List.mem_cons, not_or] at h
      rw [lines, SplitLines.split, endsLine_of_no_cr (Ne.symm h.1), ih h.2]

theorem charToLine_eq {rope : Rope} (h : '\r' ∉ rope) (i : Nat) :
    charToLine rope i = SplitLines.lineOf isBreak rope i := by
  induction rope generalizing i with
  | nil => cases i <;> rfl
  | cons c rest ih =>
      rw [List.mem_cons, not_or] at h
      cases i with
      | zero => rfl
      | succ i =>
          rw [charToLine, endsLine_of_no_cr (Ne.symm h.1), ih h.2, SplitLines.lineOf,
            SplitLines.lineOf, List.take_succ_cons, List.countP_cons, Nat.add_comm]

end Rope

end Throng.Editor
