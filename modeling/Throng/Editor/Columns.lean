import Throng.Editor.LineStarts
import Throng.Editor.RowsRun

/-!
# Columns

The display column of a position, found by going through the text: a character moves it on
by its width, and one that ends a line takes it back. Columns that differ by whole tab
stops go on doing so, and past a tab or the end of a line it no longer matters where one
began.
-/

namespace Throng.Editor

namespace Rope

/-- Only the last line does not end. -/
theorem succ_lt_lenLines_of_getLast? {rope : Rope} {line : Nat} {raw : List Char}
    (hraw : (lines rope)[line]? = some raw) (hlast : raw.getLast? = some '\n') :
    line + 1 < lenLines rope := by
  induction rope generalizing line raw with
  | nil =>
      cases line with
      | zero =>
          obtain rfl := Option.some.inj hraw
          cases hlast
      | succ line => cases hraw
  | cons c rest ih =>
      cases hends : endsLine c rest with
      | true =>
          rw [lines, if_pos hends] at hraw
          rw [lenLines_cons_of_ends hends]
          cases line with
          | zero => exact Nat.succ_lt_succ (lenLines_pos rest)
          | succ line => exact Nat.succ_lt_succ (ih hraw hlast)
      | false =>
          rw [lines, if_neg (by simp [hends])] at hraw
          rw [lenLines_cons_of_not_ends hends]
          obtain ⟨first, others, hlines⟩ : ∃ first others, lines rest = first :: others :=
            List.exists_cons_of_ne_nil (lines_ne_nil rest)
          rw [hlines, SplitLines.consLine] at hraw
          cases line with
          | zero =>
              obtain rfl := Option.some.inj hraw
              refine @ih 0 first (by rw [hlines]; rfl) ?_
              cases first with
              | nil =>
                  obtain rfl : c = '\n' := by simpa using hlast
                  exact absurd hends (by simp [endsLine, isBreak])
              | cons d first => exact hlast
          | succ line =>
              refine ih ?_ hlast
              rw [hlines]
              exact hraw

/-- A position is not past the text of its line. -/
theorem sub_lineToChar_le {rope : Rope} {pos : Nat} {raw : List Char} (hpos : pos ≤ rope.length)
    (hraw : (lines rope)[charToLine rope pos]? = some raw) :
    pos - lineToChar rope (charToLine rope pos) ≤ (Lines.trimmed raw).length := by
  have hlt := charToLine_lt_lenLines rope pos
  have hsucc := lineToChar_succ hraw
  have hlen := Lines.length_trimmed raw
  rcases Nat.lt_or_ge (charToLine rope pos + 1) (lenLines rope) with hmore | hend
  · have hnext := lt_lineToChar_charToLine hmore
    split at hlen <;> omega
  · have hnot : raw.getLast? ≠ some '\n' := fun hlast => by
      have hmore := succ_lt_lenLines_of_getLast? hraw hlast
      omega
    rw [show charToLine rope pos + 1 = lenLines rope by omega, lineToChar_lenLines] at hsucc
    rw [if_neg hnot] at hlen
    omega

end Rope

namespace Lines

variable (unicodeWidth : Char → Option Nat) (tab : Nat)

/-- The display column of a position within its line. -/
def columnAt (rope : Rope) (pos : Nat) : Nat :=
  displayCol unicodeWidth (lineText rope (lineOf rope pos))
    (pos - lineStart rope (lineOf rope pos)) tab

/-- The column after a text that begins at column `col` and goes on with `rest`. -/
def columnAfter : Nat → List Char → List Char → Nat
  | col, [], _ => col
  | col, c :: text, rest =>
      columnAfter (if Rope.endsLine c (text ++ rest) then 0 else col + charWidth unicodeWidth c col
        tab) text rest

variable {unicodeWidth tab} {col : Nat} {text rest : List Char}

theorem columnAfter_cons (c : Char) :
    columnAfter unicodeWidth tab col (c :: text) rest =
      columnAfter unicodeWidth tab
        (if Rope.endsLine c (text ++ rest) then 0 else col + charWidth unicodeWidth c col tab)
        text rest :=
  rfl

theorem columnAfter_append (more : List Char) :
    columnAfter unicodeWidth tab col (text ++ more) rest =
      columnAfter unicodeWidth tab
        (columnAfter unicodeWidth tab col text (more ++ rest)) more rest := by
  induction text generalizing col with
  | nil => rfl
  | cons c text ih =>
      rw [List.cons_append, columnAfter_cons, columnAfter_cons, List.append_assoc, ih]

theorem columnAfter_eq_fold (rope : Rope) {pos : Nat} (hpos : pos ≤ rope.length) (col : Nat) :
    columnAfter unicodeWidth tab col (rope.take pos) (rope.drop pos) =
      (((Rope.lines rope).getD (Rope.charToLine rope pos) []).take
        (pos - Rope.lineToChar rope (Rope.charToLine rope pos))).foldl
          (fun col c => col + charWidth unicodeWidth c col tab)
            (if Rope.charToLine rope pos = 0 then col else 0) := by
  induction rope generalizing pos col with
  | nil =>
      obtain rfl : pos = 0 := Nat.eq_zero_of_le_zero hpos
      rfl
  | cons c rest ih =>
      cases pos with
      | zero =>
          rw [Rope.charToLine, if_pos rfl]
          rfl
      | succ pos =>
          rw [List.length_cons] at hpos
          rw [List.take_succ_cons, List.drop_succ_cons, columnAfter_cons, List.take_append_drop,
            Rope.charToLine]
          cases hends : Rope.endsLine c rest with
          | true =>
              rw [if_pos rfl, if_pos rfl, ih (by omega), Nat.add_comm 1,
                Rope.lineToChar_cons_of_ends hends, Rope.lines, if_pos hends, List.getD_cons_succ,
                Nat.add_sub_add_right, if_neg (Nat.succ_ne_zero _), ite_self]
          | false =>
              have hle := Rope.lineToChar_charToLine_le rest pos
              obtain ⟨first, others, hlines⟩ : ∃ first others, Rope.lines rest = first :: others :=
                List.exists_cons_of_ne_nil (Rope.lines_ne_nil rest)
              have hlines' : Rope.lines (c :: rest) = (c :: first) :: others := by
                rw [Rope.lines, if_neg (by simp [hends]), hlines, SplitLines.consLine]
              rw [if_neg Bool.false_ne_true, if_neg Bool.false_ne_true, Nat.zero_add,
                ih (by omega), hlines', hlines]
              cases hline : Rope.charToLine rest pos with
              | zero =>
                  rw [Rope.lineToChar_zero, Rope.lineToChar_zero, Nat.sub_zero, Nat.sub_zero,
                    List.getD_cons_zero, List.getD_cons_zero, List.take_succ_cons, List.foldl_cons,
                    if_pos rfl, if_pos rfl]
              | succ line =>
                  rw [hline] at hle
                  rw [Rope.lineToChar_cons_of_not_ends hends, List.getD_cons_succ,
                    List.getD_cons_succ, Nat.add_sub_add_right, if_neg (Nat.succ_ne_zero _),
                    if_neg (Nat.succ_ne_zero _)]

/-- The column of a position is that after the text before it. -/
theorem columnAt_eq (rope : Rope) {pos : Nat} (hpos : pos ≤ rope.length) :
    columnAt unicodeWidth tab rope pos =
      columnAfter unicodeWidth tab 0 (rope.take pos) (rope.drop pos) := by
  obtain ⟨raw, hraw, -, hlt⟩ := exists_line hpos
  have hline : lineOf rope pos = Rope.charToLine rope pos := by
    rw [lineOf, Nat.min_eq_left hpos]
  rw [hline] at hraw hlt
  have hle := Rope.sub_lineToChar_le hpos hraw
  have htake : (trimmed raw).take (pos - Rope.lineToChar rope (Rope.charToLine rope pos)) =
      raw.take (pos - Rope.lineToChar rope (Rope.charToLine rope pos)) := by
    rw [trimmed] at hle ⊢
    split at hle
    · next hlast =>
        rw [if_pos hlast, List.dropLast_eq_take, List.take_take,
          Nat.min_eq_left (by rwa [List.length_dropLast] at hle)]
    · next hlast => rw [if_neg hlast]
  rw [columnAfter_eq_fold rope hpos, ite_self, List.getD_eq_getElem?_getD, hraw, Option.getD_some,
    columnAt, hline, lineText_of_getElem? hraw, lineStart_of_lt hlt, displayCol, htake]

/-! ## Columns up to tab stops -/

theorem charWidth_mod {col' : Nat} (h : col % max tab 1 = col' % max tab 1) (c : Char) :
    (col + charWidth unicodeWidth c col tab) % max tab 1 =
      (col' + charWidth unicodeWidth c col' tab) % max tab 1 := by
  rw [charWidth, charWidth]
  split
  · dsimp only
    rw [Nat.add_mod, h, ← Nat.add_mod]
  · rw [Nat.add_mod, h, ← Nat.add_mod]

theorem columnAfter_mod {col' : Nat} (h : col % max tab 1 = col' % max tab 1)
    (text rest : List Char) : columnAfter unicodeWidth tab col text rest % max tab 1 =
      columnAfter unicodeWidth tab col' text rest % max tab 1 := by
  induction text generalizing col col' with
  | nil => exact h
  | cons c text ih =>
      rw [columnAfter_cons, columnAfter_cons]
      refine ih ?_
      split
      · rfl
      · exact charWidth_mod h c

/-- The text stays in its line and has no tab. -/
def runsOn : List Char → List Char → Bool
  | [], _ => true
  | c :: text, rest => c ≠ '\t' && !Rope.endsLine c (text ++ rest) && runsOn text rest

theorem runsOn_cons_iff {c : Char} : runsOn (c :: text) rest = true ↔
    c ≠ '\t' ∧ Rope.endsLine c (text ++ rest) = false ∧ runsOn text rest = true := by
  rw [runsOn, Bool.and_eq_true, Bool.and_eq_true, decide_eq_true_eq, Bool.not_eq_true', and_assoc]

theorem isBreak_of_runsOn (h : runsOn text rest = true) {c : Char} (hc : c ∈ text) :
    Rope.isBreak c = false := by
  induction text with
  | nil => exact absurd hc List.not_mem_nil
  | cons d text ih =>
      obtain ⟨-, hends, hrest⟩ := runsOn_cons_iff.mp h
      rcases List.mem_cons.mp hc with rfl | hc
      · rw [Rope.endsLine, Bool.or_eq_false_iff] at hends
        exact hends.1
      · exact ih hrest hc

/-- Columns that run on stay as far apart as they are. -/
theorem columnAfter_of_runsOn (h : runsOn text rest = true) (col col' : Nat) :
    columnAfter unicodeWidth tab col text rest + col' =
      columnAfter unicodeWidth tab col' text rest + col := by
  induction text generalizing col col' with
  | nil => exact Nat.add_comm _ _
  | cons c text ih =>
      obtain ⟨htab, hends, hrest⟩ := runsOn_cons_iff.mp h
      have hstep := ih hrest (col + charWidth unicodeWidth c col tab)
        (col' + charWidth unicodeWidth c col' tab)
      have hwidth : charWidth unicodeWidth c col tab = charWidth unicodeWidth c col' tab := by
        rw [charWidth, charWidth, if_neg htab, if_neg htab]
      have hnot : ¬ Rope.endsLine c (text ++ rest) = true := by simp [hends]
      rw [columnAfter_cons, columnAfter_cons, if_neg hnot, if_neg hnot]
      omega

/-- Past a tab or the end of a line it does not matter where a column began. -/
theorem columnAfter_of_not_runsOn (h : runsOn text rest = false) (col col' : Nat) :
    columnAfter unicodeWidth tab col text rest % max tab 1 =
      columnAfter unicodeWidth tab col' text rest % max tab 1 := by
  induction text generalizing col col' with
  | nil => cases h
  | cons c text ih =>
      rw [columnAfter_cons, columnAfter_cons]
      by_cases hends : Rope.endsLine c (text ++ rest) = true
      · rw [if_pos hends, if_pos hends]
      · rw [if_neg hends, if_neg hends]
        by_cases htab : c = '\t'
        · refine columnAfter_mod ?_ _ _
          have hstop (col : Nat) :
              (col + charWidth unicodeWidth c col tab) % max tab 1 = 0 := by
            have hlt := Nat.mod_lt col (show 0 < max tab 1 by omega)
            have hdiv := Nat.div_add_mod col (max tab 1)
            rw [charWidth, if_pos htab]
            dsimp only
            rw [show col + (max tab 1 - col % max tab 1) = max tab 1 * (col / max tab 1 + 1) by
              rw [Nat.mul_add]; omega]
            exact Nat.mul_mod_right _ _
          rw [hstop, hstop]
        · refine ih ?_ _ _
          rw [Bool.eq_false_iff, Ne, runsOn_cons_iff] at h
          exact Bool.eq_false_iff.mpr fun hrest =>
            h ⟨htab, Bool.eq_false_iff.mpr hends, hrest⟩

/-- A column depends on what follows only by an LF after a CR. -/
theorem columnAfter_congr {rest' : List Char} (h : text.getLast? ≠ some '\r' ∨
    (rest.head? = some '\n' ↔ rest'.head? = some '\n')) (col : Nat) :
    columnAfter unicodeWidth tab col text rest = columnAfter unicodeWidth tab col text rest' := by
  induction text generalizing col with
  | nil => rfl
  | cons c text ih =>
      have hends : Rope.endsLine c (text ++ rest) = Rope.endsLine c (text ++ rest') := by
        cases text with
        | nil =>
            rcases h with hcr | hhead
            · have hne : c ≠ '\r' := fun hc => hcr (congrArg some hc)
              rw [Rope.endsLine_of_no_cr hne, Rope.endsLine_of_no_cr hne]
            · exact Rope.endsLine_congr hhead
        | cons d text => exact Rope.endsLine_congr (by rw [List.cons_append, List.cons_append,
            List.head?_cons, List.head?_cons])
      have hnext : text.getLast? ≠ some '\r' ∨
          (rest.head? = some '\n' ↔ rest'.head? = some '\n') := by
        refine h.imp_left fun hlast hcr => hlast ?_
        cases text with
        | nil => cases hcr
        | cons d text => exact hcr
      rw [columnAfter_cons, columnAfter_cons, hends, ih hnext]

/-- A CR that is not before an LF ends its line. -/
theorem columnAfter_of_cr (hcr : text.getLast? = some '\r') (hrest : rest.head? ≠ some '\n')
    (col : Nat) : columnAfter unicodeWidth tab col text rest = 0 := by
  obtain ⟨before, rfl⟩ := List.getLast?_eq_some_iff.mp hcr
  have hends : Rope.endsLine '\r' ([] ++ rest) = true := by
    rw [Rope.endsLine, List.nil_append, decide_eq_true hrest]
    rfl
  rw [columnAfter_append, columnAfter_cons, if_pos hends, columnAfter]

theorem columnAfter_spaces (hspace : unicodeWidth ' ' = some 1) (n col : Nat) (rest : List Char) :
    columnAfter unicodeWidth tab col (List.replicate n ' ') rest = col + n := by
  induction n generalizing col with
  | zero => rfl
  | succ n ih =>
      have hends : Rope.endsLine ' ' (List.replicate n ' ' ++ rest) = false :=
        Rope.endsLine_of_no_cr (by decide) _
      have hwidth : charWidth unicodeWidth ' ' col tab = 1 := by
        rw [charWidth, if_neg (by decide), hspace]
        rfl
      rw [List.replicate_succ, columnAfter_cons, if_neg (by simp [hends]), hwidth, ih]
      omega

/-- A stretch of text runs on when it has no tab and ends in the line in which it begins. -/
theorem runsOn_iff (rope : Rope) {pos later : Nat} (hle : pos ≤ later)
    (hlater : later ≤ rope.length) :
    runsOn ((rope.take later).drop pos) (rope.drop later) = true ↔
      '\t' ∉ (rope.take later).drop pos ∧
        Rope.charToLine rope later = Rope.charToLine rope pos := by
  induction rope generalizing pos later with
  | nil =>
      obtain rfl : later = 0 := Nat.eq_zero_of_le_zero hlater
      obtain rfl : pos = 0 := Nat.eq_zero_of_le_zero hle
      simp [runsOn]
  | cons c rest ih =>
      cases later with
      | zero =>
          obtain rfl : pos = 0 := Nat.eq_zero_of_le_zero hle
          simp [runsOn]
      | succ later =>
          rw [List.length_cons] at hlater
          cases pos with
          | zero =>
              have hrest := @ih 0 later (Nat.zero_le _) (by omega)
              rw [List.drop_zero] at hrest
              rw [List.take_succ_cons, List.drop_succ_cons, List.drop_zero, runsOn_cons_iff,
                List.take_append_drop, hrest, Rope.charToLine, Rope.charToLine, List.mem_cons,
                not_or, Rope.charToLine]
              cases Rope.endsLine c rest with
              | true =>
                  rw [if_pos rfl]
                  constructor
                  · rintro ⟨-, hfalse, -⟩
                    cases hfalse
                  · rintro ⟨-, hline⟩
                    omega
              | false =>
                  rw [if_neg Bool.false_ne_true, Nat.zero_add]
                  simp only [true_and, and_assoc, ne_comm]
          | succ pos =>
              rw [List.take_succ_cons, List.drop_succ_cons, List.drop_succ_cons,
                ih (by omega) (by omega), Rope.charToLine, Rope.charToLine, Nat.add_left_cancel_iff]

end Lines

end Throng.Editor
