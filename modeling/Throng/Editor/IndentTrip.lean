import Throng.Editor.CommandsRun
import Throng.Editor.LineStarts
import Throng.Editor.RowsRun

/-!
# Indenting and outdenting

Outdenting takes back what indenting put in. The lines a selection touches are those its
carets stand in and those of which it covers a character; a selection that goes along with
the indentation touches the same lines, and the empty ones that were left out have no
indentation to lose.
-/

namespace Throng.Editor

namespace Selection

/-! ## Where a selection holds the text -/

/-- The position is that of a caret, or its character is covered. -/
def Held (ranges : List Range) (pos : Nat) : Prop :=
  ∃ range ∈ ranges, range.Covers pos ∨ (range.isEmpty = true ∧ range.lower = pos)

theorem held_iff {ranges : List Range}
    (hbare : ∀ range ∈ ranges, range.isEmpty = true → BareCaret ranges range.lower) (pos : Nat) :
    Held ranges pos ↔ (∃ range ∈ ranges, range.Covers pos) ∨ BareCaret ranges pos := by
  constructor
  · rintro ⟨range, hrange, hcovers | ⟨hempty, rfl⟩⟩
    · exact .inl ⟨range, hrange, hcovers⟩
    · exact .inr (hbare range hrange hempty)
  · rintro (⟨range, hrange, hcovers⟩ | ⟨⟨range, hrange, hlower, hupper⟩, -⟩)
    · exact ⟨range, hrange, .inl hcovers⟩
    · exact ⟨range, hrange, .inr ⟨(range.isEmpty_eq_true).2 (hlower.trans hupper.symm), hlower⟩⟩

/-- Two ranges of a normal form are one, or one follows the other. -/
theorem Normal.eq_or_follows {ranges : List Range} (h : Normal ranges) {a b : Range}
    (ha : a ∈ ranges) (hb : b ∈ ranges) : a = b ∨ a.Follows b ∨ b.Follows a := by
  obtain ⟨i, hi, rfl⟩ := List.getElem_of_mem ha
  obtain ⟨j, hj, rfl⟩ := List.getElem_of_mem hb
  rcases Nat.lt_trichotomy i j with hlt | rfl | hgt
  · exact .inr (.inl (List.pairwise_iff_getElem.mp h i j hi hj hlt))
  · exact .inl rfl
  · exact .inr (.inr (List.pairwise_iff_getElem.mp h j i hj hi hgt))

/-- A caret of a normal form is apart from every other range. -/
theorem Normal.apart {ranges : List Range} (h : Normal ranges) {caret other : Range}
    (hcaret : caret ∈ ranges) (hempty : caret.isEmpty = true) (hother : other ∈ ranges) :
    other = caret ∨ other.upper < caret.lower ∨ caret.lower < other.lower := by
  have hsame := (caret.isEmpty_eq_true).1 hempty
  rcases h.eq_or_follows hcaret hother with rfl | hfollows | hfollows
  · exact .inl rfl
  · rw [Range.Follows, Range.isEmpty_eq_false, Range.isEmpty_eq_false] at hfollows
    exact .inr (.inr (by omega))
  · rw [Range.Follows, Range.isEmpty_eq_false, Range.isEmpty_eq_false] at hfollows
    exact .inr (.inl (by omega))

theorem Normal.bareCaret {ranges : List Range} (h : Normal ranges) {caret : Range}
    (hcaret : caret ∈ ranges) (hempty : caret.isEmpty = true) : BareCaret ranges caret.lower := by
  have hsame := (caret.isEmpty_eq_true).1 hempty
  refine ⟨⟨caret, hcaret, rfl, hsame.symm⟩, fun other hother htouches => ?_⟩
  rw [Range.Touches] at htouches
  rcases h.apart hcaret hempty hother with rfl | hbefore | hafter
  · exact ⟨rfl, hsame.symm⟩
  · omega
  · omega

/-- Bringing ranges into normal form keeps what they hold, when no caret touches a range. -/
theorem held_new {ranges : List Range} (primary : Nat) (h : ranges ≠ [])
    (hbare : ∀ range ∈ ranges, range.isEmpty = true → BareCaret ranges range.lower) (pos : Nat) :
    Held (new ranges primary h).ranges pos ↔ Held ranges pos := by
  have hnorm := new_normalised ranges primary h
  rw [held_iff hbare, held_iff fun range hrange hempty => hnorm.normal.bareCaret hrange hempty,
    hnorm.covers, hnorm.carets]

end Selection

namespace Commands

open Selection (Held Normal BareCaret)

/-! ## The lines touched -/

theorem mem_dedup {lines : List Nat} {line : Nat} : line ∈ dedup lines ↔ line ∈ lines := by
  fun_induction dedup lines with
  | case1 => rfl
  | case2 => rfl
  | case3 next rest ih => simp [ih]
  | case4 first next rest hne ih => simp [ih]

theorem dedup_order {lines : List Nat} (h : lines.Pairwise (· ≤ ·)) :
    (dedup lines).Pairwise (· < ·) := by
  fun_induction dedup lines with
  | case1 => exact .nil
  | case2 line => exact List.pairwise_singleton _ _
  | case3 next rest ih => exact ih (List.pairwise_cons.mp h).2
  | case4 first next rest hne ih =>
      obtain ⟨hfirst, hrest⟩ := List.pairwise_cons.mp h
      refine List.pairwise_cons.mpr ⟨fun line hline => ?_, ih hrest⟩
      have hnext := hfirst next List.mem_cons_self
      rcases List.mem_cons.mp (mem_dedup.mp hline) with rfl | hline
      · omega
      · have hle := (List.pairwise_cons.mp hrest).1 line hline
        omega

theorem touchedLines_order (rope : Rope) (selection : Selection) :
    (touchedLines rope selection).Pairwise (· < ·) := by
  refine dedup_order ?_
  have hsorted := @List.pairwise_mergeSort _ (fun a b : Nat => decide (a ≤ b))
    (fun a b c hab hbc => by simp only [decide_eq_true_eq] at *; omega)
    (fun a b => by simp only [Bool.or_eq_true, decide_eq_true_eq]; omega)
    (selection.ranges.flatMap (touchedBy rope))
  exact hsorted.imp fun h => of_decide_eq_true h

/-- The lines of a range: the one it starts in, and those that start before it ends. -/
theorem mem_touchedBy {rope : Rope} {range : Range} {line : Nat} :
    line ∈ touchedBy rope range ↔ Lines.lineOf rope range.lower ≤ line ∧ line < Rope.lenLines rope ∧
      (line = Lines.lineOf rope range.lower ∨ Rope.lineToChar rope line < range.upper) := by
  have hfirst := Lines.lineOf_mono rope range.lower_le_upper
  have hlast := Lines.lineOf_lt rope range.upper
  have hstart := Lines.lineToChar_lineOf_le rope range.upper
  rw [touchedBy, List.mem_range'_1]
  rw [Lines.lineStart_of_lt hlast]
  constructor
  · rintro ⟨hle, hlt⟩
    have hline : line ≤ Lines.lineOf rope range.upper := by
      split at hlt <;> omega
    refine ⟨hle, by omega, ?_⟩
    by_contra hnot
    rw [not_or, Nat.not_lt] at hnot
    have hmono := Rope.lineToChar_mono rope hline
    rw [if_pos ⟨by omega, by omega⟩] at hlt
    have hless := @Rope.lineToChar_lt rope line (Lines.lineOf rope range.upper) (by omega) hlast
    omega
  · rintro ⟨hle, hlt, heq | hbefore⟩
    · split <;> omega
    · have hline : line ≤ Lines.lineOf rope range.upper := by
        have hsame := Lines.lineOf_mono rope (Nat.le_of_lt hbefore)
        rwa [Lines.lineOf_lineToChar hlt] at hsame
      have hne (h : range.upper = Rope.lineToChar rope (Lines.lineOf rope range.upper)) :
          line ≠ Lines.lineOf rope range.upper := by
        rintro rfl
        omega
      split
      · next h =>
          have hline' := hne h.2
          omega
      · omega

theorem mem_touchedLines {rope : Rope} {selection : Selection} {line : Nat} :
    line ∈ touchedLines rope selection ↔
      ∃ range ∈ selection.ranges, line ∈ touchedBy rope range := by
  rw [touchedLines, mem_dedup, List.mem_mergeSort, List.mem_flatMap]

/-- Ranges touch a line where they hold something of it. -/
theorem exists_touchedBy_iff {rope : Rope} {ranges : List Range} {line : Nat} :
    (∃ range ∈ ranges, line ∈ touchedBy rope range) ↔
      ∃ pos, Held ranges pos ∧ Lines.lineOf rope pos = line := by
  constructor
  · rintro ⟨range, hrange, hline⟩
    obtain ⟨hle, hlt, hor⟩ := mem_touchedBy.mp hline
    have hspan := range.lower_le_upper
    rcases Nat.eq_or_lt_of_le hle with rfl | hless
    · refine ⟨range.lower, ⟨range, hrange, ?_⟩, rfl⟩
      rcases Nat.eq_or_lt_of_le hspan with hsame | hspan
      · exact .inr ⟨(range.isEmpty_eq_true).2 hsame, rfl⟩
      · exact .inl ⟨Nat.le_refl _, hspan⟩
    · have hbefore := hor.resolve_left (Nat.ne_of_gt hless)
      refine ⟨Rope.lineToChar rope line, ⟨range, hrange, .inl ⟨?_, hbefore⟩⟩,
        Lines.lineOf_lineToChar hlt⟩
      by_contra hgt
      have hmono := Lines.lineOf_mono rope (Nat.le_of_not_le hgt)
      rw [Lines.lineOf_lineToChar hlt] at hmono
      omega
  · rintro ⟨pos, ⟨range, hrange, hheld⟩, rfl⟩
    refine ⟨range, hrange, mem_touchedBy.mpr ?_⟩
    have hlt := Lines.lineOf_lt rope pos
    rcases hheld with ⟨hlower, hupper⟩ | ⟨-, rfl⟩
    · have hstart := Lines.lineToChar_lineOf_le rope pos
      exact ⟨Lines.lineOf_mono rope hlower, hlt, .inr (by omega)⟩
    · exact ⟨Nat.le_refl _, hlt, .inl rfl⟩

/-! ## Going along with the indentation -/

section

open Rope (lineToChar lenLines withFronts Unbroken)

variable {rope : Rope} {tx : Transaction} {marked : List Nat} {new : List Char}

theorem indented_bounds (rope : Rope) (tx : Transaction) (range : Range) :
    (indented rope tx range).lower = tx.map range.lower
        (!(decide (range.lower = Lines.lineStart rope (Lines.lineOf rope range.lower)) &&
          !range.isEmpty)) ∧
      (indented rope tx range).upper =
        max (tx.map range.upper true) (indented rope tx range).lower := by
  rw [indented]
  split
  · rw [Selection.lower_new, Selection.upper_new]
    omega
  · rw [Selection.lower_new, Selection.upper_new]
    omega

/-- A range that is not a caret starts before what is put in where it starts. -/
theorem lower_indented (h : Fronts rope marked new tx) {range : Range}
    (hrange : range.isEmpty = false) :
    (indented rope tx range).lower = tx.map range.lower false := by
  rw [(indented_bounds rope tx range).1, hrange, Bool.not_false, Bool.and_true]
  by_cases hstart : range.lower = Lines.lineStart rope (Lines.lineOf rope range.lower)
  · rw [decide_eq_true hstart, Bool.not_true]
  · rw [decide_eq_false hstart, Bool.not_false]
    refine Transaction.map_eq_of_notMem h.nonempty (Fronts.places_order h.order h.within)
      (Fronts.places_within marked) h.replace fun hmem => ?_
    obtain ⟨line, hline, hplace⟩ := List.mem_map.mp hmem
    refine hstart ?_
    rw [← hplace, Lines.lineOf_lineToChar (h.within line hline),
      Lines.lineStart_of_lt (h.within line hline)]

theorem upper_indented (h : Fronts rope marked new tx) {range : Range}
    (hrange : range.isEmpty = false) :
    (indented rope tx range).upper = tx.map range.upper true := by
  have hlt := h.map_lt ((range.isEmpty_eq_false).1 hrange)
  have hlower := h.map_false_le range.lower
  have hupper := h.map_false_le range.upper
  rw [(indented_bounds rope tx range).2, lower_indented h hrange]
  omega

/-- A caret goes after what is put in where it stands. -/
theorem indented_caret (rope : Rope) (tx : Transaction) {range : Range}
    (hrange : range.isEmpty = true) :
    (indented rope tx range).lower = tx.map range.lower true ∧
      (indented rope tx range).upper = tx.map range.lower true := by
  have hsame := (range.isEmpty_eq_true).1 hrange
  obtain ⟨hlower, hupper⟩ := indented_bounds rope tx range
  rw [hrange, Bool.not_true, Bool.and_false, Bool.not_false] at hlower
  rw [hlower, ← hsame, Nat.max_self] at hupper
  exact ⟨hlower, hupper⟩

theorem isEmpty_indented (h : Fronts rope marked new tx) (range : Range) :
    (indented rope tx range).isEmpty = range.isEmpty := by
  cases hrange : range.isEmpty with
  | true =>
      obtain ⟨hlower, hupper⟩ := indented_caret rope tx hrange
      rw [Range.isEmpty_eq_true, hlower, hupper]
  | false =>
      have hlt := h.map_lt ((range.isEmpty_eq_false).1 hrange)
      have hlower := h.map_false_le range.lower
      have hupper := h.map_false_le range.upper
      rw [Range.isEmpty_eq_false, lower_indented h hrange, upper_indented h hrange]
      omega

theorem lineOf_lower_indented (h : Fronts rope marked new tx) (range : Range) :
    Lines.lineOf (withFronts rope marked new) (indented rope tx range).lower =
      Lines.lineOf rope range.lower := by
  rw [(indented_bounds rope tx range).1, h.lineOf_map]

/-- A range that goes along touches the lines it touched, and at most one that is marked. -/
theorem mem_touchedBy_indented (h : Fronts rope marked new tx) {range : Range} {line : Nat} :
    (line ∈ touchedBy rope range →
        line ∈ touchedBy (withFronts rope marked new) (indented rope tx range)) ∧
      (line ∈ touchedBy (withFronts rope marked new) (indented rope tx range) →
        line ∈ touchedBy rope range ∨ line ∈ marked) := by
  rw [mem_touchedBy, mem_touchedBy, lineOf_lower_indented h, Rope.lenLines_withFronts h.unbroken]
  constructor
  · rintro ⟨hle, hlt, heq | hbefore⟩
    · exact ⟨hle, hlt, .inl heq⟩
    · refine ⟨hle, hlt, (Nat.eq_or_lt_of_le hle).imp Eq.symm fun hless => ?_⟩
      have hrange : range.isEmpty = false := by
        rw [Range.isEmpty_eq_false]
        by_contra hge
        have hmono := Lines.lineOf_mono rope (show lineToChar rope line ≤ range.lower by omega)
        rw [Lines.lineOf_lineToChar hlt] at hmono
        omega
      have hmap := h.map_lt hbefore
      have hfalse := h.map_false_le (lineToChar rope line)
      have hupper := h.map_false_le range.upper
      rw [h.map_lineToChar hlt] at hfalse
      rw [upper_indented h hrange]
      omega
  · rintro ⟨hle, hlt, heq | hbefore⟩
    · exact .inl ⟨hle, hlt, .inl heq⟩
    · cases hrange : range.isEmpty with
      | true =>
          -- the line starts before the caret, so not after its line
          have hsame := Lines.lineOf_mono (withFronts rope marked new) (Nat.le_of_lt hbefore)
          rw [Lines.lineOf_lineToChar (by rwa [Rope.lenLines_withFronts h.unbroken]),
            (indented_caret rope tx hrange).2, h.lineOf_map] at hsame
          exact .inl ⟨hle, hlt, .inl (Nat.le_antisymm hsame hle)⟩
      | false =>
          rw [upper_indented h hrange, ← h.map_lineToChar hlt] at hbefore
          rcases Nat.lt_trichotomy (lineToChar rope line) range.upper with hless | heq | hmore
          · exact .inl ⟨hle, hlt, .inr hless⟩
          · right
            by_contra hmark
            rw [← heq, h.map_true_lineToChar hlt hmark, h.map_lineToChar hlt] at hbefore
            exact Nat.lt_irrefl _ hbefore
          · have hmap := h.map_lt hmore
            omega

/-- Carets that go along stay apart from the other ranges. -/
theorem bareCaret_indented (h : Fronts rope marked new tx) {ranges : List Range}
    (hnormal : Normal ranges) {caret : Range} (hcaret : caret ∈ ranges.map (indented rope tx))
    (hempty : caret.isEmpty = true) :
    BareCaret (ranges.map (indented rope tx)) caret.lower := by
  refine ⟨⟨caret, hcaret, rfl, ((caret.isEmpty_eq_true).1 hempty).symm⟩, ?_⟩
  intro other hother htouches
  obtain ⟨range, hrange, rfl⟩ := List.mem_map.mp hcaret
  obtain ⟨range', hrange', rfl⟩ := List.mem_map.mp hother
  rw [isEmpty_indented h] at hempty
  obtain ⟨hlower, hupper⟩ := indented_caret rope tx hempty
  rw [Range.Touches, hlower] at htouches
  rw [hlower]
  rcases hnormal.apart hrange hempty hrange' with rfl | hbefore | hafter
  · exact ⟨hlower, hupper⟩
  · have hmap := h.map_lt hbefore
    have hle := h.map_false_le range.lower
    have hfalse := h.map_false_le range'.upper
    cases hempty' : range'.isEmpty with
    | true =>
        have hupper' := (indented_caret rope tx hempty').2
        rw [(range'.isEmpty_eq_true).1 hempty'] at hupper'
        omega
    | false =>
        rw [upper_indented h hempty'] at htouches
        omega
  · have hmap := h.map_lt hafter
    have hfalse := h.map_false_le range'.lower
    cases hempty' : range'.isEmpty with
    | true =>
        have hlower' := (indented_caret rope tx hempty').1
        omega
    | false =>
        rw [lower_indented h hempty'] at htouches
        omega

/-- The selection that goes along touches the same lines. -/
theorem touchedLines_indented (h : Fronts rope marked new tx) {selection : Selection}
    (hnormal : Normal selection.ranges)
    (hmarked : ∀ line ∈ marked, line ∈ touchedLines rope selection) :
    touchedLines (withFronts rope marked new) (selection.transform (indented rope tx)) =
      touchedLines rope selection := by
  refine List.Perm.eq_of_pairwise (fun a b _ _ hab hba => absurd hba (Nat.lt_asymm hab))
    (touchedLines_order _ _) (touchedLines_order _ _) ?_
  refine (List.perm_ext_iff_of_nodup ((touchedLines_order _ _).imp Nat.ne_of_lt)
    ((touchedLines_order _ _).imp Nat.ne_of_lt)).mpr fun line => ?_
  rw [mem_touchedLines, mem_touchedLines, exists_touchedBy_iff, Selection.transform]
  simp only [Selection.held_new _ _ fun caret hcaret hempty =>
    bareCaret_indented h hnormal hcaret hempty]
  rw [← exists_touchedBy_iff]
  constructor
  · rintro ⟨mapped, hmapped, hline⟩
    obtain ⟨range, hrange, rfl⟩ := List.mem_map.mp hmapped
    rcases (mem_touchedBy_indented h).2 hline with htouched | hmark
    · exact ⟨range, hrange, htouched⟩
    · exact mem_touchedLines.mp (hmarked line hmark)
  · rintro ⟨range, hrange, hline⟩
    exact ⟨_, List.mem_map_of_mem hrange, (mem_touchedBy_indented h).1 hline⟩

end

/-! ## The text -/

section

open Rope (lineToChar lenLines withFronts Unbroken)

variable {rope : Rope} {selection : Selection} {style : IndentStyle} {line : Nat}

theorem unit_unbroken (style : IndentStyle) : Unbroken style.unit := by
  intro c hc
  rw [IndentStyle.unit] at hc
  split at hc
  · obtain rfl := List.mem_singleton.mp hc
    decide
  · obtain rfl := List.eq_of_mem_replicate hc
    decide

theorem unit_ne_nil (style : IndentStyle) : style.unit ≠ [] := by
  rw [IndentStyle.unit]
  split
  · exact List.cons_ne_nil _ _
  · rw [Ne, List.replicate_eq_nil_iff]
    omega

/-- One level of indentation in front of a text is its first level. -/
theorem levelOf_unit_append (style : IndentStyle) (text : List Char) :
    levelOf style (style.unit ++ text) = style.unit.length := by
  rw [levelOf, IndentStyle.unit]
  cases style.tabs with
  | true => rfl
  | false =>
      obtain ⟨n, hn⟩ : ∃ n, max style.width 1 = n + 1 := ⟨max style.width 1 - 1, by omega⟩
      simp only [Bool.false_eq_true, if_false]
      have hhead : (List.replicate (max style.width 1) ' ' ++ text).head? ≠ some '\t' := by
        rw [hn, List.replicate_succ, List.cons_append, List.head?_cons]
        decide
      rw [if_neg hhead, List.take_left' List.length_replicate,
        List.takeWhile_replicate_eq_filter, List.filter_replicate]
      simp only [decide_true, if_true]

theorem touched_lt (hline : line ∈ touchedLines rope selection) : line < lenLines rope := by
  obtain ⟨range, -, hin⟩ := mem_touchedLines.mp hline
  exact (mem_touchedBy.mp hin).2.1

theorem indentedLines_order (rope : Rope) (selection : Selection) :
    (indentedLines rope selection).Pairwise (· < ·) :=
  (touchedLines_order rope selection).filter _

theorem indentEdits_eq (rope : Rope) (selection : Selection) (style : IndentStyle) :
    indentEdits rope selection style =
      Transaction.inserts ((indentedLines rope selection).map (lineToChar rope)) style.unit := by
  rw [indentEdits, Transaction.inserts, List.map_map]
  refine List.map_congr_left fun line hline => ?_
  have hlt := touched_lt (List.mem_of_mem_filter hline)
  rw [Lines.lineStart_of_lt hlt]
  rfl

theorem fronts_indent (rope : Rope) (selection : Selection) (style : IndentStyle) :
    ∃ tx, Transaction.replace rope (indentEdits rope selection style) = some tx ∧
      Fronts rope (indentedLines rope selection) style.unit tx ∧
        tx.invert.apply (withFronts rope (indentedLines rope selection) style.unit) =
          some rope := by
  obtain ⟨tx, hfronts, -, hback⟩ := Fronts.exists_tx rope (unit_ne_nil style) (unit_unbroken style)
    (indentedLines_order rope selection)
    fun line hline => touched_lt (List.mem_of_mem_filter hline)
  refine ⟨tx, ?_, hfronts, hback⟩
  rw [indentEdits_eq]
  exact hfronts.replace

theorem trimmed_unit_append (style : IndentStyle) (raw : List Char) :
    Lines.trimmed (style.unit ++ raw) = style.unit ++ Lines.trimmed raw := by
  cases raw with
  | nil =>
      have hlast : style.unit.getLast? ≠ some '\n' := fun h =>
        absurd (unit_unbroken style '\n' (List.mem_of_getLast? h)).1 (by decide)
      rw [List.append_nil, Lines.trimmed, if_neg hlast]
      exact (List.append_nil _).symm
  | cons c raw =>
      rw [Lines.trimmed, Lines.trimmed, List.getLast?_append_of_ne_nil _ (List.cons_ne_nil c raw),
        List.dropLast_append_of_ne_nil (List.cons_ne_nil c raw)]
      split <;> rfl

/-- A touched line that was left out is empty. -/
theorem levelOf_lineText_indented (hline : line ∈ touchedLines rope selection) :
    levelOf style (Lines.lineText
      (withFronts rope (indentedLines rope selection) style.unit) line) =
        if line ∈ indentedLines rope selection then style.unit.length else 0 := by
  have hlt := touched_lt hline
  obtain ⟨raw, hraw, hraw'⟩ := @Rope.getElem?_lines_withFronts rope style.unit
    (indentedLines rope selection) line (unit_unbroken style) hlt
  rw [Lines.lineText_of_getElem? hraw', Rope.marks]
  split
  · rw [trimmed_unit_append, levelOf_unit_append]
  · next hnot =>
      have hempty : Lines.lineLen rope line = 0 := by
        by_contra hlen
        refine hnot (List.mem_filter.mpr ⟨hline, ?_⟩)
        rw [decide_eq_false hlen, Bool.and_false, Bool.not_false]
      rw [Lines.lineLen, Lines.lineEnd_of_getElem? hraw, Lines.lineStart_of_lt hlt,
        Nat.add_sub_cancel_left, List.length_eq_zero_iff] at hempty
      rw [List.nil_append, hempty, levelOf, if_neg (by decide), List.take_nil]
      rfl

/-- What outdenting takes away is what indenting put in. -/
theorem outdentEdits_indented {after : Selection}
    (hsame : touchedLines (withFronts rope (indentedLines rope selection) style.unit) after =
      touchedLines rope selection) :
    outdentEdits (withFronts rope (indentedLines rope selection) style.unit) after style =
      Fronts.removals rope (indentedLines rope selection) style.unit := by
  have hpos := List.length_pos_iff.mpr (unit_ne_nil style)
  have hmap (f : Nat → Nat × Nat × List Char) : (indentedLines rope selection).map f =
      (touchedLines rope selection).filterMap fun line =>
        if line ∈ indentedLines rope selection then some (f line) else none := by
    conv_lhs => rw [indentedLines]
    rw [← List.filterMap_eq_map, List.filterMap_filter]
    refine List.filterMap_congr fun line hline => ?_
    simp only [indentedLines, List.mem_filter, hline, true_and, Function.comp_apply]
  rw [Fronts.removals, hmap, outdentEdits, hsame]
  refine List.filterMap_congr fun line hline => ?_
  have hlt := touched_lt hline
  dsimp only
  rw [levelOf_lineText_indented hline, Lines.lineStart_of_lt (by
    rwa [Rope.lenLines_withFronts (unit_unbroken style)])]
  by_cases hmem : line ∈ indentedLines rope selection
  · rw [if_pos hmem, if_pos hpos, if_pos hmem]
  · rw [if_neg hmem, if_neg (Nat.lt_irrefl 0), if_neg hmem]

end

/-- Outdenting with the same style, and the selection that indenting leaves, gives back the
text. -/
theorem outdent_indent {doc : TextDoc} {selection : Selection} (hnormal : Normal selection.ranges)
    (style : IndentStyle) (nowMs : Nat) :
    ∃ doc' edited, indentLines doc selection style nowMs = some (doc', edited) ∧
      ∀ later, ∃ doc'' edited',
        outdentLines doc' edited.selection style later = some (doc'', edited') ∧
          doc''.rope = doc.rope := by
  obtain ⟨tx, htx, hfronts, hinvert⟩ := fronts_indent doc.rope selection style
  let after := selection.transform (indented doc.rope tx)
  obtain ⟨doc', applied, hedit, hrope, -⟩ :=
    exists_edit hfronts.apply hinvert selection after .other nowMs
  refine ⟨doc', { applied := applied, selection := after }, ?_, fun later => ?_⟩
  · rw [indentLines, htx, Option.bind_some]
    dsimp only
    rw [hedit, Option.map_some]
  have hsame : touchedLines doc'.rope after = touchedLines doc.rope selection := by
    rw [hrope]
    exact touchedLines_indented hfronts hnormal fun line hline => List.mem_of_mem_filter hline
  obtain ⟨back, hback, happly, hforth⟩ := hfronts.exists_back
  rw [hrope] at hsame
  rw [← outdentEdits_indented hsame, ← hrope] at hback
  rw [← hrope] at happly hforth
  obtain ⟨doc'', applied', hedit', hrope', -⟩ :=
    exists_edit happly hforth after (after.map back) .other later
  refine ⟨doc'', { applied := applied', selection := after.map back }, ?_, hrope'⟩
  rw [outdentLines]
  dsimp only
  rw [hback, Option.bind_some, hedit', Option.map_some]

/-- Three lines of which the middle one is empty, selected from inside the first to the start
of the last. -/
theorem outdent_indent_empty_line :
    ∃ doc' edited, indentLines (TextDoc.new ['a', 'b', '\n', '\n', 'c'])
        ⟨[⟨1, 4, none⟩], 0, Nat.one_pos⟩ ⟨false, 4⟩ 0 = some (doc', edited) ∧
      ∀ later, ∃ doc'' edited',
        outdentLines doc' edited.selection ⟨false, 4⟩ later = some (doc'', edited') ∧
          doc''.rope = (TextDoc.new ['a', 'b', '\n', '\n', 'c']).rope :=
  outdent_indent (by decide) _ _

end Commands

end Throng.Editor
