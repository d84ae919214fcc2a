import Throng.Editor.ColumnPasteRun

/-!
# When a column is pasted as a block

Rows without ends of lines leave the lines, so the text is what the claim says as long as each
row goes in before what ends its line, and the rows past the last line come after the row on it.
A line that does not end with an LF keeps its end in its text, and a column past that end puts
the row behind it; at the end of the text the lines to add are put in later than the row on the
last line, and so come first.
-/

namespace Throng.Editor

namespace Commands

open Rope (textLines lineToChar lenLines standing insertRows addLines OnBodies OnLines Ended
  Unbroken Widens)
open TextLine (joined joined_cons joined_nil joined_append plain)
open Transaction (woven putBefore)

variable {unicodeWidth : Char → Option Nat} {rope rope' : Rope} {caret col : Nat}
  {rows : List (List Char)} {selection : Selection}

/-! ## Lines and their rows -/

section

variable {α β γ : Type*}

theorem exists_of_zip {as : List α} {bs : List β} {before after : List (α × β)} {x : α × β}
    (h : as.zip bs = before ++ x :: after) :
    ∃ others, as = before.map Prod.fst ++ x.1 :: others := by
  induction before generalizing as bs with
  | nil =>
      cases as with
      | nil => cases h
      | cons a as =>
          cases bs with
          | nil => cases h
          | cons b bs =>
              rw [List.zip_cons_cons, List.nil_append] at h
              exact ⟨as, by rw [← (List.cons.inj h).1]; rfl⟩
  | cons y before ih =>
      cases as with
      | nil => cases h
      | cons a as =>
          cases bs with
          | nil => cases h
          | cons b bs =>
              rw [List.zip_cons_cons, List.cons_append] at h
              obtain ⟨others, hothers⟩ := ih (List.cons.inj h).2
              exact ⟨others, by rw [hothers, ← (List.cons.inj h).1]; rfl⟩

theorem exists_of_forall₂ {R : α → β → Prop} {before after : List α} {x : α} {ys : List β}
    (h : List.Forall₂ R (before ++ x :: after) ys) : ∃ first y others,
      ys = first ++ y :: others ∧ List.Forall₂ R before first ∧ R x y := by
  induction before generalizing ys with
  | nil =>
      cases h with
      | @cons _ y _ ys hxy _ => exact ⟨[], y, ys, rfl, .nil, hxy⟩
  | cons a before ih =>
      cases h with
      | @cons _ b _ ys hab hrest =>
          obtain ⟨first, y, others, rfl, hfirst, hxy⟩ := ih hrest
          exact ⟨b :: first, y, others, rfl, .cons hab hfirst, hxy⟩

theorem mem_zip_map_zip {as : List α} {bs : List β} {f : α × β → γ} {x : α × γ}
    (h : x ∈ as.zip ((as.zip bs).map f)) : ∃ on ∈ as.zip bs, x = (on.1, f on) := by
  induction as generalizing bs with
  | nil => exact absurd h List.not_mem_nil
  | cons a as ih =>
      cases bs with
      | nil => exact absurd h List.not_mem_nil
      | cons b bs =>
          rw [List.zip_cons_cons, List.map_cons, List.zip_cons_cons, List.mem_cons] at h
          rcases h with rfl | hmem
          · exact ⟨(a, b), List.mem_cons_self, rfl⟩
          · obtain ⟨on, hon, rfl⟩ := ih hmem
            exact ⟨on, List.mem_cons_of_mem _ hon, rfl⟩

theorem exists_mem_zip {as : List α} {bs : List β} {b : β} (h : b ∈ bs.take as.length) :
    ∃ on ∈ as.zip bs, on.2 = b := by
  induction as generalizing bs with
  | nil => exact absurd h List.not_mem_nil
  | cons a as ih =>
      cases bs with
      | nil => exact absurd h List.not_mem_nil
      | cons b' bs =>
          rw [List.length_cons, List.take_succ_cons, List.mem_cons] at h
          rcases h with rfl | hmem
          · exact ⟨(a, b), List.mem_cons_self, rfl⟩
          · obtain ⟨on, hon, rfl⟩ := ih hmem
            exact ⟨on, List.mem_cons_of_mem _ hon, rfl⟩

/-- The first of a list that fails. -/
theorem exists_first {P : α → Prop} {l : List α} (h : ¬ ∀ x ∈ l, P x) :
    ∃ before x after, l = before ++ x :: after ∧ (∀ y ∈ before, P y) ∧ ¬ P x := by
  induction l with
  | nil => exact absurd (fun x hx => absurd hx List.not_mem_nil) h
  | cons a l ih =>
      by_cases ha : P a
      · obtain ⟨before, x, after, rfl, hbefore, hx⟩ := ih fun hl =>
          h (List.forall_mem_cons.mpr ⟨ha, hl⟩)
        exact ⟨a :: before, x, after, rfl, List.forall_mem_cons.mpr ⟨ha, hbefore⟩, hx⟩
      · exact ⟨[], a, l, rfl, fun y hy => absurd hy List.not_mem_nil, ha⟩

/-- Sums are equal only if nothing falls short. -/
theorem eq_of_sum_eq {l : List α} {f g : α → Nat} (hle : ∀ x ∈ l, f x ≤ g x)
    (hsum : (l.map f).sum = (l.map g).sum) : ∀ x ∈ l, f x = g x := by
  have hall (l : List α) (hle : ∀ x ∈ l, f x ≤ g x) : (l.map f).sum ≤ (l.map g).sum := by
    induction l with
    | nil => exact Nat.le_refl _
    | cons a l ih =>
        rw [List.forall_mem_cons] at hle
        rw [List.map_cons, List.map_cons, List.sum_cons, List.sum_cons]
        exact Nat.add_le_add hle.1 (ih hle.2)
  induction l with
  | nil => exact fun x hx => absurd hx List.not_mem_nil
  | cons a l ih =>
      rw [List.forall_mem_cons] at hle
      rw [List.map_cons, List.map_cons, List.sum_cons, List.sum_cons] at hsum
      have hrest := hall l hle.2
      have ha := hle.1
      exact List.forall_mem_cons.mpr ⟨by omega, ih hle.2 (by omega)⟩

end

theorem shaped_linesFrom (rope : Rope) (caret : Nat) :
    ∀ line ∈ linesFrom rope caret, Shaped line :=
  shaped_of_ended ((ended_lines rope caret).of_append (linesFrom_ne_nil rope caret))

theorem shaped_rowsOn {on : TextLine × List Char} (h : on ∈ rowsOn rope caret rows) :
    Shaped on.1 := by
  rw [rowsOn, ← linesFrom] at h
  exact shaped_linesFrom rope caret on.1 (List.of_mem_zip h).1

theorem length_linesBefore (rope : Rope) (caret : Nat) :
    (linesBefore rope caret).length = Lines.lineOf rope caret := by
  have hlt := Lines.lineOf_lt rope caret
  rw [linesBefore, List.length_take, Rope.length_textLines]
  omega

/-- The lines and rows cut at one of them. -/
theorem exists_rowsOn {before after : List (TextLine × List Char)} {on : TextLine × List Char}
    (h : rowsOn rope caret rows = before ++ on :: after) :
    ∃ others, linesFrom rope caret = before.map Prod.fst ++ on.1 :: others := by
  rw [rowsOn, ← linesFrom] at h
  exact exists_of_zip h

/-- Rows past the last line leave one for every line. -/
theorem exists_last_row (h : (linesFrom rope caret).length < rows.length) :
    ∃ first body before row, linesFrom rope caret = first ++ [⟨body, []⟩] ∧
      rowsOn rope caret rows = before ++ [(⟨body, []⟩, row)] ∧ before.length = first.length ∧
        Unbroken body := by
  have hended := (ended_lines rope caret).of_append (linesFrom_ne_nil rope caret)
  obtain ⟨first, body, hlast⟩ := hended.exists_last
  have hlen : first.length < rows.length := by
    rw [hlast, List.length_append, List.length_singleton] at h
    omega
  have hcut : rows = rows.take first.length ++ rows[first.length] ::
      rows.drop (first.length + 1) := by
    rw [← List.drop_eq_getElem_cons hlen, List.take_append_drop]
  have htake : first.length = (rows.take first.length).length := by
    rw [List.length_take_of_le (Nat.le_of_lt hlen)]
  refine ⟨first, body, first.zip (rows.take first.length), rows[first.length], hlast, ?_, ?_, ?_⟩
  · rw [rowsOn, ← linesFrom, hlast]
    conv_lhs => rw [hcut]
    rw [List.zip_append htake]
    rfl
  · rw [List.length_zip, ← htake, Nat.min_self]
  · exact hended.unbroken ⟨body, []⟩ (by rw [hlast]; simp)

/-- On the last line the text is the body. -/
theorem rowOn_last {body : List Char} (hbody : Unbroken body) (row : List Char) :
    rowOn unicodeWidth col (⟨body, []⟩, row) =
      if widthOf unicodeWidth body < col then
        (body.length, List.replicate (col - widthOf unicodeWidth body) ' ' ++ row)
      else (Lines.indexAtCol unicodeWidth body col columnTab, row) := by
  obtain ⟨extra, htrimmed, hextra⟩ := (show Shaped ⟨body, []⟩ from ⟨hbody, .inl rfl⟩).exists_trimmed
  rw [hextra.mpr (.inl rfl), List.append_nil] at htrimmed
  rw [rowOn]
  dsimp only
  rw [htrimmed]

/-! ## The lines of a block -/

section

variable {placed : List (Nat × List Char)}

/-- Rows without ends of lines leave the lines. -/
theorem ended_block (hlen : placed.length ≤ (linesFrom rope caret).length)
    (hplaced : ∀ p ∈ placed, Unbroken p.2) :
    Ended (linesBefore rope caret ++ insertRows placed (linesFrom rope caret)) := by
  have hended := ended_lines rope caret
  have hbodies := hended.unbroken
  refine (hended.widen (List.rel_append (R := Widens) ?_ ?_)).1
  · exact List.forall₂_same.mpr fun line hline =>
      ⟨rfl, hbodies line (List.mem_append_left _ hline), id⟩
  · exact Rope.widens_insertRows hplaced hlen fun line hline =>
      hbodies line (List.mem_append_right _ hline)

/-- Lines that all end, with text put in on them, end as they did. -/
theorem getLast?_joined_widens {lines lines' : List TextLine} (h : List.Forall₂ Widens lines lines')
    (hends : ∀ line ∈ lines, line.ending ≠ []) :
      (joined lines').getLast? = (joined lines).getLast? := by
  induction h with
  | nil => rfl
  | @cons line line' lines lines' hline hrest ih =>
      rw [List.forall_mem_cons] at hends
      have hnil : joined lines = [] ↔ joined lines' = [] := by
        have hlast := ih hends.2
        rw [← List.getLast?_eq_none_iff, ← List.getLast?_eq_none_iff, hlast]
      rw [joined_cons, joined_cons]
      by_cases hempty : joined lines = []
      · rw [hempty, hnil.mp hempty, List.append_nil, List.append_nil, TextLine.chars,
          TextLine.chars, hline.1, List.getLast?_append_of_ne_nil _ hends.1,
          List.getLast?_append_of_ne_nil _ hends.1]
      · rw [List.getLast?_append_of_ne_nil _ hempty, List.getLast?_append_of_ne_nil _
          (mt hnil.mpr hempty), ih hends.2]

variable {added : List (List Char)} {lines others : List TextLine} {line : TextLine}
  {before after : List (Nat × List Char)} {p : Nat × List Char}

/-- A row's line in a text whose lines are those of the block: where it starts, and what
stands on it. -/
theorem exists_line (htext : textLines rope' =
      addLines (linesBefore rope caret ++ insertRows placed (linesFrom rope caret)) added)
    (hlines : linesFrom rope caret = lines ++ line :: others)
    (hplaced : placed = before ++ p :: after) (hlen : before.length = lines.length) :
    ∃ ending rest,
      textLines rope' = (linesBefore rope caret ++ insertRows before lines) ++
        ⟨line.body.take p.1 ++ p.2 ++ line.body.drop p.1, ending⟩ :: rest ∧
      lineToChar rope' (Lines.lineOf rope caret + before.length) =
        (joined (linesBefore rope caret ++ insertRows before lines)).length := by
  obtain ⟨ending, rest, hrest⟩ := Rope.exists_addLines_insertRows (linesBefore rope caret)
    hlines hplaced hlen added
  have hcut := htext.trans hrest
  refine ⟨ending, rest, hcut, ?_⟩
  have hline := (Rope.ended_textLines rope').lineToChar (Lines.lineOf rope caret + before.length)
  rw [Rope.joined_textLines, hcut, List.take_left'] at hline
  · exact hline
  · rw [List.length_append, length_linesBefore, Rope.count_insertRows (Nat.le_of_eq hlen), hlen]

/-- Where that line starts in the old text and in the new one. -/
theorem length_before (hlen : before.length = lines.length) :
    (joined (linesBefore rope caret ++ insertRows before lines)).length =
      (joined (linesBefore rope caret)).length + (joined lines).length +
        (before.map fun p => p.2.length).sum := by
  rw [joined_append, List.length_append, Rope.length_insertRows (Nat.le_of_eq hlen), Nat.add_assoc]

end

theorem columnEdits_split {lines others : List TextLine} {line : TextLine}
    {before after : List (Nat × List Char)} {p : Nat × List Char}
    (hlines : linesFrom rope caret = lines ++ line :: others)
    (hput : rowsPut unicodeWidth rope caret rows = before ++ p :: after)
    (hlen : before.length = lines.length) : ∃ high,
      placedRows unicodeWidth rope caret ' ' rows =
        standing (joined (linesBefore rope caret)).length lines before ++
          ((joined (linesBefore rope caret)).length + (joined lines).length + p.1, p.2) ::
            standing ((joined (linesBefore rope caret)).length + (joined lines).length +
              line.chars.length) others after ∧
      columnEdits unicodeWidth rope caret ' ' rows =
        standing (joined (linesBefore rope caret)).length lines before ++
          ((joined (linesBefore rope caret)).length + (joined lines).length + p.1, p.2) :: high ∧
      ∀ q ∈ high, (joined (linesBefore rope caret)).length + (joined lines).length + p.1 ≤ q.1 := by
  have hon := onLines_rowsPut unicodeWidth rope caret rows
  have hsplit : standing (joined (linesBefore rope caret)).length (linesFrom rope caret)
      (rowsPut unicodeWidth rope caret rows) =
        standing (joined (linesBefore rope caret)).length lines before ++
          ((joined (linesBefore rope caret)).length + (joined lines).length + p.1, p.2) ::
            standing ((joined (linesBefore rope caret)).length + (joined lines).length +
              line.chars.length) others after := by
    rw [hlines, hput, Rope.standing_append hlen]
    rfl
  have hp : p.1 ≤ line.chars.length := by
    rw [OnLines, hlines, hput, List.zip_append hlen.symm, List.forall_mem_append,
      List.zip_cons_cons, List.forall_mem_cons] at hon
    exact hon.2.1
  have hwithin := columnEdits_le unicodeWidth rope caret rows
  rw [columnEdits_eq, hsplit, List.append_assoc, List.cons_append] at hwithin
  refine ⟨_, by rw [placedRows_eq, hsplit], by
    rw [columnEdits_eq, hsplit, List.append_assoc, List.cons_append], fun q hq => ?_⟩
  rcases List.mem_append.mp hq with hmem | hmem
  · have hle := Rope.le_of_mem_standing hmem
    omega
  · have hle := hwithin _ (List.mem_append_right _ List.mem_cons_self)
    split at hmem
    · exact absurd hmem List.not_mem_nil
    · obtain rfl := List.mem_singleton.mp hmem
      exact hle

/-- On the lines before a row the places come before its line. -/
theorem lt_of_mem_low {lines others : List TextLine} {line : TextLine}
    {before : List (Nat × List Char)} (hlines : linesFrom rope caret = lines ++ line :: others)
    (hon : OnBodies lines before) {q : Nat × List Char}
    (hq : q ∈ standing (joined (linesBefore rope caret)).length lines before) :
    q.1 < (joined (linesBefore rope caret)).length + (joined lines).length := by
  have hended := ended_lines rope caret
  rw [hlines, ← List.append_assoc] at hended
  have hends := hended.ending_ne (List.cons_ne_nil _ _)
  exact Rope.lt_of_onBodies hon (fun l hl => hends l (List.mem_append_right _ hl)) hq

/-- The places come one behind the other as long as they are in the bodies. -/
theorem pairwise_low {lines others : List TextLine} {line : TextLine}
    {before : List (Nat × List Char)} (hlines : linesFrom rope caret = lines ++ line :: others)
    (hlen : before.length = lines.length) (hon : OnBodies lines before) (start : Nat) :
    (standing start lines before).Pairwise fun a b => a.1 < b.1 := by
  have hended := (ended_lines rope caret).of_append (linesFrom_ne_nil rope caret)
  rw [hlines] at hended
  have hall := @Rope.pairwise_standing _ (before ++ [(0, [])]) hended
    ((Rope.onBodies_append hlen).mpr ⟨hon, Rope.onBodies_cons.mpr ⟨Nat.zero_le _, by
      refine ⟨Nat.zero_le _, fun on hon => ?_⟩
      rw [List.zip_nil_right] at hon
      exact absurd hon List.not_mem_nil⟩⟩) start
  rw [Rope.standing_append hlen] at hall
  exact (List.pairwise_append.mp hall).1

/-! ## A block is pasted -/

section

variable (h : PastesAsBlock unicodeWidth rope caret rows)

include h

theorem rowAt_rowsPut : List.Forall₂
    (fun on => RowAt unicodeWidth (caretColumn unicodeWidth rope caret) on.1.body on.2)
    (rowsOn rope caret rows) (rowsPut unicodeWidth rope caret rows) := by
  rw [rowsPut, List.forall₂_map_right_iff]
  exact List.forall₂_same.mpr fun on hon => (shaped_rowsOn hon).rowAt (h.inBody on hon)

theorem onBodies_rowsPut :
    OnBodies (linesFrom rope caret) (rowsPut unicodeWidth rope caret rows) := by
  refine ⟨?_, fun x hx => ?_⟩
  · rw [length_rowsPut]
    exact Nat.min_le_left _ _
  · obtain ⟨on, hon, rfl⟩ := mem_zip_map_zip hx
    exact (@Shaped.rowAt unicodeWidth _ on.1 on.2 (shaped_rowsOn hon) (h.inBody on hon)).within

theorem unbroken_rowsPut : ∀ p ∈ rowsPut unicodeWidth rope caret rows, Unbroken p.2 := by
  intro p hp
  obtain ⟨on, hon, rfl⟩ := List.mem_map.mp hp
  rw [rowOn_text]
  refine Rope.Unbroken.append (fun c hc => ?_) (h.unbroken on.2 (List.of_mem_zip hon).2)
  obtain rfl := List.eq_of_mem_replicate hc
  exact ⟨by decide, by decide⟩

theorem unbroken_addedRows : ∀ row ∈ addedRows unicodeWidth rope caret rows, Unbroken row := by
  intro row hrow
  obtain ⟨last, hlast, rfl⟩ := List.mem_map.mp hrow
  refine Rope.Unbroken.append (fun c hc => ?_) (h.unbroken last (List.mem_of_mem_drop hlast))
  obtain rfl := List.eq_of_mem_replicate hc
  exact ⟨by decide, by decide⟩

/-- On the last line the row goes in before the end, or there is none. -/
theorem last_leavesEnd (hmore : (linesFrom rope caret).length < rows.length) :
    ∀ on, ((linesFrom rope caret).zip (rowsPut unicodeWidth rope caret rows)).getLast? = some on →
      on.2.1 < on.1.body.length ∨ on.2.2 = [] := by
  obtain ⟨first, body, before, row, hlines, hon, hlen, hbody⟩ := exists_last_row hmore
  have hleaves := h.leavesEnd (by rwa [length_linesFrom] at hmore) (⟨body, []⟩, row) (by
    rw [hon, List.getLast?_concat])
  intro on hlast
  have hzip : (linesFrom rope caret).zip (rowsPut unicodeWidth rope caret rows) =
      first.zip (before.map (rowOn unicodeWidth (caretColumn unicodeWidth rope caret))) ++
        [(⟨body, []⟩, rowOn unicodeWidth (caretColumn unicodeWidth rope caret)
          (⟨body, []⟩, row))] := by
    rw [rowsPut, hon, hlines, List.map_append, List.zip_append (by rw [List.length_map, hlen])]
    rfl
  rw [hzip, List.getLast?_concat, Option.some.injEq] at hlast
  rw [← hlast]
  dsimp only
  rw [rowOn_last hbody, if_neg (Nat.not_lt.mpr hleaves.1)]
  exact hleaves.2.imp id fun hempty => hempty.1

/-- New lines do not join a CR before them. -/
theorem getLast?_block_ne (hmore : (linesFrom rope caret).length < rows.length)
    (hblock : Ended (linesBefore rope caret ++
      insertRows (rowsPut unicodeWidth rope caret rows) (linesFrom rope caret))) :
    (joined (linesBefore rope caret ++
      insertRows (rowsPut unicodeWidth rope caret rows) (linesFrom rope caret))).getLast? ≠
        some '\r' := by
  obtain ⟨first, body, before, row, hlines, hon, hlen, hbody⟩ := exists_last_row hmore
  have hleaves := h.leavesEnd (by rwa [length_linesFrom] at hmore) (⟨body, []⟩, row) (by
    rw [hon, List.getLast?_concat])
  have hended := ended_lines rope caret
  obtain ⟨put, hput⟩ : ∃ put,
      put = before.map (rowOn unicodeWidth (caretColumn unicodeWidth rope caret)) := ⟨_, rfl⟩
  obtain ⟨p, hp⟩ : ∃ p, p =
      rowOn unicodeWidth (caretColumn unicodeWidth rope caret) (⟨body, []⟩, row) := ⟨_, rfl⟩
  have hrows : rowsPut unicodeWidth rope caret rows = put ++ [p] := by
    rw [rowsPut, hon, List.map_append, hput, hp]
    rfl
  have hputLen : put.length = first.length := by rw [hput, List.length_map, hlen]
  have hunbroken := unbroken_rowsPut h
  rw [hrows] at hblock hunbroken ⊢
  rw [hlines] at hblock hended ⊢
  rw [Rope.insertRows_append hputLen, ← List.append_assoc, insertRows, insertRows] at hblock ⊢
  intro hcr
  rw [joined_append, joined_cons, joined_nil, List.append_nil, TextLine.chars,
    List.append_nil] at hcr
  have hnew := hblock.unbroken _ (List.mem_append_right _ List.mem_cons_self)
  by_cases hnil : body.take p.1 ++ p.2 ++ body.drop p.1 = []
  · -- nothing on the last line before or after, so the line before it ends as it did
    have hparts := hnil
    rw [List.append_eq_nil_iff, List.append_eq_nil_iff] at hparts
    have hempty : body = [] := by
      have hjoin := List.take_append_drop p.1 body
      rwa [hparts.1.1, hparts.2, List.nil_append, eq_comm] at hjoin
    have hnot : ¬ Lines.indexAtCol unicodeWidth body (caretColumn unicodeWidth rope caret)
        columnTab < body.length := by
      rw [hempty]
      exact Nat.not_lt_zero _
    rw [hnil, List.append_nil] at hcr
    refine (hleaves.2.resolve_left hnot).2 ?_
    rw [← List.append_assoc] at hended
    have hends := hended.ending_ne (List.cons_ne_nil _ _)
    have hwidens : List.Forall₂ Widens (linesBefore rope caret ++ first)
        (linesBefore rope caret ++ insertRows put first) := by
      refine List.rel_append (R := Widens) ?_ ?_
      · exact List.forall₂_same.mpr fun line hline =>
          ⟨rfl, hended.unbroken line (by simp [hline]), id⟩
      · exact Rope.widens_insertRows (fun q hq => hunbroken q (List.mem_append_left _ hq))
          (Nat.le_of_eq hputLen) fun line hline => hended.unbroken line (by simp [hline])
    rw [getLast?_joined_widens hwidens hends] at hcr
    have hrope := joined_lines rope caret
    rw [hlines, ← List.append_assoc, joined_append, joined_cons, joined_nil, List.append_nil,
      TextLine.chars, hempty, List.append_nil, List.append_nil] at hrope
    rwa [hrope] at hcr
  · rw [List.getLast?_append_of_ne_nil _ hnil] at hcr
    exact (hnew _ (List.mem_of_getLast? hcr)).2 rfl

/-- The text and its lines. -/
theorem textLines_block : textLines (woven rope (columnEdits unicodeWidth rope caret ' ' rows)) =
    addLines (linesBefore rope caret ++
      insertRows (rowsPut unicodeWidth rope caret rows) (linesFrom rope caret))
        (addedRows unicodeWidth rope caret rows) := by
  have hended := ended_lines rope caret
  have hne := linesFrom_ne_nil rope caret
  have hon := onBodies_rowsPut h
  have hblock := ended_block hon.1 (unbroken_rowsPut h)
  have hmore (hadded : addedRows unicodeWidth rope caret rows ≠ []) :
      (linesFrom rope caret).length < rows.length := by
    rw [Ne, addedRows_eq_nil, ← length_linesFrom] at hadded
    omega
  have hadd := Rope.ended_addLines hblock (unbroken_addedRows h) fun hadded =>
    getLast?_block_ne h (hmore hadded) hblock
  have hwoven : woven rope (columnEdits unicodeWidth rope caret ' ' rows) =
      joined (addLines (linesBefore rope caret ++
        insertRows (rowsPut unicodeWidth rope caret rows) (linesFrom rope caret))
          (addedRows unicodeWidth rope caret rows)) := by
    rw [hblock.joined_addLines, columnEdits_eq]
    by_cases hadded : addedRows unicodeWidth rope caret rows = []
    · have htext := Rope.woven_standing hended hne hon
      rw [joined_lines] at htext
      rw [if_pos hadded, List.append_nil, htext, hadded, List.flatMap_nil, List.append_nil]
    · have hlen : (rowsPut unicodeWidth rope caret rows).length =
        (linesFrom rope caret).length := by
        rw [length_rowsPut, Nat.min_eq_left (Nat.le_of_lt (hmore hadded))]
      have htext := Rope.woven_standing_end hended hne hon hlen (last_leavesEnd h (hmore hadded))
        ((addedRows unicodeWidth rope caret rows).flatMap fun row => '\n' :: row)
      rw [joined_lines] at htext
      rw [if_neg hadded, htext]
  rw [hwoven, hadd.textLines_joined]

theorem pastedPlaces_block : pastedPlaces unicodeWidth rope caret rows =
    (rowsPut unicodeWidth rope caret rows).mapIdx fun i p =>
      lineToChar (woven rope (columnEdits unicodeWidth rope caret ' ' rows))
        (Lines.lineOf rope caret + i) + p.1 + p.2.length := by
  have hon := onBodies_rowsPut h
  have hcount : (placedRows unicodeWidth rope caret ' ' rows).length =
      (rowsPut unicodeWidth rope caret rows).length := by
    rw [placedRows_eq, Rope.length_standing hon.1]
  refine List.ext_getElem? fun i => ?_
  rw [pastedPlaces, List.getElem?_map, List.getElem?_mapIdx]
  cases hp : (rowsPut unicodeWidth rope caret rows)[i]? with
  | none =>
      rw [List.getElem?_eq_none_iff] at hp
      rw [List.getElem?_eq_none (by rwa [hcount])]
      rfl
  | some p =>
      obtain ⟨hlt, hget⟩ := List.getElem?_eq_some_iff.mp hp
      have hltLines : i < (linesFrom rope caret).length := Nat.lt_of_lt_of_le hlt hon.1
      have hput : rowsPut unicodeWidth rope caret rows =
          (rowsPut unicodeWidth rope caret rows).take i ++
            p :: (rowsPut unicodeWidth rope caret rows).drop (i + 1) := by
        rw [← hget, ← List.drop_eq_getElem_cons hlt, List.take_append_drop]
      have hlines : linesFrom rope caret = (linesFrom rope caret).take i ++
          (linesFrom rope caret)[i] :: (linesFrom rope caret).drop (i + 1) := by
        rw [← List.drop_eq_getElem_cons hltLines, List.take_append_drop]
      have htake : ((rowsPut unicodeWidth rope caret rows).take i).length = i :=
        List.length_take_of_le (Nat.le_of_lt hlt)
      have hlen : ((rowsPut unicodeWidth rope caret rows).take i).length =
          ((linesFrom rope caret).take i).length := by
        rw [htake, List.length_take_of_le (Nat.le_of_lt hltLines)]
      obtain ⟨high, hplaced, hedits, hhigh⟩ := columnEdits_split hlines hput hlen
      obtain ⟨ending, rest, -, hline⟩ := exists_line (textLines_block h) hlines hput hlen
      have hbodies : OnBodies ((linesFrom rope caret).take i)
          ((rowsPut unicodeWidth rope caret rows).take i) := by
        rw [hlines, hput, Rope.onBodies_append hlen] at hon
        exact hon.1
      have hlow : ∀ q ∈ standing (joined (linesBefore rope caret)).length
          ((linesFrom rope caret).take i) ((rowsPut unicodeWidth rope caret rows).take i),
          q.1 < (joined (linesBefore rope caret)).length +
            (joined ((linesFrom rope caret).take i)).length + p.1 := fun q hq =>
        Nat.lt_of_lt_of_le (lt_of_mem_low hlines hbodies hq) (Nat.le_add_right _ _)
      have hat : (placedRows unicodeWidth rope caret ' ' rows)[i]? =
          some ((joined (linesBefore rope caret)).length +
            (joined ((linesFrom rope caret).take i)).length + p.1, p.2) := by
        have hcountLow :=
            Rope.length_standing (Nat.le_of_eq hlen) (joined (linesBefore rope caret)).length
        rw [hplaced, List.getElem?_append_right (by rw [hcountLow, htake]), hcountLow, htake,
          Nat.sub_self, List.getElem?_cons_zero]
      have hbefore : putBefore (columnEdits unicodeWidth rope caret ' ' rows)
          ((joined (linesBefore rope caret)).length +
            (joined ((linesFrom rope caret).take i)).length + p.1) =
              (((rowsPut unicodeWidth rope caret rows).take i).map fun p => p.2.length).sum := by
        have hsnd := congrArg (fun texts => (texts.map List.length).sum)
          (Rope.map_snd_standing (Nat.le_of_eq hlen) (joined (linesBefore rope caret)).length)
        simp only [List.map_map] at hsnd
        rw [hedits, Transaction.putBefore_append, Transaction.putBefore_of_lt hlow,
          Transaction.putBefore_of_ge]
        · exact hsnd
        · exact List.forall_mem_cons.mpr ⟨Nat.le_refl _, hhigh⟩
      rw [htake, length_before hlen] at hline
      rw [hat, Option.map_some, Option.map_some, hline]
      dsimp only
      rw [hbefore]
      congr 1
      omega

end

theorem columnPasted_of_asBlock (h : PastesAsBlock unicodeWidth rope caret rows)
    (hcarets : CaretsAt selection (pastedPlaces unicodeWidth rope caret rows) 0) :
    ColumnPasted unicodeWidth rope caret rows
      (woven rope (columnEdits unicodeWidth rope caret ' ' rows)) selection := by
  rw [pastedPlaces_block h] at hcarets
  exact ⟨rowsPut unicodeWidth rope caret rows, rowAt_rowsPut h, textLines_block h, hcarets⟩

/-! ## What is pasted as a block -/

section

variable {placed : List (Nat × List Char)}
  (hrows : List.Forall₂
    (fun on => RowAt unicodeWidth (caretColumn unicodeWidth rope caret) on.1.body on.2)
    (rowsOn rope caret rows) placed)
  (htext : textLines rope' =
    addLines (linesBefore rope caret ++ insertRows placed (linesFrom rope caret))
      (addedRows unicodeWidth rope caret rows))

include hrows

theorem length_placed : placed.length = min (linesFrom rope caret).length rows.length := by
  rw [← hrows.length_eq, rowsOn, List.length_zip]
  rfl

theorem map_snd_placed : placed.map Prod.snd = (rowsOn rope caret rows).map fun on =>
    List.replicate (caretColumn unicodeWidth rope caret - widthOf unicodeWidth on.1.body) ' ' ++
      on.2 := by
  generalize rowsOn rope caret rows = ons at hrows ⊢
  induction hrows with
  | nil => rfl
  | cons hrow _ ih => rw [List.map_cons, List.map_cons, ih, hrow.text]

include htext

/-- A row that is on a line of the text has no end of a line in it. -/
theorem unbroken_of_pasted : ∀ row ∈ rows, Unbroken row := by
  have hbodies := (Rope.ended_textLines rope').unbroken
  intro row hrow
  rw [← List.take_append_drop (linesFrom rope caret).length rows, List.mem_append] at hrow
  rcases hrow with htake | hdrop
  · obtain ⟨on, hon, rfl⟩ := exists_mem_zip htake
    obtain ⟨before, after, hcut⟩ := List.append_of_mem
      (show on ∈ rowsOn rope caret rows from hon)
    rw [hcut] at hrows
    obtain ⟨others, hlines⟩ := exists_rowsOn hcut
    obtain ⟨first, p, rest, hplaced, hfirst, hrow⟩ := exists_of_forall₂ hrows
    obtain ⟨ending, tail, hline, -⟩ := exists_line htext hlines hplaced (by
      rw [← hfirst.length_eq, List.length_map])
    have hbody := hbodies _ (by rw [hline]; exact List.mem_append_right _ List.mem_cons_self)
    dsimp only at hbody
    rw [hrow.text] at hbody
    exact fun c hc => hbody c (by simp [hc])
  · have hadded : List.replicate (caretColumn unicodeWidth rope caret) ' ' ++ row ∈
        addedRows unicodeWidth rope caret rows := by
      rw [addedRows, ← length_linesFrom]
      exact List.mem_map_of_mem hdrop
    have hne : linesBefore rope caret ++ insertRows placed (linesFrom rope caret) ≠ [] := by
      have hlen := length_placed hrows
      have hpos := List.length_pos_iff.mpr (linesFrom_ne_nil rope caret)
      rw [← List.length_pos_iff, List.length_append, Rope.count_insertRows (by omega)]
      omega
    obtain ⟨line, hline, hbody⟩ := Rope.exists_mem_addLines hne hadded
    rw [← htext] at hline
    have hunbroken := hbodies line hline
    rw [hbody] at hunbroken
    exact hunbroken.of_append_right

theorem unbroken_placed : ∀ p ∈ placed, Unbroken p.2 := by
  intro p hp
  have hmem := @List.mem_map_of_mem _ _ _ _ Prod.snd hp
  rw [map_snd_placed hrows] at hmem
  obtain ⟨on, hon, hp⟩ := List.mem_map.mp hmem
  rw [← hp]
  refine Rope.Unbroken.append (fun c hc => ?_)
    (unbroken_of_pasted hrows htext on.2 (List.of_mem_zip hon).2)
  obtain rfl := List.eq_of_mem_replicate hc
  exact ⟨by decide, by decide⟩

theorem joined_of_pasted : rope' = joined (linesBefore rope caret ++
    insertRows placed (linesFrom rope caret)) ++
      (addedRows unicodeWidth rope caret rows).flatMap fun row => '\n' :: row := by
  have hlen := length_placed hrows
  have hblock : Ended (linesBefore rope caret ++ insertRows placed (linesFrom rope caret)) :=
    ended_block (by omega) (unbroken_placed hrows htext)
  rw [← hblock.joined_addLines, ← htext, Rope.joined_textLines]

omit hrows in
/-- A character that is no part of a line does not come where something is put in. -/
theorem nil_of_not_plain {lines others : List TextLine} {line : TextLine}
    {first rest : List (Nat × List Char)} {p : Nat × List Char}
    (hlines : linesFrom rope caret = lines ++ line :: others)
    (hplaced : placed = first ++ p :: rest) (hlen : first.length = lines.length)
    {front back : Rope} {c : Char} (hrope : rope' = front ++ c :: back) (hc : plain c = false)
    (hfront : front.length = (joined (linesBefore rope caret)).length + (joined lines).length +
      line.body.length + (first.map fun p => p.2.length).sum) : p.2 = [] := by
  obtain ⟨ending, tail, hline, -⟩ := exists_line htext hlines hplaced hlen
  have hbody := (Rope.ended_textLines rope').unbroken _
    (by rw [hline]; exact List.mem_append_right _ List.mem_cons_self)
  have hjoined := Rope.joined_textLines rope'
  rw [hline, joined_append, joined_cons, TextLine.chars] at hjoined
  have hbefore := @length_before rope caret _ _ hlen
  by_contra hne
  have hpos := List.length_pos_iff.mpr hne
  have hsize := congrArg List.length (List.take_append_drop p.1 line.body)
  rw [List.length_append] at hsize
  -- the character stands on the line
  have hat : rope'[front.length]? = some c := by
    rw [hrope, List.getElem?_append_right (Nat.le_refl _), Nat.sub_self, List.getElem?_cons_zero]
  rw [← hjoined, List.getElem?_append_right (by omega), List.append_assoc,
    List.getElem?_append_left (by simp only [List.length_append]; omega)] at hat
  have hplain := TextLine.unbroken_iff.mp hbody c (List.mem_of_getElem? hat)
  rw [hc] at hplain
  cases hplain

end

section

variable {placed : List (Nat × List Char)}
  (hrows : List.Forall₂
    (fun on => RowAt unicodeWidth (caretColumn unicodeWidth rope caret) on.1.body on.2)
    (rowsOn rope caret rows) placed)
  (htext : textLines (woven rope (columnEdits unicodeWidth rope caret ' ' rows)) =
    addLines (linesBefore rope caret ++ insertRows placed (linesFrom rope caret))
      (addedRows unicodeWidth rope caret rows))

include hrows htext

/-- As much is put in as should be, so every short line gets its spaces. -/
theorem pads_of_pasted : ∀ on ∈ rowsOn rope caret rows,
    caretColumn unicodeWidth rope caret - widthOf unicodeWidth (Lines.trimmed on.1.chars) =
      caretColumn unicodeWidth rope caret - widthOf unicodeWidth on.1.body := by
  have hlen := length_placed hrows
  have hput := length_rowsPut unicodeWidth rope caret rows
  have hnew := congrArg List.length (joined_of_pasted hrows htext)
  have hold := Transaction.length_woven (columnEdits_le unicodeWidth rope caret rows)
  have htotal := congrArg List.length (joined_lines rope caret)
  have hends : (columnEdits unicodeWidth rope caret ' ' rows).map Prod.snd =
      (rowsPut unicodeWidth rope caret rows).map Prod.snd ++
        if addedRows unicodeWidth rope caret rows = [] then []
        else [(addedRows unicodeWidth rope caret rows).flatMap fun row => '\n' :: row] := by
    rw [columnEdits_eq, List.map_append, Rope.map_snd_standing (by omega)]
    split <;> rfl
  have hended : (columnEdits unicodeWidth rope caret ' ' rows).map (fun p => p.2.length) =
      (rowsPut unicodeWidth rope caret rows).map (fun p => p.2.length) ++
        if addedRows unicodeWidth rope caret rows = [] then []
        else
          [((addedRows unicodeWidth rope caret rows).flatMap fun row => '\n' :: row).length] := by
    have hlengths := congrArg (List.map List.length) hends
    rw [List.map_map, List.map_append, List.map_map] at hlengths
    refine hlengths.trans (congrArg _ ?_)
    split <;> rfl
  have hwide : (placed.map fun p => p.2.length) = (rowsOn rope caret rows).map fun on =>
      caretColumn unicodeWidth rope caret - widthOf unicodeWidth on.1.body + on.2.length := by
    have hlengths := congrArg (List.map List.length) (map_snd_placed hrows)
    rw [List.map_map, List.map_map] at hlengths
    refine hlengths.trans (List.map_congr_left fun on _ => ?_)
    rw [Function.comp_apply, List.length_append, List.length_replicate]
  have hnarrow : ((rowsPut unicodeWidth rope caret rows).map fun p => p.2.length) =
      (rowsOn rope caret rows).map fun on => caretColumn unicodeWidth rope caret -
        widthOf unicodeWidth (Lines.trimmed on.1.chars) + on.2.length := by
    rw [rowsPut, List.map_map]
    refine List.map_congr_left fun on _ => ?_
    rw [Function.comp_apply, rowOn_text, List.length_append, List.length_replicate]
  have hsum : ((rowsPut unicodeWidth rope caret rows).map fun p => p.2.length).sum =
      (placed.map fun p => p.2.length).sum := by
    rw [joined_append, List.length_append] at htotal
    rw [hold, hended, List.sum_append, List.length_append, joined_append, List.length_append,
      Rope.length_insertRows (by omega)] at hnew
    split at hnew
    · next hnil =>
        rw [hnil, List.flatMap_nil, List.length_nil, List.sum_nil] at hnew
        omega
    · rw [List.sum_singleton] at hnew
      omega
  rw [hnarrow, hwide] at hsum
  intro on hon
  have heach := eq_of_sum_eq (fun on hon => ?_) hsum on hon
  · omega
  · obtain ⟨extra, htrimmed, -⟩ := (shaped_rowsOn hon).exists_trimmed
    have hwidth := @widthOf_append_le unicodeWidth on.1.body extra
    rw [htrimmed]
    omega

/-- The rows of the code are those of the block. -/
theorem map_snd_rowsPut :
    (rowsPut unicodeWidth rope caret rows).map Prod.snd = placed.map Prod.snd := by
  rw [map_snd_placed hrows, rowsPut, List.map_map]
  refine List.map_congr_left fun on hon => ?_
  rw [Function.comp_apply, rowOn_text, pads_of_pasted hrows htext on hon]

/-- The rows cut at a line, those of the code and those of the block. -/
theorem exists_cut {before after : List (TextLine × List Char)} {on : TextLine × List Char}
    (hcut : rowsOn rope caret rows = before ++ on :: after) : ∃ others first p rest,
      linesFrom rope caret = before.map Prod.fst ++ on.1 :: others ∧
      placed = first ++ p :: rest ∧ first.length = before.length ∧
      RowAt unicodeWidth (caretColumn unicodeWidth rope caret) on.1.body on.2 p ∧
      (rowOn unicodeWidth (caretColumn unicodeWidth rope caret) on).2 = p.2 ∧
      ((before.map (rowOn unicodeWidth (caretColumn unicodeWidth rope caret))).map
        fun p => p.2.length).sum = (first.map fun p => p.2.length).sum := by
  have hsnd := map_snd_rowsPut hrows htext
  rw [hcut] at hrows
  obtain ⟨others, hlines⟩ := exists_rowsOn hcut
  obtain ⟨first, p, rest, hplaced, hfirst, hrow⟩ := exists_of_forall₂ hrows
  have hlen := hfirst.length_eq
  rw [hplaced, rowsPut, hcut, List.map_append, List.map_append, List.map_cons, List.map_cons,
    List.map_append, List.map_cons] at hsnd
  have hparts := List.append_inj hsnd (by simp only [List.length_map, hlen])
  refine ⟨others, first, p, rest, hlines, hplaced, hlen.symm, hrow, (List.cons.inj hparts.2).1, ?_⟩
  have hlengths := congrArg (fun texts => (texts.map List.length).sum) hparts.1
  simp only [List.map_map] at hlengths ⊢
  exact hlengths

/-- Every row goes in before what ends its line: behind it the end would come too early in the
text, or, with nothing to put in, the caret too late. -/
theorem within_of_pasted
    (hcarets : CaretsAt selection (pastedPlaces unicodeWidth rope caret rows) 0)
    (hat : CaretsAt selection (placed.mapIdx fun i p =>
      lineToChar (woven rope (columnEdits unicodeWidth rope caret ' ' rows))
        (Lines.lineOf rope caret + i) + p.1 + p.2.length) 0) :
    ∀ on ∈ rowsOn rope caret rows,
      (rowOn unicodeWidth (caretColumn unicodeWidth rope caret) on).1 ≤ on.1.body.length := by
  by_contra hout
  obtain ⟨before, on, after, hcut, hgood, hbad⟩ := exists_first hout
  obtain ⟨others, first, p, rest, hlines, hplaced, hfirst, hrow, hsame, hsum⟩ :=
    exists_cut hrows htext hcut
  obtain ⟨put, hput⟩ : ∃ put, put = rowOn unicodeWidth (caretColumn unicodeWidth rope caret) on :=
    ⟨_, rfl⟩
  obtain ⟨low, hlow⟩ : ∃ low, low =
    before.map (rowOn unicodeWidth (caretColumn unicodeWidth rope caret)) := ⟨_, rfl⟩
  have hputs : rowsPut unicodeWidth rope caret rows =
      low ++ put :: after.map (rowOn unicodeWidth (caretColumn unicodeWidth rope caret)) := by
    rw [rowsPut, hcut, List.map_append, List.map_cons, hlow, hput]
  rw [← hput] at hbad hsame
  rw [← hlow] at hsum
  have hlen : low.length = (before.map Prod.fst).length := by
    rw [hlow, List.length_map, List.length_map]
  have hlenFirst : first.length = (before.map Prod.fst).length := by rw [List.length_map, hfirst]
  obtain ⟨high, -, hedits, hhigh⟩ := columnEdits_split hlines hputs hlen
  obtain ⟨base, hbase⟩ : ∃ base, base = (joined (linesBefore rope caret)).length +
    (joined (before.map Prod.fst)).length := ⟨_, rfl⟩
  rw [← hbase] at hedits hhigh
  have hon : OnBodies (before.map Prod.fst) low := by
    refine ⟨Nat.le_of_eq hlen, fun x hx => ?_⟩
    rw [hlow, List.zip_map', List.mem_map] at hx
    obtain ⟨y, hy, rfl⟩ := hx
    exact hgood y hy
  have hbefore : ∀ q ∈ standing (joined (linesBefore rope caret)).length (before.map Prod.fst) low,
      q.1 < base := fun q hq => hbase ▸ lt_of_mem_low hlines hon hq
  have hpairwise := pairwise_low hlines hlen hon (joined (linesBefore rope caret)).length
  have hwithin := columnEdits_le unicodeWidth rope caret rows
  have hafter : ∀ q ∈ (base + put.1, put.2) :: high, base + on.1.body.length < q.1 ∧
      q.1 ≤ rope.length := by
    intro q hq
    refine ⟨?_, hwithin q (by rw [hedits]; exact List.mem_append_right _ hq)⟩
    rcases List.mem_cons.mp hq with rfl | hmem
    · dsimp only
      omega
    · have hle := hhigh q hmem
      omega
  have hsize : base + on.1.body.length < rope.length := by
    have hfirst := hafter _ List.mem_cons_self
    omega
  -- what is put in before the line, by the code and in the block
  have hsumLow : ((standing (joined (linesBefore rope caret)).length (before.map Prod.fst) low).map
      fun p => p.2.length).sum = (first.map fun p => p.2.length).sum := by
    have hlengths := congrArg (fun texts => (texts.map List.length).sum)
      (Rope.map_snd_standing (Nat.le_of_eq hlen) (joined (linesBefore rope caret)).length)
    simp only [List.map_map] at hlengths
    exact hlengths.trans hsum
  by_cases hnil : p.2 = []
  · -- no caret of the code stands on the line before its end
    obtain ⟨ending, tail, -, hline⟩ := exists_line htext hlines hplaced hlenFirst
    rw [length_before hlenFirst, ← hbase] at hline
    have hplace : base + (first.map fun p => p.2.length).sum + p.1 ∈ placed.mapIdx fun i p =>
        lineToChar (woven rope (columnEdits unicodeWidth rope caret ' ' rows))
          (Lines.lineOf rope caret + i) + p.1 + p.2.length := by
      refine List.mem_iff_getElem?.mpr ⟨first.length, ?_⟩
      rw [List.getElem?_mapIdx, hplaced, List.getElem?_append_right (Nat.le_refl _), Nat.sub_self,
        List.getElem?_cons_zero, Option.map_some, hline, hnil, List.length_nil, Nat.add_zero]
    obtain ⟨range, hrange, hlower, -⟩ := hat.complete _ hplace
    obtain ⟨place, hmem, hlower', -⟩ := hcarets.sound range hrange
    obtain ⟨q, hq, hqplace⟩ := List.mem_map.mp hmem
    have hbaseBefore : putBefore (columnEdits unicodeWidth rope caret ' ' rows) base =
        (first.map fun p => p.2.length).sum := by
      rw [hedits, Transaction.putBefore_append, Transaction.putBefore_of_lt hbefore, hsumLow,
        Transaction.putBefore_of_ge fun q hq => by
          have hlt := (hafter q hq).1
          omega]
      rfl
    have hedit : q ∈ columnEdits unicodeWidth rope caret ' ' rows := by
      rw [columnEdits]
      exact List.mem_append_left _ hq
    have hin := hrow.within
    rcases Nat.lt_or_ge q.1 base with hlt | hge
    · have hput := Transaction.putBefore_add_le hedit
      have hmono := Transaction.putBefore_mono (columnEdits unicodeWidth rope caret ' ' rows)
        (show q.1 + 1 ≤ base from hlt)
      omega
    · have hlate : base + on.1.body.length < q.1 := by
        rw [hedits] at hedit
        rcases List.mem_append.mp hedit with hmem | hmem
        · exact absurd (hbefore q hmem) (Nat.not_lt.mpr hge)
        · exact (hafter q hmem).1
      have hmono := Transaction.putBefore_mono (columnEdits unicodeWidth rope caret ' ' rows) hge
      omega
  · -- the end of the line comes before the row
    obtain ⟨front, back, hwoven, hfront, hback⟩ := Transaction.woven_cut hpairwise
      (Nat.le_of_lt hsize) (fun q hq => by
        have hlt := hbefore q hq
        omega) hafter
    rw [← hedits] at hwoven
    obtain ⟨c, tail, hc, hplain⟩ : ∃ c tail, back = c :: tail ∧ plain c = false := by
      have hrope := joined_lines rope caret
      rw [hlines, joined_append, joined_append, joined_cons, TextLine.chars] at hrope
      have hbound : put.1 ≤ on.1.chars.length := by
        rw [hput]
        exact Nat.le_trans (rowOn_le _) (length_trimmed_le _)
      rw [TextLine.chars, List.length_append] at hbound
      have hmem : on ∈ rowsOn rope caret rows := by
        rw [hcut]
        exact List.mem_append_right _ List.mem_cons_self
      obtain ⟨-, hending | ⟨after, hends⟩⟩ := shaped_rowsOn hmem
      · rw [hending, List.length_nil] at hbound
        omega
      · obtain ⟨c, more, hcons, hplain⟩ := hends.exists_cons
        have hget : rope[base + on.1.body.length]? = some c := by
          rw [← hrope, ← List.append_assoc, ← List.append_assoc, ← List.append_assoc,
            List.append_assoc _ on.1.ending, List.getElem?_append_right (by
              simp only [List.length_append]
              omega)]
          simp only [List.length_append]
          rw [show base + on.1.body.length - ((joined (linesBefore rope caret)).length +
            (joined (before.map Prod.fst)).length + on.1.body.length) = 0 by omega, hcons]
          rfl
        rw [hget] at hback
        obtain ⟨tail, htail⟩ := List.head?_eq_some_iff.mp hback
        exact ⟨c, tail, htail, hplain⟩
    rw [hc] at hwoven
    refine hnil (nil_of_not_plain htext hlines hplaced hlenFirst hwoven hplain ?_)
    rw [hfront, hsumLow, hbase]

/-- The row on the last line leaves the end of the text to those past it. -/
theorem leavesEnd_of_pasted
    (hin : ∀ on ∈ rowsOn rope caret rows,
      (rowOn unicodeWidth (caretColumn unicodeWidth rope caret) on).1 ≤ on.1.body.length)
    (hmore : (linesFrom rope caret).length < rows.length) :
    ∀ on, (rowsOn rope caret rows).getLast? = some on →
      LeavesEnd unicodeWidth rope (caretColumn unicodeWidth rope caret) on.1.body on.2 := by
  obtain ⟨first, body, before, row, hlines, hcut, hcount, hbody⟩ := exists_last_row hmore
  intro on hon
  rw [hcut, List.getLast?_concat, Option.some.injEq] at hon
  subst hon
  dsimp only
  by_contra hnot
  obtain ⟨others, start, p, rest, hlines', hplaced, hstart, hrow, hsame, hsum⟩ :=
    exists_cut hrows htext hcut
  have hfirst : before.map Prod.fst = first := by
    rw [hlines] at hlines'
    exact (List.append_inj hlines' (by rw [List.length_map, hcount])).1.symm
  rw [hfirst] at hlines'
  obtain ⟨put, hput⟩ : ∃ put, put = rowOn unicodeWidth (caretColumn unicodeWidth rope caret)
    ((⟨body, []⟩, row) : TextLine × List Char) := ⟨_, rfl⟩
  obtain ⟨low, hlow⟩ : ∃ low, low =
    before.map (rowOn unicodeWidth (caretColumn unicodeWidth rope caret)) := ⟨_, rfl⟩
  have hputs : rowsPut unicodeWidth rope caret rows = low ++ [put] := by
    rw [rowsPut, hcut, List.map_append, hlow, hput]
    rfl
  have hlast := hin _ (by rw [hcut]; exact List.mem_append_right _ List.mem_cons_self)
  rw [← hput] at hsame hlast
  rw [← hlow] at hsum
  rw [rowOn_last hbody] at hput
  have hlen : low.length = first.length := by rw [hlow, List.length_map, hcount]
  have hlenStart : start.length = first.length := by rw [hstart, hcount]
  have hon : OnBodies first low := by
    refine ⟨Nat.le_of_eq hlen, fun x hx => ?_⟩
    rw [← hfirst, hlow, List.zip_map', List.mem_map] at hx
    obtain ⟨y, hy, rfl⟩ := hx
    exact hin y (by rw [hcut]; exact List.mem_append_left _ hy)
  -- the row goes in at the end of the text
  have hat : put.1 = body.length := by
    by_contra hne
    rw [LeavesEnd, not_and_or] at hnot
    by_cases hshort : widthOf unicodeWidth body < caretColumn unicodeWidth rope caret
    · rw [if_pos hshort] at hput
      exact hne (by rw [hput])
    · rw [if_neg hshort] at hput
      rcases hnot with hcol | hend
      · exact hcol (Nat.not_lt.mp hshort)
      · refine hend (.inl ?_)
        rw [hput] at hlast hne
        dsimp only at hlast hne
        omega
  have htotal : (joined (linesBefore rope caret)).length + (joined first).length + body.length =
      rope.length := by
    have hsize := congrArg List.length (joined_lines rope caret)
    rw [hlines, joined_append, joined_append, joined_cons, joined_nil, TextLine.chars,
      List.append_nil, List.append_nil] at hsize
    simp only [List.length_append] at hsize
    omega
  have hadded : addedRows unicodeWidth rope caret rows ≠ [] := by
    rw [Ne, addedRows_eq_nil, ← length_linesFrom]
    omega
  obtain ⟨text, htextAdded⟩ : ∃ text,
      (addedRows unicodeWidth rope caret rows).flatMap (fun row => '\n' :: row) = '\n' :: text := by
    obtain ⟨one, more, hcons⟩ := List.exists_cons_of_ne_nil hadded
    exact ⟨one ++ more.flatMap fun row => '\n' :: row, by rw [hcons]; rfl⟩
  have hpairwise := pairwise_low hlines hlen hon (joined (linesBefore rope caret)).length
  have hbefore : ∀ q ∈ standing (joined (linesBefore rope caret)).length first low,
      q.1 < rope.length := by
    intro q hq
    have hlt := lt_of_mem_low hlines hon hq
    omega
  have hedits : columnEdits unicodeWidth rope caret ' ' rows =
      standing (joined (linesBefore rope caret)).length first low ++
        [(rope.length, put.2), (rope.length, '\n' :: text)] := by
    rw [columnEdits_eq, if_neg hadded, hlines, hputs, Rope.standing_append hlen,
      Rope.standing_singleton, hat, htotal, htextAdded, List.append_assoc]
    rfl
  have hwoven := Transaction.woven_concat_two hpairwise hbefore put.2 ('\n' :: text)
  rw [← hedits, List.append_assoc, List.cons_append] at hwoven
  have hfront := Transaction.length_woven fun q hq => Nat.le_of_lt (hbefore q hq)
  rw [Transaction.woven_of_lt hpairwise] at hfront
  have hsumLow : ((standing (joined (linesBefore rope caret)).length first low).map
      fun p => p.2.length).sum = (start.map fun p => p.2.length).sum := by
    have hlengths := congrArg (fun texts => (texts.map List.length).sum)
      (Rope.map_snd_standing (Nat.le_of_eq hlen) (joined (linesBefore rope caret)).length)
    simp only [List.map_map] at hlengths
    exact hlengths.trans hsum
  have hnil := nil_of_not_plain htext hlines' hplaced hlenStart hwoven (by decide) (by
    rw [hfront, hsumLow, htotal])
  -- with nothing to put in, the LF joins the CR that the text ends with
  rw [hnil] at hsame
  have hwide : caretColumn unicodeWidth rope caret ≤ widthOf unicodeWidth body ∧ row = [] := by
    by_cases hshort : widthOf unicodeWidth body < caretColumn unicodeWidth rope caret
    · rw [if_pos hshort] at hput
      rw [hput] at hsame
      simp only [List.append_eq_nil_iff, List.replicate_eq_nil_iff] at hsame
      omega
    · rw [if_neg hshort] at hput
      rw [hput] at hsame
      exact ⟨Nat.not_lt.mp hshort, hsame⟩
  have hcr : rope.getLast? = some '\r' := by
    by_contra hne
    exact hnot ⟨hwide.1, .inr ⟨hwide.2, hne⟩⟩
  have hended := ended_lines rope caret
  have hrope := joined_lines rope caret
  rw [hlines, ← List.append_assoc] at hended hrope
  rw [joined_append, joined_cons, joined_nil, List.append_nil, TextLine.chars, List.append_nil]
    at hrope
  have hempty : body = [] := by
    by_contra hne
    rw [← hrope, List.getLast?_append_of_ne_nil _ hne] at hcr
    exact (hbody _ (List.mem_of_getLast? hcr)).2 rfl
  obtain ⟨ending, tail, hline, -⟩ := exists_line htext hlines' hplaced hlenStart
  have hunbroken := unbroken_of_pasted hrows htext
  have hwidens : List.Forall₂ Widens (linesBefore rope caret ++ first)
      (linesBefore rope caret ++ insertRows start first) := by
    refine List.rel_append (R := Widens) ?_ ?_
    · exact List.forall₂_same.mpr fun line hline =>
        ⟨rfl, hended.unbroken line (by simp [hline]), id⟩
    · refine Rope.widens_insertRows (fun q hq => ?_) (Nat.le_of_eq hlenStart) fun line hline =>
        hended.unbroken line (by simp [hline])
      exact unbroken_placed hrows htext q (by rw [hplaced]; exact List.mem_append_left _ hq)
  have hlastCr := getLast?_joined_widens hwidens (hended.ending_ne (List.cons_ne_nil _ _))
  rw [hempty, List.append_nil] at hrope
  rw [hrope, hcr] at hlastCr
  have hnew := Rope.ended_textLines (woven rope (columnEdits unicodeWidth rope caret ' ' rows))
  have hjoined := Rope.joined_textLines (woven rope (columnEdits unicodeWidth rope caret ' ' rows))
  rw [hline] at hnew hjoined
  rw [joined_append, hwoven] at hjoined
  have hparts := List.append_inj hjoined (by
    rw [length_before hlenStart, hfront, hsumLow, ← htotal, hempty, List.length_nil, Nat.add_zero])
  refine hnew.head?_ne_of_cr hlastCr (List.cons_ne_nil _ _) ?_
  rw [hparts.2, List.head?_cons]

end

/-- What the paste must leave is what it leaves. -/
theorem columnPasted_iff
    (hcarets : CaretsAt selection (pastedPlaces unicodeWidth rope caret rows) 0) :
    ColumnPasted unicodeWidth rope caret rows
        (woven rope (columnEdits unicodeWidth rope caret ' ' rows)) selection ↔
      PastesAsBlock unicodeWidth rope caret rows := by
  refine ⟨fun hpasted => ?_, fun h => columnPasted_of_asBlock h hcarets⟩
  obtain ⟨placed, hrows, htext, hat⟩ := hpasted
  have hin := within_of_pasted hrows htext hcarets hat
  refine ⟨unbroken_of_pasted hrows htext, fun on hon => ?_, fun hmore => ?_⟩
  · exact (shaped_rowsOn hon).inBody (hin on hon) (pads_of_pasted hrows htext on hon)
  · rw [← length_linesFrom] at hmore
    exact leavesEnd_of_pasted hrows htext hin hmore

/-- A column pasted at a bare caret is a block exactly when its rows hold no end of a line, the
column is in the body of each line there is, and the last one leaves the end of the text. -/
theorem paste_column_iff (unicodeWidth : Char → Option Nat) (doc : TextDoc) (caret : Nat)
    (goal : Option Nat) (text : List Char) (nowMs : Nat) : ∃ doc' edited,
      paste unicodeWidth doc (bareCaret caret goal) ⟨text, .column⟩ ' ' nowMs =
        some (doc', edited) ∧
        (ColumnPasted unicodeWidth doc.rope caret (text.splitOn '\n') doc'.rope edited.selection ↔
          PastesAsBlock unicodeWidth doc.rope caret (text.splitOn '\n')) := by
  obtain ⟨doc', edited, hpaste, hrope, hcarets⟩ :=
    @paste_column_spec unicodeWidth doc caret goal text nowMs
  refine ⟨doc', edited, hpaste, ?_⟩
  rw [hrope]
  exact columnPasted_iff hcarets

/-- Two rows at the end of the last line: the second comes before the first. -/
theorem paste_column_at_end : ¬ ∃ doc' edited,
    paste Wrap.oneWide (TextDoc.new ['a', 'b']) (bareCaret 2 none)
        ⟨['x', '\n', 'y'], .column⟩ ' ' 0 = some (doc', edited) ∧
      ColumnPasted Wrap.oneWide ['a', 'b'] 2 [['x'], ['y']] doc'.rope edited.selection := by
  rintro ⟨doc', edited, hpaste, hpasted⟩
  obtain ⟨doc'', edited'', hpaste', hrope, hcarets⟩ :=
    @paste_column_spec Wrap.oneWide (TextDoc.new ['a', 'b']) 2 none ['x', '\n', 'y'] 0
  rw [hpaste] at hpaste'
  obtain ⟨rfl, rfl⟩ := Prod.mk.inj (Option.some.inj hpaste')
  have hsplit : ['x', '\n', 'y'].splitOn '\n' = [['x'], ['y']] := by decide
  rw [hsplit] at hrope hcarets
  rw [hrope] at hpasted
  have hleaves : LeavesEnd Wrap.oneWide ['a', 'b'] 2 ['a', 'b'] ['x'] :=
    ((columnPasted_iff hcarets).mp hpasted).leavesEnd (by decide) (⟨['a', 'b'], []⟩, ['x'])
      (by decide)
  have hindex : Lines.indexAtCol Wrap.oneWide ['a', 'b'] 2 columnTab = 2 := by decide
  rcases hleaves.2 with hless | hempty
  · rw [hindex] at hless
    exact absurd hless (Nat.lt_irrefl 2)
  · exact absurd hempty.1 (List.cons_ne_nil _ _)

end Commands

end Throng.Editor
