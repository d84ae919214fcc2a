import Throng.Editor.ColumnPaste
import Throng.Editor.Rows
import Throng.Editor.RowsRun

/-!
# What a column paste puts in

The rows stand at places of the text, each so many characters into its line. Put in all at once
they are rows on those lines, and what is put in at the end of the text comes after them if the
last of them stands before the end or is empty. Where the index of a column is in the body of a
line, it is at the column.
-/

namespace Throng.Editor

open Splice (weave)

namespace Rope

open TextLine (joined joined_nil joined_cons joined_append)

/-! ## Rows and their places in the text -/

/-- The places in the text of what goes onto lines, of which the first starts at `start`. -/
def standing : Nat → List TextLine → List (Nat × List Char) → List (Nat × List Char)
  | start, line :: lines, p :: placed =>
      (start + p.1, p.2) :: standing (start + line.chars.length) lines placed
  | _, _, _ => []

variable {ls : List TextLine} {placed : List (Nat × List Char)} {start n : Nat}

theorem standing_singleton (start : Nat) (line : TextLine) (p : Nat × List Char) :
    standing start [line] [p] = [(start + p.1, p.2)] := rfl

/-- What goes onto each line stays before what ends it. -/
def OnBodies (ls : List TextLine) (placed : List (Nat × List Char)) : Prop :=
  placed.length ≤ ls.length ∧ ∀ on ∈ ls.zip placed, on.2.1 ≤ on.1.body.length

theorem onBodies_cons {line : TextLine} {p : Nat × List Char} :
    OnBodies (line :: ls) (p :: placed) ↔ p.1 ≤ line.body.length ∧ OnBodies ls placed := by
  rw [OnBodies, OnBodies, List.zip_cons_cons, List.forall_mem_cons, List.length_cons,
    List.length_cons, Nat.succ_le_succ_iff]
  tauto

theorem weave_standing (front : Rope) (hon : OnBodies ls placed) (hn : n ≤ front.length) :
    weave (front ++ joined ls) n ((standing front.length ls placed).map inserted) =
      front.drop n ++ joined (insertRows placed ls) := by
  induction placed generalizing front ls n with
  | nil =>
      cases ls with
      | nil => exact List.drop_append_of_le_length hn
      | cons line ls => exact List.drop_append_of_le_length hn
  | cons p placed ih =>
      cases ls with
      | nil => exact absurd hon.1 (Nat.not_succ_le_zero _)
      | cons line ls =>
          obtain ⟨hp, hon⟩ := onBodies_cons.mp hon
          have hrest := @ih ls (front.length + p.1) (front ++ line.chars) hon (by
            rw [List.length_append, TextLine.chars, List.length_append]
            omega)
          rw [List.append_assoc, List.length_append] at hrest
          rw [standing, List.map_cons, weave, joined_cons]
          dsimp only [inserted]
          rw [hrest, List.take_length_add_append, List.drop_append_of_le_length hn,
            List.drop_length_add_append, insertRows, joined_cons, TextLine.chars,
            List.append_assoc line.body, List.take_append_of_le_length hp,
            List.drop_append_of_le_length hp, TextLine.chars]
          simp only [List.append_assoc]

theorem standing_append {others : List TextLine} {more : List (Nat × List Char)}
    (h : placed.length = ls.length) (start : Nat) :
    standing start (ls ++ others) (placed ++ more) =
      standing start ls placed ++ standing (start + (joined ls).length) others more := by
  induction placed generalizing ls start with
  | nil =>
      obtain rfl := List.length_eq_zero_iff.mp h.symm
      rfl
  | cons p placed ih =>
      cases ls with
      | nil => cases h
      | cons line ls =>
          rw [List.cons_append, List.cons_append, standing, standing, ih (Nat.succ.inj h),
            joined_cons, List.length_append, Nat.add_assoc, List.cons_append]

theorem map_snd_standing (h : placed.length ≤ ls.length) (start : Nat) :
    (standing start ls placed).map Prod.snd = placed.map Prod.snd := by
  induction placed generalizing ls start with
  | nil => cases ls <;> rfl
  | cons p placed ih =>
      cases ls with
      | nil => exact absurd h (Nat.not_succ_le_zero _)
      | cons line ls =>
          rw [standing, List.map_cons, List.map_cons, ih (Nat.le_of_succ_le_succ h)]

/-- The places come after the start of the first line. -/
theorem le_of_mem_standing {p : Nat × List Char} (h : p ∈ standing start ls placed) :
    start ≤ p.1 := by
  induction placed generalizing ls start with
  | nil => cases ls <;> exact absurd h List.not_mem_nil
  | cons q placed ih =>
      cases ls with
      | nil => exact absurd h List.not_mem_nil
      | cons line ls =>
          rw [standing, List.mem_cons] at h
          rcases h with rfl | hmem
          · exact Nat.le_add_right _ _
          · have hle := ih hmem
            omega

/-- What goes onto each line goes no further than its end. -/
def OnLines (ls : List TextLine) (placed : List (Nat × List Char)) : Prop :=
  ∀ on ∈ ls.zip placed, on.2.1 ≤ on.1.chars.length

theorem le_of_onLines (hon : OnLines ls placed) {p : Nat × List Char}
    (h : p ∈ standing start ls placed) : p.1 ≤ start + (joined ls).length := by
  induction placed generalizing ls start with
  | nil => cases ls <;> exact absurd h List.not_mem_nil
  | cons q placed ih =>
      cases ls with
      | nil => exact absurd h List.not_mem_nil
      | cons line ls =>
          rw [OnLines, List.zip_cons_cons, List.forall_mem_cons] at hon
          rw [standing, List.mem_cons] at h
          rw [joined_cons, List.length_append]
          rcases h with rfl | hmem
          · have hq := hon.1
            dsimp only at hq ⊢
            omega
          · have hle := ih hon.2 hmem
            omega

/-- On lines that all end, the places come before the start of the next. -/
theorem lt_of_onBodies (hon : OnBodies ls placed) (hends : ∀ line ∈ ls, line.ending ≠ [])
    {p : Nat × List Char} (h : p ∈ standing start ls placed) :
      p.1 < start + (joined ls).length := by
  induction placed generalizing ls start with
  | nil => cases ls <;> exact absurd h List.not_mem_nil
  | cons q placed ih =>
      cases ls with
      | nil => exact absurd h List.not_mem_nil
      | cons line ls =>
          obtain ⟨hq, hon⟩ := onBodies_cons.mp hon
          have hpos := List.length_pos_iff.mpr (hends line List.mem_cons_self)
          rw [standing, List.mem_cons] at h
          rw [joined_cons, List.length_append, TextLine.chars, List.length_append]
          rcases h with rfl | hmem
          · dsimp only
            omega
          · have hlt := ih hon (fun l hl => hends l (List.mem_cons_of_mem _ hl)) hmem
            rw [TextLine.chars, List.length_append] at hlt
            omega

theorem Ended.ending_ne {before : List TextLine} (h : Ended (before ++ ls)) (hne : ls ≠ []) :
    ∀ line ∈ before, line.ending ≠ [] := by
  induction before with
  | nil => exact fun line hline => absurd hline List.not_mem_nil
  | cons first before ih =>
      rw [List.cons_append, ended_cons (by simp [hne])] at h
      obtain ⟨c, rest, hcons, -⟩ := h.2.1.exists_cons
      intro line hline
      rcases List.mem_cons.mp hline with rfl | hmem
      · rw [hcons]
        exact List.cons_ne_nil _ _
      · exact ih h.2.2 line hmem

theorem Ended.of_append {before : List TextLine} (h : Ended (before ++ ls)) (hne : ls ≠ []) :
    Ended ls := by
  induction before with
  | nil => exact h
  | cons first before ih =>
      rw [List.cons_append, ended_cons (by simp [hne])] at h
      exact ih h.2.2

/-- The places come one behind the other. -/
theorem pairwise_standing (h : Ended ls) (hon : OnBodies ls placed) (start : Nat) :
    (standing start ls placed).Pairwise fun a b => a.1 < b.1 := by
  induction placed generalizing ls start with
  | nil => cases ls <;> exact List.Pairwise.nil
  | cons p placed ih =>
      cases ls with
      | nil => exact absurd rfl h.ne_nil
      | cons line ls =>
          obtain ⟨hp, hon⟩ := onBodies_cons.mp hon
          rw [standing]
          by_cases hnil : ls = []
          · subst hnil
            rw [standing]
            · exact List.pairwise_singleton _ _
            · intro line' ls' p' placed' hls
              cases hls
          · obtain ⟨-, hends, hended⟩ := (ended_cons hnil).mp h
            obtain ⟨c, rest, hcons, -⟩ := hends.exists_cons
            refine List.pairwise_cons.mpr ⟨fun q hq => ?_, ih hended hon _⟩
            have hle := le_of_mem_standing hq
            rw [TextLine.chars, hcons, List.length_append, List.length_cons] at hle
            dsimp only
            omega

theorem length_standing (h : placed.length ≤ ls.length) (start : Nat) :
    (standing start ls placed).length = placed.length := by
  have hmap := congrArg List.length (map_snd_standing h start)
  rwa [List.length_map, List.length_map] at hmap

theorem onBodies_append {others : List TextLine} {more : List (Nat × List Char)}
    (h : placed.length = ls.length) : OnBodies (ls ++ others) (placed ++ more) ↔
      OnBodies ls placed ∧ OnBodies others more := by
  rw [OnBodies, OnBodies, OnBodies, List.zip_append h.symm, List.forall_mem_append,
    List.length_append, List.length_append, h]
  constructor
  · exact fun hon => ⟨⟨Nat.le_refl _, hon.2.1⟩, by omega, hon.2.2⟩
  · exact fun hon => ⟨by omega, hon.1.2, hon.2.2⟩

theorem count_insertRows (h : placed.length ≤ ls.length) :
    (insertRows placed ls).length = ls.length := by
  induction placed generalizing ls with
  | nil => rfl
  | cons p placed ih =>
      cases ls with
      | nil => exact absurd h (Nat.not_succ_le_zero _)
      | cons line ls =>
          rw [insertRows, List.length_cons, ih (Nat.le_of_succ_le_succ h), List.length_cons]

/-! ## The text -/

section

open Transaction (woven putBefore)

variable {before : List TextLine} (h : Ended (before ++ ls)) (hne : ls ≠ [])
  (hon : OnBodies ls placed)

include h hne hon

theorem woven_standing : woven (joined (before ++ ls)) (standing (joined before).length ls placed) =
    joined (before ++ insertRows placed ls) := by
  rw [Transaction.woven_of_lt (pairwise_standing (h.of_append hne) hon _), joined_append,
    weave_standing (joined before) hon (Nat.zero_le _), joined_append]
  rfl

/-- Where the last row stands before the end, or is empty, what is put in at the end comes
after all rows. -/
theorem woven_standing_end (hlen : placed.length = ls.length)
    (hlast : ∀ on, (ls.zip placed).getLast? = some on → on.2.1 < on.1.body.length ∨ on.2.2 = [])
    (text : List Char) :
    woven (joined (before ++ ls))
        (standing (joined before).length ls placed ++ [((joined (before ++ ls)).length, text)]) =
      joined (before ++ insertRows placed ls) ++ text := by
  have hended := h.of_append hne
  have horder := pairwise_standing hended hon (joined before).length
  have htext := weave_standing (joined before) hon (Nat.zero_le _)
  have hdrop : (joined before).drop 0 = joined before := rfl
  rw [hdrop, ← joined_append, ← joined_append] at htext
  obtain ⟨first, body, rfl⟩ := hended.exists_last
  obtain ⟨rows, p, rfl⟩ : ∃ rows p, placed = rows ++ [p] := by
    rcases List.eq_nil_or_concat placed with rfl | ⟨rows, p, hconcat⟩
    · simp at hlen
    · exact ⟨rows, p, by rw [hconcat, List.concat_eq_append]⟩
  have hrows : rows.length = first.length := by simpa using hlen
  rw [standing_append hrows, standing_singleton] at horder htext ⊢
  have hp := (onBodies_append hrows).mp hon
  have hin : p.1 ≤ body.length := (onBodies_cons.mp hp.2).1
  have htotal : (joined (before ++ (first ++ [⟨body, []⟩]))).length =
      (joined before).length + (joined first).length + body.length := by
    simp only [joined_append, joined_cons, joined_nil, TextLine.chars, List.length_append,
      List.length_nil, Nat.add_zero, Nat.add_assoc]
  have hcross := (List.pairwise_append.mp horder).2.2
  have hlow : ∀ q ∈ standing (joined before).length first rows,
      q.1 < (joined before).length + (joined first).length + p.1 :=
    fun q hq => hcross q hq _ List.mem_cons_self
  have hlast' : p.1 < body.length ∨ p.2 = [] := hlast (⟨body, []⟩, p) (by
    rw [List.zip_append hrows.symm]
    exact List.getLast?_concat)
  by_cases hless : p.1 < body.length
  · rw [Transaction.woven_concat_end horder, htext]
    intro q hq
    rw [htotal]
    rcases List.mem_append.mp hq with hq | hq
    · have hlt := hlow q hq
      omega
    · obtain rfl := List.mem_singleton.mp hq
      dsimp only
      omega
  · have hempty := hlast'.resolve_left hless
    have hend : (joined before).length + (joined first).length + p.1 =
        (joined (before ++ (first ++ [⟨body, []⟩]))).length := by
      rw [htotal]
      omega
    rw [hend] at hlow
    rw [hend, hempty, List.map_append, List.map_singleton, Transaction.weave_concat_end
      (Nat.zero_le _) (Transaction.within_inserted fun q hq => Nat.le_of_lt (hlow q hq))] at htext
    rw [List.append_nil] at htext
    rw [List.append_assoc, List.singleton_append, hend, hempty, Transaction.woven_concat_two
      (List.pairwise_append.mp horder).1 hlow, htext, List.append_nil]

end

/-- A row on a line among the lines afterwards. -/
theorem exists_addLines_insertRows (before : List TextLine) {lines others : List TextLine}
    {line : TextLine} {rows more : List (Nat × List Char)} {p : Nat × List Char}
    (hlines : ls = lines ++ line :: others)
    (hplaced : placed = rows ++ p :: more) (hrows : rows.length = lines.length)
    (added : List (List Char)) : ∃ ending rest,
      addLines (before ++ insertRows placed ls) added = (before ++ insertRows rows lines) ++
        ⟨line.body.take p.1 ++ p.2 ++ line.body.drop p.1, ending⟩ :: rest := by
  rw [hlines, hplaced, insertRows_append hrows, insertRows, ← List.append_assoc]
  exact exists_addLines added _ _ _

end Rope

namespace Commands

open Rope (textLines lineToChar lenLines standing insertRows addLines OnBodies OnLines
  Ended Unbroken)
open TextLine (joined joined_append)
open Transaction (woven putBefore insertion)

variable {unicodeWidth : Char → Option Nat} {rope : Rope} {col : Nat}

/-! ## Rows on lines -/

/-- What goes onto a line, and how many characters in. -/
def rowOn (unicodeWidth : Char → Option Nat) (col : Nat) (on : TextLine × List Char) :
    Nat × List Char :=
  let text := Lines.trimmed on.1.chars
  if widthOf unicodeWidth text < col then
    (text.length, List.replicate (col - widthOf unicodeWidth text) ' ' ++ on.2)
  else (Lines.indexAtCol unicodeWidth text col columnTab, on.2)

theorem rowOn_text (on : TextLine × List Char) : (rowOn unicodeWidth col on).2 =
    List.replicate (col - widthOf unicodeWidth (Lines.trimmed on.1.chars)) ' ' ++ on.2 := by
  rw [rowOn]
  split
  · rfl
  · next hge => rw [Nat.sub_eq_zero_of_le (Nat.not_lt.mp hge), List.replicate_zero, List.nil_append]

theorem rowOn_le (on : TextLine × List Char) :
    (rowOn unicodeWidth col on).1 ≤ (Lines.trimmed on.1.chars).length := by
  rw [rowOn]
  split
  · exact Nat.le_refl _
  · exact indexAtCol_le _ _ _

theorem length_trimmed_le (raw : List Char) : (Lines.trimmed raw).length ≤ raw.length := by
  have hlen := Lines.length_trimmed raw
  omega

theorem getElem?_textLines {line : Nat} {raw : TextLine} (h : (textLines rope)[line]? = some raw) :
    (Rope.lines rope)[line]? = some raw.chars := by
  rw [textLines, List.getElem?_map] at h
  obtain ⟨text, htext, rfl⟩ := Option.map_eq_some_iff.mp h
  rw [htext, TextLine.chars_cut]

theorem rowEdit_eq {firstLine i : Nat} {line : TextLine}
    (h : (textLines rope)[firstLine + i]? = some line) (row : List Char) :
    rowEdit unicodeWidth rope ' ' firstLine col i row =
      (lineToChar rope (firstLine + i) + (rowOn unicodeWidth col (line, row)).1,
        (rowOn unicodeWidth col (line, row)).2) := by
  have hraw := getElem?_textLines h
  have hlt : firstLine + i < lenLines rope := (List.getElem?_eq_some_iff.mp hraw).1
  rw [rowEdit, rowOn]
  dsimp only
  rw [Lines.lineText_of_getElem? hraw, Lines.lineEnd_of_getElem? hraw, Lines.lineStart_of_lt hlt,
    widthOf]
  split <;> rfl

/-- The rows on lines that are there stand on those lines. -/
theorem mapIdx_rowEdit (first col : Nat) (rows : List (List Char)) :
    (rows.take (lenLines rope - first)).mapIdx (rowEdit unicodeWidth rope ' ' first col) =
      standing (lineToChar rope first) ((textLines rope).drop first)
        ((((textLines rope).drop first).zip rows).map (rowOn unicodeWidth col)) := by
  induction rows generalizing first with
  | nil =>
      rw [List.take_nil, List.mapIdx_nil, List.zip_nil_right, List.map_nil]
      cases (textLines rope).drop first <;> rfl
  | cons row rows ih =>
      rcases Nat.lt_or_ge first (lenLines rope) with hlt | hge
      · have hlen : first < (textLines rope).length := by rwa [Rope.length_textLines]
        have hline : (textLines rope)[first]? = some (textLines rope)[first] :=
          List.getElem?_eq_getElem hlen
        have hsucc := Rope.lineToChar_succ (getElem?_textLines hline)
        have hrest : (fun i => rowEdit unicodeWidth rope ' ' first col (i + 1)) =
            rowEdit unicodeWidth rope ' ' (first + 1) col := by
          funext i row
          rw [rowEdit, rowEdit, Nat.add_assoc, Nat.add_comm 1 i]
        have htake : lenLines rope - first = lenLines rope - (first + 1) + 1 := by omega
        rw [htake, List.take_succ_cons, List.mapIdx_cons, hrest, ih (first + 1),
          @rowEdit_eq unicodeWidth rope col first 0 _ hline row, List.drop_eq_getElem_cons hlen,
          List.zip_cons_cons, List.map_cons, standing, ← hsucc, Nat.add_zero]
      · rw [Nat.sub_eq_zero_of_le hge, List.take_zero, List.mapIdx_nil, List.drop_eq_nil_of_le (by
          rwa [Rope.length_textLines])]
        rfl

/-! ## Columns of a text -/

section

variable {text more : List Char} {target tab : Nat}

theorem displayCol_mono (text : List Char) (tab : Nat) {i j : Nat} (h : i ≤ j) :
    Lines.displayCol unicodeWidth text i tab ≤ Lines.displayCol unicodeWidth text j tab := by
  have hgrow (chars : List Char) (start : Nat) :
      start ≤ chars.foldl (fun col c => col + Lines.charWidth unicodeWidth c col tab) start := by
    induction chars generalizing start with
    | nil => exact Nat.le_refl _
    | cons c chars ih => exact Nat.le_trans (Nat.le_add_right _ _) (ih _)
  obtain ⟨k, rfl⟩ := Nat.exists_eq_add_of_le h
  rw [Lines.displayCol, Lines.displayCol, List.take_add, List.foldl_append]
  exact hgrow _ _

theorem displayCol_append (more : List Char) {i : Nat} (h : i ≤ text.length) :
    Lines.displayCol unicodeWidth (text ++ more) i tab =
      Lines.displayCol unicodeWidth text i tab := by
  rw [Lines.displayCol, Lines.displayCol, List.take_append_of_le_length h]

theorem widthOf_append_le (text more : List Char) :
    widthOf unicodeWidth text ≤ widthOf unicodeWidth (text ++ more) := by
  rw [widthOf, widthOf, ← displayCol_append more (Nat.le_refl _)]
  refine displayCol_mono _ _ ?_
  rw [List.length_append]
  exact Nat.le_add_right _ _

/-- `index_at_col` finds the character that reaches past the column, or the end. -/
theorem indexFrom_cases {col : Nat} (hcol : col ≤ target) (text : List Char) (index : Nat) :
    let reached := fun i => (text.take i).foldl
      (fun col c => col + Lines.charWidth unicodeWidth c col tab) col
    Lines.indexFrom unicodeWidth target tab text index col = index + text.length ∧
        reached text.length ≤ target ∨
      ∃ i < text.length, reached i ≤ target ∧ target < reached (i + 1) ∧
        (Lines.indexFrom unicodeWidth target tab text index col = index + i ∨
          Lines.indexFrom unicodeWidth target tab text index col = index + i + 1 ∧
            reached i < target) := by
  induction text generalizing index col with
  | nil => exact .inl ⟨rfl, hcol⟩
  | cons c text ih =>
      rw [Lines.indexFrom]
      by_cases hpast : col + Lines.charWidth unicodeWidth c col tab > target
      · rw [if_pos hpast]
        refine .inr ⟨0, Nat.succ_pos _, hcol, hpast, ?_⟩
        split
        · next hnear => exact .inr ⟨rfl, show col < target by omega⟩
        · exact .inl rfl
      · rw [if_neg hpast]
        rcases ih (Nat.not_lt.mp hpast) (index + 1) with ⟨hindex, hreach⟩ | ⟨i, hi,
          hle, hlt, hindex⟩
        · exact .inl ⟨by rw [hindex, List.length_cons]; omega, hreach⟩
        · refine .inr ⟨i + 1, Nat.succ_lt_succ hi, hle, hlt, ?_⟩
          rcases hindex with hindex | ⟨hindex, hless⟩
          · exact .inl (by rw [hindex]; omega)
          · exact .inr ⟨by rw [hindex]; omega, hless⟩

/-- In the body of a line the index stands at the column, if nothing reaches over it. -/
theorem displayCol_indexAtCol (more : List Char) (hcol : col ≤ widthOf unicodeWidth text)
    (hwithin : Lines.indexAtCol unicodeWidth (text ++ more) col columnTab ≤ text.length)
    (hstraddled : ¬ Straddled unicodeWidth text col) :
    Lines.displayCol unicodeWidth text
      (Lines.indexAtCol unicodeWidth (text ++ more) col columnTab) columnTab = col := by
  have hcases := @indexFrom_cases unicodeWidth col columnTab 0 (Nat.zero_le _) (text ++ more) 0
  rw [Lines.indexAtCol] at hwithin ⊢
  obtain ⟨index, hindex⟩ : ∃ index, Lines.indexFrom unicodeWidth col columnTab (text ++ more) 0 0 =
    index := ⟨_, rfl⟩
  rw [hindex] at hcases hwithin ⊢
  rw [widthOf] at hcol
  rcases hcases with ⟨rfl, hreach⟩ | ⟨i, hi, hle, hlt, hfound⟩
  · have hfull : (0 + (text ++ more).length) = text.length := by
      rw [List.length_append] at hwithin ⊢
      omega
    have hwidth : Lines.displayCol unicodeWidth (text ++ more) (text ++ more).length
        columnTab ≤ col :=
      hreach
    rw [show (text ++ more).length = text.length by omega,
      displayCol_append more (Nat.le_refl _)] at hwidth
    rw [hfull]
    omega
  · have hat : Lines.displayCol unicodeWidth (text ++ more) i columnTab ≤ col := hle
    have hpast : col < Lines.displayCol unicodeWidth (text ++ more) (i + 1) columnTab := hlt
    rcases Nat.lt_or_ge i text.length with hin | hout
    · rw [displayCol_append more (Nat.le_of_lt hin)] at hat
      rw [displayCol_append more hin] at hpast
      have heq : Lines.displayCol unicodeWidth text i columnTab = col := by
        by_contra hne
        exact hstraddled ⟨i, hin, by omega, hpast⟩
      rcases hfound with rfl | ⟨-, hless⟩
      · rw [Nat.zero_add, heq]
      · have hbefore : Lines.displayCol unicodeWidth (text ++ more) i columnTab < col := hless
        rw [displayCol_append more (Nat.le_of_lt hin)] at hbefore
        omega
    · have hend : index = text.length ∧ i = text.length := by omega
      rw [hend.2, displayCol_append more (Nat.le_refl _)] at hat
      rw [hend.1]
      omega

end

/-! ## Where a row goes on its line -/

section

variable {line : TextLine} {row : List Char}

/-- The line has no end of a line in it, and ends as lines do. -/
def Shaped (line : TextLine) : Prop :=
  Unbroken line.body ∧ (line.ending = [] ∨ ∃ after, Rope.Ends line.ending after)

theorem shaped_of_ended {lines : List TextLine} (h : Ended lines) :
    ∀ line ∈ lines, Shaped line := by
  induction h with
  | last hbody =>
      intro line hline
      obtain rfl := List.mem_singleton.mp hline
      exact ⟨hbody, .inl rfl⟩
  | cons hbody hends hlines ih =>
      intro line hline
      rcases List.mem_cons.mp hline with rfl | hmem
      · exact ⟨hbody, .inr ⟨_, hends⟩⟩
      · exact ih line hmem

/-- What is left of a line without its LF: all of it only if it ends in no other way. -/
theorem Shaped.exists_trimmed (h : Shaped line) : ∃ extra,
    Lines.trimmed line.chars = line.body ++ extra ∧
      (extra = [] ↔ line.ending = [] ∨ line.ending = ['\n']) := by
  obtain ⟨body, ending⟩ := line
  obtain ⟨hbody, rfl | ⟨after, rfl | ⟨c, rfl, -⟩⟩⟩ := h
  · refine ⟨[], ?_, by simp⟩
    have hlast : body.getLast? ≠ some '\n' := fun hlast =>
      absurd (hbody '\n' (List.mem_of_getLast? hlast)).1 (by decide)
    rw [TextLine.chars, List.append_nil, Lines.trimmed, if_neg hlast]
  · refine ⟨['\r'], ?_, by simp⟩
    rw [TextLine.chars, Lines.trimmed, if_pos (by simp), List.dropLast_append_of_ne_nil (by simp)]
    rfl
  · rw [TextLine.chars, Lines.trimmed, List.getLast?_concat, List.dropLast_concat]
    by_cases hc : c = '\n'
    · exact ⟨[], by rw [if_pos (by rw [hc]), List.append_nil], by simp [hc]⟩
    · exact ⟨[c], by rw [if_neg (by simpa using hc)], by simp [hc]⟩

theorem Shaped.rowAt (h : Shaped line) (hbody : InBody unicodeWidth col line) :
    RowAt unicodeWidth col line.body row (rowOn unicodeWidth col (line, row)) := by
  obtain ⟨extra, htrimmed, hextra⟩ := h.exists_trimmed
  have htext := @rowOn_text unicodeWidth col (line, row)
  rw [InBody, ← or_assoc, ← hextra] at hbody
  dsimp only at htext
  rw [htrimmed] at htext hbody
  rcases hbody with hnil | ⟨hcol, hindex⟩
  · have hon : rowOn unicodeWidth col (line, row) =
        if widthOf unicodeWidth line.body < col then
          (line.body.length, List.replicate (col - widthOf unicodeWidth line.body) ' ' ++ row)
        else (Lines.indexAtCol unicodeWidth line.body col columnTab, row) := by
      rw [rowOn]
      dsimp only
      rw [htrimmed, hnil, List.append_nil]
    rw [hnil, List.append_nil] at htext
    refine ⟨htext, ?_, fun hshort => ?_, fun hcol hstraddled => ?_⟩
    · rw [hon]
      split
      · exact Nat.le_refl _
      · exact indexAtCol_le _ _ _
    · rw [hon, if_pos hshort]
    · have hle := @indexAtCol_le unicodeWidth line.body col columnTab
      have hat := @displayCol_indexAtCol unicodeWidth col line.body [] hcol
        (by rwa [List.append_nil]) hstraddled
      rw [List.append_nil] at hat
      rw [hon, if_neg (Nat.not_lt.mpr hcol)]
      exact hat
  · have hwidth := @widthOf_append_le unicodeWidth line.body extra
    have hon : rowOn unicodeWidth col (line, row) =
        (Lines.indexAtCol unicodeWidth (line.body ++ extra) col columnTab, row) := by
      rw [rowOn]
      dsimp only
      rw [htrimmed, if_neg (by omega)]
    refine ⟨?_, ?_, fun hshort => absurd hcol (Nat.not_le.mpr hshort), fun _ hstraddled => ?_⟩
    · rw [hon, Nat.sub_eq_zero_of_le hcol, List.replicate_zero, List.nil_append]
    · rw [hon]
      exact hindex
    · rw [hon]
      exact displayCol_indexAtCol extra hcol hindex hstraddled

/-- A row that stands before the end of its line, after all the spaces it needs, is in the
body. -/
theorem Shaped.inBody (h : Shaped line)
    (hwithin : (rowOn unicodeWidth col (line, row)).1 ≤ line.body.length)
    (hpads : col - widthOf unicodeWidth (Lines.trimmed line.chars) =
      col - widthOf unicodeWidth line.body) : InBody unicodeWidth col line := by
  obtain ⟨extra, htrimmed, hextra⟩ := h.exists_trimmed
  rw [InBody, ← or_assoc, ← hextra]
  by_cases hnil : extra = []
  · exact .inl hnil
  · have hwidth := @widthOf_append_le unicodeWidth line.body extra
    have hpos := List.length_pos_iff.mpr hnil
    rw [htrimmed] at hpads ⊢
    rw [rowOn] at hwithin
    dsimp only at hwithin
    rw [htrimmed] at hwithin
    by_cases hshort : widthOf unicodeWidth (line.body ++ extra) < col
    · rw [if_pos hshort, List.length_append] at hwithin
      omega
    · rw [if_neg hshort] at hwithin
      exact .inr ⟨by omega, hwithin⟩

end

/-! ## What the paste does -/

section

variable (unicodeWidth) (rope) (caret : Nat) (rows : List (List Char))

/-- The rows on lines that are there, each so many characters in. -/
def rowsPut : List (Nat × List Char) :=
  (rowsOn rope caret rows).map (rowOn unicodeWidth (caretColumn unicodeWidth rope caret))

/-- The lines before the caret's. -/
def linesBefore : List TextLine := (textLines rope).take (Lines.lineOf rope caret)

/-- The caret's line and those after it. -/
def linesFrom : List TextLine := (textLines rope).drop (Lines.lineOf rope caret)

theorem linesBefore_append : linesBefore rope caret ++ linesFrom rope caret = textLines rope :=
  List.take_append_drop _ _

theorem ended_lines : Ended (linesBefore rope caret ++ linesFrom rope caret) := by
  rw [linesBefore_append]
  exact Rope.ended_textLines rope

theorem joined_lines : joined (linesBefore rope caret ++ linesFrom rope caret) = rope := by
  rw [linesBefore_append, Rope.joined_textLines]

theorem linesFrom_ne_nil : linesFrom rope caret ≠ [] := by
  have hlt := Lines.lineOf_lt rope caret
  rw [linesFrom, Ne, List.drop_eq_nil_iff, Rope.length_textLines]
  omega

theorem lineToChar_lineOf : lineToChar rope (Lines.lineOf rope caret) =
    (joined (linesBefore rope caret)).length := by
  have hline := (Rope.ended_textLines rope).lineToChar (Lines.lineOf rope caret)
  rwa [Rope.joined_textLines] at hline

theorem length_linesFrom :
    (linesFrom rope caret).length = lenLines rope - Lines.lineOf rope caret := by
  rw [linesFrom, List.length_drop, Rope.length_textLines]

theorem length_rowsPut : (rowsPut unicodeWidth rope caret rows).length =
    min (linesFrom rope caret).length rows.length := by
  rw [rowsPut, List.length_map, rowsOn, List.length_zip]
  rfl

theorem placedRows_eq : placedRows unicodeWidth rope caret ' ' rows =
    standing (joined (linesBefore rope caret)).length (linesFrom rope caret)
      (rowsPut unicodeWidth rope caret rows) := by
  rw [← lineToChar_lineOf]
  exact mapIdx_rowEdit _ _ _

theorem appendedRows_eq : appendedRows ' ' (caretColumn unicodeWidth rope caret)
    (rows.drop (lenLines rope - Lines.lineOf rope caret)) =
      (addedRows unicodeWidth rope caret rows).flatMap fun row => '\n' :: row := by
  rw [appendedRows, addedRows, List.flatMap_map]

theorem addedRows_eq_nil : addedRows unicodeWidth rope caret rows = [] ↔
    rows.length ≤ lenLines rope - Lines.lineOf rope caret := by
  rw [addedRows, List.map_eq_nil_iff, List.drop_eq_nil_iff]

/-- What goes in at the end of the text. -/
theorem columnEdits_eq : columnEdits unicodeWidth rope caret ' ' rows =
    standing (joined (linesBefore rope caret)).length (linesFrom rope caret)
      (rowsPut unicodeWidth rope caret rows) ++
        if addedRows unicodeWidth rope caret rows = [] then []
        else [(rope.length,
          (addedRows unicodeWidth rope caret rows).flatMap fun row => '\n' :: row)] := by
  rw [columnEdits, placedRows_eq, appendedRows_eq]
  congr 1
  refine if_congr ?_ rfl rfl
  cases addedRows unicodeWidth rope caret rows with
  | nil => exact iff_of_true rfl rfl
  | cons row more => exact iff_of_false (List.cons_ne_nil _ _) (List.cons_ne_nil _ _)

theorem onLines_rowsPut :
    OnLines (linesFrom rope caret) (rowsPut unicodeWidth rope caret rows) := by
  intro on hon
  rw [rowsPut, rowsOn, ← linesFrom] at hon
  generalize linesFrom rope caret = lines at hon
  induction lines generalizing rows with
  | nil => exact absurd hon List.not_mem_nil
  | cons line lines ih =>
      cases rows with
      | nil => exact absurd hon List.not_mem_nil
      | cons row rows =>
          rw [List.zip_cons_cons, List.map_cons, List.zip_cons_cons, List.mem_cons] at hon
          rcases hon with rfl | hmem
          · exact Nat.le_trans (rowOn_le _) (length_trimmed_le _)
          · exact ih rows hmem

theorem columnEdits_le :
    ∀ p ∈ columnEdits unicodeWidth rope caret ' ' rows, p.1 ≤ rope.length := by
  intro p hp
  rw [columnEdits_eq] at hp
  rcases List.mem_append.mp hp with hmem | hmem
  · have hle := Rope.le_of_onLines (onLines_rowsPut unicodeWidth rope caret rows) hmem
    have htotal := congrArg List.length (joined_lines rope caret)
    rw [joined_append, List.length_append] at htotal
    omega
  · split at hmem
    · exact absurd hmem List.not_mem_nil
    · obtain rfl := List.mem_singleton.mp hmem
      exact Nat.le_refl _

/-- Where the carets come to stand. -/
def pastedPlaces : List Nat :=
  (placedRows unicodeWidth rope caret ' ' rows).map fun p =>
    p.1 + putBefore (columnEdits unicodeWidth rope caret ' ' rows) p.1 + p.2.length

end

/-- A bare caret. -/
def bareCaret (caret : Nat) (goal : Option Nat) : Selection where
  ranges := [{ anchor := caret, head := caret, goal := goal }]
  primary := 0
  primary_lt := Nat.one_pos

theorem placedRows_ne_nil (rope : Rope) (caret : Nat) {rows : List (List Char)} (h : rows ≠ []) :
    placedRows unicodeWidth rope caret ' ' rows ≠ [] := by
  have hlt := Lines.lineOf_lt rope caret
  rw [placedRows, Ne, List.mapIdx_eq_nil_iff, List.take_eq_nil_iff]
  rintro (hzero | hnil)
  · omega
  · exact h hnil

theorem splitOn_ne_nil (text : List Char) : text.splitOn '\n' ≠ [] := by
  rw [List.splitOn]
  exact List.splitOnP_ne_nil _ _

/-- A column at a bare caret: the text with everything put in, and where the carets stand. -/
theorem paste_column_spec (doc : TextDoc) (caret : Nat) (goal : Option Nat) (text : List Char)
    (nowMs : Nat) : ∃ doc' edited,
      paste unicodeWidth doc (bareCaret caret goal) ⟨text, .column⟩ ' ' nowMs =
        some (doc', edited) ∧
        doc'.rope = woven doc.rope
          (columnEdits unicodeWidth doc.rope caret ' ' (text.splitOn '\n')) ∧
          CaretsAt edited.selection
            (pastedPlaces unicodeWidth doc.rope caret (text.splitOn '\n')) 0 := by
  obtain ⟨tx, htx, happly, hinvert, hmap⟩ :=
    Transaction.replace_insertions doc.rope
      (columnEdits_le unicodeWidth doc.rope caret (text.splitOn '\n'))
  have hplaced := @placedRows_ne_nil unicodeWidth doc.rope caret _ (splitOn_ne_nil text)
  have hcarets : pastedCarets tx doc.rope
      (placedRows unicodeWidth doc.rope caret ' ' (text.splitOn '\n')) =
        (pastedPlaces unicodeWidth doc.rope caret (text.splitOn '\n')).map Range.point := by
    rw [pastedCarets, if_neg hplaced, pastedPlaces, List.map_map]
    refine List.map_congr_left fun p _ => ?_
    rw [hmap]
    rfl
  have hpos : 0 < (pastedPlaces unicodeWidth doc.rope caret (text.splitOn '\n')).length := by
    rw [pastedPlaces, List.length_map]
    exact List.length_pos_iff.mpr hplaced
  let after := Selection.new (pastedCarets tx doc.rope
    (placedRows unicodeWidth doc.rope caret ' ' (text.splitOn '\n'))) 0 (pastedCarets_ne_nil _ _ _)
  obtain ⟨doc', applied, hedit, hrope, -⟩ :=
    exists_edit happly hinvert (bareCaret caret goal) after .other nowMs
  have hbare : allEmpty (bareCaret caret goal) = true := by
    simp [allEmpty, bareCaret, Range.isEmpty]
  refine ⟨doc', { applied := applied, selection := after }, ?_, hrope, ?_⟩
  · rw [paste, if_neg (fun h => by cases h.1), if_pos ⟨rfl, rfl, hbare⟩]
    change (Transaction.replace doc.rope ((columnEdits unicodeWidth doc.rope caret ' '
      (text.splitOn '\n')).map insertion)).bind _ = _
    rw [htx, Option.bind_some]
    change (doc.edit tx (bareCaret caret goal) after .other nowMs).map _ = _
    rw [hedit, Option.map_some]
    rfl
  · simp only [after, hcarets]
    exact caretsAt_new hpos _

end Commands

end Throng.Editor
