import Throng.Editor.LineStarts

/-!
# Lines and what ends them

A line is what stands on it and what ends it: one of the characters that end lines, CR LF, or
nothing for the last. A text is its lines one after the other, and lines of that shape are
those of the text they make. So text without ends of lines that is put in on a line leaves all
the others, and one more line at the end leaves those before it, unless the text ends with a
CR, which the LF before the new line would join.
-/

namespace Throng.Editor

/-- A line: what stands on it, and what ends it. -/
structure TextLine where
  body : List Char
  ending : List Char
deriving DecidableEq, Repr

namespace TextLine

def chars (line : TextLine) : List Char := line.body ++ line.ending

/-- The character is no part of the end of a line. -/
def plain (c : Char) : Bool := !Rope.isBreak c && c ≠ '\r'

/-- A line of the rope, cut where what ends it begins. -/
def cut (raw : List Char) : TextLine := ⟨raw.takeWhile plain, raw.dropWhile plain⟩

/-- The text of lines one after the other. -/
def joined (lines : List TextLine) : Rope := lines.flatMap chars

@[simp] theorem joined_nil : joined [] = [] := rfl

@[simp] theorem joined_cons (line : TextLine) (lines : List TextLine) :
    joined (line :: lines) = line.chars ++ joined lines := rfl

@[simp] theorem joined_append (lines others : List TextLine) :
    joined (lines ++ others) = joined lines ++ joined others := List.flatMap_append

theorem chars_cut (raw : List Char) : (cut raw).chars = raw := List.takeWhile_append_dropWhile

theorem unbroken_iff {text : List Char} : Rope.Unbroken text ↔ ∀ c ∈ text, plain c = true := by
  simp only [Rope.Unbroken, plain, Bool.and_eq_true, Bool.not_eq_true', decide_eq_true_eq]

end TextLine

namespace Rope

open TextLine (joined joined_nil joined_cons joined_append cut chars_cut plain unbroken_iff)

/-- The lines of the rope, each with what ends it apart. -/
def textLines (rope : Rope) : List TextLine := (lines rope).map cut

/-- The characters end a line when `after` follows. -/
def Ends (ending after : List Char) : Prop :=
  ending = ['\r', '\n'] ∨ ∃ c, ending = [c] ∧ endsLine c after = true

/-- Lines without ends of lines in them, each with what ends it but the last. -/
inductive Ended : List TextLine → Prop
  | last {body : List Char} (hbody : Unbroken body) : Ended [⟨body, []⟩]
  | cons {line : TextLine} {lines : List TextLine} (hbody : Unbroken line.body)
      (hends : Ends line.ending (joined lines)) (hlines : Ended lines) : Ended (line :: lines)

variable {line : TextLine} {ls : List TextLine} {ending after after' : List Char}

theorem Unbroken.append {text more : List Char} (h : Unbroken text) (h' : Unbroken more) :
    Unbroken (text ++ more) := by
  intro c hc
  rcases List.mem_append.mp hc with hmem | hmem
  · exact h c hmem
  · exact h' c hmem

theorem Unbroken.of_append_right {text more : List Char} (h : Unbroken (text ++ more)) :
    Unbroken more := fun c hc => h c (List.mem_append_right _ hc)

theorem Unbroken.head?_ne {text : List Char} (h : Unbroken text) : text.head? ≠ some '\n' := by
  intro hhead
  exact absurd (h '\n' (List.mem_of_head? hhead)).1 (by decide)

theorem plain_of_endsLine {c : Char} (h : endsLine c after = true) : plain c = false := by
  rw [endsLine, Bool.or_eq_true, Bool.and_eq_true, decide_eq_true_eq] at h
  rw [plain]
  rcases h with hbreak | ⟨hcr, -⟩
  · rw [hbreak]
    rfl
  · rw [decide_eq_false (not_not.mpr hcr), Bool.and_false]

/-- What ends a line is there, and begins with a character that is no part of a line. -/
theorem Ends.exists_cons (h : Ends ending after) :
    ∃ c rest, ending = c :: rest ∧ plain c = false := by
  rcases h with rfl | ⟨c, rfl, hends⟩
  · exact ⟨'\r', ['\n'], rfl, by decide⟩
  · exact ⟨c, [], rfl, plain_of_endsLine hends⟩

theorem Ends.lines_append (h : Ends ending after) :
    lines (ending ++ after) = ending :: lines after := by
  rcases h with rfl | ⟨c, rfl, hends⟩
  · rfl
  · rw [List.singleton_append, lines, if_pos hends]

theorem endsLine_mono {c : Char} (h : endsLine c after = true)
    (hhead : after'.head? = some '\n' → after.head? = some '\n') : endsLine c after' = true := by
  rw [endsLine, Bool.or_eq_true, Bool.and_eq_true, decide_eq_true_eq, decide_eq_true_eq] at h ⊢
  exact h.imp id fun hcr => ⟨hcr.1, fun hnew => hcr.2 (hhead hnew)⟩

/-- A CR still ends its line if no LF comes to follow it. -/
theorem Ends.mono (h : Ends ending after)
    (hhead : after'.head? = some '\n' → after.head? = some '\n') : Ends ending after' := by
  rcases h with rfl | ⟨c, rfl, hends⟩
  · exact .inl rfl
  · exact .inr ⟨c, rfl, endsLine_mono hends hhead⟩

theorem Ended.ne_nil (h : Ended ls) : ls ≠ [] := by
  cases h <;> exact List.cons_ne_nil _ _

theorem Ended.unbroken (h : Ended ls) : ∀ line ∈ ls, Unbroken line.body := by
  induction h with
  | last hbody =>
      intro line hline
      obtain rfl := List.mem_singleton.mp hline
      exact hbody
  | cons hbody hends hlines ih =>
      intro line hline
      rcases List.mem_cons.mp hline with rfl | hmem
      · exact hbody
      · exact ih line hmem

/-- Lines of that shape are those of the text they make. -/
theorem Ended.lines_joined (h : Ended ls) : lines (joined ls) = ls.map TextLine.chars := by
  induction h with
  | last hbody =>
      rw [joined_cons, TextLine.chars, List.append_assoc, lines_unbroken_append hbody]
      rfl
  | @cons line ls hbody hends hlines ih =>
      rw [joined_cons, TextLine.chars, List.append_assoc, lines_unbroken_append hbody,
        hends.lines_append, ih, List.modifyHead_cons, List.map_cons, TextLine.chars]

theorem cut_chars (hbody : Unbroken line.body)
    (hending : line.ending = [] ∨ ∃ after, Ends line.ending after) : cut line.chars = line := by
  have hplain := unbroken_iff.mp hbody
  have hrest : line.ending.takeWhile plain = [] ∧ line.ending.dropWhile plain = line.ending := by
    rcases hending with hnil | ⟨after, hends⟩
    · rw [hnil]
      exact ⟨rfl, rfl⟩
    · obtain ⟨c, rest, hcons, hc⟩ := hends.exists_cons
      rw [hcons, List.takeWhile_cons_of_neg (by simp [hc]),
        List.dropWhile_cons_of_neg (by simp [hc])]
      exact ⟨rfl, rfl⟩
  rw [cut, TextLine.chars, List.takeWhile_append_of_pos hplain, List.dropWhile_append_of_pos hplain,
    hrest.1, hrest.2, List.append_nil]

theorem Ended.textLines_joined (h : Ended ls) : textLines (joined ls) = ls := by
  rw [textLines, h.lines_joined, List.map_map]
  have hcut : ∀ line ∈ ls, cut line.chars = line := by
    induction h with
    | last hbody =>
        intro line hline
        obtain rfl := List.mem_singleton.mp hline
        exact cut_chars hbody (.inl rfl)
    | cons hbody hends hlines ih =>
        intro line hline
        rcases List.mem_cons.mp hline with rfl | hmem
        · exact cut_chars hbody (.inr ⟨_, hends⟩)
        · exact ih line hmem
  exact (List.map_congr_left hcut).trans (List.map_id _)

theorem joined_textLines (rope : Rope) : joined (textLines rope) = rope := by
  rw [joined, textLines, List.flatMap_map]
  simp only [chars_cut]
  rw [List.flatMap_id']
  exact flatten_lines rope

theorem textLines_of_ends {c : Char} {rest : Rope} (h : endsLine c rest = true) :
    textLines (c :: rest) = ⟨[], [c]⟩ :: textLines rest := by
  have hplain := plain_of_endsLine h
  rw [textLines, lines, if_pos h, List.map_cons, cut, List.takeWhile_cons_of_neg (by simp [hplain]),
    List.dropWhile_cons_of_neg (by simp [hplain]), textLines]

theorem textLines_cons_plain {c : Char} (hplain : plain c = true) (rest : Rope) :
    ∃ line others, textLines rest = line :: others ∧
      textLines (c :: rest) = ⟨c :: line.body, line.ending⟩ :: others := by
  have hends : endsLine c rest = false := by
    by_contra hends
    exact absurd (plain_of_endsLine (by simpa using hends)) (by simp [hplain])
  cases hlines : lines rest with
  | nil => exact absurd hlines (lines_ne_nil rest)
  | cons first others =>
      refine ⟨cut first, others.map cut, by rw [textLines, hlines, List.map_cons], ?_⟩
      rw [textLines, lines, if_neg (by simp [hends]), hlines, SplitLines.consLine, List.map_cons,
        cut, List.takeWhile_cons_of_pos hplain, List.dropWhile_cons_of_pos hplain, cut]

/-- A CR that ends no line stands before its LF. -/
theorem textLines_crlf (rest : Rope) :
    textLines ('\r' :: '\n' :: rest) = ⟨[], ['\r', '\n']⟩ :: textLines rest := rfl

/-- Every text is lines of that shape. -/
theorem ended_textLines (rope : Rope) : Ended (textLines rope) := by
  have hnil : Unbroken [] := fun c hc => absurd hc List.not_mem_nil
  induction rope with
  | nil => exact .last hnil
  | cons c rest ih =>
      cases hplain : plain c with
      | true =>
          obtain ⟨line, others, hrest, hcons⟩ := textLines_cons_plain hplain rest
          have hbody : ∀ body, Unbroken body → Unbroken (c :: body) := by
            intro body hbody
            rw [unbroken_iff] at hbody ⊢
            exact List.forall_mem_cons.mpr ⟨hplain, hbody⟩
          rw [hrest] at ih
          rw [hcons]
          cases ih with
          | last hlast => exact .last (hbody _ hlast)
          | cons hfirst hafter hothers => exact .cons (hbody _ hfirst) hafter hothers
      | false =>
          cases hends : endsLine c rest with
          | true =>
              rw [textLines_of_ends hends]
              refine .cons hnil (.inr ⟨c, rfl, ?_⟩) ih
              rwa [joined_textLines]
          | false =>
              rw [endsLine, Bool.or_eq_false_iff] at hends
              rw [plain, hends.1, Bool.not_false, Bool.true_and, decide_eq_false_iff_not,
                not_not] at hplain
              subst hplain
              obtain ⟨rest, rfl⟩ : ∃ rest', rest = '\n' :: rest' := by
                refine List.head?_eq_some_iff.mp ?_
                simpa using hends.2
              rw [textLines_of_ends (show endsLine '\n' rest = true from rfl)] at ih
              rw [textLines_crlf]
              cases ih with
              | cons _ _ hothers => exact .cons hnil (.inl rfl) hothers

theorem Ended.lineToChar (h : Ended ls) (line : Nat) :
    lineToChar (joined ls) line = (joined (ls.take line)).length := by
  rw [Rope.lineToChar, h.lines_joined, ← List.map_take, ← List.flatMap_def]
  rfl

theorem Ended.lenLines (h : Ended ls) : lenLines (joined ls) = ls.length := by
  rw [Rope.lenLines, h.lines_joined, List.length_map]

theorem length_textLines (rope : Rope) : (textLines rope).length = Rope.lenLines rope := by
  rw [textLines, List.length_map, Rope.lenLines]

theorem ended_cons (hne : ls ≠ []) : Ended (line :: ls) ↔
    Unbroken line.body ∧ Ends line.ending (joined ls) ∧ Ended ls := by
  constructor
  · intro h
    cases h with
    | last => exact absurd rfl hne
    | cons hbody hends hlines => exact ⟨hbody, hends, hlines⟩
  · exact fun h => .cons h.1 h.2.1 h.2.2

/-- What ends with a CR where nothing follows on the line is the CR alone. -/
theorem Ends.eq_of_cr (h : Ends ending after) (hcr : (line.body ++ ending).getLast? = some '\r') :
    ending = ['\r'] := by
  rcases h with rfl | ⟨c, rfl, -⟩
  · simp at hcr
  · rw [List.getLast?_append, List.getLast?_singleton, Option.some_or, Option.some.injEq] at hcr
    rw [hcr]

theorem head?_ne_of_ends_cr (h : Ends ['\r'] after) : after.head? ≠ some '\n' := by
  rcases h with h | ⟨c, hc, hends⟩
  · cases h
  · obtain rfl := List.singleton_inj.mp hc
    rw [endsLine, Bool.or_eq_true, Bool.and_eq_true, decide_eq_true_eq, decide_eq_true_eq] at hends
    rcases hends with hbreak | ⟨-, hhead⟩
    · exact absurd hbreak (by decide)
    · exact hhead

/-- No LF stands behind a CR that ends a line. -/
theorem Ended.head?_ne_of_cr {before : List TextLine} (h : Ended (before ++ ls))
    (hcr : (joined before).getLast? = some '\r') (hne : ls ≠ []) :
    (joined ls).head? ≠ some '\n' := by
  induction before with
  | nil => cases hcr
  | cons line before ih =>
      rw [List.cons_append, ended_cons (by simp [hne]), joined_append] at h
      obtain ⟨-, hends, hlines⟩ := h
      rw [joined_cons] at hcr
      by_cases hnil : joined before = []
      · rw [hnil, List.append_nil] at hcr
        rw [hends.eq_of_cr hcr, hnil, List.nil_append] at hends
        exact head?_ne_of_ends_cr hends
      · rw [List.getLast?_append_of_ne_nil _ hnil] at hcr
        exact ih hlines hcr

/-! ## Text put in on lines -/

/-- The line with something put in on it. -/
def Widens (line line' : TextLine) : Prop :=
  line'.ending = line.ending ∧ Unbroken line'.body ∧ (line'.body = [] → line.body = [])

/-- Text put in on the lines leaves where they end. -/
theorem Ended.widen {ls' : List TextLine} (h : Ended ls) (hwiden : List.Forall₂ Widens ls ls') :
    Ended ls' ∧ ((joined ls').head? = some '\n' → (joined ls).head? = some '\n') := by
  induction h generalizing ls' with
  | last hbody =>
      cases hwiden with
      | @cons _ line' _ _ hline hrest =>
          cases hrest
          obtain ⟨body', ending'⟩ := line'
          obtain ⟨rfl, hbody', -⟩ := hline
          refine ⟨.last hbody', fun hhead => ?_⟩
          rw [joined_cons, TextLine.chars, joined_nil, List.append_nil, List.append_nil] at hhead
          exact absurd hhead hbody'.head?_ne
  | @cons line ls hbody hends hlines ih =>
      cases hwiden with
      | @cons _ line' _ rest' hline hrest =>
          obtain ⟨hending, hbody', hnil⟩ := hline
          obtain ⟨hended, hhead⟩ := ih hrest
          refine ⟨.cons hbody' (hending ▸ hends.mono hhead) hended, fun hnew => ?_⟩
          obtain ⟨c, tail, hcons, -⟩ := hends.exists_cons
          rw [joined_cons, TextLine.chars] at hnew ⊢
          by_cases hempty : line'.body = []
          · rw [hempty, hending, hcons] at hnew
            rw [hnil hempty, hcons]
            exact hnew
          · rw [List.append_assoc, List.head?_append_of_ne_nil _ hempty] at hnew
            exact absurd hnew hbody'.head?_ne

/-- Text put in on the first lines, each so many characters in. -/
def insertRows : List (Nat × List Char) → List TextLine → List TextLine
  | placed :: rows, line :: lines =>
      ⟨line.body.take placed.1 ++ placed.2 ++ line.body.drop placed.1, line.ending⟩ ::
        insertRows rows lines
  | [], lines => lines
  | _ :: _, [] => []

theorem widens_insertRows {rows : List (Nat × List Char)}
    (hrows : ∀ placed ∈ rows, Unbroken placed.2)
    (hlen : rows.length ≤ ls.length) (hbody : ∀ line ∈ ls, Unbroken line.body) :
    List.Forall₂ Widens ls (insertRows rows ls) := by
  induction rows generalizing ls with
  | nil =>
      rw [insertRows]
      exact List.forall₂_same.mpr fun line hline => ⟨rfl, hbody line hline, id⟩
  | cons placed rows ih =>
      cases ls with
      | nil => exact absurd hlen (Nat.not_succ_le_zero _)
      | cons line ls =>
          have hline := hbody line List.mem_cons_self
          rw [insertRows]
          refine .cons ⟨rfl, ?_, fun hnil => ?_⟩ (ih
            (fun p hp => hrows p (List.mem_cons_of_mem _ hp)) (Nat.le_of_succ_le_succ hlen)
            fun l hl => hbody l (List.mem_cons_of_mem _ hl))
          · exact (Unbroken.append (fun c hc => hline c (List.mem_of_mem_take hc))
              (hrows placed List.mem_cons_self)).append fun c hc =>
                hline c (List.mem_of_mem_drop hc)
          · rw [List.append_eq_nil_iff, List.append_eq_nil_iff] at hnil
            have hjoin := List.take_append_drop placed.1 line.body
            rw [hnil.1.1, hnil.2] at hjoin
            exact hjoin.symm

theorem insertRows_append {rows more : List (Nat × List Char)} {ls others : List TextLine}
    (h : rows.length = ls.length) :
    insertRows (rows ++ more) (ls ++ others) = insertRows rows ls ++ insertRows more others := by
  induction rows generalizing ls with
  | nil =>
      obtain rfl := List.length_eq_zero_iff.mp h.symm
      rfl
  | cons placed rows ih =>
      cases ls with
      | nil => cases h
      | cons line ls =>
          rw [List.cons_append, List.cons_append, insertRows, insertRows, List.cons_append,
            ih (Nat.succ.inj h)]

theorem length_insertRows {rows : List (Nat × List Char)} (hlen : rows.length ≤ ls.length) :
    (joined (insertRows rows ls)).length =
      (joined ls).length + (rows.map fun placed => placed.2.length).sum := by
  induction rows generalizing ls with
  | nil => rfl
  | cons placed rows ih =>
      cases ls with
      | nil => exact absurd hlen (Nat.not_succ_le_zero _)
      | cons line ls =>
          have hbody := congrArg List.length (List.take_append_drop placed.1 line.body)
          rw [List.length_append] at hbody
          rw [insertRows, joined_cons, joined_cons, List.length_append, List.length_append,
            ih (Nat.le_of_succ_le_succ hlen), TextLine.chars, TextLine.chars, List.map_cons,
            List.sum_cons]
          simp only [List.length_append]
          omega

/-! ## Lines at the end -/

/-- One more line at the end. -/
def addLine (added : List Char) : List TextLine → List TextLine
  | [] => []
  | [last] => [⟨last.body, ['\n']⟩, ⟨added, []⟩]
  | line :: next :: lines => line :: addLine added (next :: lines)

/-- More lines at the end, in order. -/
def addLines (ls : List TextLine) (rows : List (List Char)) : List TextLine :=
  rows.foldl (fun ls row => addLine row ls) ls

theorem addLine_cons (added : List Char) (hne : ls ≠ []) :
    addLine added (line :: ls) = line :: addLine added ls := by
  cases ls with
  | nil => exact absurd rfl hne
  | cons next ls => rfl

theorem addLine_concat (added : List Char) (before : List TextLine) (last : TextLine) :
    addLine added (before ++ [last]) = before ++ [⟨last.body, ['\n']⟩, ⟨added, []⟩] := by
  induction before with
  | nil => rfl
  | cons line before ih =>
      rw [List.cons_append, addLine_cons added (by simp), ih, List.cons_append]

theorem addLines_cons (ls : List TextLine) (row : List Char) (rows : List (List Char)) :
    addLines ls (row :: rows) = addLines (addLine row ls) rows := rfl

theorem Ended.exists_last (h : Ended ls) : ∃ before body, ls = before ++ [⟨body, []⟩] := by
  induction h with
  | @last body _ => exact ⟨[], body, rfl⟩
  | @cons line _ _ _ _ ih =>
      obtain ⟨before, body, hlast⟩ := ih
      exact ⟨line :: before, body, by rw [hlast, List.cons_append]⟩

theorem Ended.joined_addLines (h : Ended ls) (rows : List (List Char)) :
    joined (addLines ls rows) = joined ls ++ rows.flatMap fun row => '\n' :: row := by
  obtain ⟨before, body, rfl⟩ := h.exists_last
  clear h
  induction rows generalizing before body with
  | nil => exact (List.append_nil _).symm
  | cons row rows ih =>
      have hrest := ih (before ++ [⟨body, ['\n']⟩]) row
      rw [addLines_cons, addLine_concat]
      rw [List.append_assoc, List.singleton_append] at hrest
      rw [hrest]
      simp [TextLine.chars]

theorem Ended.joined_addLine (h : Ended ls) (added : List Char) :
    joined (addLine added ls) = joined ls ++ '\n' :: added := by
  have hone := h.joined_addLines [added]
  rw [List.flatMap_cons, List.flatMap_nil, List.append_nil] at hone
  exact hone

theorem ended_addLine {added : List Char} (h : Ended ls) (hadded : Unbroken added)
    (hcr : (joined ls).getLast? ≠ some '\r') : Ended (addLine added ls) := by
  induction h with
  | last hbody => exact .cons hbody (.inr ⟨'\n', rfl, rfl⟩) (.last hadded)
  | @cons line ls hbody hends hlines ih =>
      rw [addLine_cons added hlines.ne_nil]
      rw [joined_cons] at hcr
      by_cases hnil : joined ls = []
      · rw [hnil, List.append_nil] at hcr
        refine .cons hbody ?_ (ih (by rw [hnil]; exact fun h => by cases h))
        rw [hlines.joined_addLine, hnil, List.nil_append]
        rcases hends with hcrlf | ⟨c, hc, hends⟩
        · exact .inl hcrlf
        · refine .inr ⟨c, hc, ?_⟩
          have hno : c ≠ '\r' := by
            rintro rfl
            refine hcr ?_
            rw [TextLine.chars, hc, List.getLast?_concat]
          rw [endsLine_of_no_cr hno] at hends ⊢
          exact hends
      · rw [List.getLast?_append_of_ne_nil _ hnil] at hcr
        refine .cons hbody (hends.mono ?_) (ih hcr)
        rw [hlines.joined_addLine, List.head?_append_of_ne_nil _ hnil]
        exact id

theorem ended_addLines {rows : List (List Char)} (h : Ended ls) (hrows : ∀ row ∈ rows, Unbroken row)
    (hcr : rows ≠ [] → (joined ls).getLast? ≠ some '\r') : Ended (addLines ls rows) := by
  induction rows generalizing ls with
  | nil => exact h
  | cons row rows ih =>
      have hrow := hrows row List.mem_cons_self
      refine ih (ended_addLine h hrow (hcr (List.cons_ne_nil _ _)))
        (fun r hr => hrows r (List.mem_cons_of_mem _ hr)) fun _ hlast => ?_
      rw [h.joined_addLine, List.getLast?_append_of_ne_nil _ (List.cons_ne_nil _ _)] at hlast
      rcases List.mem_cons.mp (List.mem_of_getLast? hlast) with hnew | hmem
      · exact absurd hnew (by decide)
      · exact (hrow _ hmem).2 rfl

/-- Lines at the end leave what stands on those before. -/
theorem exists_addLine (added : List Char) (before : List TextLine) (line : TextLine)
    (after : List TextLine) : ∃ ending rest,
      addLine added (before ++ line :: after) = before ++ ⟨line.body, ending⟩ :: rest := by
  induction before with
  | nil =>
      cases after with
      | nil => exact ⟨['\n'], [⟨added, []⟩], rfl⟩
      | cons next after => exact ⟨line.ending, addLine added (next :: after), rfl⟩
  | cons first before ih =>
      obtain ⟨ending, rest, hrest⟩ := ih
      refine ⟨ending, rest, ?_⟩
      rw [List.cons_append, addLine_cons added (by simp), hrest, List.cons_append]

theorem exists_addLines (rows : List (List Char)) (before : List TextLine) (line : TextLine)
    (after : List TextLine) : ∃ ending rest,
      addLines (before ++ line :: after) rows = before ++ ⟨line.body, ending⟩ :: rest := by
  induction rows generalizing line after with
  | nil => exact ⟨line.ending, after, rfl⟩
  | cons row rows ih =>
      obtain ⟨ending, rest, hrest⟩ := exists_addLine row before line after
      rw [addLines_cons, hrest]
      exact ih ⟨line.body, ending⟩ rest

/-- Every line that is added is there. -/
theorem exists_mem_addLines {rows : List (List Char)} (hne : ls ≠ []) {row : List Char}
    (hrow : row ∈ rows) : ∃ line ∈ addLines ls rows, line.body = row := by
  induction rows generalizing ls with
  | nil => exact absurd hrow List.not_mem_nil
  | cons first rows ih =>
      have hconcat := addLine_concat first ls.dropLast (ls.getLast hne)
      rw [List.dropLast_append_getLast hne] at hconcat
      rw [addLines_cons, hconcat]
      rcases List.mem_cons.mp hrow with rfl | hmem
      · obtain ⟨ending, rest, hrest⟩ :=
          exists_addLines rows (ls.dropLast ++ [⟨(ls.getLast hne).body, ['\n']⟩]) ⟨row, []⟩ []
        rw [List.append_assoc, List.singleton_append] at hrest
        rw [hrest]
        exact ⟨_, List.mem_append_right _ List.mem_cons_self, rfl⟩
      · exact ih (by simp) hmem

end Rope

end Throng.Editor
