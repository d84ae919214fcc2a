import Throng.Core.TextRoundTrip

/-!
# Saving a document

Which terminator each line is written with, that an unchanged document is written
back byte for byte, and exactly when an edited one is read back as it was saved.
-/

namespace Throng.Text

/-! ## The diff -/

/-- The operations align two lists in order, from the given places to both ends, and
match equal items only. -/
def Aligns {α : Type} (old new : List α) : Nat → Nat → List DiffOp → Prop
  | i, j, [] => i = old.length ∧ j = new.length
  | i, j, .equal oldIndex newIndex len :: ops =>
      oldIndex = i ∧ newIndex = j ∧
        (∀ k < len, ∃ x, old[i + k]? = some x ∧ new[j + k]? = some x) ∧
          Aligns old new (i + len) (j + len) ops
  | i, j, .delete oldIndex oldLen newIndex :: ops =>
      oldIndex = i ∧ newIndex = j ∧ Aligns old new (i + oldLen) j ops
  | i, j, .insert oldIndex newIndex newLen :: ops =>
      oldIndex = i ∧ newIndex = j ∧ Aligns old new i (j + newLen) ops
  | i, j, .replace oldIndex oldLen newIndex newLen :: ops =>
      oldIndex = i ∧ newIndex = j ∧ Aligns old new (i + oldLen) (j + newLen) ops

/-- The old item that an operation finds at place `i` of the new list. -/
def DiffOp.matched (i : Nat) : DiffOp → Option Nat
  | .equal oldIndex newIndex len =>
      if newIndex ≤ i ∧ i < newIndex + len then some (oldIndex + (i - newIndex)) else none
  | _ => none

/-- The old item that the operations find at place `i` of the new list. -/
def matched (ops : List DiffOp) (i : Nat) : Option Nat := ops.findSome? (DiffOp.matched i)

theorem matched_eq_none {α : Type} {old new : List α} {ops : List DiffOp} {i j p : Nat}
    (h : Aligns old new i j ops) (hp : p < j) : matched ops p = none := by
  induction ops generalizing i j with
  | nil => rfl
  | cons op ops ih =>
      rw [matched, List.findSome?_cons]
      cases op with
      | equal oldIndex newIndex len =>
          obtain ⟨-, rfl, -, hrest⟩ := h
          rw [DiffOp.matched, if_neg (by omega)]
          exact ih hrest (by omega)
      | delete oldIndex oldLen newIndex => exact ih h.2.2 hp
      | insert oldIndex newIndex newLen => exact ih h.2.2 (by omega)
      | replace oldIndex oldLen newIndex newLen => exact ih h.2.2 (by omega)

/-! ## Endings -/

/-- The terminator of an original line, if it has one. -/
def endingOf (original : List Line) (k : Option Nat) : Option LineEnding :=
  (k.bind fun k => original[k]?).bind Prod.snd

theorem getElem?_keepEnding (original : List Line) (endings : List LineEnding) (k n i : Nat) :
    (keepEnding original endings k n)[i]? =
      endings[i]?.map fun ending =>
        (endingOf original (if n = i then some k else none)).getD ending := by
  rw [keepEnding]
  by_cases hi : n = i
  · subst hi
    rw [if_pos rfl, endingOf, Option.bind_some]
    rcases hline : original[k]? with - | ⟨content, - | ending⟩
    · simp
    · simp
    · simp only [List.getElem?_set_self', Option.bind_some, Option.getD_some]
      cases endings[n]? <;> rfl
  · rw [if_neg hi]
    rcases hline : original[k]? with - | ⟨content, - | ending⟩
    · simp [endingOf]
    · simp [endingOf]
    · simp [endingOf, List.getElem?_set_ne hi]

theorem getElem?_keepEndings (original : List Line) (endings : List LineEnding) (op : DiffOp)
    (i : Nat) :
    (keepEndings original endings op)[i]? =
      endings[i]?.map fun ending => (endingOf original (op.matched i)).getD ending := by
  cases op with
  | equal oldIndex newIndex len =>
      rw [keepEndings]
      induction len with
      | zero =>
          have hnone : DiffOp.matched i (.equal oldIndex newIndex 0) = none := if_neg (by omega)
          simp [hnone, endingOf]
      | succ len ih =>
          rw [List.range_succ, List.foldl_append, List.foldl_cons, List.foldl_nil,
            getElem?_keepEnding, ih, Option.map_map]
          congr 1
          funext ending
          simp only [DiffOp.matched, Function.comp_apply]
          by_cases hlast : newIndex + len = i
          · subst hlast
            rw [if_pos rfl, if_neg (by omega), if_pos (by omega), Nat.add_sub_cancel_left]
            rfl
          · have hrange : (newIndex ≤ i ∧ i < newIndex + len) ↔
                newIndex ≤ i ∧ i < newIndex + (len + 1) := by omega
            rw [if_neg hlast, if_congr hrange rfl rfl]
            rfl
  | delete oldIndex oldLen newIndex => simp [keepEndings, DiffOp.matched, endingOf]
  | insert oldIndex newIndex newLen => simp [keepEndings, DiffOp.matched, endingOf]
  | replace oldIndex oldLen newIndex newLen => simp [keepEndings, DiffOp.matched, endingOf]

theorem getElem?_foldl_keepEndings {α : Type} {old new : List α} {original : List Line}
    {endings : List LineEnding} {ops : List DiffOp} {i j : Nat} (h : Aligns old new i j ops)
    (p : Nat) :
    (ops.foldl (keepEndings original) endings)[p]? =
      endings[p]?.map fun ending => (endingOf original (matched ops p)).getD ending := by
  induction ops generalizing endings i j with
  | nil => simp [matched, endingOf]
  | cons op ops ih =>
      have hstep : ∀ {i' j'}, Aligns old new i' j' ops →
          (op.matched p ≠ none → matched ops p = none) →
          ((op :: ops).foldl (keepEndings original) endings)[p]? =
            endings[p]?.map fun ending =>
              (endingOf original (matched (op :: ops) p)).getD ending := by
        intro i' j' hrest hlater
        rw [List.foldl_cons, ih hrest, getElem?_keepEndings, Option.map_map]
        congr 1
        funext ending
        rw [Function.comp_apply, matched, matched, List.findSome?_cons]
        cases hop : op.matched p with
        | none => rfl
        | some k =>
            rw [show ops.findSome? (DiffOp.matched p) = none from hlater (by simp [hop])]
            rfl
      cases op with
      | equal oldIndex newIndex len =>
          obtain ⟨-, rfl, -, hrest⟩ := h
          refine hstep hrest fun hin => matched_eq_none hrest ?_
          rw [DiffOp.matched] at hin
          split at hin
          · next hp => exact hp.2
          · exact absurd rfl hin
      | delete oldIndex oldLen newIndex => exact hstep h.2.2 fun hin => absurd rfl hin
      | insert oldIndex newIndex newLen => exact hstep h.2.2 fun hin => absurd rfl hin
      | replace oldIndex oldLen newIndex newLen => exact hstep h.2.2 fun hin => absurd rfl hin

/-- The terminator a line of a new text is to have: that of the original line it is
matched with, or the dominant one. -/
def chosen (diff : Diff) (format : TextFormat) (lines : List (List Char)) (i : Nat) : LineEnding :=
  match format.mixed with
  | none => format.eol
  | some original =>
      (endingOf original (matched (diff (original.map Prod.fst) lines) i)).getD format.eol

theorem getElem?_endings {diff : Diff} (hdiff : ∀ old new, Aligns old new 0 0 (diff old new))
    (format : TextFormat) {lines : List (List Char)} {i : Nat} (hi : i < lines.length) :
    (endings diff format lines)[i]? = some (chosen diff format lines i) := by
  have hall : (List.replicate lines.length format.eol)[i]? = some format.eol := by simp [hi]
  rw [endings, chosen]
  cases format.mixed with
  | none => exact hall
  | some original =>
      rw [getElem?_foldl_keepEndings (hdiff (original.map Prod.fst) lines), hall]
      rfl

/-! ## The written lines -/

/-- A text of lines is written with the same lines, terminated where they are. -/
theorem writtenLines_textOf {lines : List Line} (h : Lines lines) (diff : Diff)
    (format : TextFormat) :
    writtenLines diff (textOf lines) format = lines.mapIdx fun i line =>
      (line.1, if line.2.isSome then (endings diff format (lines.map Prod.fst))[i]? else none) := by
  refine List.ext_getElem? fun i => ?_
  simp only [writtenLines, newLines_textOf h, List.getElem?_mapIdx, List.getElem?_map,
    Option.map_map, List.length_map]
  cases hi : lines[i]? with
  | none => rfl
  | some line =>
      simp only [Option.map_some, Function.comp_apply]
      rw [if_congr (isSome_ending h hi) rfl rfl]

/-! ## Unchanged documents -/

theorem count_pos {lines : List Line} {content : List Char} {ending : LineEnding}
    (h : (content, some ending) ∈ lines) : 0 < count lines ending :=
  List.countP_pos_iff.mpr ⟨_, h, by simp⟩

/-- Where only one kind of ending occurs, it is the dominant one. -/
theorem classify_eol {lines : List Line} {defaultEol : LineEnding} {content : List Char}
    {ending : LineEnding} (h : (classify lines defaultEol).2 = false)
    (hin : (content, some ending) ∈ lines) : (classify lines defaultEol).1 = ending := by
  have hpos := count_pos hin
  simp only [classify, decide_eq_false_iff_not] at h ⊢
  have hkinds : ∀ a b c : Nat, ¬ ([a, b, c].filter fun n => decide (n > 0)).length > 1 →
      (0 < a → b = 0 ∧ c = 0) ∧ (0 < b → a = 0 ∧ c = 0) ∧ (0 < c → a = 0 ∧ b = 0) := by
    intro a b c h
    grind
  obtain ⟨hlf, hcrlf, hcr⟩ := hkinds _ _ _ h
  have hsome : ([count lines .lf, count lines .crLf, count lines .cr].filter
      fun n => decide (n > 0)).length ≠ 0 := by
    cases ending <;> grind
  rw [if_neg hsome]
  cases ending with
  | lf =>
      obtain ⟨h₁, h₂⟩ := hlf hpos
      rw [if_pos (by omega)]
  | crLf =>
      obtain ⟨h₁, h₂⟩ := hcrlf hpos
      rw [if_neg (by omega), if_pos (by omega)]
  | cr =>
      obtain ⟨h₁, h₂⟩ := hcr hpos
      rw [if_neg (by omega), if_neg (by omega)]

theorem splitLines_format {bytes : Bytes} {defaultEol : LineEnding} {decoded : Decoded}
    (h : decode bytes defaultEol = .ok decoded) :
    ∃ raw, decodeRaw bytes = .ok (decoded.format.encoding, raw) ∧
      decoded.text = textOf (splitLines raw) ∧
      decoded.format.eol = (classify (splitLines raw) defaultEol).1 ∧
      decoded.format.mixed =
        if (classify (splitLines raw) defaultEol).2 then some (splitLines raw) else none := by
  obtain ⟨⟨encoding, raw⟩, hraw, rfl⟩ := map_eq_ok h
  exact ⟨raw, hraw, rfl, rfl, rfl⟩

/-- The endings an unchanged document is written with are those it was read with. -/
theorem endings_unchanged {diff : Diff}
    (hdiff : ∀ lines, lines ≠ [] → diff lines lines = [.equal 0 0 lines.length])
    {lines : List Line} {format : TextFormat} {defaultEol : LineEnding}
    (heol : format.eol = (classify lines defaultEol).1)
    (hmixed : format.mixed = if (classify lines defaultEol).2 then some lines else none)
    {i : Nat} {content : List Char} {ending : LineEnding}
    (hi : lines[i]? = some (content, some ending)) :
    (endings diff format (lines.map Prod.fst))[i]? = some ending := by
  obtain ⟨hlt, -⟩ := List.getElem?_eq_some_iff.mp hi
  have hall : (List.replicate (lines.map Prod.fst).length format.eol)[i]? = some format.eol := by
    simp [hlt]
  rw [endings, hmixed]
  cases hkinds : (classify lines defaultEol).2 with
  | false =>
      rw [if_neg (by simp)]
      refine hall.trans ?_
      rw [heol, classify_eol hkinds (List.mem_of_getElem? hi)]
  | true =>
      rw [if_pos rfl]
      have hne : lines.map Prod.fst ≠ [] := List.ne_nil_of_length_pos (by simp; omega)
      have hmatched : DiffOp.matched i (.equal 0 0 (lines.map Prod.fst).length) = some i := by
        rw [DiffOp.matched, if_pos ⟨Nat.zero_le i, by simpa using hlt⟩, Nat.zero_add, Nat.sub_zero]
      have hending : endingOf lines (some i) = some ending := by
        rw [endingOf, Option.bind_some, hi]
        rfl
      simp only [hdiff _ hne, List.foldl_cons, List.foldl_nil]
      rw [getElem?_keepEndings, hall, hmatched, hending]
      rfl

/-- An unchanged file is written back byte for byte. -/
theorem encode_decode (diff : Diff)
    (hdiff : ∀ lines, lines ≠ [] → diff lines lines = [.equal 0 0 lines.length])
    (bytes : Bytes) (defaultEol : LineEnding) (decoded : Decoded)
    (h : decode bytes defaultEol = .ok decoded) :
    encode diff decoded.text decoded.format = bytes := by
  obtain ⟨raw, hraw, htext, heol, hmixed⟩ := splitLines_format h
  have hwritten : writtenLines diff decoded.text decoded.format = splitLines raw := by
    rw [htext, writtenLines_textOf (lines_splitLines raw)]
    refine List.ext_getElem? fun i => ?_
    rw [List.getElem?_mapIdx]
    rcases hi : (splitLines raw)[i]? with - | ⟨content, - | ending⟩
    · rfl
    · rfl
    · rw [Option.map_some, endings_unchanged hdiff heol hmixed hi]
      rfl
  rw [encode, hwritten, joined_splitLines]
  exact encodeRaw_of_decodeRaw hraw

/-! ## Edited documents -/

/-- A line with a lone CR stands before an empty line with an LF. -/
def Runs (lines : List Line) : Prop :=
  ∃ i content, lines[i]? = some (content, some .cr) ∧ lines[i + 1]? = some ([], some .lf)

theorem runs_cons {line next : Line} {lines : List Line} :
    Runs (line :: next :: lines) ↔
      line.2 = some .cr ∧ next = ([], some .lf) ∨ Runs (next :: lines) := by
  constructor
  · rintro ⟨i, content, hcr, hlf⟩
    cases i with
    | zero =>
        cases hcr
        exact .inl ⟨rfl, by simpa using hlf⟩
    | succ i => exact .inr ⟨i, content, hcr, hlf⟩
  · rintro (⟨hcr, rfl⟩ | ⟨i, content, hcr, hlf⟩)
    · exact ⟨0, line.1, by simp [← hcr], rfl⟩
    · exact ⟨i + 1, content, hcr, hlf⟩

theorem length_merge_le (lines : List Line) : (merge lines).length ≤ lines.length := by
  fun_induction merge lines with
  | case1 => exact Nat.le_refl _
  | case2 line => exact Nat.le_refl _
  | case3 line next lines hclash ih =>
      simp only [List.length_cons]
      omega
  | case4 line next lines hkept ih =>
      simp only [List.length_cons] at ih ⊢
      omega

/-- Merging takes as many characters from the text as it takes lines. -/
theorem length_textOf_merge (lines : List Line) :
    (textOf (merge lines)).length + lines.length =
      (textOf lines).length + (merge lines).length := by
  fun_induction merge lines with
  | case1 => rfl
  | case2 line => rfl
  | case3 line next lines hclash ih =>
      obtain ⟨hcr, rfl⟩ := hclash
      simp only [textOf_cons, hcr, List.length_append, List.length_cons, List.length_nil,
        Option.isSome_some, if_true]
      omega
  | case4 line next lines hkept ih =>
      rw [textOf_cons, textOf_cons line (next :: lines)]
      simp only [List.length_append, List.length_cons] at ih ⊢
      omega

theorem merge_of_not_runs {lines : List Line} (h : ¬ Runs lines) : merge lines = lines := by
  fun_induction merge lines with
  | case1 => rfl
  | case2 line => rfl
  | case3 line next lines hclash ih => exact absurd (runs_cons.mpr (.inl hclash)) h
  | case4 line next lines hkept ih => rw [ih fun hruns => h (runs_cons.mpr (.inr hruns))]

theorem length_merge_lt {lines : List Line} (h : Runs lines) :
    (merge lines).length < lines.length := by
  fun_induction merge lines with
  | case1 =>
      obtain ⟨i, content, hcr, -⟩ := h
      cases hcr
  | case2 line =>
      obtain ⟨i, content, -, hlf⟩ := h
      cases hlf
  | case3 line next lines hclash ih =>
      have hle := length_merge_le lines
      simp only [List.length_cons]
      omega
  | case4 line next lines hkept ih =>
      have hlt := ih ((runs_cons.mp h).resolve_left hkept)
      simp only [List.length_cons] at hlt ⊢
      omega

/-- Written lines are read back as the same text unless a CR runs into an LF. -/
theorem textOf_splitLines_joined {lines : List Line} (h : Lines lines) :
    textOf (splitLines (joined lines)) = textOf lines ↔ ¬ Runs lines := by
  rw [splitLines_joined h]
  constructor
  · intro htext hruns
    have hlength := length_textOf_merge lines
    have hlt := length_merge_lt hruns
    rw [htext] at hlength
    omega
  · intro hruns
    rw [merge_of_not_runs hruns]

/-- Relabelling terminators keeps lines well formed and their text. -/
theorem lines_relabel {lines : List Line} (h : Lines lines) (f : Nat → Option LineEnding)
    (hf : ∀ i < lines.length, (f i).isSome) :
    Lines (lines.mapIdx fun i line => (line.1, if line.2.isSome then f i else none)) ∧
      textOf (lines.mapIdx fun i line => (line.1, if line.2.isSome then f i else none)) =
        textOf lines := by
  induction h generalizing f with
  | nil => exact ⟨.nil, rfl⟩
  | last hplain hne => exact ⟨.last hplain hne, rfl⟩
  | @cons content ending lines hplain hlines ih =>
      obtain ⟨hrest, htext⟩ := ih (fun i => f (i + 1)) fun i hi => hf (i + 1) (Nat.succ_lt_succ hi)
      obtain ⟨chosen, hchosen⟩ := Option.isSome_iff_exists.mp (hf 0 (Nat.zero_lt_succ _))
      rw [List.mapIdx_cons]
      simp only [Option.isSome_some, if_true, hchosen]
      refine ⟨.cons hplain hrest, ?_⟩
      rw [textOf_cons, htext, textOf_cons]
      rfl

/-- An empty line is there because it is terminated. -/
theorem isSome_of_nil {lines : List Line} (h : Lines lines) {ending : Option LineEnding}
    (hin : ([], ending) ∈ lines) : ending.isSome = true := by
  induction h with
  | nil => cases hin
  | last hplain hne =>
      cases List.mem_singleton.mp hin
      exact absurd rfl hne
  | cons hplain hlines ih =>
      rcases List.mem_cons.mp hin with heq | hin
      · cases heq
        rfl
      · exact ih hin

/-- A line that is to have a lone CR stands before an empty line that is to have an LF. -/
def Clash (diff : Diff) (format : TextFormat) (text : List Char) : Prop :=
  ∃ i, chosen diff format (newLines text) i = .cr ∧ (newLines text)[i + 1]? = some [] ∧
    chosen diff format (newLines text) (i + 1) = .lf

theorem runs_writtenLines {diff : Diff} (hdiff : ∀ old new, Aligns old new 0 0 (diff old new))
    (format : TextFormat) {lines : List Line} (h : Lines lines) :
    Runs (writtenLines diff (textOf lines) format) ↔ Clash diff format (textOf lines) := by
  have hget : ∀ i, (writtenLines diff (textOf lines) format)[i]? = lines[i]?.map fun line =>
      (line.1, if line.2.isSome then
        some (chosen diff format (newLines (textOf lines)) i) else none) := by
    intro i
    rw [writtenLines_textOf h, List.getElem?_mapIdx, newLines_textOf h]
    cases hi : lines[i]? with
    | none => rfl
    | some line =>
        obtain ⟨hlt, -⟩ := List.getElem?_eq_some_iff.mp hi
        rw [Option.map_some, getElem?_endings hdiff format (by simpa using hlt)]
        rfl
  have hcontent : ∀ i : Nat, (newLines (textOf lines))[i]? = lines[i]?.map Prod.fst := by
    intro i
    rw [newLines_textOf h, List.getElem?_map]
  constructor
  · rintro ⟨i, content, hcr, hlf⟩
    rw [hget] at hcr hlf
    obtain ⟨line, -, hline⟩ := Option.map_eq_some_iff.mp hcr
    obtain ⟨next, hi', hnext⟩ := Option.map_eq_some_iff.mp hlf
    obtain ⟨-, hline⟩ := Prod.mk.inj hline
    obtain ⟨hempty, hnext⟩ := Prod.mk.inj hnext
    refine ⟨i, ?_, ?_, ?_⟩
    · exact Option.some.inj (Option.ite_none_right_eq_some.mp hline).2
    · rw [hcontent, hi', Option.map_some, hempty]
    · exact Option.some.inj (Option.ite_none_right_eq_some.mp hnext).2
  · rintro ⟨i, hcr, hempty, hlf⟩
    rw [hcontent] at hempty
    obtain ⟨next, hi', hnext⟩ := Option.map_eq_some_iff.mp hempty
    obtain ⟨hlt, -⟩ := List.getElem?_eq_some_iff.mp hi'
    obtain ⟨line, hi⟩ : ∃ line : Line, lines[i]? = some line :=
      ⟨_, List.getElem?_eq_getElem (Nat.lt_of_succ_lt hlt)⟩
    have hsome : line.2.isSome = true := (isSome_ending h hi).mpr (.inl (by omega))
    have hsome' : next.2.isSome = true := by
      have hin : ([], next.2) ∈ lines := by
        rw [← hnext]
        exact List.mem_of_getElem? hi'
      exact isSome_of_nil h hin
    refine ⟨i, line.1, ?_, ?_⟩
    · rw [hget, hi, Option.map_some, if_pos hsome, hcr]
    · rw [hget, hi', Option.map_some, if_pos hsome', hnext, hlf]

theorem mem_joined {c : Char} {lines : List Line} (h : c ∈ joined lines) :
    c ∈ textOf lines ∨ c = '\r' ∨ c = '\n' := by
  induction lines with
  | nil => cases h
  | cons line lines ih =>
      rw [joined_cons] at h
      rw [textOf_cons]
      rcases List.mem_append.mp h with h | h
      · rcases List.mem_append.mp h with h | h
        · exact .inl (by simp [h])
        · right
          rcases hending : line.2 with - | - | - | - <;> simp_all [LineEnding.asStr]
      · rcases ih h with h | h
        · exact .inl (by simp [h])
        · exact .inr h

/-- What is written begins as the text does, or with a line ending. -/
theorem head_joined_ne {lines : List Line} (h : Lines lines)
    (hbom : (textOf lines).head? ≠ some '\uFEFF') :
    (joined lines).head? ≠ some '\uFEFF' := by
  cases h with
  | nil => simp [joined]
  | @last content hplain hne =>
      rw [textOf_eq_joined (by simpa [joined] using hplain.2)] at hbom
      exact hbom
  | @cons content ending lines hplain hlines =>
      rw [textOf_cons] at hbom
      rw [joined_cons]
      cases content with
      | nil => cases ending <;> simp [LineEnding.asStr]
      | cons c content => exact hbom

theorem reads_back_iff {diff : Diff} (hdiff : ∀ old new, Aligns old new 0 0 (diff old new))
    (format : TextFormat) {text : List Char} (hcr : '\r' ∉ text) (hnul : '\x00' ∉ text)
    (hbom : text.head? ≠ some '\uFEFF') :
    (∀ eol, ∃ again, decode (encode diff text format) eol = .ok again ∧ again.text = text) ↔
      ¬ Clash diff format text := by
  obtain ⟨lines, hlines, rfl⟩ : ∃ lines, Lines lines ∧ textOf lines = text :=
    ⟨splitLines text, lines_splitLines text, textOf_splitLines hcr⟩
  have hsome : ∀ i < lines.length, ((endings diff format (lines.map Prod.fst))[i]?).isSome := by
    intro i hi
    rw [getElem?_endings hdiff format (by simpa using hi)]
    rfl
  obtain ⟨hwritten, hsame⟩ := lines_relabel hlines _ hsome
  rw [← writtenLines_textOf hlines] at hwritten hsame
  have hraw : decodeRaw (encode diff (textOf lines) format) =
      .ok (format.encoding, joined (writtenLines diff (textOf lines) format)) := by
    refine decodeRaw_encodeRaw (head_joined_ne hwritten (by rwa [hsame])) (fun hin => ?_) _
    rcases mem_joined hin with hin | heq | heq
    · exact hnul (hsame ▸ hin)
    · cases heq
    · cases heq
  rw [← runs_writtenLines hdiff format hlines, ← textOf_splitLines_joined hwritten, hsame]
  constructor
  · intro hall
    obtain ⟨again, hagain, htext⟩ := hall .lf
    rw [decode, hraw] at hagain
    cases hagain
    exact htext
  · intro htext eol
    refine ⟨_, by rw [decode, hraw]; rfl, htext⟩

/-- A saved document is read back as its text exactly when no line that is to have a
lone CR stands before an empty line that is to have an LF. -/
theorem decode_encode_iff (diff : Diff) (hdiff : ∀ old new, Aligns old new 0 0 (diff old new))
    (bytes : Bytes) (defaultEol : LineEnding) (decoded : Decoded)
    (_ : decode bytes defaultEol = .ok decoded) (text : List Char) (hcr : '\r' ∉ text)
    (hnul : '\x00' ∉ text) (hbom : text.head? ≠ some '\uFEFF') :
    (∀ eol, ∃ again, decode (encode diff text decoded.format) eol = .ok again ∧
      again.text = text) ↔ ¬ Clash diff decoded.format text :=
  reads_back_iff hdiff decoded.format hcr hnul hbom

/-! ## A diff to run with -/

/-- Compare line by line from place `i` on; the rest of the longer side stands alone. -/
def pairwise (i : Nat) : List (List Char) → List (List Char) → List DiffOp
  | [], [] => []
  | [], new => [.insert i i new.length]
  | old, [] => [.delete i old.length i]
  | line :: old, line' :: new =>
      (if line = line' then .equal i i 1 else .replace i 1 i 1) :: pairwise (i + 1) old new

/-- One `Equal` block for equal lists, line by line otherwise. -/
def plainDiff : Diff := fun old new =>
  if old = new then (if old = [] then [] else [.equal 0 0 old.length]) else pairwise 0 old new

theorem aligns_pairwise (pre pre' old new : List (List Char)) (h : pre.length = pre'.length) :
    Aligns (pre ++ old) (pre' ++ new) pre.length pre'.length (pairwise pre.length old new) := by
  induction old generalizing pre pre' new with
  | nil =>
      cases new with
      | nil => simp [pairwise, Aligns]
      | cons line' new => simp [pairwise, Aligns, h]
  | cons line old ih =>
      cases new with
      | nil => simp [pairwise, Aligns, h]
      | cons line' new =>
          have hrest := ih (pre ++ [line]) (pre' ++ [line']) new (by simp [h])
          simp only [List.length_append, List.length_singleton, List.append_assoc,
            List.singleton_append] at hrest
          rw [pairwise]
          split
          · next heq =>
              subst heq
              refine ⟨rfl, h, fun k hk => ⟨line, ?_, ?_⟩, hrest⟩
              · simp [Nat.lt_one_iff.mp hk]
              · simp [Nat.lt_one_iff.mp hk]
          · exact ⟨rfl, h, hrest⟩

theorem aligns_plainDiff (old new : List (List Char)) : Aligns old new 0 0 (plainDiff old new) := by
  unfold plainDiff
  split
  · next heq =>
      subst heq
      split
      · next hnil =>
          subst hnil
          exact ⟨rfl, rfl⟩
      · refine ⟨rfl, rfl, fun k hk => ⟨old[k], ?_, ?_⟩, ?_⟩
        · simp [hk]
        · simp [hk]
        · simp [Aligns]
  · exact aligns_pairwise [] [] old new rfl

/-- A file of three lines, the first of which ends in a lone CR: `a\rb\nc\n`. -/
def mixedFile : Bytes := [97, 13, 98, 10, 99, 10]

def mixedDecoded : Decoded :=
  ⟨['a', '\n', 'b', '\n', 'c', '\n'], .utf8 false, .lf,
    some [(['a'], some .cr), (['b'], some .lf), (['c'], some .lf)]⟩

theorem decode_mixedFile : decode mixedFile .lf = .ok mixedDecoded := rfl

theorem encode_decode_mixedFile :
    encode plainDiff mixedDecoded.text mixedDecoded.format = mixedFile :=
  encode_decode plainDiff (fun lines hne => by simp [plainDiff, hne]) mixedFile .lf mixedDecoded
    decode_mixedFile

/-- The second line is edited, and stays one. -/
theorem decode_encode_edited :
    mixedDecoded.text ≠ ['a', '\n', 'B', '\n', 'c', '\n'] ∧
      ∀ eol, ∃ again,
        decode (encode plainDiff ['a', '\n', 'B', '\n', 'c', '\n'] mixedDecoded.format) eol =
          .ok again ∧ again.text = ['a', '\n', 'B', '\n', 'c', '\n'] := by
  refine ⟨by decide, ?_⟩
  refine (decode_encode_iff plainDiff aligns_plainDiff mixedFile .lf mixedDecoded decode_mixedFile _
    (by decide) (by decide) (by decide)).mpr ?_
  rintro ⟨i, -, hempty, -⟩
  have hlines : newLines ['a', '\n', 'B', '\n', 'c', '\n'] = [['a'], ['B'], ['c']] := by decide
  rw [hlines] at hempty
  rcases i with - | - | i <;> simp at hempty

/-- The second line is emptied: the CR of the line before takes in its LF. -/
theorem not_decode_encode :
    ¬ ∀ (diff : Diff), (∀ old new, Aligns old new 0 0 (diff old new)) →
      ∀ (bytes : Bytes) (defaultEol : LineEnding) (decoded : Decoded),
        decode bytes defaultEol = .ok decoded →
        ∀ text : List Char, '\r' ∉ text → '\x00' ∉ text → text.head? ≠ some '\uFEFF' →
          ∀ eol, ∃ again, decode (encode diff text decoded.format) eol = .ok again ∧
            again.text = text := by
  intro h
  obtain ⟨again, hagain, htext⟩ := h plainDiff aligns_plainDiff mixedFile .lf mixedDecoded
    decode_mixedFile ['a', '\n', '\n', 'c', '\n'] (by decide) (by decide) (by decide) .lf
  have hread : decode (encode plainDiff ['a', '\n', '\n', 'c', '\n'] mixedDecoded.format) .lf =
      .ok ⟨['a', '\n', 'c', '\n'], .utf8 false, .lf,
        some [(['a'], some .crLf), (['c'], some .lf)]⟩ := rfl
  rw [hread] at hagain
  cases hagain
  exact absurd htext (by decide)

end Throng.Text
