import Throng.Editor.DocLines

/-!
# The line span of an edit

In a text without CRs the lines reported with an edit are the only ones that may differ,
whatever the changes insert. A change may bring CRs into the text that the next one works
on, and there a character can end a line or not by what follows it. What was touched is
therefore followed in characters: a stretch of the old text and the stretch that now
stands in its place, with the untouched text before and after it. How many lines end in
the text after the stretch does not depend on the stretch.
-/

namespace Throng.Editor

open Rope (isBreak)

namespace Rope

/-- The lines that end in `ys` do not depend on what comes before it. -/
theorem charToLine_append (xs ys : Rope) (n : Nat) :
    charToLine (xs ++ ys) (xs.length + n) = charToLine (xs ++ ys) xs.length + charToLine ys n := by
  induction xs with
  | nil =>
      rw [List.nil_append, List.length_nil, Nat.zero_add, charToLine, Nat.zero_add]
  | cons c xs ih =>
      have hlen : (c :: xs).length + n = xs.length + n + 1 := by
        rw [List.length_cons]
        omega
      rw [hlen, List.length_cons, List.cons_append, charToLine, charToLine, ih, Nat.add_assoc]

theorem charToLine_le_append (xs ys zs : Rope) :
    charToLine (xs ++ ys ++ zs) xs.length ≤ charToLine (xs ++ ys ++ zs) (xs ++ ys).length := by
  rw [List.append_assoc, List.length_append, charToLine_append xs (ys ++ zs) ys.length]
  exact Nat.le_add_right _ _

/-- Without CRs the lines that end before a position do not depend on what follows. -/
theorem charToLine_prefix {xs : Rope} (hxs : '\r' ∉ xs) (ys : Rope) :
    charToLine (xs ++ ys) xs.length = xs.countP isBreak := by
  induction xs with
  | nil => cases ys <;> rfl
  | cons c xs ih =>
      rw [List.mem_cons, not_or] at hxs
      rw [List.cons_append, List.length_cons, charToLine, endsLine_of_no_cr (Ne.symm hxs.1),
        ih hxs.2, List.countP_cons, Nat.add_comm]

theorem lines_ne_nil (rope : Rope) : lines rope ≠ [] := by
  cases rope with
  | nil => simp [lines]
  | cons c rest =>
      rw [lines]
      split
      · exact List.cons_ne_nil _ _
      · cases lines rest <;> exact List.cons_ne_nil _ _

/-- The lines that start inside `ys` do not depend on what comes before. -/
theorem drop_lines_append (xs ys : Rope) :
    (lines (xs ++ ys)).drop (charToLine (xs ++ ys) xs.length + 1) = (lines ys).tail := by
  induction xs with
  | nil =>
      rw [List.nil_append, List.length_nil, charToLine, Nat.zero_add, List.drop_one]
  | cons c xs ih =>
      rw [List.cons_append, List.length_cons, lines, charToLine]
      by_cases hends : endsLine c (xs ++ ys) = true
      · rw [if_pos hends, if_pos hends, Nat.add_comm 1, List.drop_succ_cons, ih]
      · rw [if_neg hends, if_neg hends, Nat.zero_add, ← ih]
        cases hlines : lines (xs ++ ys) with
        | nil => exact absurd hlines (lines_ne_nil _)
        | cons line rest => rfl

/-- The lines that end inside `xs`, which has no CR, do not depend on what follows. -/
theorem getElem?_lines_prefix {xs : Rope} (hxs : '\r' ∉ xs) (ys zs : Rope) {i : Nat}
    (hi : i < xs.countP isBreak) : (lines (xs ++ ys))[i]? = (lines (xs ++ zs))[i]? := by
  induction xs generalizing i with
  | nil => exact absurd hi (Nat.not_lt_zero i)
  | cons c xs ih =>
      rw [List.mem_cons, not_or] at hxs
      rw [List.cons_append, List.cons_append, lines, lines, endsLine_of_no_cr (Ne.symm hxs.1),
        endsLine_of_no_cr (Ne.symm hxs.1)]
      cases hbreak : isBreak c with
      | true =>
          rw [if_pos rfl, if_pos rfl]
          cases i with
          | zero => rfl
          | succ i =>
              rw [List.countP_cons_of_pos hbreak] at hi
              exact ih hxs.2 (Nat.lt_of_succ_lt_succ hi)
      | false =>
          rw [List.countP_cons_of_neg (by simp [hbreak])] at hi
          have hrest := ih hxs.2 hi
          rw [if_neg (by simp), if_neg (by simp)]
          cases hys : lines (xs ++ ys) with
          | nil => exact absurd hys (lines_ne_nil _)
          | cons line rest =>
              cases hzs : lines (xs ++ zs) with
              | nil => exact absurd hzs (lines_ne_nil _)
              | cons line' rest' =>
                  rw [hys, hzs] at hrest
                  cases i with
                  | succ i => exact hrest
                  | zero =>
                      have hline : line = line' := Option.some.inj hrest
                      rw [hline]
                      rfl

theorem lenLines_append (xs ys : Rope) :
    lenLines (xs ++ ys) = charToLine (xs ++ ys) xs.length + lenLines ys := by
  induction xs with
  | nil =>
      rw [List.nil_append, List.length_nil, charToLine, Nat.zero_add]
  | cons c xs ih =>
      rw [List.cons_append, List.length_cons, lenLines, lines, charToLine]
      by_cases hends : endsLine c (xs ++ ys) = true
      · rw [if_pos hends, if_pos hends, List.length_cons]
        rw [lenLines] at ih
        omega
      · rw [if_neg hends, if_neg hends, Nat.zero_add, ← ih, lenLines]
        cases hlines : lines (xs ++ ys) with
        | nil => exact absurd hlines (lines_ne_nil _)
        | cons line rest => rfl

end Rope

/-- The report of an edit is right: the lines before `firstLine` are those that were
there, those after `lastLine` are the old ones with their number less `lineDelta`, and
`lineDelta` is the difference of the line counts. -/
structure Applied.Right (rope rope' : Rope) (applied : Applied) : Prop where
  before : ∀ i < applied.firstLine, (Rope.lines rope')[i]? = (Rope.lines rope)[i]?
  after : ∀ i, applied.lastLine < i →
    ∃ j : Nat, (j : Int) = i - applied.lineDelta ∧
      (Rope.lines rope')[i]? = (Rope.lines rope)[j]?
  delta : applied.lineDelta = (Rope.lenLines rope' : Int) - (Rope.lenLines rope : Int)

namespace TextDoc

/-- The lines reported so far hold the stretch of `rope'` that has replaced one of
`rope`. -/
def Spans (rope rope' : Rope) : Option (Nat × Nat) → Prop
  | none => rope' = rope
  | some (lo, hi) => ∃ front old new back, rope = front ++ old ++ back ∧
      rope' = front ++ new ++ back ∧ lo ≤ Rope.charToLine rope' front.length ∧
        Rope.charToLine rope' (front ++ new).length ≤ hi

/-- Two fronts of one text have a front in common that is one of them. -/
theorem exists_front {front back front' back' : Rope} (h : front ++ back = front' ++ back') :
    ∃ both rest rest', front = both ++ rest ∧ front' = both ++ rest' ∧
      (rest = [] ∨ rest' = []) := by
  rcases List.append_eq_append_iff.1 h with ⟨rest, hfront, -⟩ | ⟨rest, hfront, -⟩
  · exact ⟨front, [], rest, (List.append_nil _).symm, hfront, .inl rfl⟩
  · exact ⟨front', rest, [], hfront, (List.append_nil _).symm, .inr rfl⟩

theorem exists_back {front back front' back' : Rope} (h : front ++ back = front' ++ back') :
    ∃ both rest rest', back = rest ++ both ∧ back' = rest' ++ both ∧ (rest = [] ∨ rest' = []) := by
  rcases List.append_eq_append_iff.1 h with ⟨rest, -, hback⟩ | ⟨rest, -, hback⟩
  · exact ⟨back', rest, [], hback, rfl, .inr rfl⟩
  · exact ⟨back, [], rest, rfl, hback, .inl rfl⟩

/-- The line reported first still stands in or before the line that the stretch starts
in. -/
theorem shift_low_le {start endOld endNew lo : Nat} (hold : start ≤ endOld) :
    min (shift start endOld endNew lo false) start ≤ min lo start := by
  rw [shift]
  split_ifs <;> omega

/-- What was reported last moves with the lines that end after the change. -/
theorem le_shift_high {start endOld endNew hi lines : Nat} (hold : start ≤ endOld)
    (hhi : endOld + lines ≤ hi) :
      endNew + lines ≤ max (shift start endOld endNew hi true) endNew := by
  rw [shift]
  split_ifs <;> omega

theorem Spans.first {rope rope' : Rope} (hrope : '\r' ∉ rope) {change : Change}
    (h : change.apply rope = some rope') :
    Spans rope rope' (some (widen (Rope.charToLine rope change.offset)
      (Rope.charToLine rope (change.offset + change.removed.length))
      (Rope.charToLine rope' (change.offset + change.inserted.length)) none)) := by
  obtain ⟨front, old, back, hfront, -, rfl, rfl⟩ := Change.exists_of_apply h
  have hplain : '\r' ∉ front := fun hmem => hrope (by simp [hmem])
  refine ⟨front, old, change.inserted, back, rfl, rfl, ?_, ?_⟩
  · refine Nat.le_of_eq ?_
    rw [← hfront, List.append_assoc, List.append_assoc, Rope.charToLine_prefix hplain,
      Rope.charToLine_prefix hplain]
  · refine Nat.le_of_eq ?_
    rw [← hfront, List.length_append]

/-- One more change: the stretch grows to hold what it replaces. -/
theorem Spans.next {rope middle rope' : Rope} (hrope : '\r' ∉ rope) {change : Change}
    {lo hi : Nat} (h : Spans rope middle (some (lo, hi)))
      (happ : change.apply middle = some rope') :
    Spans rope rope' (some (widen (Rope.charToLine middle change.offset)
      (Rope.charToLine middle (change.offset + change.removed.length))
      (Rope.charToLine rope' (change.offset + change.inserted.length)) (some (lo, hi)))) := by
  obtain ⟨front, old, new, back, rfl, hmiddle, hlo, hhi⟩ := h
  obtain ⟨before, removed, after, hbefore, hremoved, rfl, rfl⟩ := Change.exists_of_apply happ
  have hold := Rope.charToLine_le_append before removed after
  rw [List.length_append] at hold
  rw [← hbefore, ← hremoved]
  -- what is untouched before both stretches, and what is untouched after both
  obtain ⟨front', rest, rest', hb, hf, hfront⟩ :=
    exists_front (show before ++ (removed ++ after) = front ++ (new ++ back) by
      rw [← List.append_assoc, ← List.append_assoc, hmiddle])
  obtain ⟨back', tail, tail', ha, hk, hback⟩ := exists_back hmiddle
  have hplain : '\r' ∉ front' := fun hmem => hrope (by simp [hf, hmem])
  refine ⟨front', rest' ++ old ++ tail', rest ++ change.inserted ++ tail, back', ?_, ?_, ?_, ?_⟩
  · simp only [hf, hk, List.append_assoc]
  · simp only [hb, ha, List.append_assoc]
  · have hsame : Rope.charToLine (before ++ change.inserted ++ after) front'.length =
        Rope.charToLine (before ++ removed ++ after) front'.length := by
      simp only [hb, List.append_assoc]
      rw [Rope.charToLine_prefix hplain, Rope.charToLine_prefix hplain]
    rw [hsame]
    refine Nat.le_trans (shift_low_le hold) ?_
    rcases hfront with rfl | rfl
    · rw [List.append_nil] at hb
      rw [hb]
      exact Nat.min_le_right _ _
    · rw [List.append_nil] at hf
      rw [← hf]
      exact Nat.le_trans (Nat.min_le_left _ _) hlo
  · have hstretch : front' ++ (rest ++ change.inserted ++ tail) =
        before ++ change.inserted ++ tail := by
      simp only [hb, List.append_assoc]
    rw [hstretch, List.length_append, Rope.charToLine_append, List.length_append]
    rcases hback with rfl | rfl
    · rw [List.length_nil, Rope.charToLine, Nat.add_zero]
      exact Nat.le_max_right _ _
    · have hreach : front ++ new = before ++ removed ++ tail := by
        rw [List.nil_append] at hk
        rw [ha, hk, ← List.append_assoc] at hmiddle
        exact (List.append_cancel_right hmiddle).symm
      rw [hreach, List.length_append, Rope.charToLine_append, List.length_append] at hhi
      exact le_shift_high hold hhi

theorem spans_foldlM {rope middle : Rope} (hrope : '\r' ∉ rope) {span : Option (Nat × Nat)}
    {changes : List Change} {state : Rope × Option (Nat × Nat)} (h : Spans rope middle span)
    (hstate : changes.foldlM applyChange (middle, span) = some state) :
    Spans rope state.1 state.2 := by
  induction changes generalizing middle span with
  | nil =>
      rw [List.foldlM_nil, Option.pure_def, Option.some.injEq] at hstate
      subst hstate
      exact h
  | cons change changes ih =>
      rw [List.foldlM_cons, applyChange] at hstate
      cases happ : change.apply middle with
      | none => simp [happ] at hstate
      | some next =>
          simp only [happ, Option.map_some] at hstate
          refine ih ?_ hstate
          cases span with
          | none =>
              rw [Spans] at h
              subst h
              exact Spans.first hrope happ
          | some span => exact Spans.next hrope h happ

/-- Around a stretch that holds all that was touched the lines are the old ones. -/
theorem Spans.right {rope rope' : Rope} (hrope : '\r' ∉ rope) {span : Option (Nat × Nat)}
    (h : Spans rope rope' span) (tx : Transaction) (version : Nat) :
    Applied.Right rope rope'
      { tx := tx
        firstLine := (span.getD (0, 0)).1
        lastLine := (span.getD (0, 0)).2
        lineDelta := (Rope.lenLines rope' : Int) - (Rope.lenLines rope : Int)
        version := version } := by
  cases span with
  | none =>
      rw [Spans] at h
      subst h
      exact ⟨fun _ _ => rfl, fun i _ => ⟨i, by simp, rfl⟩, rfl⟩
  | some span =>
      obtain ⟨front, old, new, back, rfl, rfl, hlo, hhi⟩ := h
      have hplain : '\r' ∉ front := fun hmem => hrope (by simp [hmem])
      refine ⟨?_, ?_, rfl⟩
      · intro i hi
        rw [List.append_assoc, Rope.charToLine_prefix hplain] at hlo
        rw [List.append_assoc, List.append_assoc]
        exact Rope.getElem?_lines_prefix hplain _ _ (Nat.lt_of_lt_of_le hi hlo)
      · intro i hi
        have hpast := Nat.lt_of_le_of_lt hhi hi
        have hdrop := (Rope.drop_lines_append (front ++ new) back).trans
          (Rope.drop_lines_append (front ++ old) back).symm
        have hnew := Rope.lenLines_append (front ++ new) back
        have hold := Rope.lenLines_append (front ++ old) back
        obtain ⟨k, rfl⟩ := Nat.exists_eq_add_of_le hpast
        refine ⟨Rope.charToLine (front ++ old ++ back) (front ++ old).length + 1 + k, ?_, ?_⟩
        · push_cast [hnew, hold]
          omega
        · have hline := congrArg (fun lines => lines[k]?) hdrop
          simpa only [List.getElem?_drop, Nat.succ_eq_add_one] using hline

theorem right_apply {doc doc' : TextDoc} {tx : Transaction} {applied : Applied}
    (hdoc : '\r' ∉ doc.rope) (h : doc.apply tx = some (doc', applied)) :
    applied.Right doc.rope doc'.rope := by
  obtain ⟨state, hstate, happlied⟩ := Option.map_eq_some_iff.1 h
  have hspans := spans_foldlM hdoc (show Spans doc.rope doc.rope none from rfl) hstate
  rw [TextDoc.applied, Prod.mk.injEq] at happlied
  obtain ⟨rfl, rfl⟩ := happlied
  exact hspans.right hdoc tx (doc.version + 1)

/-- What a step of the document reports: an edit by some view, an undo or a redo. -/
def Reports (doc doc' : TextDoc) (applied : Applied) : Prop :=
  (∃ tx before after kind nowMs, doc.edit tx before after kind nowMs = some (doc', some applied)) ∨
    (∃ selection, doc.undo = some (doc', some (applied, selection))) ∨
      ∃ selection, doc.redo = some (doc', some (applied, selection))

/-- Every step that reports lines is the application of a transaction. -/
theorem Reports.exists_apply {doc doc' : TextDoc} {applied : Applied}
    (h : doc.Reports doc' applied) : ∃ start tx result, start.rope = doc.rope ∧
      TextDoc.apply start tx = some (result, applied) ∧ doc'.rope = result.rope := by
  rcases h with ⟨tx, before, after, kind, nowMs, h⟩ | ⟨selection, h⟩ | ⟨selection, h⟩
  · rw [edit] at h
    split at h
    · simp at h
    · obtain ⟨result, hresult, hpair⟩ := Option.map_eq_some_iff.1 h
      rw [Prod.mk.injEq, Option.some.injEq] at hpair
      obtain ⟨rfl, rfl⟩ := hpair
      exact ⟨doc, tx, result.1, rfl, hresult, rfl⟩
  · rw [undo] at h
    split at h
    · simp at h
    · rename_i history revision _
      obtain ⟨result, hresult, hpair⟩ := Option.map_eq_some_iff.1 h
      simp only [Prod.mk.injEq, Option.some.injEq] at hpair
      obtain ⟨rfl, rfl, -⟩ := hpair
      exact ⟨{ doc with history := history }, _, result.1, rfl, hresult, rfl⟩
  · rw [redo] at h
    split at h
    · simp at h
    · rename_i history revision _
      obtain ⟨result, hresult, hpair⟩ := Option.map_eq_some_iff.1 h
      simp only [Prod.mk.injEq, Option.some.injEq] at hpair
      obtain ⟨rfl, rfl, -⟩ := hpair
      exact ⟨{ doc with history := history }, _, result.1, rfl, hresult, rfl⟩

/-- The lines reported with an edit, an undo or a redo are right. -/
theorem reports_right {doc doc' : TextDoc} {applied : Applied} (hdoc : '\r' ∉ doc.rope)
    (h : doc.Reports doc' applied) : applied.Right doc.rope doc'.rope := by
  obtain ⟨start, tx, result, hstart, happ, hdoc'⟩ := h.exists_apply
  rw [hdoc', ← hstart]
  exact right_apply (hstart ▸ hdoc) happ

/-- A CR typed before an LF with a letter between them, and the letter taken out again. -/
theorem reports_right_joined :
    ∃ doc' applied, (TextDoc.new ['a', '\n', 'b']).Reports doc' applied ∧
      doc'.rope = ['a', '\r', '\n', 'b'] ∧
        applied.Right (TextDoc.new ['a', '\n', 'b']).rope doc'.rope := by
  have hedit : ∃ doc' applied,
      (TextDoc.new ['a', '\n', 'b']).edit ⟨[⟨1, [], ['\r', 'x']⟩, ⟨2, ['x'], []⟩]⟩
        (Selection.point 1) (Selection.point 2) .other 0 = some (doc', some applied) ∧
      doc'.rope = ['a', '\r', '\n', 'b'] := ⟨_, _, rfl, rfl⟩
  obtain ⟨doc', applied, hedit, hrope⟩ := hedit
  have hreports : (TextDoc.new ['a', '\n', 'b']).Reports doc' applied :=
    .inl ⟨_, _, _, _, _, hedit⟩
  exact ⟨doc', applied, hreports, hrope, reports_right (by decide) hreports⟩

end TextDoc

end Throng.Editor
