import Throng.Editor.Doc

/-!
# The lines an edit touches

In a text without CRs the lines reported with an edit are a patch of the document's
lines: those before `firstLine` and those after `lastLine` are the lines that were
there, the latter shifted by `lineDelta`. One change patches the lines from the one it
starts in to the one it ends in, and the changes of a transaction compose.
-/

namespace Throng.Editor

open Rope (isBreak)

/-- Neither removes nor inserts a CR. -/
def Change.Plain (change : Change) : Prop := '\r' ∉ change.removed ∧ '\r' ∉ change.inserted

instance (change : Change) : Decidable change.Plain := inferInstanceAs (Decidable (_ ∧ _))

def Transaction.Plain (tx : Transaction) : Prop := ∀ change ∈ tx.changes, change.Plain

instance (tx : Transaction) : Decidable tx.Plain :=
  inferInstanceAs (Decidable (∀ change ∈ tx.changes, change.Plain))

theorem Transaction.Plain.invert {tx : Transaction} (h : tx.Plain) : tx.invert.Plain := by
  intro change hchange
  obtain ⟨original, horiginal, rfl⟩ := List.mem_map.1 hchange
  have hplain := h original (List.mem_reverse.1 horiginal)
  exact ⟨hplain.2, hplain.1⟩

/-- One change patches the lines it starts and ends in. -/
theorem Change.patch_apply {change : Change} {rope rope' : Rope} (hrope : '\r' ∉ rope)
    (hchange : change.Plain) (h : change.apply rope = some rope') :
    '\r' ∉ rope' ∧ Patch (Rope.lines rope) (Rope.lines rope')
      (Rope.charToLine rope change.offset)
      (Rope.charToLine rope (change.offset + change.removed.length))
      (Rope.charToLine rope' (change.offset + change.inserted.length)) := by
  obtain ⟨before, middle, after, hbefore, hmiddle, rfl, rfl⟩ := Change.exists_of_apply h
  have hrope' : '\r' ∉ before ++ change.inserted ++ after := by
    simp only [List.mem_append, not_or] at hrope ⊢
    exact ⟨⟨hrope.1.1, hchange.2⟩, hrope.2⟩
  have hstart : (before ++ middle ++ after).take change.offset = before := by
    rw [List.append_assoc, ← hbefore, List.take_left]
  have hold : (before ++ middle ++ after).take (change.offset + change.removed.length) =
      before ++ middle := by
    rw [← hbefore, ← hmiddle, ← List.length_append, List.take_left]
  have hnew : (before ++ change.inserted ++ after).take
      (change.offset + change.inserted.length) = before ++ change.inserted := by
    rw [← hbefore, ← List.length_append, List.take_left]
  refine ⟨hrope', ?_⟩
  rw [Rope.charToLine_eq hrope, Rope.charToLine_eq hrope, Rope.charToLine_eq hrope',
    Rope.lines_eq_split hrope, Rope.lines_eq_split hrope', SplitLines.lineOf, SplitLines.lineOf,
    SplitLines.lineOf, hstart, hold, hnew]
  exact SplitLines.patch_append isBreak before middle change.inserted after

namespace TextDoc

/-- The touched lines so far are a patch. -/
def Covers (rope rope' : Rope) : Option (Nat × Nat) → Prop
  | none => rope' = rope
  | some (lo, hi) => ∃ oldLast, Patch (Rope.lines rope) (Rope.lines rope') lo oldLast hi

theorem widen_some {start endOld endNew lo hi : Nat} (hold : start ≤ endOld)
    (hnew : start ≤ endNew) :
    widen start endOld endNew (some (lo, hi)) =
      (min lo start, max hi endOld - endOld + endNew) := by
  have hlo : min (shift start endOld endNew lo false) start = min lo start := by
    rw [shift]
    split_ifs <;> omega
  have hhi : max (shift start endOld endNew hi true) endNew =
      max hi endOld - endOld + endNew := by
    rw [shift]
    split_ifs <;> omega
  rw [widen, hlo, hhi]

/-- One more change widens the patch. -/
theorem Covers.widen {rope middle rope' : Rope} {span : Option (Nat × Nat)}
    {start endOld endNew : Nat} (h : Covers rope middle span)
    (hpatch : Patch (Rope.lines middle) (Rope.lines rope') start endOld endNew) :
    Covers rope rope' (some (widen start endOld endNew span)) := by
  cases span with
  | none =>
      rw [Covers] at h
      subst h
      exact ⟨endOld, hpatch⟩
  | some span =>
      obtain ⟨lo, hi⟩ := span
      obtain ⟨oldLast, hspan⟩ := h
      rw [widen_some hpatch.first_le_old hpatch.first_le_new]
      exact hspan.comp hpatch

theorem covers_foldlM {rope middle : Rope} {span : Option (Nat × Nat)} {changes : List Change}
    {state : Rope × Option (Nat × Nat)} (hmiddle : '\r' ∉ middle)
    (hplain : ∀ change ∈ changes, change.Plain) (h : Covers rope middle span)
    (hstate : changes.foldlM applyChange (middle, span) = some state) :
    '\r' ∉ state.1 ∧ Covers rope state.1 state.2 := by
  induction changes generalizing middle span with
  | nil =>
      rw [List.foldlM_nil, Option.pure_def, Option.some.injEq] at hstate
      subst hstate
      exact ⟨hmiddle, h⟩
  | cons change changes ih =>
      rw [List.foldlM_cons, applyChange] at hstate
      cases happ : change.apply middle with
      | none => simp [happ] at hstate
      | some next =>
          obtain ⟨hnext, hpatch⟩ := Change.patch_apply hmiddle (hplain _ List.mem_cons_self) happ
          simp only [happ, Option.map_some] at hstate
          exact ih hnext (fun c hc => hplain c (List.mem_cons_of_mem _ hc)) (h.widen hpatch) hstate

/-- The reported lines are a patch of the document's lines. -/
theorem patch_apply {doc doc' : TextDoc} {tx : Transaction} {applied : Applied}
    (hdoc : '\r' ∉ doc.rope) (htx : tx.Plain) (h : doc.apply tx = some (doc', applied)) :
    '\r' ∉ doc'.rope ∧
      (∃ oldLast, Patch (Rope.lines doc.rope) (Rope.lines doc'.rope) applied.firstLine oldLast
        applied.lastLine) ∧
      applied.lineDelta = (Rope.lenLines doc'.rope : Int) - (Rope.lenLines doc.rope : Int) := by
  obtain ⟨state, hstate, happlied⟩ := Option.map_eq_some_iff.1 h
  obtain ⟨hplain, hcovers⟩ := covers_foldlM hdoc htx (show Covers doc.rope doc.rope none from rfl)
    hstate
  rw [TextDoc.applied, Prod.mk.injEq] at happlied
  obtain ⟨rfl, rfl⟩ := happlied
  refine ⟨hplain, ?_, rfl⟩
  cases hspan : state.2 with
  | none =>
      rw [hspan, Covers] at hcovers
      dsimp only
      rw [hcovers]
      refine ⟨0, Patch.refl ?_⟩
      rw [Rope.lines_eq_split hdoc, SplitLines.length_split]
      exact Nat.succ_pos _
  | some span =>
      rw [hspan] at hcovers
      exact hcovers

end TextDoc

end Throng.Editor
