import Throng.Editor.Doc
import Throng.Lib.Machine
import Throng.Lib.Trail

/-!
# Undo and redo over whole runs

The machine below lets a document be edited, undone, redone, sealed and saved in any
order. Beside the document it remembers, for every step the history still keeps, the
text before the step and the text after it, as they stood when the step was made: an
edit that extends the last step moves only the text after it.
-/

namespace Throng.Editor

open Trail (Leg Behind Ahead)

namespace TextDoc

theorem foldlM_applyChange (changes : List Change) (rope : Rope) (span : Option (Nat × Nat)) :
    (changes.foldlM applyChange (rope, span)).map Prod.fst = Transaction.apply ⟨changes⟩ rope := by
  induction changes generalizing rope span with
  | nil => rfl
  | cons change changes ih =>
      rw [List.foldlM_cons, Transaction.apply_cons, applyChange]
      cases change.apply rope with
      | none => rfl
      | some rope' => exact ih rope' _

/-- The text changes as the transaction says, and only the text and its version do. -/
theorem apply_of_rope (doc : TextDoc) {tx : Transaction} {rope : Rope}
    (h : tx.apply doc.rope = some rope) :
    ∃ doc' applied, doc.apply tx = some (doc', applied) ∧ doc'.rope = rope ∧
      doc'.history = doc.history ∧ doc'.saved = doc.saved := by
  have hfold := foldlM_applyChange tx.changes doc.rope none
  rw [h] at hfold
  obtain ⟨state, hstate, rfl⟩ := Option.map_eq_some_iff.1 hfold
  refine ⟨(doc.applied tx state).1, (doc.applied tx state).2, ?_, rfl, rfl, rfl⟩
  rw [apply, hstate, Option.map_some]

/-- One successful undo. -/
def undone (doc : TextDoc) : Option TextDoc :=
  doc.undo.bind fun result => result.2.map fun _ => result.1

/-- One successful redo. -/
def redone (doc : TextDoc) : Option TextDoc :=
  doc.redo.bind fun result => result.2.map fun _ => result.1

/-- `k` successful undos. -/
def undoTimes : Nat → TextDoc → Option TextDoc
  | 0, doc => some doc
  | k + 1, doc => doc.undone.bind (undoTimes k)

/-- `k` successful redos. -/
def redoTimes : Nat → TextDoc → Option TextDoc
  | 0, doc => some doc
  | k + 1, doc => (redoTimes k doc).bind redone

/-! ## The history and the texts it goes back to -/

/-- A step of the history leads from one text to another. -/
def Leads (revision : Revision) (before after : Rope) : Prop :=
  revision.tx.Fits before ∧ revision.tx.apply before = some after

/-- The history is a trail through the current text: behind it the steps that can be
undone, ahead of it those that can be redone. -/
structure Trailed (doc : TextDoc) (done undone : List (Leg Rope)) : Prop where
  behind : Behind Leads doc.rope doc.history.undo.reverse done
  ahead : Ahead Leads doc.rope doc.history.redo.reverse undone

variable {doc : TextDoc} {done undone : List (Leg Rope)} {leg : Leg Rope}

theorem Trailed.undo_nil (h : Trailed doc [] undone) : doc.undo = some (doc, none) := by
  have hnil := h.behind.nil_iff.2 rfl
  rw [List.reverse_eq_nil_iff] at hnil
  simp [undo, History.undoStep, hnil]

theorem Trailed.redo_nil (h : Trailed doc done []) : doc.redo = some (doc, none) := by
  have hnil := h.ahead.nil_iff.2 rfl
  rw [List.reverse_eq_nil_iff] at hnil
  simp [redo, History.redoStep, hnil]

/-- Undoing goes back over the nearest leg. -/
theorem Trailed.undo (h : Trailed doc (leg :: done) undone) :
    ∃ doc' applied, doc.undo = some (doc', some applied) ∧ doc'.rope = leg.before ∧
      doc'.saved = doc.saved ∧ Trailed doc' done (leg :: undone) := by
  obtain ⟨revision, rest, hrev, hafter, ⟨hfits, hleads⟩, -⟩ := h.behind.exists_cons
  have hundo : doc.history.undo = rest.reverse ++ [revision] := by
    rw [← List.reverse_reverse doc.history.undo, hrev, List.reverse_cons]
  have hbehind := h.behind
  rw [hrev] at hbehind
  obtain ⟨hback, hon⟩ := hbehind.back h.ahead
  have hinv : revision.tx.invert.apply doc.rope = some leg.before := by
    obtain ⟨rope', happ, hinv⟩ := Transaction.apply_of_fits hfits
    rw [hleads, hafter, Option.some.injEq] at happ
    exact happ ▸ hinv
  have hstep : doc.history.undoStep =
      some (⟨rest.reverse, doc.history.redo ++ [revision], true⟩, revision) := by
    simp [History.undoStep, hundo]
  obtain ⟨doc', applied, hdoc, hrope, hhistory, hsaved⟩ :=
    apply_of_rope
      ({ doc with history := ⟨rest.reverse, doc.history.redo ++ [revision], true⟩ } : TextDoc) hinv
  refine ⟨doc', (applied, revision.before.clamp doc'.rope.length), ?_, hrope, hsaved, ?_, ?_⟩
  · rw [TextDoc.undo, hstep]
    simp only [hdoc, Option.map_some]
  · rw [hrope, hhistory, List.reverse_reverse]
    exact hback
  · rw [hrope, hhistory, List.reverse_append]
    exact hon

/-- Redoing goes on over the nearest leg. -/
theorem Trailed.redo (h : Trailed doc done (leg :: undone)) :
    ∃ doc' applied, doc.redo = some (doc', some applied) ∧ doc'.rope = leg.after ∧
      doc'.saved = doc.saved ∧ Trailed doc' (leg :: done) undone := by
  obtain ⟨revision, rest, hrev, hbefore, ⟨-, hleads⟩, -⟩ := h.ahead.exists_cons
  have hredo : doc.history.redo = rest.reverse ++ [revision] := by
    rw [← List.reverse_reverse doc.history.redo, hrev, List.reverse_cons]
  have hahead := h.ahead
  rw [hrev] at hahead
  obtain ⟨hback, hon⟩ := hahead.on h.behind
  rw [hbefore] at hleads
  have hstep : doc.history.redoStep =
      some (⟨doc.history.undo ++ [revision], rest.reverse, true⟩, revision) := by
    simp [History.redoStep, hredo]
  obtain ⟨doc', applied, hdoc, hrope, hhistory, hsaved⟩ :=
    apply_of_rope
      ({ doc with history := ⟨doc.history.undo ++ [revision], rest.reverse, true⟩ } : TextDoc)
      hleads
  refine ⟨doc', (applied, revision.after.clamp doc'.rope.length), ?_, hrope, hsaved, ?_, ?_⟩
  · rw [TextDoc.redo, hstep]
    simp only [hdoc, Option.map_some]
  · rw [hrope, hhistory, List.reverse_append]
    exact hback
  · rw [hrope, hhistory, List.reverse_reverse]
    exact hon

/-- The legs behind once an edit is recorded: an edit that extends the last step moves
only where that step ends. -/
def addLeg (merged : Bool) (before after : Rope) : List (Leg Rope) → List (Leg Rope)
  | [] => [⟨before, after⟩]
  | leg :: legs =>
      if merged then ⟨leg.before, after⟩ :: legs else ⟨before, after⟩ :: leg :: legs

/-- Two edits in a row lead where the merged step does. -/
theorem Leads.merge {last revision : Revision} {before middle after : Rope}
    (hlast : Leads last before middle) (hnext : Leads revision middle after) :
    Leads (last.merge revision) before after := by
  refine ⟨Transaction.listFits_append hlast.1 hlast.2 hnext.1, ?_⟩
  have happend := Transaction.apply_append last.tx.changes revision.tx.changes before
  have hmiddle : Transaction.apply ⟨last.tx.changes⟩ before = some middle := hlast.2
  rw [hmiddle, Option.bind_some] at happend
  exact happend.trans hnext.2

/-- Recording an edit that led to `rope'` puts its leg behind. -/
theorem behind_pushed {history : History} {rope rope' : Rope} {revision : Revision}
    (h : Behind Leads rope history.undo.reverse done) (hleads : Leads revision rope rope') :
    Behind Leads rope' (history.pushed revision).reverse
      (addLeg (history.merges revision) rope rope' done) := by
  cases done with
  | nil =>
      have hnil := h.nil_iff.2 rfl
      rw [List.reverse_eq_nil_iff] at hnil
      have hpushed : history.pushed revision = [revision] := by
        simp [History.pushed, hnil]
      rw [hpushed]
      exact .cons rfl hleads .nil
  | cons leg done =>
      obtain ⟨last, rest, hrev, hafter, hlast, hrest⟩ := h.exists_cons
      have hundo : history.undo = rest.reverse ++ [last] := by
        rw [← List.reverse_reverse history.undo, hrev, List.reverse_cons]
      by_cases hmerges : history.merges revision
      · have hpushed : (history.pushed revision).reverse = last.merge revision :: rest := by
          simp [History.pushed, hundo, hmerges]
        rw [hpushed, addLeg, if_pos hmerges]
        exact .cons rfl (hlast.merge (hafter ▸ hleads)) hrest
      · have hpushed : (history.pushed revision).reverse = revision :: last :: rest := by
          simp [History.pushed, hundo, hmerges]
        rw [hpushed, addLeg, if_neg hmerges]
        exact .cons rfl hleads (.cons hafter hlast hrest)

/-- The oldest steps are dropped with their legs. -/
theorem behind_record {history : History} {rope rope' : Rope} {revision : Revision}
    (h : Behind Leads rope history.undo.reverse done) (hleads : Leads revision rope rope') :
    Behind Leads rope' (history.record revision).undo.reverse
      ((addLeg (history.merges revision) rope rope' done).take maxEntries) := by
  rw [History.record_undo_reverse]
  exact (behind_pushed h hleads).take maxEntries

/-- Editing leads on from the current text and drops what was ahead. -/
theorem Trailed.edit (h : Trailed doc done undone) {tx : Transaction} (hfits : tx.Fits doc.rope)
    (hne : tx.isEmpty = false) (before after : Selection) (kind : EditKind) (nowMs : Nat) :
    ∃ doc' applied, doc.edit tx before after kind nowMs = some (doc', some applied) ∧
      doc'.saved = doc.saved ∧
        Trailed doc' ((addLeg (doc.history.merges ⟨tx, before, after, kind, nowMs⟩) doc.rope
          doc'.rope done).take maxEntries) [] := by
  obtain ⟨rope, happ, -⟩ := Transaction.apply_of_fits hfits
  obtain ⟨doc', applied, hdoc, hrope, hhistory, hsaved⟩ := apply_of_rope doc happ
  refine ⟨{ doc' with history := doc'.history.record ⟨tx, before, after, kind, nowMs⟩ }, applied,
    ?_, hsaved, ?_, ?_⟩
  · rw [TextDoc.edit, hne, if_neg Bool.false_ne_true, hdoc, Option.map_some]
  · have hleads : Leads ⟨tx, before, after, kind, nowMs⟩ doc.rope doc'.rope :=
      ⟨hfits, happ.trans (congrArg some hrope.symm)⟩
    have hbehind := behind_record h.behind hleads
    rw [← hhistory] at hbehind
    rw [← hhistory]
    exact hbehind
  · exact .nil

/-- A document with the same text and the same steps. -/
theorem Trailed.congr {doc' : TextDoc} (h : Trailed doc done undone) (hrope : doc'.rope = doc.rope)
    (hundo : doc'.history.undo = doc.history.undo) (hredo : doc'.history.redo = doc.history.redo) :
    Trailed doc' done undone := by
  constructor
  · rw [hrope, hundo]
    exact h.behind
  · rw [hrope, hredo]
    exact h.ahead

/-- The text at the end of the nearest leg is the current one. -/
theorem Trailed.rope_eq (h : Trailed doc (leg :: done) undone) : doc.rope = leg.after := by
  obtain ⟨-, -, -, hafter, -, -⟩ := h.behind.exists_cons
  exact hafter.symm

/-- After `k` successful undos, `k` redos lead back. -/
theorem Trailed.redoTimes (h : Trailed doc done undone) {k : Nat} {doc₁ : TextDoc}
    (hundo : undoTimes k doc = some doc₁) :
    ∃ doc₂, redoTimes k doc₁ = some doc₂ ∧ doc₂.rope = doc.rope ∧ Trailed doc₂ done undone := by
  induction k generalizing doc done undone with
  | zero =>
      rw [undoTimes, Option.some.injEq] at hundo
      subst hundo
      exact ⟨doc, rfl, rfl, h⟩
  | succ k ih =>
      cases done with
      | nil =>
          rw [undoTimes, TextDoc.undone, h.undo_nil] at hundo
          cases hundo
      | cons leg done =>
          obtain ⟨doc', applied, hdoc, hrope, -, htrailed⟩ := h.undo
          rw [undoTimes, TextDoc.undone, hdoc] at hundo
          obtain ⟨doc₂, hredo, -, htrailed₂⟩ := ih htrailed hundo
          obtain ⟨doc₃, applied₃, hdoc₃, hrope₃, -, htrailed₃⟩ := htrailed₂.redo
          refine ⟨doc₃, ?_, hrope₃.trans h.rope_eq.symm, htrailed₃⟩
          rw [TextDoc.redoTimes, hredo, Option.bind_some, redone, hdoc₃]
          rfl

end TextDoc

/-! ## The machine -/

namespace UndoRun

structure Sys where
  doc : TextDoc
  /-- The legs of the steps that can be undone, the last step first. -/
  done : List (Leg Rope)
  /-- The legs of the steps that can be redone, the last one undone first. -/
  undone : List (Leg Rope)
  /-- The text last opened or saved. -/
  saved : Rope

inductive Act
  | edit (tx : Transaction) (before after : Selection) (kind : EditKind) (nowMs : Nat)
  | undo
  | redo
  | sealStep
  | markSaved (text : Rope)
  | isDirty

def opened (text : List Char) : Sys :=
  { doc := TextDoc.new text, done := [], undone := [], saved := text }

/-- The legs after an edit that changed the text. -/
def edited (s : Sys) (revision : Revision) (doc : TextDoc) : Sys :=
  { s with
    doc := doc
    done := (TextDoc.addLeg (s.doc.history.merges revision) s.doc.rope doc.rope s.done).take
      maxEntries
    undone := [] }

/-- The legs after an undo that took a step back. -/
def wentBack (s : Sys) (doc : TextDoc) : Sys :=
  { s with doc := doc, done := s.done.tail, undone := s.done.head?.toList ++ s.undone }

/-- The legs after a redo. -/
def wentOn (s : Sys) (doc : TextDoc) : Sys :=
  { s with doc := doc, done := s.undone.head?.toList ++ s.done, undone := s.undone.tail }

def step (s : Sys) : Act → Option Sys
  | .edit tx before after kind nowMs =>
      (s.doc.edit tx before after kind nowMs).map fun result =>
        if result.2.isSome then edited s ⟨tx, before, after, kind, nowMs⟩ result.1 else s
  | .undo => s.doc.undo.map fun result => if result.2.isSome then wentBack s result.1 else s
  | .redo => s.doc.redo.map fun result => if result.2.isSome then wentOn s result.1 else s
  | .sealStep => some { s with doc := s.doc.sealStep }
  | .markSaved text => some { s with doc := s.doc.markSaved text, saved := text }
  | .isDirty => some { s with doc := s.doc.isDirty.2 }

def machine : Machine Sys Act where
  init s := ∃ text, s = opened text
  step := step

/-- Edits are made with transactions built against the current text. -/
def BuiltOn (s : Sys) : Act → Prop
  | .edit tx _ _ _ _ => tx.Fits s.doc.rope
  | _ => True

instance : DecidableRel BuiltOn := fun s a => by
  cases a <;> simp only [BuiltOn] <;> infer_instance

/-- What the history promises of the state it is in. -/
structure UndoExact (s : Sys) : Prop where
  undo : ∀ leg ∈ s.done.head?, ∃ doc applied,
    s.doc.undo = some (doc, some applied) ∧ doc.rope = leg.before
  undo_none : s.done = [] → s.doc.undo = some (s.doc, none)
  redo : ∀ leg ∈ s.undone.head?, ∃ doc applied,
    s.doc.redo = some (doc, some applied) ∧ doc.rope = leg.after
  redo_none : s.undone = [] → s.doc.redo = some (s.doc, none)
  back_and_on : ∀ k doc₁, s.doc.undoTimes k = some doc₁ →
    ∃ doc₂, doc₁.redoTimes k = some doc₂ ∧ doc₂.rope = s.doc.rope
  dirty : s.doc.isDirty.1 = true ↔ s.doc.rope ≠ s.saved

/-- The document is on the trail the legs describe, and knows what was saved. -/
structure Inv (s : Sys) : Prop where
  trailed : s.doc.Trailed s.done s.undone
  saved : s.doc.saved = s.saved

theorem inv_opened (text : List Char) : Inv (opened text) :=
  ⟨⟨.nil, .nil⟩, rfl⟩

theorem inv_step {s s' : Sys} {a : Act} (h : Inv s) (hok : BuiltOn s a)
    (hstep : step s a = some s') : Inv s' := by
  cases a with
  | edit tx before after kind nowMs =>
      cases hne : tx.isEmpty with
      | true =>
          simp only [step, TextDoc.edit, hne, if_true, Option.map_some, Option.some.injEq] at hstep
          exact hstep ▸ h
      | false =>
          obtain ⟨doc', applied, hdoc, hsaved, htrailed⟩ :=
            h.trailed.edit hok hne before after kind nowMs
          simp only [step, hdoc, Option.map_some, Option.some.injEq] at hstep
          subst hstep
          exact ⟨htrailed, hsaved.trans h.saved⟩
  | undo =>
      cases hdone : s.done with
      | nil =>
          have htrailed := h.trailed
          rw [hdone] at htrailed
          simp only [step, htrailed.undo_nil, Option.map_some, Option.some.injEq] at hstep
          exact hstep ▸ h
      | cons leg done =>
          have htrailed := h.trailed
          rw [hdone] at htrailed
          obtain ⟨doc', applied, hdoc, -, hsaved, htrailed'⟩ := htrailed.undo
          simp only [step, hdoc, Option.map_some, Option.some.injEq] at hstep
          subst hstep
          refine ⟨?_, hsaved.trans h.saved⟩
          simpa [wentBack, hdone] using htrailed'
  | redo =>
      cases hundone : s.undone with
      | nil =>
          have htrailed := h.trailed
          rw [hundone] at htrailed
          simp only [step, htrailed.redo_nil, Option.map_some, Option.some.injEq] at hstep
          exact hstep ▸ h
      | cons leg undone =>
          have htrailed := h.trailed
          rw [hundone] at htrailed
          obtain ⟨doc', applied, hdoc, -, hsaved, htrailed'⟩ := htrailed.redo
          simp only [step, hdoc, Option.map_some, Option.some.injEq] at hstep
          subst hstep
          refine ⟨?_, hsaved.trans h.saved⟩
          simpa [wentOn, hundone] using htrailed'
  | sealStep =>
      rw [step, Option.some.injEq] at hstep
      subst hstep
      exact ⟨h.trailed.congr rfl rfl rfl, h.saved⟩
  | markSaved text =>
      rw [step, Option.some.injEq] at hstep
      subst hstep
      exact ⟨h.trailed.congr rfl rfl rfl, rfl⟩
  | isDirty =>
      obtain ⟨hrope, hsaved, -, hhistory⟩ := s.doc.isDirty_snd
      rw [step, Option.some.injEq] at hstep
      subst hstep
      exact ⟨h.trailed.congr hrope (by rw [hhistory]) (by rw [hhistory]), hsaved.trans h.saved⟩

theorem Inv.undoExact {s : Sys} (h : Inv s) : UndoExact s where
  undo := by
    intro leg hleg
    obtain ⟨done, hdone⟩ := List.head?_eq_some_iff.1 hleg
    have htrailed := h.trailed
    rw [hdone] at htrailed
    obtain ⟨doc', applied, hdoc, hrope, -, -⟩ := htrailed.undo
    exact ⟨doc', applied, hdoc, hrope⟩
  undo_none := by
    intro hdone
    have htrailed := h.trailed
    rw [hdone] at htrailed
    exact htrailed.undo_nil
  redo := by
    intro leg hleg
    obtain ⟨undone, hundone⟩ := List.head?_eq_some_iff.1 hleg
    have htrailed := h.trailed
    rw [hundone] at htrailed
    obtain ⟨doc', applied, hdoc, hrope, -, -⟩ := htrailed.redo
    exact ⟨doc', applied, hdoc, hrope⟩
  redo_none := by
    intro hundone
    have htrailed := h.trailed
    rw [hundone] at htrailed
    exact htrailed.redo_nil
  back_and_on := by
    intro k doc₁ hundo
    obtain ⟨doc₂, hredo, hrope, -⟩ := h.trailed.redoTimes hundo
    exact ⟨doc₂, hredo, hrope⟩
  dirty := by
    rw [TextDoc.isDirty_fst, decide_eq_true_eq, h.saved]

/-- Over every run of edits, undos, redos, seals and saves, undo and redo are exact. -/
theorem undoExact_of_reach {s : Sys} (h : machine.Reach BuiltOn s) : UndoExact s := by
  have hinv : Inv s := by
    refine h.invariant ?_ fun s a s' hs hok hstep => inv_step hs hok hstep
    rintro s ⟨text, rfl⟩
    exact inv_opened text
  exact hinv.undoExact

def typed (offset : Nat) (c : Char) : Act :=
  .edit ⟨[⟨offset, [], [c]⟩]⟩ (Selection.point offset) (Selection.point (offset + 1)) .insert 0

/-- Two characters typed on make one step, a third after a seal another; with that one
undone there is a step on either side. -/
theorem undoExact_typed : ∃ s, machine.Reach BuiltOn s ∧
    (s.done.length = 1 ∧ s.undone.length = 1 ∧ s.doc.rope = ['a', 'b', 'c']) ∧ UndoExact s := by
  have hinit : machine.Reach BuiltOn (opened ['a']) := .init ⟨['a'], rfl⟩
  obtain ⟨s, h, hs⟩ := hinit.exists_of_exec
    [typed 1 'b', typed 2 'c', .sealStep, typed 3 'd', .undo]
    (fun s => s.done.length = 1 && s.undone.length = 1 && s.doc.rope = ['a', 'b', 'c'])
    (by decide)
  simp only [Bool.and_eq_true, decide_eq_true_eq] at hs
  exact ⟨s, h, ⟨hs.1.1, hs.1.2, hs.2⟩, undoExact_of_reach h⟩

end UndoRun

end Throng.Editor
