import Mathlib.Algebra.GroupWithZero.Nat
import Throng.Editor.UndoRun

/-!
# A trimmed history

What is kept of a history for a recovery file is a stretch of each stack that ends where the
stack ends, so the steps nearest to the text stay. A document with the kept steps goes
through the same texts as one with all of them, for as many presses as steps were kept on
the side of the press.
-/

namespace Throng.Editor

open Trail (Behind Ahead Leg)

namespace History

/-- What the steps of a list weigh together. -/
def totalSize (steps : List Revision) : Nat := (steps.map size).sum

/-- What a history weighs. -/
def weighs (history : History) : Nat := totalSize history.undo + totalSize history.redo

theorem foldl_size (steps : List Revision) (start : Nat) :
    steps.foldl (fun total step => total + size step) start = start + totalSize steps := by
  induction steps generalizing start with
  | nil => rfl
  | cons step steps ih =>
      rw [List.foldl_cons, ih, totalSize, totalSize, List.map_cons, List.sum_cons, Nat.add_assoc]

/-- The total that is left is that of what is kept and the rest; steps are dropped only
while it is over the budget. -/
theorem trim_spec (maxBytes other : Nat) (steps : List Revision) :
    (trim maxBytes (totalSize steps + other) steps).2 <:+ steps ∧
      (trim maxBytes (totalSize steps + other) steps).1 =
        totalSize (trim maxBytes (totalSize steps + other) steps).2 + other ∧
      ((trim maxBytes (totalSize steps + other) steps).1 ≤ maxBytes ∨
        (trim maxBytes (totalSize steps + other) steps).2 = []) := by
  induction steps with
  | nil => exact ⟨List.suffix_refl _, rfl, .inr rfl⟩
  | cons step steps ih =>
      have htotal : totalSize (step :: steps) = size step + totalSize steps := List.sum_cons
      have hrest : size step + totalSize steps + other - size step = totalSize steps + other := by
        omega
      rw [trim, htotal]
      split
      · rw [hrest]
        exact ⟨ih.1.trans (List.suffix_cons _ _), ih.2⟩
      · next hfits => exact ⟨List.suffix_refl _, by rw [htotal], .inl (Nat.le_of_not_lt hfits)⟩

/-- A total within the budget drops nothing. -/
theorem trim_of_le {maxBytes total : Nat} (hle : total ≤ maxBytes) (steps : List Revision) :
    trim maxBytes total steps = (total, steps) := by
  cases steps with
  | nil => rfl
  | cons step steps => rw [trim, if_neg (Nat.not_lt.mpr hle)]

theorem trimmedTo_of_fits (history : History) {maxBytes : Nat} (hle : history.weighs ≤ maxBytes) :
    history.trimmedTo maxBytes = history := by
  have hsum : (history.undo ++ history.redo).foldl (fun total step => total + size step) 0 =
      history.weighs := by
    rw [foldl_size, totalSize, List.map_append, List.sum_append, Nat.zero_add]
    rfl
  rw [trimmedTo, hsum, trim_of_le hle, trim_of_le hle]

theorem trimmedTo_spec (history : History) (maxBytes : Nat) :
    (history.trimmedTo maxBytes).undo <:+ history.undo ∧
      (history.trimmedTo maxBytes).redo <:+ history.redo ∧
        (history.trimmedTo maxBytes).weighs ≤ maxBytes := by
  have hsum : (history.undo ++ history.redo).foldl (fun total step => total + size step) 0 =
      totalSize history.redo + totalSize history.undo := by
    rw [foldl_size, totalSize, List.map_append, List.sum_append, Nat.zero_add, Nat.add_comm]
    rfl
  have hredo := trim_spec maxBytes (totalSize history.undo) history.redo
  rw [trimmedTo, hsum]
  generalize trim maxBytes (totalSize history.redo + totalSize history.undo) history.redo =
    redo at hredo ⊢
  obtain ⟨hsuffix, htotal, hfits⟩ := hredo
  have hundo := trim_spec maxBytes (totalSize redo.2) history.undo
  rw [Nat.add_comm, ← htotal] at hundo
  refine ⟨hundo.1, hsuffix, ?_⟩
  rw [weighs]
  dsimp only
  rcases hundo.2.2 with hle | hnil
  · rw [← hundo.2.1]
    exact hle
  · rw [hnil]
    rcases hfits with hle | hnil'
    · -- the redo steps fit with all the steps to undo, and so do they without
      rw [htotal] at hle
      have hzero : totalSize [] = 0 := rfl
      omega
    · rw [hnil']
      exact Nat.zero_le _

end History

namespace TextDoc

/-- A key press: a successful undo or redo. -/
inductive Press
  | undo
  | redo
deriving DecidableEq, Repr

/-- With so many steps to undo and so many to redo, each press finds one. -/
def Press.allowed : Nat → Nat → List Press → Bool
  | _, _, [] => true
  | 0, _, .undo :: _ => false
  | undos + 1, redos, .undo :: presses => allowed undos (redos + 1) presses
  | _, 0, .redo :: _ => false
  | undos, redos + 1, .redo :: presses => allowed (undos + 1) redos presses

theorem Press.allowed_undo (undos redos k : Nat) :
    Press.allowed undos redos (List.replicate k .undo) = true ↔ k ≤ undos := by
  induction k generalizing undos redos with
  | zero => simp [Press.allowed]
  | succ k ih =>
      cases undos with
      | zero => simp [List.replicate_succ, Press.allowed]
      | succ undos => rw [List.replicate_succ, Press.allowed, ih, Nat.succ_le_succ_iff]

theorem Press.allowed_redo (undos redos k : Nat) :
    Press.allowed undos redos (List.replicate k .redo) = true ↔ k ≤ redos := by
  induction k generalizing undos redos with
  | zero => simp [Press.allowed]
  | succ k ih =>
      cases redos with
      | zero => simp [List.replicate_succ, Press.allowed]
      | succ redos => rw [List.replicate_succ, Press.allowed, ih, Nat.succ_le_succ_iff]

def press (doc : TextDoc) : Press → Option TextDoc
  | .undo => doc.undone
  | .redo => doc.redone

/-- The texts that presses go through, and the document after them; `none` when one of them
finds nothing to undo or redo. -/
def pressAll : TextDoc → List Press → Option (List Rope × TextDoc)
  | doc, [] => some ([], doc)
  | doc, press :: presses =>
      (doc.press press).bind fun doc =>
        (doc.pressAll presses).map fun result => (doc.rope :: result.1, result.2)

/-- A document with the text of another and the steps of it that are nearest to the text. -/
structure Shorter (doc full : TextDoc) : Prop where
  rope : doc.rope = full.rope
  undo : doc.history.undo <:+ full.history.undo
  redo : doc.history.redo <:+ full.history.redo

theorem getLast?_of_suffix {α : Type*} {l l' : List α} {a : α} (h : l <:+ l')
    (ha : l.getLast? = some a) : l'.getLast? = some a ∧ l.dropLast <:+ l'.dropLast := by
  obtain ⟨front, rfl⟩ := h
  have hne : l ≠ [] := by
    rintro rfl
    cases ha
  rw [List.getLast?_append, ha, List.dropLast_append_of_ne_nil hne]
  exact ⟨rfl, List.suffix_append _ _⟩

theorem suffix_concat {α : Type*} {l l' : List α} (h : l <:+ l') (a : α) :
    l ++ [a] <:+ l' ++ [a] := by
  obtain ⟨front, rfl⟩ := h
  exact ⟨front, (List.append_assoc _ _ _).symm⟩

theorem exists_apply {doc doc' : TextDoc} {tx : Transaction} {applied : Applied}
    (h : doc.apply tx = some (doc', applied)) :
    tx.apply doc.rope = some doc'.rope ∧ doc'.history = doc.history := by
  obtain ⟨state, hstate, hpair⟩ := Option.map_eq_some_iff.1 h
  rw [TextDoc.applied, Prod.mk.injEq] at hpair
  obtain ⟨rfl, -⟩ := hpair
  have hfold := foldlM_applyChange tx.changes doc.rope none
  rw [hstate, Option.map_some] at hfold
  exact ⟨hfold.symm, rfl⟩

variable {doc full doc' : TextDoc}

/-- What a successful undo does. -/
theorem undone_spec (h : doc.undone = some doc') : ∃ revision,
    doc.history.undo.getLast? = some revision ∧
      revision.tx.invert.apply doc.rope = some doc'.rope ∧
        doc'.history.undo = doc.history.undo.dropLast ∧
          doc'.history.redo = doc.history.redo ++ [revision] := by
  obtain ⟨result, hresult, hdoc⟩ := Option.bind_eq_some_iff.1 h
  obtain ⟨reported, hreported, rfl⟩ := Option.map_eq_some_iff.1 hdoc
  rw [undo, History.undoStep] at hresult
  cases hlast : doc.history.undo.getLast? with
  | none =>
      rw [hlast] at hresult
      cases hresult
      cases hreported
  | some revision =>
      rw [hlast] at hresult
      obtain ⟨next, hnext, rfl⟩ := Option.map_eq_some_iff.1 hresult
      obtain ⟨happ, hhistory⟩ := exists_apply hnext
      exact ⟨revision, rfl, happ, by rw [hhistory], by rw [hhistory]⟩

/-- What a successful redo does. -/
theorem redone_spec (h : doc.redone = some doc') : ∃ revision,
    doc.history.redo.getLast? = some revision ∧
      revision.tx.apply doc.rope = some doc'.rope ∧
        doc'.history.undo = doc.history.undo ++ [revision] ∧
          doc'.history.redo = doc.history.redo.dropLast := by
  obtain ⟨result, hresult, hdoc⟩ := Option.bind_eq_some_iff.1 h
  obtain ⟨reported, hreported, rfl⟩ := Option.map_eq_some_iff.1 hdoc
  rw [redo, History.redoStep] at hresult
  cases hlast : doc.history.redo.getLast? with
  | none =>
      rw [hlast] at hresult
      cases hresult
      cases hreported
  | some revision =>
      rw [hlast] at hresult
      obtain ⟨next, hnext, rfl⟩ := Option.map_eq_some_iff.1 hresult
      obtain ⟨happ, hhistory⟩ := exists_apply hnext
      exact ⟨revision, rfl, happ, by rw [hhistory], by rw [hhistory]⟩

theorem exists_undone {revision : Revision} {rope : Rope}
    (hlast : doc.history.undo.getLast? = some revision)
    (happ : revision.tx.invert.apply doc.rope = some rope) :
    ∃ doc', doc.undone = some doc' ∧ doc'.rope = rope ∧
      doc'.history.undo = doc.history.undo.dropLast ∧
        doc'.history.redo = doc.history.redo ++ [revision] := by
  have hstep : doc.history.undoStep =
      some (⟨doc.history.undo.dropLast, doc.history.redo ++ [revision], true⟩, revision) := by
    rw [History.undoStep, hlast, Option.map_some]
  obtain ⟨doc', applied, hdoc, hrope, hhistory, -⟩ := apply_of_rope
    ({ doc with history := ⟨doc.history.undo.dropLast, doc.history.redo ++ [revision], true⟩ } :
      TextDoc) happ
  refine ⟨doc', ?_, hrope, by rw [hhistory], by rw [hhistory]⟩
  rw [undone, TextDoc.undo, hstep]
  simp only [hdoc, Option.map_some, Option.bind_some]

theorem exists_redone {revision : Revision} {rope : Rope}
    (hlast : doc.history.redo.getLast? = some revision)
    (happ : revision.tx.apply doc.rope = some rope) :
    ∃ doc', doc.redone = some doc' ∧ doc'.rope = rope ∧
      doc'.history.undo = doc.history.undo ++ [revision] ∧
        doc'.history.redo = doc.history.redo.dropLast := by
  have hstep : doc.history.redoStep =
      some (⟨doc.history.undo ++ [revision], doc.history.redo.dropLast, true⟩, revision) := by
    rw [History.redoStep, hlast, Option.map_some]
  obtain ⟨doc', applied, hdoc, hrope, hhistory, -⟩ := apply_of_rope
    ({ doc with history := ⟨doc.history.undo ++ [revision], doc.history.redo.dropLast, true⟩ } :
      TextDoc) happ
  refine ⟨doc', ?_, hrope, by rw [hhistory], by rw [hhistory]⟩
  rw [redone, TextDoc.redo, hstep]
  simp only [hdoc, Option.map_some, Option.bind_some]

theorem Shorter.undone (h : Shorter doc full) (hundone : doc.undone = some doc') :
    ∃ full', full.undone = some full' ∧ Shorter doc' full' := by
  obtain ⟨revision, hlast, happ, hundo, hredo⟩ := undone_spec hundone
  obtain ⟨hlast', hdrop⟩ := getLast?_of_suffix h.undo hlast
  rw [h.rope] at happ
  obtain ⟨full', hfull, hrope, hundo', hredo'⟩ := exists_undone hlast' happ
  refine ⟨full', hfull, hrope.symm, ?_, ?_⟩
  · rw [hundo, hundo']
    exact hdrop
  · rw [hredo, hredo']
    exact suffix_concat h.redo revision

theorem Shorter.redone (h : Shorter doc full) (hredone : doc.redone = some doc') :
    ∃ full', full.redone = some full' ∧ Shorter doc' full' := by
  obtain ⟨revision, hlast, happ, hundo, hredo⟩ := redone_spec hredone
  obtain ⟨hlast', hdrop⟩ := getLast?_of_suffix h.redo hlast
  rw [h.rope] at happ
  obtain ⟨full', hfull, hrope, hundo', hredo'⟩ := exists_redone hlast' happ
  refine ⟨full', hfull, hrope.symm, ?_, ?_⟩
  · rw [hundo, hundo']
    exact suffix_concat h.undo revision
  · rw [hredo, hredo']
    exact hdrop

theorem Shorter.press (h : Shorter doc full) {press : Press}
    (hpress : doc.press press = some doc') :
    ∃ full', full.press press = some full' ∧ Shorter doc' full' := by
  cases press with
  | undo => exact h.undone hpress
  | redo => exact h.redone hpress

/-- As long as the shorter history has steps, both go through the same texts. -/
theorem Shorter.pressAll (h : Shorter doc full) {presses : List Press} {texts : List Rope}
    (hpresses : doc.pressAll presses = some (texts, doc')) :
    ∃ full', full.pressAll presses = some (texts, full') ∧ Shorter doc' full' := by
  induction presses generalizing doc full texts with
  | nil =>
      cases hpresses
      exact ⟨full, rfl, h⟩
  | cons press presses ih =>
      obtain ⟨next, hnext, hrest⟩ := Option.bind_eq_some_iff.1 hpresses
      obtain ⟨result, hresult, hpair⟩ := Option.map_eq_some_iff.1 hrest
      rw [Prod.mk.injEq] at hpair
      obtain ⟨rfl, rfl⟩ := hpair
      obtain ⟨full₁, hfull₁, hshorter⟩ := h.press hnext
      obtain ⟨full', hfull', hlast⟩ := ih hshorter hresult
      refine ⟨full', ?_, hlast⟩
      rw [TextDoc.pressAll, hfull₁, Option.bind_some, hfull', Option.map_some, hshorter.rope]

/-! ## Running out -/

variable {done undone : List (Leg Rope)}

theorem Trailed.press {press : Press} (h : Trailed full done undone)
    (hpress : full.press press = some doc') : ∃ done' undone', Trailed doc' done' undone' := by
  cases press with
  | undo =>
      cases done with
      | nil =>
          rw [TextDoc.press, TextDoc.undone, h.undo_nil] at hpress
          cases hpress
      | cons leg done =>
          obtain ⟨next, applied, hundo, -, -, htrailed⟩ := h.undo
          rw [TextDoc.press, TextDoc.undone, hundo] at hpress
          cases hpress
          exact ⟨done, leg :: undone, htrailed⟩
  | redo =>
      cases undone with
      | nil =>
          rw [TextDoc.press, TextDoc.redone, h.redo_nil] at hpress
          cases hpress
      | cons leg undone =>
          obtain ⟨next, applied, hredo, -, -, htrailed⟩ := h.redo
          rw [TextDoc.press, TextDoc.redone, hredo] at hpress
          cases hpress
          exact ⟨leg :: done, undone, htrailed⟩

/-- A press finds nothing only where the history has run out on that side. -/
structure RunsOut (doc : TextDoc) : Prop where
  undo : doc.undone = none ↔ doc.history.undo = []
  redo : doc.redone = none ↔ doc.history.redo = []

theorem Shorter.runsOut (h : Shorter doc full) (htrailed : Trailed full done undone) :
    RunsOut doc where
  undo := by
    constructor
    · intro hnone
      by_contra hne
      obtain ⟨revision, hlast⟩ : ∃ revision, doc.history.undo.getLast? = some revision :=
        ⟨_, List.getLast?_eq_some_getLast hne⟩
      obtain ⟨hlast', -⟩ := getLast?_of_suffix h.undo hlast
      cases done with
      | nil =>
          have hnil := htrailed.behind.nil_iff.2 rfl
          rw [List.reverse_eq_nil_iff] at hnil
          rw [hnil] at hlast'
          cases hlast'
      | cons leg done =>
          obtain ⟨next, applied, hundo, -⟩ := htrailed.undo
          have hfull : full.undone = some next := by rw [TextDoc.undone, hundo]; rfl
          obtain ⟨revision', hlast'', happ, -⟩ := undone_spec hfull
          obtain rfl : revision = revision' := Option.some.inj (hlast'.symm.trans hlast'')
          rw [← h.rope] at happ
          obtain ⟨doc', hdoc, -⟩ := exists_undone hlast happ
          rw [hdoc] at hnone
          cases hnone
    · intro hnil
      rw [TextDoc.undone, TextDoc.undo, History.undoStep, hnil]
      rfl
  redo := by
    constructor
    · intro hnone
      by_contra hne
      obtain ⟨revision, hlast⟩ : ∃ revision, doc.history.redo.getLast? = some revision :=
        ⟨_, List.getLast?_eq_some_getLast hne⟩
      obtain ⟨hlast', -⟩ := getLast?_of_suffix h.redo hlast
      cases undone with
      | nil =>
          have hnil := htrailed.ahead.nil_iff.2 rfl
          rw [List.reverse_eq_nil_iff] at hnil
          rw [hnil] at hlast'
          cases hlast'
      | cons leg undone =>
          obtain ⟨next, applied, hredo, -⟩ := htrailed.redo
          have hfull : full.redone = some next := by rw [TextDoc.redone, hredo]; rfl
          obtain ⟨revision', hlast'', happ, -⟩ := redone_spec hfull
          obtain rfl : revision = revision' := Option.some.inj (hlast'.symm.trans hlast'')
          rw [← h.rope] at happ
          obtain ⟨doc', hdoc, -⟩ := exists_redone hlast happ
          rw [hdoc] at hnone
          cases hnone
    · intro hnil
      rw [TextDoc.redone, TextDoc.redo, History.redoStep, hnil]
      rfl

/-- A press that succeeds leaves a step less on its side and one more on the other. -/
theorem allowed_press {press : Press} (hpress : doc.press press = some doc')
    (presses : List Press) :
    Press.allowed doc.history.undo.length doc.history.redo.length (press :: presses) =
      Press.allowed doc'.history.undo.length doc'.history.redo.length presses := by
  have hlast : ∀ {steps : List Revision} {revision : Revision},
      steps.getLast? = some revision → steps.length = steps.dropLast.length + 1 := by
    intro steps revision h
    obtain ⟨front, rfl⟩ := List.getLast?_eq_some_iff.1 h
    simp
  cases press with
  | undo =>
      obtain ⟨revision, hrevision, -, hundo, hredo⟩ := undone_spec hpress
      rw [hlast hrevision, Press.allowed, hundo, hredo, List.length_append, List.length_singleton]
  | redo =>
      obtain ⟨revision, hrevision, -, hundo, hredo⟩ := redone_spec hpress
      rw [hlast hrevision, Press.allowed, hundo, hredo, List.length_append, List.length_singleton]

/-- Presses succeed exactly as long as the shorter history has steps on their side. -/
theorem Shorter.isSome_pressAll (h : Shorter doc full) (htrailed : Trailed full done undone)
    (presses : List Press) : (doc.pressAll presses).isSome =
      Press.allowed doc.history.undo.length doc.history.redo.length presses := by
  induction presses generalizing doc full done undone with
  | nil => rfl
  | cons press presses ih =>
      have hout := h.runsOut htrailed
      cases hpress : doc.press press with
      | none =>
          rw [TextDoc.pressAll, hpress, Option.bind_none, Option.isSome_none]
          cases press with
          | undo => rw [hout.undo.1 hpress, List.length_nil, Press.allowed]
          | redo => rw [hout.redo.1 hpress, List.length_nil, Press.allowed]
      | some next =>
          obtain ⟨full', hfull, hnext⟩ := h.press hpress
          obtain ⟨done', undone', htrailed'⟩ := htrailed.press hfull
          rw [TextDoc.pressAll, hpress, Option.bind_some, Option.isSome_map, ih hnext htrailed',
            allowed_press hpress]

end TextDoc

namespace UndoRun

open TextDoc (Press)

/-- What is kept of a history is within the budget, and all of it where it is. Put back on a
document with the same text it allows as many undos and redos as steps were kept on each side,
in whatever order they come, and goes through the texts that the whole history goes through,
press by press. -/
structure TrimmedExact (doc : TextDoc) (maxBytes : Nat) : Prop where
  weighs : (doc.history.trimmedTo maxBytes).weighs ≤ maxBytes
  whole : doc.history.weighs ≤ maxBytes → doc.history.trimmedTo maxBytes = doc.history
  undoes : ∀ other : TextDoc, other.rope = doc.rope → ∀ k,
    ((other.setHistory (doc.history.trimmedTo maxBytes)).pressAll
      (List.replicate k .undo)).isSome = true ↔ k ≤ (doc.history.trimmedTo maxBytes).undo.length
  redoes : ∀ other : TextDoc, other.rope = doc.rope → ∀ k,
    ((other.setHistory (doc.history.trimmedTo maxBytes)).pressAll
      (List.replicate k .redo)).isSome = true ↔ k ≤ (doc.history.trimmedTo maxBytes).redo.length
  allows : ∀ other : TextDoc, other.rope = doc.rope → ∀ presses,
    ((other.setHistory (doc.history.trimmedTo maxBytes)).pressAll presses).isSome =
      Press.allowed (doc.history.trimmedTo maxBytes).undo.length
        (doc.history.trimmedTo maxBytes).redo.length presses
  same : ∀ other : TextDoc, other.rope = doc.rope → ∀ presses texts last,
    (other.setHistory (doc.history.trimmedTo maxBytes)).pressAll presses = some (texts, last) →
      ∃ full, doc.pressAll presses = some (texts, full)

/-- Over every run, whatever the budget, a trimmed history undoes and redoes as the whole one
does. -/
theorem trimmedExact_of_reach {s : Sys} (h : machine.Reach BuiltOn s) (maxBytes : Nat) :
    TrimmedExact s.doc maxBytes := by
  have hinv : Inv s := by
    refine h.invariant ?_ fun s a s' hs hok hstep => inv_step hs hok hstep
    rintro s ⟨text, rfl⟩
    exact inv_opened text
  obtain ⟨hundo, hredo, hweighs⟩ := s.doc.history.trimmedTo_spec maxBytes
  have hshorter : ∀ other : TextDoc, other.rope = s.doc.rope →
      (other.setHistory (s.doc.history.trimmedTo maxBytes)).Shorter s.doc :=
    fun other hrope => ⟨hrope, hundo, hredo⟩
  have hallows : ∀ other : TextDoc, other.rope = s.doc.rope → ∀ presses,
      ((other.setHistory (s.doc.history.trimmedTo maxBytes)).pressAll presses).isSome =
        Press.allowed (s.doc.history.trimmedTo maxBytes).undo.length
          (s.doc.history.trimmedTo maxBytes).redo.length presses :=
    fun other hrope presses => (hshorter other hrope).isSome_pressAll hinv.trailed presses
  refine ⟨hweighs, s.doc.history.trimmedTo_of_fits, ?_, ?_, hallows, ?_⟩
  · intro other hrope k
    rw [hallows other hrope, Press.allowed_undo]
  · intro other hrope k
    rw [hallows other hrope, Press.allowed_redo]
  · intro other hrope presses texts last hpresses
    obtain ⟨full, hfull, -⟩ := (hshorter other hrope).pressAll hpresses
    exact ⟨full, hfull⟩

/-- Three steps, the last one undone, and a budget that keeps one step to undo. -/
theorem trimmedExact_typed : ∃ s, machine.Reach BuiltOn s ∧
    ((s.doc.history.trimmedTo 150).undo.length = 1 ∧
      (s.doc.history.trimmedTo 150).redo.length = 0 ∧ s.doc.history.undo.length = 2) ∧
        TrimmedExact s.doc 150 := by
  have hinit : machine.Reach BuiltOn (opened ['a']) := .init ⟨['a'], rfl⟩
  obtain ⟨s, h, hs⟩ := hinit.exists_of_exec
    [typed 1 'b', .sealStep, typed 2 'c', .sealStep, typed 3 'd', .undo]
    (fun s => (s.doc.history.trimmedTo 150).undo.length = 1 &&
      (s.doc.history.trimmedTo 150).redo.length = 0 && s.doc.history.undo.length = 2)
    (by decide)
  simp only [Bool.and_eq_true, decide_eq_true_eq] at hs
  exact ⟨s, h, ⟨hs.1.1, hs.1.2, hs.2⟩, trimmedExact_of_reach h 150⟩

end UndoRun

end Throng.Editor
