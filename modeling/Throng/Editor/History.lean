import Throng.Editor.Selection

/-!
# Undo and redo

One history per document: the steps that can be undone, oldest first, and those that
can be redone, the last one undone last. Typing or deleting on without a pause
extends the last step.
-/

namespace Throng.Editor

def maxEntries : Nat := 1000
def coalesceMs : Nat := 1000

/-- What kind of edit a step was. -/
inductive EditKind
  | insert
  | delete
  | other
deriving DecidableEq, Repr

/-- One undo step. -/
structure Revision where
  tx : Transaction
  before : Selection
  after : Selection
  kind : EditKind
  timeMs : Nat
deriving DecidableEq, Repr

def canMerge (last next : Revision) : Bool :=
  if last.kind ≠ next.kind || last.kind = .other then false
  else if next.timeMs - last.timeMs > coalesceMs then false
  else
    let samePlace := last.after.ranges.length = next.before.ranges.length &&
      (last.after.ranges.zip next.before.ranges).all fun pair => pair.1.sameSpan pair.2
    let newLine := next.tx.changes.any fun change => change.inserted.contains '\n'
    samePlace && !newLine

/-- The step `last` with a later edit added to it. -/
def Revision.merge (last revision : Revision) : Revision :=
  { last with
    tx := last.tx.extend revision.tx
    after := revision.after
    timeMs := revision.timeMs }

/-- A document's undo and redo stacks. -/
structure History where
  undo : List Revision := []
  redo : List Revision := []
  /-- The next edit starts a new step. -/
  isSealed : Bool := false
deriving DecidableEq, Repr

namespace History

/-- Whether the edit extends the last step. -/
def merges (history : History) (revision : Revision) : Bool :=
  !history.isSealed && history.undo.getLast?.any fun last => canMerge last revision

/-- The steps to undo once the edit is recorded, before the oldest are dropped. -/
def pushed (history : History) (revision : Revision) : List Revision :=
  match history.undo.getLast? with
  | some last =>
      if history.merges revision then history.undo.dropLast ++ [last.merge revision]
      else history.undo ++ [revision]
  | none => history.undo ++ [revision]

/-- Record an applied edit; any redo is lost. -/
def record (history : History) (revision : Revision) : History :=
  let undo := history.pushed revision
  { undo := undo.drop (undo.length - maxEntries), redo := [], isSealed := false }

/-- The newest steps are kept. -/
theorem record_undo_reverse (history : History) (revision : Revision) :
    (history.record revision).undo.reverse = (history.pushed revision).reverse.take maxEntries := by
  rw [List.take_reverse, record]

def sealStep (history : History) : History := { history with isSealed := true }

/-- Take the step to undo. -/
def undoStep (history : History) : Option (History × Revision) :=
  history.undo.getLast?.map fun revision =>
    ({ undo := history.undo.dropLast, redo := history.redo ++ [revision], isSealed := true },
      revision)

/-- Take the step to redo. -/
def redoStep (history : History) : Option (History × Revision) :=
  history.redo.getLast?.map fun revision =>
    ({ undo := history.undo ++ [revision], redo := history.redo.dropLast, isSealed := true },
      revision)

def clear (_ : History) : History := { undo := [], redo := [], isSealed := true }

/-- `size` in `trimmed_to`. -/
def size (revision : Revision) : Nat :=
  revision.tx.weight + 32 * (revision.before.ranges.length + revision.after.ranges.length) + 32

/-- Drop steps from the front while the total is over the budget; what is left of the
total as well. -/
def trim (maxBytes : Nat) : Nat → List Revision → Nat × List Revision
  | total, [] => (total, [])
  | total, revision :: rest =>
      if total > maxBytes then trim maxBytes (total - size revision) rest
      else (total, revision :: rest)

/-- A copy of at most `maxBytes`: the redo steps go first, then the oldest. -/
def trimmedTo (history : History) (maxBytes : Nat) : History :=
  let total := (history.undo ++ history.redo).foldl (fun total step => total + size step) 0
  let redo := trim maxBytes total history.redo
  let undo := trim maxBytes redo.1 history.undo
  { history with undo := undo.2, redo := redo.2 }

/-- Every step of the history has the property `P`. -/
def All (P : Revision → Prop) (history : History) : Prop :=
  ∀ revision, revision ∈ history.undo ∨ revision ∈ history.redo → P revision

variable {P : Revision → Prop} {history history' : History} {revision : Revision}

theorem All.record (h : history.All P) (hrevision : P revision)
    (hmerge : ∀ last, P last → P (last.merge revision)) : (history.record revision).All P := by
  have hpushed : ∀ kept ∈ history.pushed revision, P kept := by
    intro kept hkept
    rw [pushed] at hkept
    cases hlast : history.undo.getLast? with
    | none =>
        rw [hlast] at hkept
        rcases List.mem_append.1 hkept with hkept | hkept
        · exact h kept (.inl hkept)
        · exact List.mem_singleton.1 hkept ▸ hrevision
    | some last =>
        have hmem : last ∈ history.undo := List.mem_of_getLast? hlast
        simp only [hlast] at hkept
        split at hkept
        · rcases List.mem_append.1 hkept with hkept | hkept
          · exact h kept (.inl (List.dropLast_subset _ hkept))
          · exact List.mem_singleton.1 hkept ▸ hmerge last (h last (.inl hmem))
        · rcases List.mem_append.1 hkept with hkept | hkept
          · exact h kept (.inl hkept)
          · exact List.mem_singleton.1 hkept ▸ hrevision
  rintro kept (hkept | hkept)
  · rw [← List.mem_reverse, record_undo_reverse] at hkept
    exact hpushed kept (List.mem_reverse.1 (List.mem_of_mem_take hkept))
  · exact absurd hkept List.not_mem_nil

theorem All.undoStep (h : history.All P) (hstep : history.undoStep = some (history', revision)) :
    history'.All P ∧ P revision := by
  obtain ⟨last, hlast, hpair⟩ := Option.map_eq_some_iff.1 hstep
  rw [Prod.mk.injEq] at hpair
  obtain ⟨rfl, rfl⟩ := hpair
  have hmem : P last := h last (.inl (List.mem_of_getLast? hlast))
  refine ⟨?_, hmem⟩
  rintro kept (hkept | hkept)
  · exact h kept (.inl (List.dropLast_subset _ hkept))
  · rcases List.mem_append.1 hkept with hkept | hkept
    · exact h kept (.inr hkept)
    · exact List.mem_singleton.1 hkept ▸ hmem

theorem All.redoStep (h : history.All P) (hstep : history.redoStep = some (history', revision)) :
    history'.All P ∧ P revision := by
  obtain ⟨last, hlast, hpair⟩ := Option.map_eq_some_iff.1 hstep
  rw [Prod.mk.injEq] at hpair
  obtain ⟨rfl, rfl⟩ := hpair
  have hmem : P last := h last (.inr (List.mem_of_getLast? hlast))
  refine ⟨?_, hmem⟩
  rintro kept (hkept | hkept)
  · rcases List.mem_append.1 hkept with hkept | hkept
    · exact h kept (.inl hkept)
    · exact List.mem_singleton.1 hkept ▸ hmem
  · exact h kept (.inr (List.dropLast_subset _ hkept))

end History

end Throng.Editor
