import Throng.Editor.History

/-!
# A document's text and history

The comparison with the saved text is cached with the version it was made at. The
cache is a field that proves itself right, so asking whether the document is dirty
is asking whether the text differs from the saved one.
-/

namespace Throng.Editor

/-- What an edit did: `tx`, and the only lines whose text may differ, numbered after
the edit. -/
structure Applied where
  tx : Transaction
  firstLine : Nat
  lastLine : Nat
  lineDelta : Int
  version : Nat
deriving DecidableEq, Repr

/-- Text plus undo history. Line endings inside are LF. -/
structure TextDoc where
  rope : Rope
  history : History
  version : Nat
  /-- The text as last loaded or saved. -/
  saved : Rope
  /-- The last answer of `is_dirty` and the version it was given at. -/
  dirty : Option (Nat × Bool)
  dirty_right : ∀ v answer, dirty = some (v, answer) →
    v ≤ version ∧ (v = version → answer = decide (rope ≠ saved))

namespace TextDoc

def new (text : List Char) : TextDoc where
  rope := text
  history := {}
  version := 0
  saved := text
  dirty := none
  dirty_right := by simp

/-- Replace the history (restoring it after a crash). -/
def setHistory (doc : TextDoc) (history : History) : TextDoc :=
  { doc with history := history.sealStep }

/-- The comparison with the saved text, kept for this version. -/
def compared (doc : TextDoc) : TextDoc :=
  { doc with
    dirty := some (doc.version, decide (doc.rope ≠ doc.saved))
    dirty_right := by
      intro v answer h
      rw [Option.some.injEq, Prod.mk.injEq] at h
      exact ⟨Nat.le_of_eq h.1.symm, fun _ => h.2.symm⟩ }

/-- Whether the text differs from what was last loaded or saved, and the document
with the answer kept. -/
def isDirty (doc : TextDoc) : Bool × TextDoc :=
  match doc.dirty with
  | some (v, answer) =>
      if v = doc.version then (answer, doc) else (decide (doc.rope ≠ doc.saved), doc.compared)
  | none => (decide (doc.rope ≠ doc.saved), doc.compared)

/-- The text is now what the disk holds. -/
def markSaved (doc : TextDoc) (text : Rope) : TextDoc :=
  { doc with
    saved := text
    dirty := none
    dirty_right := by simp
    history := doc.history.sealStep }

/-- Replace everything with `text` from disk: history cleared, clean. -/
def reset (doc : TextDoc) (text : List Char) : TextDoc :=
  { doc with
    rope := text
    saved := text
    history := doc.history.clear
    version := doc.version + 1
    dirty := none
    dirty_right := by simp }

/-- Replace the text but keep it dirty against the disk copy. -/
def restoreUnsaved (doc : TextDoc) (text : List Char) : TextDoc :=
  { doc with
    rope := text
    version := doc.version + 1
    dirty := none
    dirty_right := by simp }

def sealStep (doc : TextDoc) : TextDoc := { doc with history := doc.history.sealStep }

/-- Where a touched line stands after a change of the lines `start..=endOld` into
`start..=endNew`. -/
def shift (start endOld endNew : Nat) (line : Nat) (high : Bool) : Nat :=
  if line < start then line
  else if line > endOld then ((line : Int) + ((endNew : Int) - (endOld : Int))).toNat
  else if high then endNew
  else start

/-- The touched lines so far, with those of one more change. -/
def widen (start endOld endNew : Nat) : Option (Nat × Nat) → Nat × Nat
  | none => (start, endNew)
  | some (lo, hi) =>
      (min (shift start endOld endNew lo false) start,
        max (shift start endOld endNew hi true) endNew)

/-- The text and the touched lines after one more change. -/
def applyChange (state : Rope × Option (Nat × Nat)) (change : Change) :
    Option (Rope × Option (Nat × Nat)) :=
  (change.apply state.1).map fun rope =>
    let start := Rope.charToLine state.1 change.offset
    let endOld := Rope.charToLine state.1 (change.offset + change.removed.length)
    let endNew := Rope.charToLine rope (change.offset + change.inserted.length)
    (rope, some (widen start endOld endNew state.2))

/-- The document with the new text, and what is reported about it. -/
def applied (doc : TextDoc) (tx : Transaction) (state : Rope × Option (Nat × Nat)) :
    TextDoc × Applied :=
  let lines := state.2.getD (0, 0)
  ({ doc with
      rope := state.1
      version := doc.version + 1
      dirty_right := fun v answer h => by
        have hle := (doc.dirty_right v answer h).1
        exact ⟨by omega, by omega⟩ },
    { tx := tx
      firstLine := lines.1
      lastLine := lines.2
      lineDelta := (Rope.lenLines state.1 : Int) - (Rope.lenLines doc.rope : Int)
      version := doc.version + 1 })

/-- Apply a transaction; `none` where it reaches outside the text. -/
def apply (doc : TextDoc) (tx : Transaction) : Option (TextDoc × Applied) :=
  (tx.changes.foldlM applyChange (doc.rope, none)).map (doc.applied tx)

/-- Apply an edit made by a view whose selection was `before` and becomes `after`. -/
def edit (doc : TextDoc) (tx : Transaction) (before after : Selection) (kind : EditKind)
    (nowMs : Nat) : Option (TextDoc × Option Applied) :=
  if tx.isEmpty then some (doc, none)
  else
    (doc.apply tx).map fun result =>
      ({ result.1 with
          history := result.1.history.record { tx, before, after, kind, timeMs := nowMs } },
        some result.2)

/-- Undo one step; what changed and the selection to put back. -/
def undo (doc : TextDoc) : Option (TextDoc × Option (Applied × Selection)) :=
  match doc.history.undoStep with
  | none => some (doc, none)
  | some (history, revision) =>
      (({ doc with history := history } : TextDoc).apply revision.tx.invert).map fun result =>
        (result.1, some (result.2, revision.before.clamp result.1.rope.length))

/-- Redo one step. -/
def redo (doc : TextDoc) : Option (TextDoc × Option (Applied × Selection)) :=
  match doc.history.redoStep with
  | none => some (doc, none)
  | some (history, revision) =>
      (({ doc with history := history } : TextDoc).apply revision.tx).map fun result =>
        (result.1, some (result.2, revision.after.clamp result.1.rope.length))

/-- The kept answer is the right one. -/
theorem isDirty_fst (doc : TextDoc) : doc.isDirty.1 = decide (doc.rope ≠ doc.saved) := by
  cases h : doc.dirty with
  | none => simp [isDirty, h]
  | some entry =>
      obtain ⟨v, answer⟩ := entry
      by_cases hv : v = doc.version
      · have hanswer := (doc.dirty_right v answer h).2 hv
        simp [isDirty, h, hv, hanswer]
      · simp [isDirty, h, hv]

/-- Asking changes nothing but the kept answer. -/
theorem isDirty_snd (doc : TextDoc) :
    doc.isDirty.2.rope = doc.rope ∧ doc.isDirty.2.saved = doc.saved ∧
      doc.isDirty.2.version = doc.version ∧ doc.isDirty.2.history = doc.history := by
  cases h : doc.dirty with
  | none => simp [isDirty, h, compared]
  | some entry =>
      by_cases hv : entry.1 = doc.version
      · simp [isDirty, h, hv]
      · simp [isDirty, h, hv, compared]

end TextDoc

end Throng.Editor
