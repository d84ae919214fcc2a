import Throng.Editor.DocLines
import Throng.Editor.Wrap
import Throng.Lib.Machine

/-!
# The wrap table over whole runs

A line's row count depends on that line alone, so the table of a text is its lines
counted one by one. The lines an edit reports are a patch of the document's lines, and
`Wrap::apply` splices the counts along that patch.
-/

namespace Throng.Editor

variable (unicodeWidth : Char → Option Nat)

namespace Wrap

/-- The rows of one line. -/
def countLine (width : Option Nat) (tab : Nat) (line : List Char) : Nat :=
  if width.isNone then 1
  else (rowStarts unicodeWidth (Lines.trimmed line) width tab).length % 4294967296

theorem count_eq (wrap : Wrap) {rope : Rope} {line : Nat} {text : List Char}
    (h : (Rope.lines rope)[line]? = some text) :
    wrap.count unicodeWidth rope line = countLine unicodeWidth wrap.width wrap.tab text := by
  have hlt : line < Rope.lenLines rope := (List.getElem?_eq_some_iff.1 h).1
  rw [count, Lines.lineText, Nat.min_eq_left (by omega), List.getD_eq_getElem?_getD, h, countLine]
  rfl

/-- Counting the lines of a stretch. -/
theorem map_count (wrap : Wrap) (rope : Rope) (first last : Nat)
    (hlast : last ≤ Rope.lenLines rope) :
    (List.range' first (last - first)).map (wrap.count unicodeWidth rope) =
      (((Rope.lines rope).take last).drop first).map
        (countLine unicodeWidth wrap.width wrap.tab) := by
  have hsize : ((Rope.lines rope).take last).length = last := List.length_take_of_le hlast
  apply List.ext_getElem?
  intro i
  rw [List.getElem?_map, List.getElem?_map, List.getElem?_drop]
  by_cases hi : first + i < last
  · have hrange : (List.range' first (last - first))[i]? = some (first + i) := by
      rw [List.getElem?_range' (by omega), Nat.one_mul]
    obtain ⟨text, htext⟩ : ∃ text, (Rope.lines rope)[first + i]? = some text :=
      ⟨_, List.getElem?_eq_getElem (Nat.lt_of_lt_of_le hi hlast)⟩
    rw [hrange, List.getElem?_take_of_lt hi, htext, Option.map_some, Option.map_some,
      count_eq unicodeWidth wrap htext]
  · rw [List.getElem?_eq_none (by rw [List.length_range']; omega),
      List.getElem?_eq_none (by rw [hsize]; omega)]
    rfl

/-- The table counted from scratch. -/
theorem counts_new (rope : Rope) (width : Option Nat) (tab : Nat) :
    (new unicodeWidth rope width tab).counts =
      (Rope.lines rope).map (countLine unicodeWidth width tab) := by
  rw [new, rebuild, List.range_eq_range']
  have h := map_count unicodeWidth ⟨width, tab, [], [], false⟩ rope 0 (Rope.lenLines rope)
    (Nat.le_refl _)
  rw [Nat.sub_zero] at h
  dsimp only
  rw [h, Rope.lenLines, List.take_length, List.drop_zero]

/-- The splice follows the patch. -/
theorem spliced_eq {wrap : Wrap} {rope rope' : Rope} {applied : Applied} {oldLast : Nat}
    (hcounts : wrap.counts = (Rope.lines rope).map (countLine unicodeWidth wrap.width wrap.tab))
    (hpatch : Patch (Rope.lines rope) (Rope.lines rope') applied.firstLine oldLast
      applied.lastLine)
    (hdelta : applied.lineDelta = (Rope.lenLines rope' : Int) - (Rope.lenLines rope : Int)) :
    wrap.spliced unicodeWidth rope' applied =
      some ((Rope.lines rope').map (countLine unicodeWidth wrap.width wrap.tab)) := by
  have hfirst := hpatch.first_le_old
  have hold := hpatch.old_lt
  have hnew := hpatch.new_lt
  have hlen := hpatch.length_eq
  have hsize : wrap.counts.length = (Rope.lines rope).length := by
    rw [hcounts, List.length_map]
  have hlast : (applied.lastLine : Int) - applied.lineDelta = oldLast := by
    rw [hdelta, Rope.lenLines, Rope.lenLines]
    omega
  have hstop : max applied.firstLine (min (max (max ((applied.lastLine : Int) - applied.lineDelta)
      ((applied.firstLine : Int) - 1) + 1) 0).toNat wrap.counts.length) = oldLast + 1 := by
    rw [hlast]
    omega
  have hfresh : min (applied.lastLine + 1) (Rope.lenLines rope') = applied.lastLine + 1 :=
    Nat.min_eq_left hnew
  rw [spliced, if_pos (by omega)]
  dsimp only
  rw [hstop, hfresh, Nat.min_eq_left (by omega : applied.firstLine ≤ wrap.counts.length),
    map_count unicodeWidth wrap rope' _ _ hnew, hcounts]
  have hsplice := (hpatch.map (countLine unicodeWidth wrap.width wrap.tab)).eq_splice
  rw [← List.map_take (l := Rope.lines rope'), ← List.map_drop (i := applied.firstLine)] at hsplice
  exact congrArg some hsplice.symm

/-- Splicing along the patch never asks for the rebuild. -/
theorem apply_of_spliced {wrap : Wrap} {rope : Rope} {applied : Applied} {counts : List Nat}
    (h : wrap.spliced unicodeWidth rope applied = some counts)
    (hlen : counts.length = Rope.lenLines rope) :
    wrap.apply unicodeWidth rope applied =
      some { wrap with counts := counts, rowsBeforeValid := false } := by
  rw [apply, h, Option.map_some]
  simp [hlen]

end Wrap

/-! ## The machine -/

namespace WrapRun

structure Sys where
  doc : TextDoc
  wrap : Wrap

inductive Act
  | edit (tx : Transaction) (before after : Selection) (kind : EditKind) (nowMs : Nat)
  | undo
  | redo
  | sealStep

/-- The document after the action, and what it reports. -/
def touched (doc : TextDoc) : Act → Option (TextDoc × Option Applied)
  | .edit tx before after kind nowMs => doc.edit tx before after kind nowMs
  | .undo => doc.undo.map fun result => (result.1, result.2.map Prod.fst)
  | .redo => doc.redo.map fun result => (result.1, result.2.map Prod.fst)
  | .sealStep => some (doc.sealStep, none)

/-- The table is carried along with what was reported. -/
def follow (wrap : Wrap) (result : TextDoc × Option Applied) : Option Sys :=
  match result.2 with
  | none => some ⟨result.1, wrap⟩
  | some applied => (wrap.apply unicodeWidth result.1.rope applied).map fun wrap =>
      ⟨result.1, wrap⟩

def machine : Machine Sys Act where
  init s := ∃ text width tab, '\r' ∉ text ∧
    s = ⟨TextDoc.new text, Wrap.new unicodeWidth text width tab⟩
  step s a := (touched s.doc a).bind (follow unicodeWidth s.wrap)

/-- The edits bring no CR into the text. -/
def Plain (_ : Sys) : Act → Prop
  | .edit tx _ _ _ _ => tx.Plain
  | _ => True

instance : DecidableRel Plain := fun s a => by
  cases a <;> simp only [Plain] <;> infer_instance

/-- The table is that of the text, and the next action will be followed without the
rebuild. -/
structure WrapExact (s : Sys) : Prop where
  counts : s.wrap.counts = (Wrap.new unicodeWidth s.doc.rope s.wrap.width s.wrap.tab).counts
  follows : ∀ a doc applied, Plain s a → touched s.doc a = some (doc, some applied) →
    ∃ counts, s.wrap.spliced unicodeWidth doc.rope applied = some counts ∧
      counts.length = Rope.lenLines doc.rope

/-- No CR in the text, nor in anything the history could put back. -/
structure NoCr (doc : TextDoc) : Prop where
  rope : '\r' ∉ doc.rope
  history : doc.history.All fun revision => revision.tx.Plain

/-- What is reported about the step from `doc` to `doc'` is right. -/
structure Reports (doc doc' : TextDoc) (report : Option Applied) : Prop where
  noCr : NoCr doc'
  same : report = none → doc'.rope = doc.rope
  patch : ∀ applied ∈ report, ∃ oldLast, Patch (Rope.lines doc.rope) (Rope.lines doc'.rope)
    applied.firstLine oldLast applied.lastLine
  delta : ∀ applied ∈ report, applied.lineDelta =
    (Rope.lenLines doc'.rope : Int) - (Rope.lenLines doc.rope : Int)

theorem NoCr.reports_none {doc : TextDoc} (h : NoCr doc) : Reports doc doc none where
  noCr := h
  same _ := rfl
  patch _ hmem := absurd hmem (Option.not_mem_none _)
  delta _ hmem := absurd hmem (Option.not_mem_none _)

theorem NoCr.reports_apply {doc doc' : TextDoc} {tx : Transaction} {applied : Applied}
    (h : NoCr doc) (htx : tx.Plain) (happ : doc.apply tx = some (doc', applied)) :
    Reports doc doc' (some applied) := by
  obtain ⟨hrope, hpatch, hdelta⟩ := TextDoc.patch_apply h.rope htx happ
  obtain ⟨state, -, hstate⟩ := Option.map_eq_some_iff.1 happ
  rw [TextDoc.applied, Prod.mk.injEq] at hstate
  refine ⟨⟨hrope, ?_⟩, fun hnone => absurd hnone (Option.some_ne_none _), ?_, ?_⟩
  · rw [← hstate.1]
    exact h.history
  · intro applied' hmem
    obtain rfl := Option.mem_some_iff.1 hmem
    exact hpatch
  · intro applied' hmem
    obtain rfl := Option.mem_some_iff.1 hmem
    exact hdelta

/-- An action reports what it did to the text. -/
theorem NoCr.touched {doc doc' : TextDoc} {a : Act} {report : Option Applied} (h : NoCr doc)
    {wrap : Wrap} (hok : Plain ⟨doc, wrap⟩ a) (htouched : touched doc a = some (doc', report)) :
    Reports doc doc' report := by
  cases a with
  | edit tx before after kind nowMs =>
      rw [WrapRun.touched, TextDoc.edit] at htouched
      split at htouched
      · rw [Option.some.injEq, Prod.mk.injEq] at htouched
        obtain ⟨rfl, rfl⟩ := htouched
        exact h.reports_none
      · obtain ⟨⟨doc₁, applied⟩, happ, hpair⟩ := Option.map_eq_some_iff.1 htouched
        rw [Prod.mk.injEq] at hpair
        obtain ⟨rfl, rfl⟩ := hpair
        obtain ⟨hnocr, hsame, hpatch, hdelta⟩ := h.reports_apply hok happ
        refine ⟨⟨hnocr.rope, hnocr.history.record hok ?_⟩, hsame, hpatch, hdelta⟩
        intro last hlast change hchange
        rcases List.mem_append.1 hchange with hchange | hchange
        · exact hlast change hchange
        · exact hok change hchange
  | undo =>
      obtain ⟨⟨doc₁, out⟩, hundo, hpair⟩ := Option.map_eq_some_iff.1 htouched
      rw [Prod.mk.injEq] at hpair
      obtain ⟨rfl, rfl⟩ := hpair
      rw [TextDoc.undo] at hundo
      cases hstep : doc.history.undoStep with
      | none =>
          simp only [hstep, Option.some.injEq, Prod.mk.injEq] at hundo
          obtain ⟨rfl, rfl⟩ := hundo
          exact h.reports_none
      | some pair =>
          obtain ⟨hhistory, hrevision⟩ := h.history.undoStep hstep
          simp only [hstep] at hundo
          obtain ⟨⟨doc₂, applied⟩, happ, hpair⟩ := Option.map_eq_some_iff.1 hundo
          rw [Prod.mk.injEq] at hpair
          obtain ⟨rfl, rfl⟩ := hpair
          have hback : NoCr { doc with history := pair.1 } := ⟨h.rope, hhistory⟩
          obtain ⟨hnocr, hsame, hpatch, hdelta⟩ := hback.reports_apply hrevision.invert happ
          exact ⟨hnocr, hsame, hpatch, hdelta⟩
  | redo =>
      obtain ⟨⟨doc₁, out⟩, hredo, hpair⟩ := Option.map_eq_some_iff.1 htouched
      rw [Prod.mk.injEq] at hpair
      obtain ⟨rfl, rfl⟩ := hpair
      rw [TextDoc.redo] at hredo
      cases hstep : doc.history.redoStep with
      | none =>
          simp only [hstep, Option.some.injEq, Prod.mk.injEq] at hredo
          obtain ⟨rfl, rfl⟩ := hredo
          exact h.reports_none
      | some pair =>
          obtain ⟨hhistory, hrevision⟩ := h.history.redoStep hstep
          simp only [hstep] at hredo
          obtain ⟨⟨doc₂, applied⟩, happ, hpair⟩ := Option.map_eq_some_iff.1 hredo
          rw [Prod.mk.injEq] at hpair
          obtain ⟨rfl, rfl⟩ := hpair
          have hback : NoCr { doc with history := pair.1 } := ⟨h.rope, hhistory⟩
          obtain ⟨hnocr, hsame, hpatch, hdelta⟩ := hback.reports_apply hrevision happ
          exact ⟨hnocr, hsame, hpatch, hdelta⟩
  | sealStep =>
      rw [WrapRun.touched, Option.some.injEq, Prod.mk.injEq] at htouched
      obtain ⟨rfl, rfl⟩ := htouched
      obtain ⟨-, hsame, hpatch, hdelta⟩ := h.reports_none
      exact ⟨⟨h.rope, h.history⟩, hsame, hpatch, hdelta⟩

/-- The table is that of the text, which has no CR. -/
structure Inv (s : Sys) : Prop where
  noCr : NoCr s.doc
  counts : s.wrap.counts =
    (Rope.lines s.doc.rope).map (Wrap.countLine unicodeWidth s.wrap.width s.wrap.tab)

variable {unicodeWidth}

theorem Inv.spliced {s : Sys} (h : Inv unicodeWidth s) {a : Act} (hok : Plain s a)
    {doc : TextDoc} {applied : Applied} (htouched : touched s.doc a = some (doc, some applied)) :
    s.wrap.spliced unicodeWidth doc.rope applied =
      some ((Rope.lines doc.rope).map
        (Wrap.countLine unicodeWidth s.wrap.width s.wrap.tab)) := by
  have hreports := h.noCr.touched hok htouched
  obtain ⟨oldLast, hpatch⟩ := hreports.patch applied rfl
  exact Wrap.spliced_eq unicodeWidth h.counts hpatch (hreports.delta applied rfl)

theorem inv_step {s s' : Sys} {a : Act} (h : Inv unicodeWidth s) (hok : Plain s a)
    (hstep : (machine unicodeWidth).step s a = some s') : Inv unicodeWidth s' := by
  obtain ⟨⟨doc, report⟩, htouched, hfollow⟩ := Option.bind_eq_some_iff.1 hstep
  have hreports := h.noCr.touched hok htouched
  cases report with
  | none =>
      rw [follow, Option.some.injEq] at hfollow
      subst hfollow
      refine ⟨hreports.noCr, ?_⟩
      dsimp only
      rw [hreports.same rfl]
      exact h.counts
  | some applied =>
      have hspliced := h.spliced hok htouched
      have happly := Wrap.apply_of_spliced unicodeWidth hspliced (List.length_map _)
      simp only [follow, happly, Option.map_some, Option.some.injEq] at hfollow
      subst hfollow
      exact ⟨hreports.noCr, rfl⟩

theorem Inv.wrapExact {s : Sys} (h : Inv unicodeWidth s) : WrapExact unicodeWidth s where
  counts := by
    rw [Wrap.counts_new]
    exact h.counts
  follows := by
    intro a doc applied hok htouched
    exact ⟨_, h.spliced hok htouched, List.length_map _⟩

/-- Over every run of edits, undos and redos, each followed by the table, the table is
that of the text. -/
theorem wrapExact_of_reach {s : Sys} (h : (machine unicodeWidth).Reach Plain s) :
    WrapExact unicodeWidth s := by
  have hinv : Inv unicodeWidth s := by
    refine h.invariant ?_ fun s a s' hs hok hstep => inv_step hs hok hstep
    rintro s ⟨text, width, tab, htext, rfl⟩
    refine ⟨⟨htext, ?_⟩, Wrap.counts_new unicodeWidth text width tab⟩
    rintro revision (hmem | hmem) <;> cases hmem
  exact hinv.wrapExact

def narrow (_ : Char) : Option Nat := some 1

def wrapped (text : List Char) : Sys :=
  ⟨TextDoc.new text, Wrap.new narrow text (some 5) 4⟩

/-- A change that joins two lines and one that makes two of the next, then undone. -/
theorem wrapExact_joined : ∃ s, (machine narrow).Reach Plain s ∧
    s.doc.rope = ['a', '\n', 'b', ' ', 'c'] ∧ WrapExact narrow s := by
  have hinit : (machine narrow).Reach Plain (wrapped ['a', '\n', 'b', ' ', 'c']) :=
    .init ⟨_, some 5, 4, by decide, rfl⟩
  obtain ⟨s, h, hs⟩ := hinit.exists_of_exec
    [.edit ⟨[⟨3, [' '], ['\n']⟩, ⟨1, ['\n'], []⟩]⟩ (Selection.point 0) (Selection.point 0) .other 0,
      .undo]
    (fun s => s.doc.rope = ['a', '\n', 'b', ' ', 'c'])
    (by decide)
  exact ⟨s, h, of_decide_eq_true hs, wrapExact_of_reach h⟩

end WrapRun

end Throng.Editor
