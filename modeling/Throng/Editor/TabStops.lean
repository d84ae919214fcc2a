import Mathlib.Data.Nat.ModEq
import Throng.Editor.Columns
import Throng.Editor.CommandsRun
import Throng.Editor.Indenting

/-!
# Tab at bare carets

Each caret gets the spaces that take it from its column to the next stop, and that column is
the one it had before anything was put in. Behind a caret on the same line it is still right,
up to whole stops, if there is a tab in between or the caret before stood at a stop already.
-/

namespace Throng.Editor

/-- The position is between a CR and its LF. -/
def Rope.SplitsCrlf (rope : Rope) (pos : Nat) : Prop :=
  (rope.take pos).getLast? = some '\r' ∧ (rope.drop pos).head? = some '\n'

instance (rope : Rope) (pos : Nat) : Decidable (rope.SplitsCrlf pos) :=
  inferInstanceAs (Decidable (_ ∧ _))

namespace Commands

open Lines (columnAt columnAfter runsOn)

variable {unicodeWidth : Char → Option Nat} {doc doc' : TextDoc} {selection : Selection}
  {style : IndentStyle} {edited : Edited}

/-- A caret that has another one after it on its line with no tab in between, or is between
a CR and its LF, stands at a stop. -/
def Settled (unicodeWidth : Char → Option Nat) (rope : Rope) (style : IndentStyle)
    (carets : List Range) : Prop :=
  ∀ caret ∈ carets, (rope.SplitsCrlf caret.head ∨ ∃ later ∈ carets, caret.head < later.head ∧
      Lines.lineOf rope later.head = Lines.lineOf rope caret.head ∧
        '\t' ∉ (rope.take later.head).drop caret.head ∧ ¬ rope.SplitsCrlf later.head) →
    columnAt unicodeWidth style.width rope caret.head % max style.width 1 = 0

instance (rope : Rope) (carets : List Range) :
    Decidable (Settled unicodeWidth rope style carets) :=
  inferInstanceAs (Decidable (∀ caret ∈ carets, _))

/-- At most one width of spaces is put in at each caret and nothing else changes, and each
caret then stands after its spaces, at a stop. -/
structure Tabbed (unicodeWidth : Char → Option Nat) (doc : TextDoc) (selection : Selection)
    (style : IndentStyle) (doc' : TextDoc) (edited : Edited) (n : Range → Nat) : Prop where
  few : ∀ caret ∈ selection.ranges, n caret ≤ max style.width 1
  replaced : Replaced (fun _ caret => (List.replicate (n caret) ' ', n caret)) doc
    selection doc' edited
  stops : ∀ caret ∈ edited.selection.ranges,
    columnAt unicodeWidth style.width doc'.rope caret.head % max style.width 1 = 0

/-! ## One caret -/

section

variable {tab col col' : Nat} {text rest : List Char}

theorem add_stop_iff {width : Nat} (hwidth : 0 < width) (a c : Nat) :
    (a + (width - c % width)) % width = 0 ↔ a % width = c % width := by
  have hlt := Nat.mod_lt c hwidth
  have hlt' := Nat.mod_lt a hwidth
  rw [← Nat.mod_add_mod]
  rcases Nat.lt_or_ge (a % width + (width - c % width)) width with hless | hge
  · rw [Nat.mod_eq_of_lt hless]
    omega
  · rw [Nat.mod_eq_sub_mod hge, Nat.mod_eq_of_lt (by omega)]
    omega

/-- From the stop of the caret before, a caret comes to a stop when that one stood at a stop
all along, and whenever its column does not hang on it. -/
theorem column_stop (hcol' : col' % max tab 1 = 0) :
    (columnAfter unicodeWidth tab col' text [' '] + (max tab 1 -
        columnAfter unicodeWidth tab col text rest % max tab 1)) % max tab 1 = 0 ↔
      if text.getLast? = some '\r' ∧ rest.head? = some '\n' then
        columnAfter unicodeWidth tab col text rest % max tab 1 = 0
      else runsOn text rest = true → col % max tab 1 = 0 := by
  rw [add_stop_iff (show 0 < max tab 1 by omega)]
  split
  · next hsplit =>
      rw [Lines.columnAfter_of_cr hsplit.1 (by decide), Nat.zero_mod]
      exact eq_comm
  · next hsplit =>
      have hrest : columnAfter unicodeWidth tab col' text [' '] =
          columnAfter unicodeWidth tab col' text rest := by
        refine Lines.columnAfter_congr ?_ _
        rw [not_and_or] at hsplit
        refine hsplit.imp id fun hhead => ?_
        exact iff_of_false (by decide) hhead
      rw [hrest]
      cases hruns : runsOn text rest with
      | false =>
          rw [Lines.columnAfter_of_not_runsOn hruns col' col]
          exact iff_of_true rfl fun h => absurd h Bool.false_ne_true
      | true =>
          have hapart := @Lines.columnAfter_of_runsOn unicodeWidth tab text rest hruns col' col
          have hmod : (columnAfter unicodeWidth tab col' text rest + col) % max tab 1 =
              columnAfter unicodeWidth tab col text rest % max tab 1 := by
            rw [hapart, Nat.add_mod, hcol', Nat.add_zero, Nat.mod_mod]
          rw [← hmod]
          constructor
          · intro heq _
            have hcancel : Nat.ModEq (max tab 1) (columnAfter unicodeWidth tab col' text rest + 0)
                (columnAfter unicodeWidth tab col' text rest + col) := heq
            have hcol := Nat.ModEq.add_left_cancel' _ hcancel
            rw [Nat.ModEq, Nat.zero_mod] at hcol
            exact hcol.symm
          · intro hcol
            rw [Nat.add_mod, hcol rfl, Nat.add_zero, Nat.mod_mod]

end

/-! ## The text before a caret -/

section

variable {f : Nat → Range → List Char × Nat} {i : Nat} {caret next : Range}

theorem front_zero (rope : Rope) (selection : Selection) (caret : Range) :
    front f rope selection 0 caret = rope.take caret.lower := rfl

/-- Before the next range stands what is before one, what replaces it, and what is between. -/
theorem front_succ (hnormal : Selection.Normal selection.ranges)
    (hcaret : selection.ranges[i]? = some caret) (hnext : selection.ranges[i + 1]? = some next)
    (rope : Rope) : front f rope selection (i + 1) next =
      front f rope selection i caret ++ (f i caret).1 ++
        (rope.take next.lower).drop caret.upper := by
  have hr : (replacements f selection)[i]? = some (caret, f i caret) := by
    rw [replacements, List.getElem?_mapIdx, hcaret]
    rfl
  have hsplice : (splicesOf f selection)[i]? =
      some ⟨caret.lower, caret.upper, (f i caret).1⟩ := by
    rw [splicesOf, editsOf, List.getElem?_map, List.getElem?_map, hr]
    rfl
  have hself := caret.lower_le_upper
  have hle : caret.upper ≤ next.lower := by
    obtain ⟨hi, rfl⟩ := List.getElem?_eq_some_iff.mp hcaret
    obtain ⟨hj, rfl⟩ := List.getElem?_eq_some_iff.mp hnext
    have hfollows := List.pairwise_iff_getElem.mp hnormal i (i + 1) hi hj (Nat.lt_succ_self i)
    rw [Range.Follows] at hfollows
    omega
  have hmin : min caret.lower next.lower = caret.lower := Nat.min_eq_left (by omega)
  rw [front, front, List.take_add_one, hsplice, Option.toList_some]
  rw [@Splice.weave_append _ _ caret.lower _ _ _ (Nat.zero_le _), List.take_take,
    hmin, Splice.weave, Splice.weave]
  · dsimp only
    rw [List.take_take, hmin, List.drop_eq_nil_of_le (List.length_take_le _ _), List.nil_append,
      List.append_assoc]
  · intro a ha
    rw [splicesOf, ← List.map_take] at ha
    obtain ⟨edit, hmem, rfl⟩ := List.mem_map.mp ha
    have horder := pairwise_editsOf (f := f) hnormal
    rw [editsOf_eq f hr] at horder
    have hbefore := (List.pairwise_append.mp horder).2.2 edit hmem _ List.mem_cons_self
    obtain ⟨r, -, hedit⟩ := List.mem_map.mp (List.mem_of_mem_take hmem)
    have hspan := r.1.lower_le_upper
    rw [Before] at hbefore
    refine ⟨?_, show edit.2.1 ≤ caret.lower by dsimp only at hbefore; omega⟩
    rw [← hedit]
    exact hspan
  · intro a ha
    obtain rfl := List.mem_singleton.mp ha
    exact Nat.le_refl _

end

/-! ## The carets -/

section

variable (hnormal : Selection.Normal selection.ranges)
  (hwithin : ∀ range ∈ selection.ranges, range.upper ≤ doc.rope.length)
  (hempty : allEmpty selection = true) (hspace : unicodeWidth ' ' = some 1)

/-- The spaces Tab puts in at a caret. -/
def spacesAt (unicodeWidth : Char → Option Nat) (rope : Rope) (style : IndentStyle)
    (caret : Range) : Nat :=
  max style.width 1 - columnAt unicodeWidth style.width rope caret.head % max style.width 1

/-- What is put in at a caret, and how far in the caret goes. -/
def spaced (unicodeWidth : Char → Option Nat) (rope : Rope) (style : IndentStyle) (_ : Nat)
    (caret : Range) : List Char × Nat :=
  (List.replicate (spacesAt unicodeWidth rope style caret) ' ',
    spacesAt unicodeWidth rope style caret)

/-- The column in which a caret stands afterwards. -/
def newColumn (unicodeWidth : Char → Option Nat) (rope : Rope) (selection : Selection)
    (style : IndentStyle) (i : Nat) (caret : Range) : Nat :=
  columnAfter unicodeWidth style.width 0
    (front (spaced unicodeWidth rope style) rope selection i caret) [' '] +
      spacesAt unicodeWidth rope style caret

theorem spacesAt_pos (rope : Rope) (style : IndentStyle) (caret : Range) :
    0 < spacesAt unicodeWidth rope style caret := by
  have hlt := Nat.mod_lt (columnAt unicodeWidth style.width rope caret.head)
    (show 0 < max style.width 1 by omega)
  rw [spacesAt]
  omega

theorem bare_of_allEmpty (hempty : allEmpty selection = true) {caret : Range}
    (hcaret : caret ∈ selection.ranges) : caret.lower = caret.head ∧ caret.upper = caret.head := by
  have hbare := List.all_eq_true.mp hempty caret hcaret
  rw [Range.isEmpty, decide_eq_true_eq] at hbare
  rw [Range.lower, Range.upper, hbare]
  exact ⟨Nat.min_self _, Nat.max_self _⟩

include hspace in
/-- Text, then at least one space, whatever follows. -/
theorem columnAfter_spaced (front rest : List Char) {n : Nat} (hn : 0 < n) (tab : Nat) :
    columnAfter unicodeWidth tab 0 (front ++ List.replicate n ' ') rest =
      columnAfter unicodeWidth tab 0 front [' '] + n := by
  obtain ⟨k, rfl⟩ : ∃ k, n = k + 1 := ⟨n - 1, by omega⟩
  rw [Lines.columnAfter_append, Lines.columnAfter_spaces hspace]
  refine congrArg (· + (k + 1)) (Lines.columnAfter_congr (.inr ?_) 0)
  rw [List.replicate_succ, List.cons_append, List.head?_cons, List.head?_cons]

theorem replacements_getElem? {f : Nat → Range → List Char × Nat} {i : Nat} {caret : Range}
    (hcaret : selection.ranges[i]? = some caret) :
    (replacements f selection)[i]? = some (caret, f i caret) := by
  rw [replacements, List.getElem?_mapIdx, hcaret]
  rfl

include hspace in
/-- A caret stands after its spaces in the column that they lead to. -/
theorem columnAt_place
    (h : Replaced (spaced unicodeWidth doc.rope style) doc selection doc' edited) {i : Nat}
    {caret : Range} (hcaret : selection.ranges[i]? = some caret) :
    columnAt unicodeWidth style.width doc'.rope
        ((front (spaced unicodeWidth doc.rope style) doc.rope selection i caret).length +
          spacesAt unicodeWidth doc.rope style caret) =
      newColumn unicodeWidth doc.rope selection style i caret := by
  have hplaced := h.placed i caret _ _ (replacements_getElem? hcaret)
  have hlen : (front (spaced unicodeWidth doc.rope style) doc.rope selection i caret ++
      List.replicate (spacesAt unicodeWidth doc.rope style caret) ' ').length =
        (front (spaced unicodeWidth doc.rope style) doc.rope selection i caret).length +
          spacesAt unicodeWidth doc.rope style caret := by
    rw [List.length_append, List.length_replicate]
  rw [Lines.columnAt_eq, hplaced, List.take_left' hlen, List.drop_left' hlen,
    columnAfter_spaced hspace _ _ (spacesAt_pos _ _ _), newColumn]
  rw [hplaced, List.length_append, hlen]
  exact Nat.le_add_right _ _

/-- The first caret comes to a stop, unless it parts a CR from its LF. -/
theorem newColumn_zero {rope : Rope} {caret : Range} (hlower : caret.lower = caret.head)
    (hlen : caret.head ≤ rope.length) :
    newColumn unicodeWidth rope selection style 0 caret % max style.width 1 = 0 ↔
      (rope.SplitsCrlf caret.head →
        columnAt unicodeWidth style.width rope caret.head % max style.width 1 = 0) := by
  rw [newColumn, front_zero, hlower, spacesAt, Lines.columnAt_eq rope hlen,
    column_stop (Nat.zero_mod _), Nat.zero_mod]
  split
  · next hsplit => exact ⟨fun h _ => h, fun h => h hsplit⟩
  · next hsplit => exact ⟨fun _ h => absurd h hsplit, fun _ _ => rfl⟩

include hspace in
/-- A caret comes to a stop after one that did, when the one before stood at a stop already or
its column does not hang on it. -/
theorem newColumn_succ (hnormal : Selection.Normal selection.ranges) {rope : Rope} {i : Nat}
    {caret next : Range} (hcaret : selection.ranges[i]? = some caret)
    (hnext : selection.ranges[i + 1]? = some next)
    (hbare : caret.upper = caret.head) (hbare' : next.lower = next.head)
    (hlt : caret.head < next.head) (hlen : next.head ≤ rope.length)
    (hstop : newColumn unicodeWidth rope selection style i caret % max style.width 1 = 0) :
    newColumn unicodeWidth rope selection style (i + 1) next % max style.width 1 = 0 ↔
      if rope.SplitsCrlf next.head then
        columnAt unicodeWidth style.width rope next.head % max style.width 1 = 0
      else '\t' ∉ (rope.take next.head).drop caret.head ∧
          Lines.lineOf rope next.head = Lines.lineOf rope caret.head →
        columnAt unicodeWidth style.width rope caret.head % max style.width 1 = 0 := by
  obtain ⟨stretch, hstretch⟩ : ∃ stretch, stretch = (rope.take next.head).drop caret.head :=
    ⟨_, rfl⟩
  have htake : rope.take next.head = rope.take caret.head ++ stretch := by
    have hjoin := List.take_append_drop caret.head (rope.take next.head)
    rw [List.take_take, Nat.min_eq_left (by omega)] at hjoin
    rw [hstretch, hjoin]
  have hdrop : rope.drop caret.head = stretch ++ rope.drop next.head := by
    have hjoin := List.take_append_drop next.head rope
    rw [htake, List.append_assoc] at hjoin
    conv_lhs => rw [← hjoin]
    exact List.drop_left' (List.length_take_of_le (by omega))
  have hcolumn : columnAt unicodeWidth style.width rope next.head =
      columnAfter unicodeWidth style.width (columnAt unicodeWidth style.width rope caret.head)
        stretch (rope.drop next.head) := by
    rw [Lines.columnAt_eq rope hlen, htake, Lines.columnAfter_append, ← hdrop,
      ← Lines.columnAt_eq rope (by omega)]
  have hnew : newColumn unicodeWidth rope selection style (i + 1) next =
      columnAfter unicodeWidth style.width (newColumn unicodeWidth rope selection style i caret)
        stretch [' '] + spacesAt unicodeWidth rope style next := by
    rw [newColumn, front_succ hnormal hcaret hnext, hbare, hbare', ← hstretch,
      Lines.columnAfter_append, spaced, columnAfter_spaced hspace _ _ (spacesAt_pos _ _ _)]
    rfl
  have hlast : stretch.getLast? = (rope.take next.head).getLast? := by
    rw [hstretch, List.getLast?_drop, if_neg]
    rw [List.length_take_of_le hlen]
    omega
  have hruns := Lines.runsOn_iff rope (Nat.le_of_lt hlt) hlen
  rw [← hstretch] at hruns
  rw [hnew, spacesAt, hcolumn, column_stop hstop, hlast, hruns, Lines.lineOf, Lines.lineOf,
    Nat.min_eq_left hlen, Nat.min_eq_left (show caret.head ≤ rope.length by omega), ← hstretch]
  rfl

include hnormal hempty in
theorem head_lt {i j : Nat} {caret later : Range} (hcaret : selection.ranges[i]? = some caret)
    (hlater : selection.ranges[j]? = some later) (hlt : i < j) : caret.head < later.head := by
  have hbare := bare_of_allEmpty hempty (List.mem_of_getElem? hcaret)
  have hbare' := bare_of_allEmpty hempty (List.mem_of_getElem? hlater)
  obtain ⟨hi, rfl⟩ := List.getElem?_eq_some_iff.mp hcaret
  obtain ⟨hj, rfl⟩ := List.getElem?_eq_some_iff.mp hlater
  have hfollows := List.pairwise_iff_getElem.mp hnormal i j hi hj hlt
  rw [Range.Follows, Range.isEmpty_eq_false, Range.isEmpty_eq_false] at hfollows
  omega

/-- A caret does not part a CR from its LF when a later one is on its line. -/
theorem not_splitsCrlf {rope : Rope} {pos next later : Nat} (hle : pos ≤ next)
    (hlt : next < later) (hlen : later ≤ rope.length)
    (htab : '\t' ∉ (rope.take later).drop pos)
    (hline : Lines.lineOf rope later = Lines.lineOf rope pos) : ¬ rope.SplitsCrlf next := by
  rintro ⟨-, hlf⟩
  rw [Lines.lineOf, Lines.lineOf, Nat.min_eq_left hlen, Nat.min_eq_left (by omega)] at hline
  have hruns := (Lines.runsOn_iff rope (by omega) hlen).mpr ⟨htab, hline⟩
  have hmem : '\n' ∈ (rope.take later).drop pos := by
    refine List.mem_of_getElem? (i := next - pos) ?_
    rw [List.getElem?_drop, List.getElem?_take_of_lt (by omega), Nat.add_sub_cancel' hle,
      ← List.head?_drop, hlf]
  exact absurd (Lines.isBreak_of_runsOn hruns hmem) (by decide)

/-- The caret after `caret` is on its line too, and with no tab in between, when a later one
is. -/
theorem next_on_line {rope : Rope} {pos next later : Nat} (hlt : pos < next)
    (hnext : next = later ∨ next < later) (hlen : later ≤ rope.length)
    (hline : Lines.lineOf rope later = Lines.lineOf rope pos)
    (htab : '\t' ∉ (rope.take later).drop pos) (hnot : ¬ rope.SplitsCrlf later) :
    ¬ rope.SplitsCrlf next ∧ '\t' ∉ (rope.take next).drop pos ∧
      Lines.lineOf rope next = Lines.lineOf rope pos := by
  rcases hnext with rfl | hless
  · exact ⟨hnot, htab, hline⟩
  · refine ⟨not_splitsCrlf (Nat.le_of_lt hlt) hless hlen htab hline, fun hmem => htab ?_, ?_⟩
    · rw [← Nat.min_eq_left (Nat.le_of_lt hless), ← List.take_take] at hmem
      exact ((List.take_sublist _ _).drop _).subset hmem
    · have hlow := Lines.lineOf_mono rope (Nat.le_of_lt hlt)
      have hhigh := Lines.lineOf_mono rope (Nat.le_of_lt hless)
      omega

include hnormal hwithin hempty hspace in
/-- Every caret comes to a stop exactly when the carets stood as they have to. -/
theorem newColumns_iff :
    (∀ i caret, selection.ranges[i]? = some caret →
      newColumn unicodeWidth doc.rope selection style i caret % max style.width 1 = 0) ↔
        Settled unicodeWidth doc.rope style selection.ranges := by
  have hbare {i : Nat} {caret : Range} (hcaret : selection.ranges[i]? = some caret) :
      caret.lower = caret.head ∧ caret.upper = caret.head ∧ caret.head ≤ doc.rope.length := by
    obtain ⟨hlower, hupper⟩ := bare_of_allEmpty hempty (List.mem_of_getElem? hcaret)
    exact ⟨hlower, hupper, hupper ▸ hwithin caret (List.mem_of_getElem? hcaret)⟩
  have hzero {caret : Range} (hcaret : selection.ranges[0]? = some caret) :=
    @newColumn_zero unicodeWidth selection style doc.rope caret (hbare hcaret).1 (hbare hcaret).2.2
  have hsucc {i : Nat} {caret next : Range} (hcaret : selection.ranges[i]? = some caret)
      (hnext : selection.ranges[i + 1]? = some next) :=
    @newColumn_succ unicodeWidth selection style hspace hnormal doc.rope i caret next hcaret hnext
      (hbare hcaret).2.1 (hbare hnext).1 (head_lt hnormal hempty hcaret hnext (Nat.lt_succ_self i))
      (hbare hnext).2.2
  have hexists {i j : Nat} (hij : i ≤ j) (hj : j < selection.ranges.length) :
      ∃ caret, selection.ranges[i]? = some caret :=
    ⟨_, List.getElem?_eq_getElem (Nat.lt_of_le_of_lt hij hj)⟩
  constructor
  · intro hstops caret hcaret hor
    obtain ⟨i, hi⟩ := List.getElem?_of_mem hcaret
    rcases hor with hsplit | ⟨later, hlater, hlt, hline, htab, hnot⟩
    · cases i with
      | zero => exact (hzero hi).mp (hstops 0 caret hi) hsplit
      | succ i =>
          obtain ⟨prev, hprev⟩ := hexists (Nat.le_succ i) (List.getElem?_eq_some_iff.mp hi).1
          have hcond := (hsucc hprev hi (hstops i prev hprev)).mp (hstops (i + 1) caret hi)
          rwa [if_pos hsplit] at hcond
    · obtain ⟨j, hj⟩ := List.getElem?_of_mem hlater
      have hij : i < j := by
        rcases Nat.lt_trichotomy i j with hless | rfl | hmore
        · exact hless
        · rw [hi, Option.some.injEq] at hj
          rw [hj] at hlt
          exact absurd hlt (Nat.lt_irrefl _)
        · have hback := head_lt hnormal hempty hj hi hmore
          omega
      obtain ⟨next, hnext⟩ := hexists (show i + 1 ≤ j from hij) (List.getElem?_eq_some_iff.mp hj).1
      have hlast : next.head = later.head ∨ next.head < later.head := by
        rcases Nat.eq_or_lt_of_le (show i + 1 ≤ j from hij) with rfl | hless
        · rw [hj, Option.some.injEq] at hnext
          exact .inl (by rw [hnext])
        · exact .inr (head_lt hnormal hempty hnext hj hless)
      obtain ⟨hwhole, hnotab, hsame⟩ :=
        next_on_line (head_lt hnormal hempty hi hnext (Nat.lt_succ_self i)) hlast (hbare hj).2.2
          hline htab hnot
      have hcond := (hsucc hi hnext (hstops i caret hi)).mp (hstops (i + 1) next hnext)
      rw [if_neg hwhole] at hcond
      exact hcond ⟨hnotab, hsame⟩
  · intro hsettled i
    induction i with
    | zero =>
        intro caret hi
        exact (hzero hi).mpr fun hsplit => hsettled caret (List.mem_of_getElem? hi) (.inl hsplit)
    | succ i ih =>
        intro next hnext
        obtain ⟨caret, hi⟩ := hexists (Nat.le_succ i) (List.getElem?_eq_some_iff.mp hnext).1
        refine (hsucc hi hnext (ih caret hi)).mpr ?_
        split
        · next hsplit => exact hsettled next (List.mem_of_getElem? hnext) (.inl hsplit)
        · next hsplit =>
            rintro ⟨htab, hline⟩
            exact hsettled caret (List.mem_of_getElem? hi) (.inr ⟨next, List.mem_of_getElem? hnext,
              head_lt hnormal hempty hi hnext (Nat.lt_succ_self i), hline, htab, hsplit⟩)

include hspace in
/-- The carets come to stand in their new columns. -/
theorem stops_iff (h : Replaced (spaced unicodeWidth doc.rope style) doc selection doc' edited) :
    (∀ caret ∈ edited.selection.ranges,
      columnAt unicodeWidth style.width doc'.rope caret.head % max style.width 1 = 0) ↔
        ∀ i caret, selection.ranges[i]? = some caret →
          newColumn unicodeWidth doc.rope selection style i caret % max style.width 1 = 0 := by
  have hplaces (i : Nat) : ((replacements (spaced unicodeWidth doc.rope style) selection).mapIdx
      fun i r => (front (spaced unicodeWidth doc.rope style) doc.rope selection i r.1).length +
        r.2.2)[i]? = selection.ranges[i]?.map fun caret =>
          (front (spaced unicodeWidth doc.rope style) doc.rope selection i caret).length +
            spacesAt unicodeWidth doc.rope style caret := by
    rw [List.getElem?_mapIdx, replacements, List.getElem?_mapIdx, Option.map_map]
    rfl
  constructor
  · intro hstops i caret hi
    have hplace := hplaces i
    rw [hi, Option.map_some] at hplace
    obtain ⟨range, hrange, hlower, hupper⟩ := h.carets.complete _ (List.mem_of_getElem? hplace)
    have hstop := hstops range hrange
    rwa [head_eq_of_caret hlower hupper, columnAt_place hspace h hi] at hstop
  · intro hnew range hrange
    obtain ⟨place, hplace, hlower, hupper⟩ := h.carets.sound range hrange
    obtain ⟨i, hi⟩ := List.getElem?_of_mem hplace
    rw [hplaces] at hi
    obtain ⟨caret, hcaret, rfl⟩ := Option.map_eq_some_iff.mp hi
    rw [head_eq_of_caret hlower hupper, columnAt_place hspace h hcaret]
    exact hnew i caret hcaret

include hnormal hwithin hempty in
/-- Tab at bare carets, with spaces. -/
theorem insertTab_replaced (htabs : style.tabs = false) (nowMs : Nat) :
    ∃ doc' edited, insertTab unicodeWidth doc selection style nowMs = some (doc', edited) ∧
      Replaced (spaced unicodeWidth doc.rope style) doc selection doc' edited := by
  have hspaced : (fun (_ : Nat) range => tabAt unicodeWidth doc.rope style range) =
      spaced unicodeWidth doc.rope style := by
    funext i range
    rw [tabAt, htabs, if_neg Bool.false_ne_true]
    rfl
  rw [insertTab, if_pos hempty, hspaced]
  exact replaceEach_spec hnormal hwithin .insert nowMs

include hnormal hwithin hempty hspace in
theorem stops_iff_settled
    (h : Replaced (spaced unicodeWidth doc.rope style) doc selection doc' edited) :
    (∀ caret ∈ edited.selection.ranges,
      columnAt unicodeWidth style.width doc'.rope caret.head % max style.width 1 = 0) ↔
        Settled unicodeWidth doc.rope style selection.ranges :=
  (stops_iff hspace h).trans (newColumns_iff hnormal hwithin hempty hspace)

end

/-- Tab takes bare carets to tab stops exactly when those before others stood at one. -/
theorem insertTab_tabbed_iff (hnormal : Selection.Normal selection.ranges)
    (hwithin : ∀ range ∈ selection.ranges, range.upper ≤ doc.rope.length)
    (hempty : allEmpty selection = true) (hspace : unicodeWidth ' ' = some 1)
    (htabs : style.tabs = false) (nowMs : Nat) :
    (∃ doc' edited n, insertTab unicodeWidth doc selection style nowMs = some (doc', edited) ∧
      Tabbed unicodeWidth doc selection style doc' edited n) ↔
        Settled unicodeWidth doc.rope style selection.ranges := by
  obtain ⟨doc', edited, hdone, hreplaced⟩ :=
    @insertTab_replaced unicodeWidth doc selection style hnormal hwithin hempty htabs nowMs
  rw [← stops_iff_settled hnormal hwithin hempty hspace hreplaced]
  constructor
  · rintro ⟨doc₂, edited₂, n, hdone₂, htabbed⟩
    rw [hdone, Option.some.injEq, Prod.mk.injEq] at hdone₂
    obtain ⟨rfl, rfl⟩ := hdone₂
    exact htabbed.stops
  · intro hstops
    exact ⟨doc', edited, spacesAt unicodeWidth doc.rope style, hdone,
      fun caret _ => Nat.sub_le _ _, hreplaced, hstops⟩

/-- A caret at a stop, then one in the middle of the next width, and one behind a tab. -/
theorem insertTab_tabbed_behind_stop : ∃ doc' edited n, insertTab (fun _ => some 1)
      (TextDoc.new ['a', 'b', 'c', 'd', 'e', '\t', 'f'])
        ⟨[.point 4, .point 5, .point 7], 0, by decide⟩
      ⟨false, 4⟩ 0 = some (doc', edited) ∧
    Tabbed (fun _ => some 1) (TextDoc.new ['a', 'b', 'c', 'd', 'e', '\t', 'f'])
      ⟨[.point 4, .point 5, .point 7], 0, by decide⟩ ⟨false, 4⟩ doc' edited n :=
  (insertTab_tabbed_iff (by decide) (by decide) rfl rfl rfl 0).mpr (by decide)

/-- Two carets in a row of letters: the second comes to stand in column 7. -/
theorem insertTab_between_letters : ¬ ∃ doc' edited n, insertTab (fun _ => some 1)
      (TextDoc.new ['a', 'b', 'c']) ⟨[.point 1, .point 2], 0, by decide⟩ ⟨false, 4⟩ 0 =
        some (doc', edited) ∧
    Tabbed (fun _ => some 1) (TextDoc.new ['a', 'b', 'c']) ⟨[.point 1, .point 2], 0, by decide⟩
      ⟨false, 4⟩ doc' edited n := by
  rintro ⟨doc₂, edited₂, n, hdone₂, htabbed⟩
  obtain ⟨doc', edited, hdone, hreplaced⟩ := @insertTab_replaced (fun _ => some 1)
    (TextDoc.new ['a', 'b', 'c']) ⟨[.point 1, .point 2], 0, by decide⟩ ⟨false, 4⟩ (by decide)
    (by decide) rfl rfl 0
  rw [hdone, Option.some.injEq, Prod.mk.injEq] at hdone₂
  obtain ⟨rfl, rfl⟩ := hdone₂
  have hsettled := (stops_iff_settled (by decide) (by decide) rfl rfl hreplaced).mp htabbed.stops
  exact absurd hsettled (by decide)

end Commands

end Throng.Editor
