import Throng.Editor.Rope
import Mathlib.Data.List.ReduceOption
import Mathlib.Data.List.Perm.Basic
import Mathlib.Order.Basic

/-!
# Edits as data

A transaction is a list of replacements, each in the coordinates that the ones before
it leave. Applied one after the other they panic, `none` here, when one reaches past
the end of the text. A transaction built on a text records what it removes
(`Transaction.Fits`), and then undoing it is applying its inverse.
-/

namespace Throng.Editor

/-- One replacement. -/
structure Change where
  offset : Nat
  removed : List Char
  inserted : List Char
deriving DecidableEq, Repr

namespace Change

def apply (change : Change) (rope : Rope) : Option Rope :=
  (Rope.remove rope change.offset (change.offset + change.removed.length)).bind fun rope =>
    Rope.insert rope change.offset change.inserted

/-- The replacement the other way. -/
def invert (change : Change) : Change :=
  { offset := change.offset, removed := change.inserted, inserted := change.removed }

def weight (change : Change) : Nat :=
  utf8Len change.removed + utf8Len change.inserted + 16

/-- Where `pos` ends up after the change; at an insertion point it moves past inserted
text when `past`. -/
def map (change : Change) (pos : Nat) (past : Bool) : Nat :=
  let removed := change.removed.length
  let inserted := change.inserted.length
  let stop := change.offset + removed
  if pos < change.offset then pos
  else if pos > stop then pos - removed + inserted
  else if removed = 0 then if past then change.offset + inserted else change.offset
  else if pos = change.offset then change.offset
  else if pos = stop ∨ past then change.offset + inserted
  else change.offset

/-- Replacing the stretch of `removed.length` characters after `before`. -/
theorem apply_append (change : Change) {before middle after : List Char}
    (hbefore : before.length = change.offset) (hmiddle : middle.length = change.removed.length) :
    change.apply (before ++ middle ++ after) = some (before ++ change.inserted ++ after) := by
  have hlen : change.offset + change.removed.length = (before ++ middle).length := by
    rw [List.length_append, hbefore, hmiddle]
  have htake : (before ++ middle ++ after).take change.offset = before := by
    rw [List.append_assoc, ← hbefore, List.take_left]
  rw [apply, Rope.remove, htake, hlen, List.drop_left, if_pos (by simp [hbefore]),
    Option.bind_some, Rope.insert, ← hbefore, List.take_left, List.drop_left, if_pos (by simp)]

/-- What a change does when it does not panic. -/
theorem exists_of_apply {change : Change} {rope rope' : Rope} (h : change.apply rope = some rope') :
    ∃ before middle after, before.length = change.offset ∧
      middle.length = change.removed.length ∧ rope = before ++ middle ++ after ∧
        rope' = before ++ change.inserted ++ after := by
  by_cases hle : change.offset + change.removed.length ≤ rope.length
  · have hsplit : rope = rope.take change.offset ++
        (rope.drop change.offset).take change.removed.length ++
          rope.drop (change.offset + change.removed.length) := by
      rw [List.append_assoc, ← List.drop_drop, List.take_append_drop, List.take_append_drop]
    have hbefore : (rope.take change.offset).length = change.offset := by
      rw [List.length_take]
      omega
    have hmiddle : ((rope.drop change.offset).take change.removed.length).length =
        change.removed.length := by
      rw [List.length_take, List.length_drop]
      omega
    refine ⟨_, _, _, hbefore, hmiddle, hsplit, ?_⟩
    rw [hsplit, apply_append change hbefore hmiddle] at h
    exact (Option.some.inj h).symm
  · rw [apply, Rope.remove, if_neg (fun h => hle h.2)] at h
    cases h

/-- The change records what stands in `rope` where it removes. -/
def Fits (change : Change) (rope : Rope) : Prop :=
  ∃ before after, before.length = change.offset ∧ rope = before ++ change.removed ++ after

theorem fits_iff {change : Change} {rope : Rope} : change.Fits rope ↔
    change.offset ≤ rope.length ∧
      (rope.drop change.offset).take change.removed.length = change.removed := by
  constructor
  · rintro ⟨before, after, hbefore, rfl⟩
    rw [← hbefore, List.append_assoc, List.drop_left, List.take_left]
    exact ⟨by simp, rfl⟩
  · rintro ⟨hle, htake⟩
    refine ⟨rope.take change.offset,
      (rope.drop change.offset).drop change.removed.length, List.length_take_of_le hle, ?_⟩
    have hdrop := List.take_append_drop change.removed.length (rope.drop change.offset)
    rw [htake] at hdrop
    rw [List.append_assoc, hdrop, List.take_append_drop]

instance (change : Change) (rope : Rope) : Decidable (change.Fits rope) :=
  decidable_of_iff _ fits_iff.symm

theorem apply_of_fits {change : Change} {rope : Rope} (h : change.Fits rope) :
    ∃ rope', change.apply rope = some rope' ∧ change.invert.Fits rope' ∧
      change.invert.apply rope' = some rope := by
  obtain ⟨before, after, hbefore, rfl⟩ := h
  refine ⟨before ++ change.inserted ++ after, change.apply_append hbefore rfl,
    ⟨before, after, hbefore, rfl⟩, ?_⟩
  exact change.invert.apply_append hbefore rfl

end Change

/-- An ordered list of changes applied as one step. -/
structure Transaction where
  changes : List Change
deriving DecidableEq, Repr

namespace Transaction

/-- The order in which `replace` makes its changes: from the end backwards. -/
def later (a b : Nat × Nat × List Char) : Bool :=
  b.1 < a.1 || (b.1 = a.1 && b.2.1 ≤ a.2.1)

/-- The change that replaces one range of `rope`, if it is one. -/
def replaceOne (rope : Rope) (edit : Nat × Nat × List Char) : Option (Option Change) :=
  let start := min edit.1 rope.length
  let stop := min edit.2.1 rope.length
  (Rope.slice rope start stop).map fun removed =>
    if removed ≠ edit.2.2 then some { offset := start, removed := removed, inserted := edit.2.2 }
    else none

/-- Replace each `(from, to, text)` range of `rope`; `none` when a range is reversed. -/
def replace (rope : Rope) (edits : List (Nat × Nat × List Char)) : Option Transaction :=
  ((edits.mergeSort later).mapM (replaceOne rope)).map fun changes => ⟨changes.reduceOption⟩

def isEmpty (tx : Transaction) : Bool := tx.changes.isEmpty

/-- Apply to `rope`. -/
def apply (tx : Transaction) (rope : Rope) : Option Rope :=
  tx.changes.foldlM (fun rope change => change.apply rope) rope

/-- Where `pos` ends up after this transaction. -/
def map (tx : Transaction) (pos : Nat) (past : Bool) : Nat :=
  tx.changes.foldl (fun pos change => change.map pos past) pos

/-- The transaction that undoes this one. -/
def invert (tx : Transaction) : Transaction := ⟨tx.changes.reverse.map Change.invert⟩

def weight (tx : Transaction) : Nat :=
    tx.changes.foldl (fun weight change => weight + change.weight) 0

/-- `tx.changes.extend(next.changes)`. -/
def extend (tx next : Transaction) : Transaction := ⟨tx.changes ++ next.changes⟩

@[simp] theorem apply_nil (rope : Rope) : apply ⟨[]⟩ rope = some rope := rfl

theorem apply_cons (change : Change) (changes : List Change) (rope : Rope) :
    apply ⟨change :: changes⟩ rope = (change.apply rope).bind (apply ⟨changes⟩) := rfl

theorem apply_append (changes more : List Change) (rope : Rope) :
    apply ⟨changes ++ more⟩ rope = (apply ⟨changes⟩ rope).bind (apply ⟨more⟩) := by
  simp only [apply, List.foldlM_append]
  rfl

/-- Every change of the list records what stands where it removes, once those before
it are applied. -/
def ListFits : List Change → Rope → Prop
  | [], _ => True
  | change :: changes, rope =>
      change.Fits rope ∧ ∃ rope', change.apply rope = some rope' ∧ ListFits changes rope'

/-- The transaction removes what stands in `rope`. -/
def Fits (tx : Transaction) (rope : Rope) : Prop := ListFits tx.changes rope

def decidableListFits : ∀ changes rope, Decidable (ListFits changes rope)
  | [], _ => isTrue trivial
  | change :: changes, rope =>
      match happ : change.apply rope with
      | none => isFalse fun h => by simp [ListFits, happ] at h
      | some rope' =>
          let _ := decidableListFits changes rope'
          decidable_of_iff (change.Fits rope ∧ ListFits changes rope') (by simp [ListFits, happ])

instance (tx : Transaction) (rope : Rope) : Decidable (tx.Fits rope) :=
  decidableListFits tx.changes rope

/-- A transaction built on a text applies to it, and its inverse takes the result back. -/
theorem apply_of_fits {tx : Transaction} {rope : Rope} (h : tx.Fits rope) :
    ∃ rope', tx.apply rope = some rope' ∧ tx.invert.apply rope' = some rope := by
  obtain ⟨changes⟩ := tx
  induction changes generalizing rope with
  | nil => exact ⟨rope, rfl, rfl⟩
  | cons change changes ih =>
      obtain ⟨hchange, middle, hmiddle, hrest⟩ := h
      obtain ⟨rope', happ, hinv⟩ := ih hrest
      refine ⟨rope', ?_, ?_⟩
      · rw [apply_cons, hmiddle, Option.bind_some, happ]
      · have hback : change.invert.apply middle = some rope := by
          obtain ⟨result, hresult, -, hback⟩ := Change.apply_of_fits hchange
          rw [hmiddle, Option.some.injEq] at hresult
          exact hresult ▸ hback
        have hlast : invert ⟨change :: changes⟩ =
            ⟨(invert ⟨changes⟩).changes ++ [change.invert]⟩ := by
          simp [invert]
        rw [hlast, apply_append, hinv, Option.bind_some, apply_cons, hback]
        rfl

/-- A range built on `rope` fits a text that still agrees with `rope` up to its end, and
leaves what comes before it as it was. -/
theorem fits_slice {rope current : Rope} {low high : Nat} (text : List Char) (hle : low ≤ high)
    (hlen : high ≤ rope.length) (hagree : current.take high = rope.take high) :
    ∃ rope', Change.apply ⟨low, (rope.take high).drop low, text⟩ current = some rope' ∧
      Change.Fits ⟨low, (rope.take high).drop low, text⟩ current ∧
        rope'.take low = rope.take low := by
  have hsize : high ≤ current.length := by
    have hlength := congrArg List.length hagree
    rw [List.length_take, List.length_take] at hlength
    omega
  have hsplit : current = rope.take low ++ (rope.take high).drop low ++ current.drop high := by
    have hjoin := List.take_append_drop low (rope.take high)
    rw [List.take_take, Nat.min_eq_left hle] at hjoin
    rw [hjoin, ← hagree, List.take_append_drop]
  have hlow : (rope.take low).length = low := List.length_take_of_le (by omega)
  refine ⟨rope.take low ++ text ++ current.drop high, ?_, ⟨_, _, hlow, hsplit⟩, ?_⟩
  · conv_lhs => rw [hsplit]
    exact Change.apply_append ⟨low, (rope.take high).drop low, text⟩ hlow rfl
  · rw [List.append_assoc]
    exact List.take_left' hlow

/-- Replacements from the end backwards find what stood in `rope` when they were built:
each leaves what comes before it as it was. -/
theorem listFits_replaceOne {rope : Rope} (edits : List (Nat × Nat × List Char)) (current : Rope)
    (bound : Nat) (hlen : bound ≤ rope.length) (hagree : current.take bound = rope.take bound)
    (hapart : edits.Pairwise fun a b => b.2.1 ≤ a.1)
    (hedits : ∀ edit ∈ edits, edit.1 ≤ edit.2.1 ∧ min edit.2.1 rope.length ≤ bound) :
    ∃ changes, edits.mapM (replaceOne rope) = some changes ∧
      ListFits changes.reduceOption current := by
  induction edits generalizing current bound with
  | nil => exact ⟨[], rfl, trivial⟩
  | cons edit edits ih =>
      obtain ⟨hle, hbound⟩ := hedits edit List.mem_cons_self
      rw [List.pairwise_cons] at hapart
      obtain ⟨low, hlow⟩ : ∃ low, low = min edit.1 rope.length := ⟨_, rfl⟩
      obtain ⟨high, hhigh⟩ : ∃ high, high = min edit.2.1 rope.length := ⟨_, rfl⟩
      have hlowhigh : low ≤ high := by omega
      have htake (n : Nat) (hn : n ≤ bound) : current.take n = rope.take n := by
        have h := congrArg (List.take n) hagree
        rwa [List.take_take, List.take_take, Nat.min_eq_left hn] at h
      have hrest : ∀ next ∈ edits, next.1 ≤ next.2.1 ∧ min next.2.1 rope.length ≤ low := by
        intro next hnext
        have hstart := hapart.1 next hnext
        exact ⟨(hedits next (List.mem_cons_of_mem _ hnext)).1, by omega⟩
      have hslice : Rope.slice rope low high = some ((rope.take high).drop low) := by
        rw [Rope.slice, if_pos ⟨hlowhigh, by omega⟩]
      by_cases hsame : (rope.take high).drop low = edit.2.2
      · have hone : replaceOne rope edit = some none := by
          simp [replaceOne, ← hlow, ← hhigh, hslice, hsame]
        obtain ⟨changes, hchanges, hfits⟩ :=
          ih current low (by omega) (htake low (by omega)) hapart.2 hrest
        refine ⟨none :: changes, ?_, hfits⟩
        rw [List.mapM_cons, hone, hchanges]
        rfl
      · have hone : replaceOne rope edit =
            some (some ⟨low, (rope.take high).drop low, edit.2.2⟩) := by
          simp [replaceOne, ← hlow, ← hhigh, hslice, hsame]
        obtain ⟨middle, hmiddle, hfit, hkept⟩ :=
          fits_slice edit.2.2 hlowhigh (by omega) (htake high (by omega))
        obtain ⟨changes, hchanges, hfits⟩ := ih middle low (by omega) hkept hapart.2 hrest
        refine ⟨some ⟨low, (rope.take high).drop low, edit.2.2⟩ :: changes, ?_,
          hfit, middle, hmiddle, hfits⟩
        rw [List.mapM_cons, hone, hchanges]
        rfl

/-- Ranges that do not overlap are replaced from the end backwards. -/
theorem pairwise_later {edits : List (Nat × Nat × List Char)}
    (hranges : ∀ edit ∈ edits, edit.1 ≤ edit.2.1)
    (hapart : edits.Pairwise fun a b => a.2.1 ≤ b.1 ∨ b.2.1 ≤ a.1) :
    (edits.mergeSort later).Pairwise fun a b => b.2.1 ≤ a.1 := by
  have hperm := List.mergeSort_perm edits later
  have horder : (edits.mergeSort later).Pairwise fun a b => later a b = true := by
    apply List.pairwise_mergeSort
    · intro a b c hab hbc
      simp only [later, Bool.or_eq_true, Bool.and_eq_true, decide_eq_true_eq] at *
      omega
    · intro a b
      simp only [later, Bool.or_eq_true, Bool.and_eq_true, decide_eq_true_eq]
      omega
  have hdisjoint : (edits.mergeSort later).Pairwise fun a b => a.2.1 ≤ b.1 ∨ b.2.1 ≤ a.1 :=
    hperm.symm.pairwise hapart fun h => h.symm
  refine (horder.and hdisjoint).imp_of_mem ?_
  intro a b ha hb hab
  have harange := hranges a (hperm.mem_iff.1 ha)
  have hbrange := hranges b (hperm.mem_iff.1 hb)
  simp only [later, Bool.or_eq_true, Bool.and_eq_true, decide_eq_true_eq] at hab
  omega

/-- Ranges in any order that do not overlap give a transaction built on the text. -/
theorem fits_replace (rope : Rope) {edits : List (Nat × Nat × List Char)}
    (hranges : ∀ edit ∈ edits, edit.1 ≤ edit.2.1)
    (hapart : edits.Pairwise fun a b => a.2.1 ≤ b.1 ∨ b.2.1 ≤ a.1) :
    ∃ tx, replace rope edits = some tx ∧ tx.Fits rope := by
  have hperm := List.mergeSort_perm edits later
  obtain ⟨changes, hchanges, hfits⟩ := listFits_replaceOne (edits.mergeSort later) rope
    rope.length (Nat.le_refl _) rfl (pairwise_later hranges hapart) fun edit hedit =>
      ⟨hranges edit (hperm.mem_iff.1 hedit), Nat.min_le_right _ _⟩
  exact ⟨⟨changes.reduceOption⟩, by rw [replace, hchanges, Option.map_some], hfits⟩

/-- Changes that go on where others left off. -/
theorem listFits_append {changes more : List Change} {rope rope' : Rope}
    (h : ListFits changes rope) (happ : apply ⟨changes⟩ rope = some rope')
    (hmore : ListFits more rope') : ListFits (changes ++ more) rope := by
  induction changes generalizing rope with
  | nil =>
      rw [apply_nil, Option.some.injEq] at happ
      exact happ ▸ hmore
  | cons change changes ih =>
      obtain ⟨hchange, middle, hmiddle, hrest⟩ := h
      rw [apply_cons, hmiddle, Option.bind_some] at happ
      exact ⟨hchange, middle, hmiddle, ih hrest happ⟩

end Transaction

end Throng.Editor
