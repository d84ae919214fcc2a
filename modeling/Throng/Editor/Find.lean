import Throng.Editor.Lines
import Throng.Lib.Splice

/-!
# Find and replace

A query is looked for line by line, so that no match spans a line break. The matches are
ranges of the text as long as the term, one after the other.
-/

namespace Throng.Editor

/-- What Unicode says of a character: also `char::to_lowercase`. -/
structure Letters extends CharTable where
  lower : Char → List Char

/-- A character is part of a word. -/
def Letters.word (letters : Letters) (c : Char) : Bool :=
  Lines.charClass letters.toCharTable c = .word

/-- What to look for. -/
structure Query where
  term : List Char
  caseSensitive : Bool
  wholeWord : Bool

namespace Find

variable (letters : Letters)

/-- Case folding that never changes how long a text is. -/
def fold (c : Char) : Char :=
  match letters.lower c with
  | [l] => l
  | _ => c

def isWord (c : Option Char) : Bool := c.any letters.word

/-- Neither end of the match at `i` of a line cuts a word. -/
def standsAlone (raw : List Char) (i n : Nat) : Bool :=
  let before := if i = 0 then none else raw[i - 1]?
  let after := raw[i + n]?.filter fun c => c ≠ '\n'
  !(isWord letters before && isWord letters raw[i]?) &&
    !(isWord letters raw[i + n - 1]? && isWord letters after)

/-- Where the needle stands in the rest of a line from its place `i` on, after `skip`
characters of the last match. -/
def starts (needle : List Char) (accept : Nat → Bool) : Nat → Nat → List Char → List Nat
  | _, _, [] => []
  | i, skip + 1, _ :: hay => starts needle accept (i + 1) skip hay
  | i, 0, c :: hay =>
      if needle.isPrefixOf (c :: hay) && accept i then
        i :: starts needle accept (i + 1) (needle.length - 1) hay
      else starts needle accept (i + 1) 0 hay

/-- The text as it is compared: folded, unless case counts. -/
def compared (query : Query) (text : List Char) : List Char :=
  if query.caseSensitive then text else text.map (fold letters)

/-- The matches in lines the first of which begins at `start`. -/
def findLines (query : Query) : Nat → List (List Char) → List (Nat × Nat)
  | _, [] => []
  | start, line :: lines =>
      let needle := compared letters query query.term
      let hay := compared letters query (line.filter fun c => c ≠ '\n')
      let accept := fun i => !query.wholeWord || standsAlone letters line i needle.length
      (starts needle accept 0 0 hay).map (fun i => (start + i, start + i + needle.length)) ++
        findLines query (start + line.length) lines

/-- Every match, as ranges of characters in order; the first is found whatever the limit. -/
def findAll (rope : Rope) (query : Query) (limit : Nat) : List (Nat × Nat) :=
  if query.term = [] ∨ '\n' ∈ query.term then []
  else (findLines letters query 0 (Rope.lines rope)).take (max limit 1)

/-- Replace every match in one transaction. -/
def replaceAll (rope : Rope) (ranges : List (Nat × Nat)) (replacement : List Char) :
    Option Transaction :=
  Transaction.replace rope (ranges.map fun range => (range.1, range.2, replacement))

/-! ## Where matches are -/

variable {letters} {query : Query} {needle : List Char} {accept : Nat → Bool}

theorem starts_spec (hne : needle ≠ []) (i skip : Nat) (hay : List Char) :
    (∀ k ∈ starts needle accept i skip hay, i + skip ≤ k ∧ k + needle.length ≤ i + hay.length) ∧
      (starts needle accept i skip hay).Pairwise fun a b => a + needle.length ≤ b := by
  have hpos : 0 < needle.length := List.length_pos_iff.mpr hne
  fun_induction starts needle accept i skip hay with
  | case1 => exact ⟨nofun, .nil⟩
  | case2 i skip c hay ih =>
      refine ⟨fun k hk => ?_, ih.2⟩
      have hrange := ih.1 k hk
      rw [List.length_cons]
      omega
  | case3 i c hay hfound ih =>
      rw [Bool.and_eq_true, List.isPrefixOf_iff_prefix] at hfound
      have hlen := hfound.1.length_le
      rw [List.length_cons] at hlen
      refine ⟨fun k hk => ?_, List.pairwise_cons.mpr ⟨fun k hk => ?_, ih.2⟩⟩
      · rw [List.length_cons]
        rcases List.mem_cons.mp hk with rfl | hk
        · omega
        · have hrange := ih.1 k hk
          omega
      · have hrange := ih.1 k hk
        omega
  | case4 i c hay hmissing ih =>
      refine ⟨fun k hk => ?_, ih.2⟩
      have hrange := ih.1 k hk
      rw [List.length_cons]
      omega

theorem length_compared (text : List Char) :
    (compared letters query text).length = text.length := by
  rw [compared]
  split
  · rfl
  · exact List.length_map _

theorem flatten_lines (rope : Rope) : (Rope.lines rope).flatten = rope := by
  induction rope with
  | nil => rfl
  | cons c rest ih =>
      rw [Rope.lines]
      split
      · rw [List.flatten_cons, ih]
        rfl
      · rw [SplitLines.flatten_consLine, ih]

/-- A list of matches: as long as the term, one after the other from `low` to `high`. -/
structure Ranged (n low high : Nat) (ranges : List (Nat × Nat)) : Prop where
  length : ∀ range ∈ ranges, range.2 = range.1 + n
  low_le : ∀ range ∈ ranges, low ≤ range.1
  le_high : ∀ range ∈ ranges, range.2 ≤ high
  ordered : ranges.Pairwise fun a b => a.2 ≤ b.1

theorem ranged_findLines (hterm : query.term ≠ []) (start : Nat) (lines : List (List Char)) :
    Ranged query.term.length start (start + lines.flatten.length)
      (findLines letters query start lines) := by
  induction lines generalizing start with
  | nil => exact ⟨nofun, nofun, nofun, .nil⟩
  | cons line lines ih =>
      obtain ⟨hlength, hlow, hhigh, hordered⟩ := ih (start + line.length)
      have hneedle : compared letters query query.term ≠ [] := by
        intro hnil
        have hlen := @length_compared letters query query.term
        rw [hnil] at hlen
        exact hterm (List.length_eq_zero_iff.mp hlen.symm)
      have hspec := @starts_spec _ (fun i => !query.wholeWord ||
        standsAlone letters line i (compared letters query query.term).length) hneedle 0 0
        (compared letters query (line.filter fun c => c ≠ '\n'))
      rw [findLines]
      rw [length_compared] at hspec ⊢
      generalize starts (compared letters query query.term) (fun i => !query.wholeWord ||
        standsAlone letters line i query.term.length) 0 0
          (compared letters query (line.filter fun c => c ≠ '\n')) = places at hspec ⊢
      obtain ⟨hstarts, hpairs⟩ := hspec
      have hhay : (compared letters query (line.filter fun c => c ≠ '\n')).length ≤
          line.length := by
        rw [length_compared]
        exact List.length_filter_le _ _
      -- A match of the line ends in the line.
      have hin : ∀ range ∈ places.map fun i => (start + i, start + i + query.term.length),
          range.2 = range.1 + query.term.length ∧ start ≤ range.1 ∧
            range.2 ≤ start + line.length := by
        intro range hrange
        obtain ⟨k, hk, rfl⟩ := List.mem_map.mp hrange
        have hplace := hstarts k hk
        exact ⟨rfl, Nat.le_add_right _ _, by dsimp only; omega⟩
      rw [List.flatten_cons, List.length_append]
      refine ⟨fun range hrange => ?_, fun range hrange => ?_, fun range hrange => ?_, ?_⟩
      · rcases List.mem_append.mp hrange with hline | hrest
        · exact (hin range hline).1
        · exact hlength range hrest
      · rcases List.mem_append.mp hrange with hline | hrest
        · exact (hin range hline).2.1
        · have hle := hlow range hrest
          omega
      · rcases List.mem_append.mp hrange with hline | hrest
        · have hle := (hin range hline).2.2
          omega
        · have hle := hhigh range hrest
          omega
      · rw [List.pairwise_append]
        refine ⟨?_, hordered, fun a ha b hb => Nat.le_trans (hin a ha).2.2 (hlow b hb)⟩
        rw [List.pairwise_map]
        exact hpairs.imp fun hle => by dsimp only; omega

/-- The matches of a text are in the text, as long as the term and apart. -/
theorem ranged_findAll (rope : Rope) (query : Query) (limit : Nat) :
    Ranged query.term.length 0 rope.length (findAll letters rope query limit) := by
  rw [findAll]
  split
  · exact ⟨nofun, nofun, nofun, .nil⟩
  · next hterm =>
      have hlines := @ranged_findLines letters query (fun h => hterm (.inl h)) 0 (Rope.lines rope)
      rw [flatten_lines, Nat.zero_add] at hlines
      exact ⟨fun range h => hlines.length range (List.mem_of_mem_take h),
        fun range h => hlines.low_le range (List.mem_of_mem_take h),
        fun range h => hlines.le_high range (List.mem_of_mem_take h),
        hlines.ordered.sublist (List.take_sublist _ _)⟩

theorem term_ne_nil {rope : Rope} {limit : Nat} {range : Nat × Nat}
    (h : range ∈ findAll letters rope query limit) : query.term ≠ [] := by
  rw [findAll] at h
  split at h
  · cases h
  · next hterm => exact fun hnil => hterm (.inl hnil)

end Find

/-! ## What a replacement does -/

namespace Transaction

/-- An edit as a range replaced. -/
def toSplice (edit : Nat × Nat × List Char) : Splice Char := ⟨edit.1, edit.2.1, edit.2.2⟩

/-- A change that removes what stands in a range replaces the range. -/
theorem apply_change {current removed text : Rope} {low high : Nat} (hle : low ≤ high)
    (hlen : high ≤ current.length) (hremoved : removed.length = high - low) :
    Change.apply ⟨low, removed, text⟩ current = some (Splice.apply current ⟨low, high, text⟩) := by
  have hsplit := @Splice.take_drop_drop _ ⟨low, high, text⟩ current hle
  have hlow : (current.take low).length = low := List.length_take_of_le (by omega)
  rw [Splice.apply_of_le hle hlen]
  conv_lhs => rw [← hsplit]
  refine Change.apply_append ⟨low, removed, text⟩ hlow ?_
  rw [List.length_drop, List.length_take, Nat.min_eq_left hlen, hremoved]

theorem apply_replaceOne {rope : Rope} (edits : List (Nat × Nat × List Char)) (current : Rope)
    (bound : Nat) (hlen : bound ≤ rope.length) (hagree : current.take bound = rope.take bound)
    (hapart : edits.Pairwise fun a b => b.2.1 ≤ a.1)
    (hedits : ∀ edit ∈ edits, edit.1 ≤ edit.2.1 ∧ edit.2.1 ≤ bound) :
    ∃ changes, edits.mapM (replaceOne rope) = some changes ∧
      Transaction.apply ⟨changes.reduceOption⟩ current =
        some ((edits.map toSplice).foldl Splice.apply current) := by
  induction edits generalizing current bound with
  | nil => exact ⟨[], rfl, rfl⟩
  | cons edit edits ih =>
      obtain ⟨hle, hbound⟩ := hedits edit List.mem_cons_self
      rw [List.pairwise_cons] at hapart
      have hslice : (current.take edit.2.1).drop edit.1 = (rope.take edit.2.1).drop edit.1 := by
        have h := congrArg (fun l => (l.take edit.2.1).drop edit.1) hagree
        simpa only [List.take_take, Nat.min_eq_left hbound] using h
      have hrange : edit.2.1 ≤ current.length := by
        have hlength := congrArg List.length hagree
        rw [List.length_take, List.length_take] at hlength
        omega
      have hfound : Rope.slice rope (min edit.1 rope.length) (min edit.2.1 rope.length) =
          some ((rope.take edit.2.1).drop edit.1) := by
        rw [Nat.min_eq_left (by omega), Nat.min_eq_left (by omega), Rope.slice,
          if_pos ⟨hle, by omega⟩]
      have hrest : ∀ next ∈ edits, next.1 ≤ next.2.1 ∧ next.2.1 ≤ edit.1 := fun next hnext =>
        ⟨(hedits next (List.mem_cons_of_mem _ hnext)).1, hapart.1 next hnext⟩
      have hkept : ((toSplice edit).apply current).take edit.1 = rope.take edit.1 := by
        have hstart : edit.1 ≤ (toSplice edit).start := Nat.le_refl _
        rw [Splice.take_apply hstart]
        have h := congrArg (List.take edit.1) hagree
        rwa [List.take_take, List.take_take, Nat.min_eq_left (by omega)] at h
      obtain ⟨changes, hchanges, happly⟩ :=
        ih ((toSplice edit).apply current) edit.1 (by omega) hkept hapart.2 hrest
      rw [List.map_cons, List.foldl_cons, ← happly]
      by_cases hsame : (rope.take edit.2.1).drop edit.1 = edit.2.2
      · refine ⟨none :: changes, ?_, ?_⟩
        · rw [List.mapM_cons, replaceOne, hfound, hchanges]
          simp [hsame]
        · rw [Splice.apply_same (hslice.trans hsame)]
          rfl
      · refine ⟨some ⟨edit.1, (rope.take edit.2.1).drop edit.1, edit.2.2⟩ :: changes, ?_, ?_⟩
        · rw [List.mapM_cons, replaceOne, hfound, hchanges]
          simp [hsame, Nat.min_eq_left (show edit.1 ≤ rope.length by omega)]
        · have hremoved : ((rope.take edit.2.1).drop edit.1).length = edit.2.1 - edit.1 := by
            rw [List.length_drop, List.length_take, Nat.min_eq_left (by omega)]
          rw [List.reduceOption_cons_of_some, apply_cons, apply_change hle hrange hremoved]
          rfl

/-- Ranges of the text that do not overlap are replaced one after the other, from the end
backwards. -/
theorem apply_replace (rope : Rope) {edits : List (Nat × Nat × List Char)}
    (hranges : ∀ edit ∈ edits, edit.1 ≤ edit.2.1 ∧ edit.2.1 ≤ rope.length)
    (hapart : edits.Pairwise fun a b => a.2.1 ≤ b.1 ∨ b.2.1 ≤ a.1) :
    ∃ tx, replace rope edits = some tx ∧
      tx.apply rope = some (((edits.mergeSort later).map toSplice).foldl Splice.apply rope) := by
  have hperm := List.mergeSort_perm edits later
  obtain ⟨changes, hchanges, happly⟩ := apply_replaceOne (edits.mergeSort later) rope rope.length
    (Nat.le_refl _) rfl (pairwise_later (fun edit h => (hranges edit h).1) hapart)
    fun edit h => hranges edit (hperm.mem_iff.mp h)
  exact ⟨⟨changes.reduceOption⟩, by rw [replace, hchanges, Option.map_some], happly⟩

end Transaction

end Throng.Editor
