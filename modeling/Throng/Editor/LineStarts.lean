import Throng.Editor.Indenting

/-!
# Text at the start of lines

What is put in at the start of lines and ends none leaves the lines as they are, each with
its new front. A position moves by what is put in before it: it stays in its line, and the
start of a line stays its start.
-/

namespace Throng.Editor

namespace Rope

/-- No character of the text ends a line. -/
def Unbroken (text : List Char) : Prop := ∀ c ∈ text, isBreak c = false ∧ c ≠ '\r'

/-- The lines, each with something in front. -/
def fronted (front : Nat → List Char) (texts : List (List Char)) : List (List Char) :=
  texts.mapIdx fun line text => front line ++ text

theorem lines_unbroken_append {text : List Char} (h : Unbroken text) (rope : Rope) :
    lines (text ++ rope) = (lines rope).modifyHead (text ++ ·) := by
  induction text with
  | nil =>
      rw [List.nil_append]
      cases lines rope with
      | nil => rfl
      | cons first others => rfl
  | cons c text ih =>
      obtain ⟨hbreak, hcr⟩ := h c List.mem_cons_self
      rw [List.cons_append, lines, if_neg (by rw [endsLine_of_no_cr hcr, hbreak]; decide),
        ih fun d hd => h d (List.mem_cons_of_mem _ hd)]
      cases hlines : lines rope with
      | nil => exact absurd hlines (lines_ne_nil rope)
      | cons first others => rfl

theorem exists_lines_cons (c : Char) (rest : Rope) :
    ∃ text others, lines (c :: rest) = (c :: text) :: others := by
  rw [lines]
  split
  · exact ⟨[], lines rest, rfl⟩
  · cases hlines : lines rest with
    | nil => exact absurd hlines (lines_ne_nil rest)
    | cons first others => exact ⟨first, others, rfl⟩

theorem head?_fronted (front : Nat → List Char) (rope : Rope) :
    (fronted front (lines rope)).flatten.head? = (front 0).head?.or rope.head? := by
  cases rope with
  | nil =>
      rw [lines, fronted, List.mapIdx_cons, List.mapIdx_nil, List.flatten_singleton,
        List.append_nil, List.head?_nil, Option.or_none]
  | cons c rest =>
      obtain ⟨text, others, hlines⟩ := exists_lines_cons c rest
      rw [hlines, fronted, List.mapIdx_cons, List.flatten_cons, List.append_assoc,
        List.head?_append, List.cons_append, List.head?_cons, List.head?_cons]

/-- Whether a character ends a line depends on what follows only by an LF. -/
theorem endsLine_congr {c : Char} {rest rest' : List Char}
    (h : rest.head? = some '\n' ↔ rest'.head? = some '\n') :
      endsLine c rest = endsLine c rest' := by
  rw [endsLine, endsLine]
  simp only [ne_eq, h]

theorem head?_or_fronted {front : Nat → List Char} (hfront : Unbroken (front 0)) (rest : Rope)
    (hrest : rest.head? ≠ some '\n') : (fronted front (lines rest)).flatten.head? ≠ some '\n' := by
  rw [head?_fronted]
  cases htext : front 0 with
  | nil => exact hrest
  | cons d text =>
      rw [List.head?_cons, Option.some_or, Ne, Option.some.injEq]
      rintro rfl
      have hbreak := (hfront '\n' (htext ▸ List.mem_cons_self)).1
      exact absurd hbreak (by decide)

/-- Text in front of the lines leaves the lines. -/
theorem lines_fronted {front : Nat → List Char} (hfront : ∀ line, Unbroken (front line))
    (rope : Rope) : lines (fronted front (lines rope)).flatten = fronted front (lines rope) := by
  induction rope generalizing front with
  | nil =>
      have htext : (fronted front (lines [])).flatten = front 0 ++ [] := by
        rw [lines, fronted, List.mapIdx_cons, List.mapIdx_nil, List.flatten_singleton]
      rw [htext, lines_unbroken_append (hfront 0)]
      rfl
  | cons c rest ih =>
      cases hends : endsLine c rest with
      | true =>
          have hrest := @ih (fun line => front (line + 1)) fun line => hfront (line + 1)
          have hends' : endsLine c
              (fronted (fun line => front (line + 1)) (lines rest)).flatten = true := by
            rw [endsLine, Bool.or_eq_true, Bool.and_eq_true] at hends ⊢
            rcases hends with hbreak | ⟨hcr, hhead⟩
            · exact .inl hbreak
            · refine .inr ⟨hcr, decide_eq_true ?_⟩
              exact @head?_or_fronted (fun line => front (line + 1)) (hfront 1) rest
                (of_decide_eq_true hhead)
          have hlines : fronted front (lines (c :: rest)) =
              (front 0 ++ [c]) :: fronted (fun line => front (line + 1)) (lines rest) := by
            rw [lines, if_pos hends, fronted, List.mapIdx_cons]
            rfl
          rw [hlines, List.flatten_cons, List.append_assoc, lines_unbroken_append (hfront 0),
            List.singleton_append, lines, if_pos hends', hrest]
          rfl
      | false =>
          -- the rest goes on in the line of `c`, so nothing is put in front of its first line
          let later : Nat → List Char := fun line => if line = 0 then [] else front line
          have hlater : ∀ line, Unbroken (later line) := by
            intro line
            by_cases hzero : line = 0
            · simp only [later, if_pos hzero]
              exact fun c hc => absurd hc List.not_mem_nil
            · simp only [later, if_neg hzero]
              exact hfront line
          have hrest := ih hlater
          have hends' : endsLine c (fronted later (lines rest)).flatten = false := by
            rw [← hends]
            refine endsLine_congr ?_
            rw [head?_fronted]
            rfl
          obtain ⟨first, others, hfirst⟩ : ∃ first others, lines rest = first :: others :=
            List.exists_cons_of_ne_nil (lines_ne_nil rest)
          obtain ⟨others', hothers⟩ :
              ∃ others', fronted later (lines rest) = first :: others' ∧
                fronted front (lines (c :: rest)) = (front 0 ++ c :: first) :: others' := by
            refine ⟨others.mapIdx fun line text => front (line + 1) ++ text, ?_, ?_⟩
            · rw [hfirst, fronted, List.mapIdx_cons]
              rfl
            · rw [lines, if_neg (by simp [hends]), hfirst, SplitLines.consLine, fronted,
                List.mapIdx_cons]
          have htext : (front 0 ++ c :: first) ++ others'.flatten =
              front 0 ++ c :: (fronted later (lines rest)).flatten := by
            rw [hothers.1, List.flatten_cons, List.append_assoc, List.cons_append]
          rw [hothers.2, List.flatten_cons, htext, lines_unbroken_append (hfront 0), lines,
            if_neg (by simp [hends']), hrest, hothers.1, SplitLines.consLine, List.modifyHead_cons]

/-! ## Replacing the front of lines -/

theorem flatten_take_drop (rope : Rope) (line : Nat) :
    ((lines rope).take line).flatten ++ ((lines rope).drop line).flatten = rope := by
  rw [← List.flatten_append, List.take_append_drop, flatten_lines]

theorem take_lineToChar (rope : Rope) (line : Nat) :
    rope.take (lineToChar rope line) = ((lines rope).take line).flatten := by
  have htake := @List.take_left' _ _ ((lines rope).drop line).flatten _
    (rfl : ((lines rope).take line).flatten.length = lineToChar rope line)
  rwa [flatten_take_drop] at htake

theorem drop_lineToChar (rope : Rope) (line : Nat) :
    rope.drop (lineToChar rope line) = ((lines rope).drop line).flatten := by
  have hdrop := @List.drop_left' _ _ ((lines rope).drop line).flatten _
    (rfl : ((lines rope).take line).flatten.length = lineToChar rope line)
  rwa [flatten_take_drop] at hdrop

/-- The first `m` characters of a line replaced. -/
def frontSplice (rope : Rope) (m : Nat) (new : List Char) (line : Nat) : Splice Char :=
  ⟨lineToChar rope line, lineToChar rope line + m, new⟩

/-- The lines, of which the first is line `first`, with the first `m` characters of the marked
ones replaced. -/
def refronted (marked : List Nat) (m : Nat) (new : List Char) (first : Nat)
    (texts : List (List Char)) : List (List Char) :=
  texts.mapIdx fun i text => if first + i ∈ marked then new ++ text.drop m else text

variable {marked : List Nat} {m n first : Nat} {new : List Char} {rope : Rope}

theorem refronted_cons (text : List Char) (texts : List (List Char)) :
    refronted marked m new first (text :: texts) =
      (if first ∈ marked then new ++ text.drop m else text) ::
        refronted marked m new (first + 1) texts := by
  rw [refronted, List.mapIdx_cons, refronted]
  simp only [Nat.add_zero, Nat.add_assoc, Nat.add_comm 1]

theorem refronted_append (texts others : List (List Char)) :
    refronted marked m new first (texts ++ others) = refronted marked m new first texts ++
      refronted marked m new (first + texts.length) others := by
  induction texts generalizing first with
  | nil => rfl
  | cons text texts ih =>
      rw [List.cons_append, refronted_cons, ih, refronted_cons, List.cons_append, List.length_cons,
        Nat.add_assoc, Nat.add_comm 1]

/-- Lines that are not marked stay. -/
theorem refronted_eq_self {texts : List (List Char)}
    (h : ∀ line ∈ marked, line < first ∨ first + texts.length ≤ line) :
    refronted marked m new first texts = texts := by
  induction texts generalizing first with
  | nil => rfl
  | cons text texts ih =>
      have hnot : first ∉ marked := by
        intro hmem
        have hrange := h first hmem
        rw [List.length_cons] at hrange
        omega
      rw [refronted_cons, if_neg hnot, ih]
      intro line hline
      have hrange := h line hline
      rw [List.length_cons] at hrange
      omega

/-- Marks before the lines do not count. -/
theorem refronted_cons_mark {texts : List (List Char)} {line : Nat} (h : line < first) :
    refronted (line :: marked) m new first texts = refronted marked m new first texts := by
  induction texts generalizing first with
  | nil => rfl
  | cons text texts ih =>
      have hiff : first ∈ line :: marked ↔ first ∈ marked := by
        rw [List.mem_cons, or_iff_right (by omega)]
      rw [refronted_cons, refronted_cons, ih (by omega)]
      simp only [hiff]

theorem weave_frontSplice (horder : marked.Pairwise (· < ·))
    (hmarked : ∀ line ∈ marked, first ≤ line ∧
      ∃ text, (lines rope)[line]? = some text ∧ m ≤ text.length)
    (hn : n ≤ lineToChar rope first) :
    Splice.weave rope n (marked.map (frontSplice rope m new)) =
      (rope.take (lineToChar rope first)).drop n ++
        (refronted marked m new first ((lines rope).drop first)).flatten := by
  induction marked generalizing n first with
  | nil =>
      have hself := @refronted_eq_self [] m first new ((lines rope).drop first)
        fun _ h => absurd h List.not_mem_nil
      have hcut := List.take_append_drop (lineToChar rope first) rope
      rw [hself, ← drop_lineToChar, List.map_nil, Splice.weave]
      conv_lhs => rw [← hcut]
      refine List.drop_append_of_le_length ?_
      rw [List.length_take_of_le (lineToChar_le_length _ _)]
      exact hn
  | cons line marked ih =>
      obtain ⟨hle, text, htext, hm⟩ := hmarked line List.mem_cons_self
      obtain ⟨hlater, horder⟩ := List.pairwise_cons.mp horder
      have hsucc := lineToChar_succ htext
      have hrest := @ih (lineToChar rope line + m) (line + 1) horder
        (fun l hl => ⟨hlater l hl, (hmarked l (List.mem_cons_of_mem _ hl)).2⟩) (by omega)
      -- the rest of the marked line
      have hline : (rope.take (lineToChar rope (line + 1))).drop (lineToChar rope line + m) =
          text.drop m := by
        rw [take_lineToChar, List.take_add_one, htext, Option.toList_some, List.flatten_append,
          List.flatten_singleton]
        exact List.drop_length_add_append m
      -- what stands before the marked line
      have hbefore : (rope.take (lineToChar rope line)).drop n =
          (rope.take (lineToChar rope first)).drop n ++
            (((lines rope).take line).drop first).flatten := by
        have hcut : (lines rope).take line =
            (lines rope).take first ++ ((lines rope).take line).drop first := by
          have h := List.take_append_drop first ((lines rope).take line)
          rw [List.take_take, Nat.min_eq_left hle] at h
          exact h.symm
        rw [take_lineToChar, take_lineToChar]
        conv_lhs => rw [hcut, List.flatten_append]
        exact List.drop_append_of_le_length hn
      obtain ⟨hlt, hget⟩ := List.getElem?_eq_some_iff.mp htext
      have hlength : (((lines rope).take line).drop first).length = line - first := by
        rw [List.length_drop, List.length_take_of_le (by omega)]
      have hlines : (lines rope).drop first = ((lines rope).take line).drop first ++
          text :: (lines rope).drop (line + 1) := by
        conv_lhs => rw [← List.take_append_drop line (lines rope)]
        rw [List.drop_append_of_le_length (by rw [List.length_take_of_le (by omega)]; exact hle),
          List.drop_eq_getElem_cons hlt, hget]
      have hkept : refronted (line :: marked) m new first (((lines rope).take line).drop first) =
          ((lines rope).take line).drop first := by
        refine refronted_eq_self fun l hl => .inr ?_
        rw [hlength]
        rcases List.mem_cons.mp hl with rfl | hl
        · omega
        · have hmore := hlater l hl
          omega
      rw [List.map_cons, Splice.weave, frontSplice, hrest, hline, hbefore, hlines,
        refronted_append, hkept, hlength, show first + (line - first) = line by omega,
        refronted_cons, if_pos List.mem_cons_self, refronted_cons_mark (by omega),
        List.flatten_append, List.flatten_cons]
      simp only [List.append_assoc]

end Rope

namespace Transaction

/-! ## Where insertions take a position -/

variable {rope : Rope} {new : List Char} {places : List Nat} {tx : Transaction}

/-- The same text put in at several places. -/
def inserts (places : List Nat) (new : List Char) : List (Nat × Nat × List Char) :=
  places.map fun place => (place, place, new)

/-- An insertion at `place` moves a position past it, and one at it that goes along. -/
def Moves (pos : Nat) (past : Bool) (place : Nat) : Bool :=
  place < pos || (past && place = pos)

theorem moved_insert (hnew : new ≠ []) (place pos : Nat) (past : Bool) :
    moved rope (place, place, new) pos past =
      if Moves pos past place = true then pos + new.length else pos := by
  have hempty : ((rope.take place).drop place : Rope) = [] :=
    List.drop_eq_nil_of_le (List.length_take_le _ _)
  rw [moved]
  dsimp only
  rw [hempty, if_pos (Ne.symm hnew), Change.map, Moves]
  cases past <;>
    simp only [List.length_nil, Nat.add_zero, Bool.false_and, Bool.true_and, Bool.or_false,
      Bool.or_eq_true, decide_eq_true_eq, Bool.false_eq_true, if_true, if_false] <;>
    split_ifs <;> omega

theorem moves_iff {pos place : Nat} {past : Bool} :
    Moves pos past place = true ↔ place < pos ∨ (past = true ∧ place = pos) := by
  rw [Moves, Bool.or_eq_true, Bool.and_eq_true, decide_eq_true_eq, decide_eq_true_eq]

theorem disjoint_inserts (horder : places.Pairwise (· < ·))
    (hwithin : ∀ place ∈ places, place ≤ rope.length) :
    Disjoint rope.length (inserts places new) where
  within := by
    intro edit hedit
    obtain ⟨place, hplace, rfl⟩ := List.mem_map.mp hedit
    exact ⟨Nat.le_refl _, hwithin place hplace⟩
  apart := List.pairwise_map.mpr (horder.imp fun hlt => .inl (Nat.le_of_lt hlt))
  empty := List.pairwise_map.mpr (horder.imp fun hlt _ _ => Nat.ne_of_lt hlt)

/-- A position moves by what is put in before it. -/
theorem map_inserts (hnew : new ≠ []) (horder : places.Pairwise (· < ·))
    (hwithin : ∀ place ∈ places, place ≤ rope.length)
    (htx : replace rope (inserts places new) = some tx) (pos : Nat) (past : Bool) :
    tx.map pos past = pos + new.length * places.countP (Moves pos past) := by
  have hdisjoint : Disjoint rope.length (inserts places new) := disjoint_inserts horder hwithin
  have hsorted : (inserts places new).mergeSort earlier = inserts places new :=
    mergeSort_earlier_of_order (fun edit hedit => (hdisjoint.within edit hedit).1)
      (List.pairwise_map.mpr (horder.imp fun hlt => Nat.le_of_lt hlt))
  obtain ⟨changes, hchanges, rfl⟩ := Option.map_eq_some_iff.mp htx
  rw [map_replaceOne (hdisjoint.perm (List.mergeSort_perm _ _).symm).within hchanges,
    mergeSort_later_eq hdisjoint, hsorted, List.foldl_reverse, inserts, List.foldr_map]
  clear hchanges hsorted hdisjoint hwithin htx
  induction places with
  | nil => rfl
  | cons place places ih =>
      obtain ⟨hlater, horder⟩ := List.pairwise_cons.mp horder
      rw [List.foldr_cons, ih horder, moved_insert hnew, List.countP_cons]
      by_cases hmoves : Moves pos past place = true
      · -- the insertions behind it leave the position behind this one
        have hstill :
            Moves (pos + new.length * places.countP (Moves pos past)) past place = true := by
          rw [moves_iff] at hmoves ⊢
          rcases hmoves with hlt | ⟨hpast, heq⟩
          · exact .inl (by omega)
          · rcases Nat.eq_zero_or_pos (new.length * places.countP (Moves pos past))
              with hzero | hpos
            · exact .inr ⟨hpast, by omega⟩
            · exact .inl (by omega)
        rw [if_pos hstill, if_pos hmoves, Nat.mul_add, Nat.mul_one, Nat.add_assoc]
      · have hnone : places.countP (Moves pos past) = 0 := by
          refine List.countP_eq_zero.mpr fun later hmem => ?_
          have hlt := hlater later hmem
          rw [moves_iff] at hmoves ⊢
          rintro (hless | ⟨-, heq⟩)
          · exact hmoves (.inl (by omega))
          · exact hmoves (.inl (by omega))
        rw [hnone, Nat.mul_zero, Nat.add_zero, if_neg hmoves, if_neg hmoves, Nat.add_zero,
          Nat.mul_zero, Nat.add_zero]

theorem map_false_le (hnew : new ≠ []) (horder : places.Pairwise (· < ·))
    (hwithin : ∀ place ∈ places, place ≤ rope.length)
    (htx : replace rope (inserts places new) = some tx) (pos : Nat) :
    tx.map pos false ≤ tx.map pos true := by
  rw [map_inserts hnew horder hwithin htx, map_inserts hnew horder hwithin htx]
  refine Nat.add_le_add_left (Nat.mul_le_mul_left _ ?_) _
  refine List.countP_mono_left fun place _ hmoves => ?_
  rw [moves_iff] at hmoves ⊢
  exact hmoves.elim .inl fun h => absurd h.1 Bool.false_ne_true

theorem map_lt (hnew : new ≠ []) (horder : places.Pairwise (· < ·))
    (hwithin : ∀ place ∈ places, place ≤ rope.length)
    (htx : replace rope (inserts places new) = some tx) {pos later : Nat} (h : pos < later) :
    tx.map pos true < tx.map later false := by
  rw [map_inserts hnew horder hwithin htx, map_inserts hnew horder hwithin htx]
  refine Nat.add_lt_add_of_lt_of_le h (Nat.mul_le_mul_left _ ?_)
  refine List.countP_mono_left fun place _ hmoves => ?_
  rw [moves_iff] at hmoves ⊢
  omega

theorem map_eq_of_notMem (hnew : new ≠ []) (horder : places.Pairwise (· < ·))
    (hwithin : ∀ place ∈ places, place ≤ rope.length)
    (htx : replace rope (inserts places new) = some tx) {pos : Nat} (h : pos ∉ places) :
    tx.map pos true = tx.map pos false := by
  rw [map_inserts hnew horder hwithin htx, map_inserts hnew horder hwithin htx]
  have hcount : places.countP (Moves pos true) = places.countP (Moves pos false) := by
    refine List.countP_congr fun place hplace => ?_
    have hne : place ≠ pos := fun heq => h (heq ▸ hplace)
    rw [moves_iff, moves_iff]
    simp [hne]
  rw [hcount]

end Transaction

namespace Rope

/-! ## The lines with something put in at the start of some -/

variable {rope : Rope} {new : List Char} {marked : List Nat} {line : Nat}

theorem lineToChar_lt {line' : Nat} (h : line < line') (hline' : line' < lenLines rope) :
    lineToChar rope line < lineToChar rope line' := by
  obtain ⟨text, htext⟩ : ∃ text, (lines rope)[line]? = some text :=
    ⟨_, List.getElem?_eq_getElem
      (show line < (lines rope).length by rw [lenLines] at hline'; omega)⟩
  have hpos := List.length_pos_iff.mpr (ne_nil_of_lt_lenLines (by omega) htext)
  have hsucc := lineToChar_succ htext
  have hmono := lineToChar_mono rope (show line + 1 ≤ line' from h)
  omega

end Rope

namespace Lines

variable {rope : Rope} {line : Nat}

theorem lineToChar_lineOf_le (rope : Rope) (pos : Nat) :
    Rope.lineToChar rope (lineOf rope pos) ≤ pos :=
  Nat.le_trans (Rope.lineToChar_charToLine_le rope _) (Nat.min_le_left _ _)

theorem lineOf_lineToChar (h : line < Rope.lenLines rope) :
    lineOf rope (Rope.lineToChar rope line) = line := by
  rw [lineOf, Nat.min_eq_left (Rope.lineToChar_le_length rope line)]
  exact Rope.charToLine_eq_of_between h (Nat.le_refl _) fun hnext =>
    Rope.lineToChar_lt (Nat.lt_succ_self line) hnext

theorem lineOf_mono (rope : Rope) {pos later : Nat} (h : pos ≤ later) :
    lineOf rope pos ≤ lineOf rope later := by
  by_contra hlt
  have hnext : lineOf rope later + 1 < Rope.lenLines rope := by
    have hline := lineOf_lt rope pos
    omega
  have hbefore : min later rope.length < Rope.lineToChar rope (lineOf rope later + 1) :=
    Rope.lt_lineToChar_charToLine hnext
  have hmono := Rope.lineToChar_mono rope (show lineOf rope later + 1 ≤ lineOf rope pos by omega)
  have hstart : Rope.lineToChar rope (lineOf rope pos) ≤ min pos rope.length :=
    Rope.lineToChar_charToLine_le rope _
  omega

end Lines

namespace Rope

variable {rope : Rope} {new : List Char} {marked : List Nat} {line : Nat}

/-- What is put in at the start of a line. -/
def marks (marked : List Nat) (new : List Char) (line : Nat) : List Char :=
  if line ∈ marked then new else []

/-- The text with `new` at the start of the marked lines. -/
def withFronts (rope : Rope) (marked : List Nat) (new : List Char) : Rope :=
  (fronted (marks marked new) (lines rope)).flatten

theorem lines_withFronts (hnew : Unbroken new) :
    lines (withFronts rope marked new) = fronted (marks marked new) (lines rope) := by
  refine lines_fronted (fun line => ?_) rope
  rw [marks]
  split
  · exact hnew
  · exact fun c hc => absurd hc List.not_mem_nil

theorem lenLines_withFronts (hnew : Unbroken new) :
    lenLines (withFronts rope marked new) = lenLines rope := by
  rw [lenLines, lines_withFronts hnew, fronted, List.length_mapIdx, lenLines]

theorem weave_withFronts (horder : marked.Pairwise (· < ·))
    (hmarked : ∀ line ∈ marked, line < lenLines rope) :
    Splice.weave rope 0 (marked.map (frontSplice rope 0 new)) = withFronts rope marked new := by
  rw [@weave_frontSplice marked 0 0 0 new rope horder (fun line hline => ⟨Nat.zero_le _, _,
    List.getElem?_eq_getElem (hmarked line hline), Nat.zero_le _⟩) (Nat.zero_le _)]
  rw [lineToChar_zero, List.take_zero, List.drop_zero, List.nil_append, withFronts, fronted,
    refronted]
  refine congrArg List.flatten (congrArg (fun f => (lines rope).mapIdx f) ?_)
  funext i text
  rw [marks, Nat.zero_add, List.drop_zero]
  split <;> rfl

theorem getElem?_lines_withFronts (hnew : Unbroken new) (hline : line < lenLines rope) :
    ∃ raw, (lines rope)[line]? = some raw ∧
      (lines (withFronts rope marked new))[line]? = some (marks marked new line ++ raw) := by
  have hraw := List.getElem?_eq_getElem (show line < (lines rope).length from hline)
  refine ⟨_, hraw, ?_⟩
  rw [lines_withFronts hnew, fronted, List.getElem?_mapIdx, hraw, Option.map_some]

theorem lineToChar_add_le (hnew : Unbroken new) (hline : line < lenLines rope)
    (hmark : line ∈ marked) : lineToChar (withFronts rope marked new) line + new.length ≤
      lineToChar (withFronts rope marked new) (line + 1) := by
  obtain ⟨raw, -, hraw⟩ := @getElem?_lines_withFronts rope new marked line hnew hline
  rw [lineToChar_succ hraw, marks, if_pos hmark, List.length_append]
  omega

/-- Without what was put in the text is the one it was. -/
theorem weave_withoutFronts (hnew : Unbroken new) (horder : marked.Pairwise (· < ·))
    (hmarked : ∀ line ∈ marked, line < lenLines rope) :
    Splice.weave (withFronts rope marked new) 0
      (marked.map (frontSplice (withFronts rope marked new) new.length [])) = rope := by
  rw [@weave_frontSplice marked new.length 0 0 [] (withFronts rope marked new) horder
    (fun line hline => ?_) (Nat.zero_le _)]
  · have hsame : refronted marked new.length [] 0 (lines (withFronts rope marked new)) =
        lines rope := by
      rw [lines_withFronts hnew, refronted, fronted, List.mapIdx_eq_iff]
      intro line
      rw [List.getElem?_mapIdx]
      cases (lines rope)[line]? with
      | none => rfl
      | some raw =>
          rw [Option.map_some, Option.map_some, Nat.zero_add, marks]
          split
          · rw [List.drop_left, List.nil_append]
          · rw [List.nil_append]
    rw [lineToChar_zero, List.take_zero, List.drop_zero, List.drop_zero, List.nil_append, hsame,
      flatten_lines]
  · obtain ⟨raw, -, hraw⟩ :=
      @getElem?_lines_withFronts rope new marked line hnew (hmarked line hline)
    refine ⟨Nat.zero_le _, _, hraw, ?_⟩
    rw [marks, if_pos hline, List.length_append]
    exact Nat.le_add_right _ _

theorem countP_lt_succ (hnodup : marked.Nodup) : marked.countP (· < line + 1) =
    marked.countP (· < line) + if line ∈ marked then 1 else 0 := by
  induction marked with
  | nil => rfl
  | cons mark marked ih =>
      obtain ⟨hnot, hnodup⟩ := List.nodup_cons.mp hnodup
      rw [List.countP_cons, List.countP_cons, ih hnodup]
      simp only [List.mem_cons, decide_eq_true_eq]
      rcases Nat.lt_trichotomy mark line with hlt | rfl | hgt
      · rw [if_pos (show mark < line + 1 by omega), if_pos hlt]
        simp only [show line ≠ mark by omega, false_or]
        omega
      · rw [if_pos (Nat.lt_succ_self mark), if_neg (Nat.lt_irrefl mark), if_neg hnot,
          if_pos (.inl rfl)]
      · rw [if_neg (show ¬ mark < line + 1 by omega), if_neg (show ¬ mark < line by omega)]
        simp only [show line ≠ mark by omega, false_or]
        omega

/-- A line starts later by what is put in at the start of the lines before it. -/
theorem lineToChar_withFronts (hnew : Unbroken new) (hnodup : marked.Nodup)
    (hline : line ≤ lenLines rope) :
    lineToChar (withFronts rope marked new) line =
      lineToChar rope line + new.length * marked.countP (· < line) := by
  induction line with
  | zero =>
      rw [lineToChar_zero, lineToChar_zero,
        List.countP_eq_zero.mpr fun l _ => by simp, Nat.mul_zero]
  | succ line ih =>
      obtain ⟨text, htext⟩ : ∃ text, (lines rope)[line]? = some text :=
        ⟨_, List.getElem?_eq_getElem (show line < (lines rope).length from hline)⟩
      have htext' : (lines (withFronts rope marked new))[line]? =
          some (marks marked new line ++ text) := by
        rw [lines_withFronts hnew, fronted, List.getElem?_mapIdx, htext, Option.map_some]
      rw [lineToChar_succ htext', lineToChar_succ htext, ih (by omega), countP_lt_succ hnodup,
        List.length_append, marks, Nat.mul_add]
      by_cases hmem : line ∈ marked
      · rw [if_pos hmem, if_pos hmem, Nat.mul_one]
        omega
      · rw [if_neg hmem, if_neg hmem, List.length_nil]
        omega

end Rope

/-- `tx` puts `new` in at the start of the marked lines. -/
structure Fronts (rope : Rope) (marked : List Nat) (new : List Char) (tx : Transaction) : Prop where
  unbroken : Rope.Unbroken new
  nonempty : new ≠ []
  order : marked.Pairwise (· < ·)
  within : ∀ line ∈ marked, line < Rope.lenLines rope
  replace : Transaction.replace rope
    (Transaction.inserts (marked.map (Rope.lineToChar rope)) new) = some tx

namespace Fronts

open Rope (lineToChar lenLines withFronts)

variable {rope : Rope} {marked : List Nat} {new : List Char} {tx : Transaction} {pos line : Nat}

theorem places_order (horder : marked.Pairwise (· < ·))
    (hwithin : ∀ line ∈ marked, line < lenLines rope) :
    (marked.map (lineToChar rope)).Pairwise (· < ·) :=
  List.pairwise_map.mpr (horder.imp_of_mem fun _ hb hlt => Rope.lineToChar_lt hlt (hwithin _ hb))

theorem places_within (marked : List Nat) :
    ∀ place ∈ marked.map (lineToChar rope), place ≤ rope.length := by
  intro place hplace
  obtain ⟨line, -, rfl⟩ := List.mem_map.mp hplace
  exact Rope.lineToChar_le_length rope line

/-- What goes in at the start of lines makes the text with these fronts. -/
theorem exists_tx (rope : Rope) (hnew : new ≠ []) (hunbroken : Rope.Unbroken new)
    (horder : marked.Pairwise (· < ·)) (hwithin : ∀ line ∈ marked, line < lenLines rope) :
    ∃ tx, Fronts rope marked new tx ∧ tx.apply rope = some (withFronts rope marked new) ∧
      tx.invert.apply (withFronts rope marked new) = some rope := by
  have hdisjoint := @Transaction.disjoint_inserts rope new (marked.map (lineToChar rope))
    (places_order horder hwithin) (places_within marked)
  obtain ⟨tx, rope', htx, hsim⟩ := Transaction.replace_simultaneous rope _ hdisjoint
  have horder' : Transaction.inOrder (Transaction.inserts (marked.map (lineToChar rope)) new) =
      marked.map (Rope.frontSplice rope 0 new) := by
    rw [Transaction.inOrder, Transaction.mergeSort_earlier_of_order
      (fun edit hedit => (hdisjoint.within edit hedit).1)
      (List.pairwise_map.mpr ((places_order horder hwithin).imp fun hlt => Nat.le_of_lt hlt)),
      Transaction.inserts, List.map_map, List.map_map]
    rfl
  have htext := hsim.text
  rw [horder', Rope.weave_withFronts horder hwithin] at htext
  have happly := hsim.apply
  have hinvert := hsim.invert
  rw [htext] at happly hinvert
  exact ⟨tx, ⟨hunbroken, hnew, horder, hwithin, htx⟩, happly, hinvert⟩

theorem map_false_le (h : Fronts rope marked new tx) (pos : Nat) :
    tx.map pos false ≤ tx.map pos true :=
  Transaction.map_false_le h.nonempty (places_order h.order h.within) (places_within marked)
    h.replace pos

theorem map_lt (h : Fronts rope marked new tx) {later : Nat} (hlt : pos < later) :
    tx.map pos true < tx.map later false :=
  Transaction.map_lt h.nonempty (places_order h.order h.within) (places_within marked) h.replace hlt

/-- Before what goes in at its start, a line starts where it did. -/
theorem map_lineToChar (h : Fronts rope marked new tx) (hline : line < lenLines rope) :
    tx.map (lineToChar rope line) false = lineToChar (withFronts rope marked new) line := by
  have hcount : (marked.map (lineToChar rope)).countP
      (Transaction.Moves (lineToChar rope line) false) = marked.countP (· < line) := by
    rw [List.countP_map]
    refine List.countP_congr fun mark hmark => ?_
    rw [Function.comp_apply, Transaction.moves_iff, decide_eq_true_eq]
    constructor
    · rintro (hlt | ⟨hfalse, -⟩)
      · by_contra hge
        have hmono := Rope.lineToChar_mono rope (Nat.le_of_not_lt hge)
        omega
      · cases hfalse
    · exact fun hlt => .inl (Rope.lineToChar_lt hlt hline)
  rw [Transaction.map_inserts h.nonempty (places_order h.order h.within) (places_within marked)
    h.replace, hcount, Rope.lineToChar_withFronts h.unbroken (h.order.imp Nat.ne_of_lt)
    (Nat.le_of_lt hline)]

/-- The start of a line that is not marked does not move past anything. -/
theorem map_true_lineToChar (h : Fronts rope marked new tx) (hline : line < lenLines rope)
    (hmark : line ∉ marked) :
    tx.map (lineToChar rope line) true = lineToChar (withFronts rope marked new) line := by
  rw [← h.map_lineToChar hline]
  refine Transaction.map_eq_of_notMem h.nonempty (places_order h.order h.within)
    (places_within marked) h.replace fun hmem => ?_
  obtain ⟨mark, hin, heq⟩ := List.mem_map.mp hmem
  rcases Nat.lt_trichotomy mark line with hlt | rfl | hgt
  · have hless := Rope.lineToChar_lt hlt hline
    omega
  · exact hmark hin
  · have hless := Rope.lineToChar_lt hgt (h.within mark hin)
    omega

theorem apply (h : Fronts rope marked new tx) :
    tx.apply rope = some (withFronts rope marked new) := by
  obtain ⟨tx', h', happly, -⟩ := exists_tx rope h.nonempty h.unbroken h.order h.within
  have hreplace := h'.replace
  rw [h.replace, Option.some.injEq] at hreplace
  rw [hreplace, happly]

/-- A position stays in its line. -/
theorem lineOf_map (h : Fronts rope marked new tx) (pos : Nat) (past : Bool) :
    Lines.lineOf (withFronts rope marked new) (tx.map pos past) = Lines.lineOf rope pos := by
  have hlines := @Rope.lenLines_withFronts rope new marked h.unbroken
  have hline := Lines.lineOf_lt rope pos
  have hpast : tx.map pos false ≤ tx.map pos past ∧ tx.map pos past ≤ tx.map pos true := by
    cases past with
    | false => exact ⟨Nat.le_refl _, h.map_false_le pos⟩
    | true => exact ⟨h.map_false_le pos, Nat.le_refl _⟩
  rw [Lines.lineOf]
  refine Rope.charToLine_eq_of_between (by rw [hlines]; exact hline) ?_ fun hnext => ?_
  · have hstart := tx.map_mono false (Lines.lineToChar_lineOf_le rope pos)
    dsimp only at hstart
    rw [h.map_lineToChar hline] at hstart
    have hle := Rope.lineToChar_le_length (withFronts rope marked new) (Lines.lineOf rope pos)
    omega
  · rw [hlines] at hnext
    have hbefore : min pos rope.length < lineToChar rope (Lines.lineOf rope pos + 1) :=
      Rope.lt_lineToChar_charToLine hnext
    have hle := Rope.lineToChar_le_length rope (Lines.lineOf rope pos + 1)
    have hlt := h.map_lt (show pos < lineToChar rope (Lines.lineOf rope pos + 1) by omega)
    rw [h.map_lineToChar hnext] at hlt
    omega

/-- What takes the fronts away. -/
def removals (rope : Rope) (marked : List Nat) (new : List Char) : List (Nat × Nat × List Char) :=
  marked.map fun line => (lineToChar (withFronts rope marked new) line,
    lineToChar (withFronts rope marked new) line + new.length, [])

theorem removals_order (h : Fronts rope marked new tx) : marked.Pairwise fun line later =>
    lineToChar (withFronts rope marked new) line + new.length ≤
      lineToChar (withFronts rope marked new) later :=
  h.order.imp_of_mem fun hline _ hlt =>
    Nat.le_trans (Rope.lineToChar_add_le h.unbroken (h.within _ hline) hline)
      (Rope.lineToChar_mono _ hlt)

theorem disjoint_removals (h : Fronts rope marked new tx) :
    Transaction.Disjoint (withFronts rope marked new).length (removals rope marked new) where
  within := by
    intro edit hedit
    obtain ⟨line, hline, rfl⟩ := List.mem_map.mp hedit
    exact ⟨Nat.le_add_right _ _,
      Nat.le_trans (Rope.lineToChar_add_le h.unbroken (h.within line hline) hline)
        (Rope.lineToChar_le_length _ _)⟩
  apart := List.pairwise_map.mpr (h.removals_order.imp .inl)
  empty := by
    refine List.pairwise_map.mpr (h.removals_order.imp fun _ hempty => ?_)
    have hpos := List.length_pos_iff.mpr h.nonempty
    dsimp only at hempty
    omega

/-- Taking the fronts away gives back the text. -/
theorem exists_back (h : Fronts rope marked new tx) :
    ∃ back, Transaction.replace (withFronts rope marked new) (removals rope marked new) =
      some back ∧ back.apply (withFronts rope marked new) = some rope ∧
        back.invert.apply rope = some (withFronts rope marked new) := by
  obtain ⟨back, rope', hback, hsim⟩ := Transaction.replace_simultaneous _ _ h.disjoint_removals
  have hinOrder : Transaction.inOrder (removals rope marked new) =
      marked.map (Rope.frontSplice (withFronts rope marked new) new.length []) := by
    rw [Transaction.inOrder, Transaction.mergeSort_earlier_of_order
      (fun edit hedit => (h.disjoint_removals.within edit hedit).1)
      (List.pairwise_map.mpr h.removals_order), removals, List.map_map]
    rfl
  have htext := hsim.text
  rw [hinOrder, Rope.weave_withoutFronts h.unbroken h.order h.within] at htext
  have happly := hsim.apply
  have hinvert := hsim.invert
  rw [htext] at happly hinvert
  exact ⟨back, hback, happly, hinvert⟩

end Fronts

end Throng.Editor
