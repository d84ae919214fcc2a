import Throng.Editor.CommandsRun
import Throng.Lib.Leftmost

/-!
# Every match is found

The term occurs where a line, short of the LF that ends it, holds it but for case when
case does not count, and where it cuts no word when only whole words count. What is found
are the leftmost of these places apart; replacing the matches is one step of the history.
-/

namespace Throng.Editor

namespace Find

variable (letters : Letters)

/-- No two parts of a word stand next to each other at the ends of the `n` characters at `i`
of a line. The LF that ends the line is outside. -/
structure WholeWord (text : List Char) (i n : Nat) : Prop where
  before : ∀ c d, 0 < i → text[i - 1]? = some c → text[i]? = some d →
    ¬ (letters.word c = true ∧ letters.word d = true)
  after : ∀ c d, d ≠ '\n' → text[i + n - 1]? = some c → text[i + n]? = some d →
    ¬ (letters.word c = true ∧ letters.word d = true)

/-- The term stands at `i` of a line. -/
structure OnLine (query : Query) (line : List Char) (i : Nat) : Prop where
  nonempty : query.term ≠ []
  within : i + query.term.length ≤ line.length
  short : '\n' ∉ (line.drop i).take query.term.length
  same : compared letters query ((line.drop i).take query.term.length) =
    compared letters query query.term
  whole : query.wholeWord = true → WholeWord letters line i query.term.length

/-- The term stands at `a` of a text. -/
def Occurs (rope : Rope) (query : Query) (a : Nat) : Prop :=
  ∃ before line after i, Rope.lines rope = before ++ line :: after ∧
    a = before.flatten.length + i ∧ OnLine letters query line i ∧
      (line.drop i).take query.term.length = (rope.drop a).take query.term.length

variable {letters} {query : Query} {line : List Char} {i n : Nat}

/-! ## One line -/

theorem isWord_iff (c : Option Char) :
    isWord letters c = true ↔ ∃ d, c = some d ∧ letters.word d = true := by
  cases c <;> simp [isWord]

theorem standsAlone_iff : standsAlone letters line i n = true ↔ WholeWord letters line i n := by
  rw [standsAlone, Bool.and_eq_true, Bool.not_eq_true', Bool.not_eq_true', Bool.and_eq_false_iff,
    Bool.and_eq_false_iff, ← Bool.not_eq_true, ← Bool.not_eq_true, ← Bool.not_eq_true,
    ← Bool.not_eq_true, isWord_iff, isWord_iff, isWord_iff, isWord_iff, ← not_and_or, ← not_and_or]
  constructor
  · rintro ⟨hbefore, hafter⟩
    refine ⟨fun c d hi hc hd hword => hbefore ?_, fun c d hne hc hd hword => hafter ?_⟩
    · rw [if_neg (Nat.pos_iff_ne_zero.mp hi)]
      exact ⟨⟨c, hc, hword.1⟩, ⟨d, hd, hword.2⟩⟩
    · rw [hd, Option.filter_some, if_pos (decide_eq_true hne)]
      exact ⟨⟨c, hc, hword.1⟩, ⟨d, rfl, hword.2⟩⟩
  · rintro ⟨hbefore, hafter⟩
    refine ⟨?_, ?_⟩
    · rintro ⟨⟨c, hc, hwordc⟩, ⟨d, hd, hwordd⟩⟩
      split at hc
      · cases hc
      · next hi => exact hbefore c d (Nat.pos_of_ne_zero hi) hc hd ⟨hwordc, hwordd⟩
    · rintro ⟨⟨c, hc, hwordc⟩, ⟨d, hd, hwordd⟩⟩
      obtain ⟨hd, hne⟩ := Option.filter_eq_some_iff.mp hd
      exact hafter c d (of_decide_eq_true hne) hc hd ⟨hwordc, hwordd⟩

/-- A line has an LF at its end only. -/
theorem exists_body {rope : Rope} (hline : line ∈ Rope.lines rope) :
    ∃ body, '\n' ∉ body ∧ (line = body ∨ line = body ++ ['\n']) := by
  induction rope generalizing line with
  | nil =>
      rw [Rope.lines, List.mem_singleton] at hline
      exact ⟨[], List.not_mem_nil, .inl hline⟩
  | cons c rest ih =>
      rw [Rope.lines] at hline
      split at hline
      · next hends =>
          rcases List.mem_cons.mp hline with rfl | hline
          · by_cases hc : c = '\n'
            · exact ⟨[], List.not_mem_nil, .inr (by rw [hc, List.nil_append])⟩
            · exact ⟨[c], by simpa using Ne.symm hc, .inl rfl⟩
          · exact ih hline
      · next hends =>
          have hc : c ≠ '\n' := by
            rintro rfl
            exact hends (by simp [Rope.endsLine, Rope.isBreak])
          cases hlines : Rope.lines rest with
          | nil => exact absurd hlines (Rope.lines_ne_nil rest)
          | cons first others =>
              rw [hlines] at ih
              rw [hlines, SplitLines.consLine] at hline
              rcases List.mem_cons.mp hline with rfl | hline
              · obtain ⟨body, hbody, hfirst⟩ := ih List.mem_cons_self
                refine ⟨c :: body, by simp [Ne.symm hc, hbody], ?_⟩
                rcases hfirst with rfl | rfl
                · exact .inl rfl
                · exact .inr rfl
              · exact ih (List.mem_cons_of_mem _ hline)

theorem filter_body {body : List Char} (hbody : '\n' ∉ body)
    (hline : line = body ∨ line = body ++ ['\n']) : line.filter (fun c => c ≠ '\n') = body := by
  have hkept : body.filter (fun c => c ≠ '\n') = body :=
    List.filter_eq_self.mpr fun c hc => decide_eq_true fun h => hbody (h ▸ hc)
  rcases hline with rfl | rfl
  · exact hkept
  · rw [List.filter_append, hkept]
    exact List.append_nil _

theorem take_body {body : List Char} (hline : line = body ∨ line = body ++ ['\n'])
    (hlen : i + n ≤ body.length) : (line.drop i).take n = (body.drop i).take n := by
  rcases hline with rfl | rfl
  · rfl
  · rw [List.drop_append_of_le_length (by omega),
      List.take_append_of_le_length (by rw [List.length_drop]; omega)]

/-- Short of the LF that ends a line is in its body. -/
theorem within_body {body : List Char} (hbody : '\n' ∉ body) (hn : 0 < n)
    (hline : line = body ∨ line = body ++ ['\n']) :
    (i + n ≤ line.length ∧ '\n' ∉ (line.drop i).take n) ↔ i + n ≤ body.length := by
  constructor
  · rintro ⟨hlen, hshort⟩
    rcases hline with rfl | rfl
    · exact hlen
    · by_contra hover
      rw [List.length_append, List.length_singleton] at hlen
      refine hshort (List.mem_iff_getElem?.mpr ⟨body.length - i, ?_⟩)
      rw [List.getElem?_take, if_pos (by omega), List.getElem?_drop,
        show i + (body.length - i) = body.length by omega, List.getElem?_concat_length]
  · intro hlen
    have hle : body.length ≤ line.length := by
      rcases hline with rfl | rfl
      · exact Nat.le_refl _
      · rw [List.length_append]
        exact Nat.le_add_right _ _
    refine ⟨by omega, fun hmem => hbody ?_⟩
    rw [take_body hline hlen] at hmem
    exact List.mem_of_mem_drop (List.mem_of_mem_take hmem)

theorem drop_sub_cons {a : Nat} (c : Char) (hay : List Char) (h : i + 1 ≤ a) :
    (c :: hay).drop (a - i) = hay.drop (a - (i + 1)) := by
  rw [show a - i = a - (i + 1) + 1 by omega, List.drop_succ_cons]

/-- The scan of a line picks the leftmost places that are accepted. -/
theorem starts_leftmost {needle : List Char} (hne : needle ≠ []) (accept : Nat → Bool)
    (i skip : Nat) (hay : List Char) :
    Leftmost needle.length
      (fun a => i + skip ≤ a ∧ needle <+: hay.drop (a - i) ∧ accept a = true)
      (starts needle accept i skip hay) := by
  have hpos : 0 < needle.length := List.length_pos_iff.mpr hne
  fun_induction starts needle accept i skip hay with
  | case1 =>
      refine .nil ?_
      rintro a ⟨-, hstands, -⟩
      rw [List.drop_nil, List.prefix_nil] at hstands
      exact hne hstands
  | case2 i skip c hay ih =>
      refine (Leftmost.congr fun a => ?_).mp ih
      rw [show i + (skip + 1) = i + 1 + skip by omega]
      refine and_congr_right fun hle => ?_
      rw [drop_sub_cons c hay (by omega)]
  | case3 i c hay hfound ih =>
      rw [Bool.and_eq_true, List.isPrefixOf_iff_prefix] at hfound
      refine .cons ⟨Nat.le_refl _, by rw [Nat.sub_self]; exact hfound.1, hfound.2⟩
        (fun b hb => hb.1) ((Leftmost.congr fun a => ?_).mp ih)
      rw [show i + 1 + (needle.length - 1) = i + needle.length by omega]
      refine and_congr_right fun hle => ?_
      rw [drop_sub_cons c hay (by omega)]
      exact (and_iff_right (by omega)).symm
  | case4 i c hay hmissing ih =>
      refine (Leftmost.congr fun a => ?_).mp ih
      constructor
      · rintro ⟨hle, hstands, haccept⟩
        rw [← drop_sub_cons c hay (by omega)] at hstands
        exact ⟨by omega, hstands, haccept⟩
      · rintro ⟨hle, hstands, haccept⟩
        rcases Nat.eq_or_lt_of_le hle with rfl | hlt
        · rw [Nat.add_zero, Nat.sub_self, List.drop_zero] at hstands
          refine absurd ?_ hmissing
          rw [Bool.and_eq_true, List.isPrefixOf_iff_prefix]
          exact ⟨hstands, haccept⟩
        · rw [drop_sub_cons c hay (by omega)] at hstands
          exact ⟨by omega, hstands, haccept⟩

theorem compared_drop (text : List Char) :
    (compared letters query text).drop i = compared letters query (text.drop i) := by
  rw [compared, compared]
  split
  · rfl
  · exact List.map_drop.symm

theorem compared_take (text : List Char) :
    (compared letters query text).take n = compared letters query (text.take n) := by
  rw [compared, compared]
  split
  · rfl
  · exact List.map_take.symm

theorem prefix_drop_compared {text : List Char} (hterm : query.term ≠ []) :
    compared letters query query.term <+: (compared letters query text).drop i ↔
      i + query.term.length ≤ text.length ∧
        compared letters query ((text.drop i).take query.term.length) =
          compared letters query query.term := by
  have hpos : 0 < query.term.length := List.length_pos_iff.mpr hterm
  rw [List.prefix_iff_eq_take, length_compared, compared_drop, compared_take]
  constructor
  · intro h
    have hlen := congrArg List.length h
    rw [length_compared, length_compared, List.length_take, List.length_drop] at hlen
    exact ⟨by omega, h.symm⟩
  · exact fun h => h.2.symm

/-- What `find_all` finds on a line. -/
theorem line_leftmost {rope : Rope} (hterm : query.term ≠ []) (hline : line ∈ Rope.lines rope) :
    Leftmost query.term.length (OnLine letters query line)
      (starts (compared letters query query.term)
        (fun i => !query.wholeWord || standsAlone letters line i query.term.length) 0 0
        (compared letters query (line.filter fun c => c ≠ '\n'))) := by
  have hne : compared letters query query.term ≠ [] := by
    rw [Ne, ← List.length_eq_zero_iff, length_compared, List.length_eq_zero_iff]
    exact hterm
  have hpos : 0 < query.term.length := List.length_pos_iff.mpr hterm
  obtain ⟨body, hbody, hends⟩ := exists_body hline
  have hscan := starts_leftmost hne
    (fun i => !query.wholeWord || standsAlone letters line i query.term.length) 0 0
    (compared letters query (line.filter fun c => c ≠ '\n'))
  rw [length_compared] at hscan
  refine (Leftmost.congr fun a => ?_).mp hscan
  rw [Nat.sub_zero, prefix_drop_compared hterm, filter_body hbody hends, Bool.or_eq_true,
    Bool.not_eq_true', standsAlone_iff]
  constructor
  · rintro ⟨-, ⟨hlen, hsame⟩, hwhole⟩
    obtain ⟨hwithin, hshort⟩ := (within_body hbody hpos hends).mpr hlen
    rw [← take_body hends hlen] at hsame
    exact ⟨hterm, hwithin, hshort, hsame, fun hword => hwhole.resolve_left (by simp [hword])⟩
  · rintro ⟨-, hwithin, hshort, hsame, hwhole⟩
    have hlen := (within_body hbody hpos hends).mp ⟨hwithin, hshort⟩
    rw [take_body hends hlen] at hsame
    refine ⟨Nat.zero_le _, ⟨hlen, hsame⟩, ?_⟩
    cases hword : query.wholeWord with
    | false => exact .inl rfl
    | true => exact .inr (hwhole hword)

/-! ## The whole text -/

/-- The term stands at `a` in lines the first of which begins at `start`. -/
def InLines (letters : Letters) (query : Query) (start : Nat) (lines : List (List Char))
    (a : Nat) : Prop :=
  ∃ before line after i, lines = before ++ line :: after ∧
    a = start + (before.flatten.length + i) ∧ OnLine letters query line i

theorem inLines_cons {start : Nat} {lines : List (List Char)} {a : Nat} :
    InLines letters query start (line :: lines) a ↔
      (∃ i, a = start + i ∧ OnLine letters query line i) ∨
        InLines letters query (start + line.length) lines a := by
  constructor
  · rintro ⟨before, found, after, i, hlines, rfl, hfound⟩
    cases before with
    | nil =>
        rw [List.nil_append, List.cons.injEq] at hlines
        obtain ⟨rfl, -⟩ := hlines
        exact .inl ⟨i, by rw [List.flatten_nil, List.length_nil, Nat.zero_add], hfound⟩
    | cons first before =>
        rw [List.cons_append, List.cons.injEq] at hlines
        obtain ⟨rfl, hlines⟩ := hlines
        refine .inr ⟨before, found, after, i, hlines, ?_, hfound⟩
        rw [List.flatten_cons, List.length_append]
        omega
  · rintro (⟨i, rfl, hfound⟩ | ⟨before, found, after, i, rfl, rfl, hfound⟩)
    · exact ⟨[], line, lines, i, rfl,
        by rw [List.flatten_nil, List.length_nil, Nat.zero_add], hfound⟩
    · refine ⟨line :: before, found, after, i, rfl, ?_, hfound⟩
      rw [List.flatten_cons, List.length_append]
      omega

theorem findLines_leftmost {rope : Rope} (hterm : query.term ≠ []) (lines : List (List Char))
    (hlines : ∀ line ∈ lines, line ∈ Rope.lines rope) (start : Nat) :
    ∃ places, Leftmost query.term.length (InLines letters query start lines) places ∧
      findLines letters query start lines =
        places.map fun a => (a, a + query.term.length) := by
  induction lines generalizing start with
  | nil =>
      refine ⟨[], .nil ?_, rfl⟩
      rintro a ⟨before, found, after, i, hnil, -⟩
      exact absurd hnil.symm (by simp)
  | cons line lines ih =>
      obtain ⟨later, hlater, hfound⟩ := ih (fun l hl => hlines l (List.mem_cons_of_mem _ hl))
        (start + line.length)
      have hline := (@line_leftmost letters query line _ hterm
        (hlines line List.mem_cons_self)).shift start
      refine ⟨_, (Leftmost.congr fun a => inLines_cons.symm).mp (hline.append hlater ?_), ?_⟩
      · rintro a b ⟨i, rfl, hi⟩ ⟨before, found, after, j, -, rfl, -⟩
        have hwithin := hi.within
        omega
      · rw [findLines, hfound, List.map_append, List.map_map, length_compared]
        rfl

theorem occurs_iff {rope : Rope} {a : Nat} :
    Occurs letters rope query a ↔ InLines letters query 0 (Rope.lines rope) a := by
  refine exists_congr fun before => exists_congr fun line => exists_congr fun after =>
    exists_congr fun i => ?_
  rw [Nat.zero_add]
  refine and_congr_right fun hlines => and_congr_right fun ha =>
    and_iff_left_of_imp fun hfound => ?_
  have hwithin := hfound.within
  have hrope : rope = before.flatten ++ (line ++ after.flatten) := by
    rw [← flatten_lines rope, hlines, List.flatten_append, List.flatten_cons]
  rw [ha, hrope, List.drop_length_add_append, List.drop_append_of_le_length (by omega),
    List.take_append_of_le_length (by rw [List.length_drop]; omega)]

/-- Where there is a term, one choice of places is what is found without a limit. -/
theorem findAll_leftmost (letters : Letters) (rope : Rope) {query : Query}
    (hterm : '\n' ∉ query.term) :
    ∃ places, Leftmost query.term.length (Occurs letters rope query) places ∧
      ∀ limit, findAll letters rope query limit =
        (places.map fun a => (a, a + query.term.length)).take (max limit 1) := by
  by_cases hnil : query.term = []
  · refine ⟨[], .nil ?_, fun limit => ?_⟩
    · rintro a ⟨before, line, after, i, -, -, hfound, -⟩
      exact hfound.nonempty hnil
    · rw [findAll, if_pos (.inl hnil), List.map_nil, List.take_nil]
  · obtain ⟨places, hplaces, hfound⟩ :=
      @findLines_leftmost letters query rope hnil (Rope.lines rope) (fun _ h => h) 0
    refine ⟨places, (Leftmost.congr fun a => occurs_iff.symm).mp hplaces, fun limit => ?_⟩
    rw [findAll, if_neg (not_or.mpr ⟨hnil, hterm⟩), hfound]

/-! ## Replacing the matches -/

/-- Replacing the ranges makes `doc'` of `doc`: each range is replaced, the rest kept, and
one undo takes the text and the selection back, unless nothing has changed. -/
structure ReplacedAll (doc doc' : TextDoc) (selection : Selection) (ranges : List (Nat × Nat))
    (replacement : List Char) : Prop where
  text : doc'.rope =
    Splice.weave doc.rope 0 (ranges.map fun range => ⟨range.1, range.2, replacement⟩)
  undone : doc' = doc ∨ ∃ back applied,
    doc'.undo = some (back, some (applied, selection.clamp doc.rope.length)) ∧ back.rope = doc.rope

section

variable {rope : Rope} {ranges : List (Nat × Nat)} {n : Nat}

theorem ranged_nil (n low high : Nat) : Ranged n low high [] where
  length _ h := absurd h List.not_mem_nil
  low_le _ h := absurd h List.not_mem_nil
  le_high _ h := absurd h List.not_mem_nil
  ordered := .nil

/-- The matches as they are replaced. -/
def editsAt (ranges : List (Nat × Nat)) (replacement : List Char) : List (Nat × Nat × List Char) :=
  ranges.map fun range => (range.1, range.2, replacement)

theorem disjoint_editsAt (h : Ranged n 0 rope.length ranges) (hn : 0 < n)
    (replacement : List Char) :
    Transaction.Disjoint rope.length (editsAt ranges replacement) where
  within := by
    intro edit hedit
    obtain ⟨range, hrange, rfl⟩ := List.mem_map.mp hedit
    have hlength := h.length range hrange
    exact ⟨by dsimp only; omega, h.le_high range hrange⟩
  apart := List.pairwise_map.mpr (h.ordered.imp .inl)
  empty := by
    refine List.pairwise_map.mpr (h.ordered.imp_of_mem ?_)
    intro a b ha _ _ hempty
    have hlength := h.length a ha
    dsimp only at hempty
    omega

theorem inOrder_editsAt (h : Ranged n 0 rope.length ranges) (hn : 0 < n)
    (replacement : List Char) :
    Transaction.inOrder (editsAt ranges replacement) =
      ranges.map fun range => ⟨range.1, range.2, replacement⟩ := by
  rw [Transaction.inOrder, Transaction.mergeSort_earlier_of_order
    (fun edit hedit => ((disjoint_editsAt h hn replacement).within edit hedit).1)
    (List.pairwise_map.mpr h.ordered), editsAt, List.map_map]
  rfl

/-- An edit of no kind of its own never joins the step before it. -/
theorem merges_other (history : History) {revision : Revision} (h : revision.kind = .other) :
    history.merges revision = false := by
  rw [History.merges, Bool.and_eq_false_iff]
  refine .inr ?_
  cases history.undo.getLast? with
  | none => rfl
  | some last =>
      rw [Option.any_some, canMerge]
      by_cases hkind : last.kind = .other
      · rw [if_pos (by simp [hkind])]
      · rw [if_pos (by simp [h, hkind])]

theorem exists_replacedAll (doc : TextDoc) (h : Ranged n 0 doc.rope.length ranges) (hn : 0 < n)
    (replacement : List Char) (selection after : Selection) (nowMs : Nat) :
    ∃ tx doc' applied, replaceAll doc.rope ranges replacement = some tx ∧
      doc.edit tx selection after .other nowMs = some (doc', applied) ∧
        ReplacedAll doc doc' selection ranges replacement := by
  obtain ⟨tx, rope', htx, hsim⟩ :=
    Transaction.replace_simultaneous doc.rope (editsAt ranges replacement)
      (disjoint_editsAt h hn replacement)
  have htext : rope' =
      Splice.weave doc.rope 0 (ranges.map fun range => ⟨range.1, range.2, replacement⟩) := by
    rw [hsim.text, inOrder_editsAt h hn]
  cases hempty : tx.isEmpty with
  | true =>
      have hsame := hsim.apply
      rw [Transaction.apply, List.isEmpty_iff.mp hempty, List.foldlM_nil] at hsame
      refine ⟨tx, doc, none, htx, by rw [TextDoc.edit, if_pos hempty], ?_, .inl rfl⟩
      rw [← htext]
      exact Option.some.inj hsame
  | false =>
      obtain ⟨doc', applied, hedit, hrope, hhistory⟩ :=
        Commands.exists_edit_record hempty hsim.apply selection after .other nowMs
      have hback := hsim.invert
      rw [← hrope] at hback htext
      exact ⟨tx, doc', some applied, htx, hedit, htext,
        .inr (Commands.exists_undo_of_record hhistory hback (merges_other _ rfl))⟩

end

/-- What is found in the text are the ranges at `places`, as many as the limit allows and
the first whatever it is; replacing them is one step. -/
structure Exact (letters : Letters) (rope : Rope) (query : Query) (places : List Nat) : Prop where
  all : ∀ limit, places.length ≤ limit → findAll letters rope query limit =
    places.map fun a => (a, a + query.term.length)
  limited : ∀ limit, findAll letters rope query limit =
    (places.map fun a => (a, a + query.term.length)).take (max limit 1)
  replaced : ∀ (limit : Nat) (replacement : List Char) (doc : TextDoc) (selection after : Selection)
    (nowMs : Nat), doc.rope = rope → ∃ tx doc' applied,
      replaceAll rope (findAll letters rope query limit) replacement = some tx ∧
        doc.edit tx selection after .other nowMs = some (doc', applied) ∧
          ReplacedAll doc doc' selection (findAll letters rope query limit) replacement

/-- What is found without a limit are the leftmost occurrences apart, and there is no other
such choice. -/
theorem findAll_exact (letters : Letters) (rope : Rope) (query : Query)
    (hterm : '\n' ∉ query.term) :
    ∃ places, Exact letters rope query places ∧
      ∀ others, Leftmost query.term.length (Occurs letters rope query) others ↔
        others = places := by
  obtain ⟨places, hplaces, hfound⟩ := findAll_leftmost letters rope hterm
  refine ⟨places, ⟨fun limit hlimit => ?_, hfound, ?_⟩, fun others => ?_⟩
  · rw [hfound, List.take_of_length_le (by rw [List.length_map]; omega)]
  · rintro limit replacement doc selection after nowMs rfl
    by_cases hnil : query.term = []
    · rw [findAll, if_pos (.inl hnil)]
      exact exists_replacedAll doc (ranged_nil _ _ _) Nat.one_pos replacement selection after nowMs
    · exact exists_replacedAll doc (ranged_findAll doc.rope query limit)
        (List.length_pos_iff.mpr hnil) replacement selection after nowMs
  · exact ⟨fun h => h.unique hplaces, fun h => h ▸ hplaces⟩

/-- A whole word in any case, behind a match that is part of a word. -/
theorem findAll_exact_word : '\n' ∉ ['a', 'b'] ∧ ∃ places,
    Exact ⟨asciiTable, fun c => [c.toLower]⟩ ['a', 'b', 'a', 'b', ' ', 'A', 'b', '\n']
      ⟨['a', 'b'], false, true⟩ places ∧
    ∀ others, Leftmost 2 (Occurs ⟨asciiTable, fun c => [c.toLower]⟩
      ['a', 'b', 'a', 'b', ' ', 'A', 'b', '\n'] ⟨['a', 'b'], false, true⟩) others ↔
        others = places :=
  ⟨by decide, findAll_exact _ _ _ (by decide)⟩

example : findAll ⟨asciiTable, fun c => [c.toLower]⟩ ['a', 'b', 'a', 'b', ' ', 'A', 'b', '\n']
    ⟨['a', 'b'], false, true⟩ 9 = [(5, 7)] := by decide

end Find

end Throng.Editor
