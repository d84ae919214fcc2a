import Throng.App.CommitRun
import Throng.Editor.FindExact
import Throng.Lib.SpliceLines

/-!
# What a search lists, and what it replaces on disk

A listed match carries the text at its range, and what is shown of its line has that text at the
span that is marked, whatever was cut. On disk the matches that still stand are replaced all at
once, and the other lines keep their text and their terminators.
-/

namespace Throng

open Editor (Letters Query Rope)
open Text (Diff LineEnding TextFormat)

namespace FileSearch

variable {letters : Letters} {query : Query} {rope : Rope} {line : List Char}

/-! ## Snippets -/

theorem exists_backUp (low : Nat) {n : Nat} (hn : n ≤ line.length) :
    ∃ m ≤ n, backUp line low n = some m := by
  induction n with
  | zero => exact ⟨0, Nat.le_refl 0, rfl⟩
  | succ n ih =>
      obtain ⟨m, hm, hback⟩ := ih (Nat.le_of_succ_le hn)
      rw [backUp, List.getElem?_eq_getElem hn, Option.bind_some]
      split
      · exact ⟨n + 1, Nat.le_refl _, rfl⟩
      · exact ⟨m, Nat.le_succ_of_le hm, hback⟩

theorem exists_skipIndent {n i : Nat} (h : i + n ≤ line.length) :
    ∃ m, i ≤ m ∧ m ≤ i + n ∧ skipIndent line n i = some m := by
  induction n generalizing i with
  | zero => exact ⟨i, Nat.le_refl i, Nat.le_refl i, rfl⟩
  | succ n ih =>
      obtain ⟨m, hlow, hhigh, hskip⟩ := @ih (i + 1) (by omega)
      rw [skipIndent, List.getElem?_eq_getElem (by omega), Option.bind_some]
      split
      · exact ⟨m, by omega, by omega, hskip⟩
      · exact ⟨i, Nat.le_refl i, by omega, rfl⟩

theorem reach_le (high i : Nat) (rest : List Char) :
    i ≤ reach high i rest ∧ reach high i rest ≤ i + rest.length := by
  induction rest generalizing i with
  | nil => exact ⟨Nat.le_refl i, Nat.le_refl i⟩
  | cons c rest ih =>
      obtain ⟨hlow, hhigh⟩ := ih (i + 1)
      rw [reach, List.length_cons]
      split
      · exact ⟨by omega, by omega⟩
      · exact ⟨Nat.le_refl i, Nat.le_add_right _ _⟩

/-- What is shown has the text of the match at the span. -/
structure Shows (text : List Char) (shown : List Char × (Nat × Nat)) : Prop where
  ordered : shown.2.1 ≤ shown.2.2
  within : shown.2.2 ≤ shown.1.length
  same : (shown.1.take shown.2.2).drop shown.2.1 = text

theorem shows_cut {first last start stop : Nat} (hfirst : first ≤ start) (hle : start ≤ stop)
    (hlast : stop ≤ last) (hlen : last ≤ line.length) (front back : List Char) :
    Shows ((line.take stop).drop start)
      (front ++ (line.take last).drop first ++ back,
        (start - first + front.length, stop - first + front.length)) := by
  have hmiddle : ((line.take last).drop first).length = last - first := by
    rw [List.length_drop, List.length_take_of_le hlen]
  refine ⟨by dsimp only; omega, ?_, ?_⟩
  · rw [List.length_append, List.length_append, hmiddle]
    dsimp only
    omega
  · dsimp only
    rw [Nat.add_comm (stop - first), Nat.add_comm (start - first), List.append_assoc,
      List.take_length_add_append, List.drop_length_add_append,
      List.take_append_of_le_length (by rw [hmiddle]; omega), List.take_drop, List.take_take,
      List.drop_drop]
    congr 1
    · omega
    · congr 1
      omega

/-- A snippet shows the text of its match, wherever that is in the line. -/
theorem snippet_shows {start stop : Nat} (hle : start ≤ stop) (hlen : stop ≤ line.length) :
    ∃ shown, snippet line start stop = some shown ∧ Shows ((line.take stop).drop start) shown := by
  obtain ⟨word, hword, hback⟩ := exists_backUp (start - (context + 12))
    (show start - context ≤ line.length by omega)
  obtain ⟨first, hlow, hhigh, hskip⟩ := @exists_skipIndent line (start - word) word (by omega)
  have hreach := reach_le (stop + context + 12) (min (stop + context) line.length)
    (line.drop (min (stop + context) line.length))
  rw [List.length_drop] at hreach
  rw [snippet, hback, Option.bind_some]
  dsimp only
  rw [hskip, Option.bind_some, if_pos (by omega)]
  refine ⟨_, rfl, ?_⟩
  have hcut := @shows_cut line first _ start stop (by omega) hle
    (show stop ≤ reach (stop + context + 12) (min (stop + context) line.length)
      (line.drop (min (stop + context) line.length)) by omega) (by omega)
    (List.replicate (if (line.take first).any fun c => !isWhitespace c then 1 else 0) '…')
    (if reach (stop + context + 12) (min (stop + context) line.length)
      (line.drop (min (stop + context) line.length)) < line.length then ['…'] else [])
  rw [List.length_replicate] at hcut
  exact hcut

/-! ## Rows -/

/-- A row carries the text at its range, with the line that is in, and shows it. -/
structure Exact (rope : Rope) (row : Row) : Prop where
  within : row.start ≤ row.stop ∧ row.stop ≤ rope.length
  found : row.found = (rope.take row.stop).drop row.start
  line : row.line = Editor.Lines.lineOf rope row.start
  shows : Shows row.found (row.snippet, row.span)

theorem trimmed_body {body : List Char} (hbody : '\n' ∉ body)
    (hline : line = body ∨ line = body ++ ['\n']) : Editor.Lines.trimmed line = body := by
  rw [Editor.Lines.trimmed]
  rcases hline with rfl | rfl
  · exact if_neg fun hlast => hbody (List.mem_of_getLast? hlast)
  · rw [if_pos List.getLast?_concat, List.dropLast_concat]

/-- Where a match is in its line. -/
theorem occurs_line {a : Nat} (h : Editor.Find.Occurs letters rope query a) :
    Editor.Lines.lineStart rope (Editor.Lines.lineOf rope a) ≤ a ∧
      a - Editor.Lines.lineStart rope (Editor.Lines.lineOf rope a) + query.term.length ≤
        (Editor.Lines.lineText rope (Editor.Lines.lineOf rope a)).length ∧
      ((Editor.Lines.lineText rope (Editor.Lines.lineOf rope a)).drop
          (a - Editor.Lines.lineStart rope (Editor.Lines.lineOf rope a))).take query.term.length =
        (rope.drop a).take query.term.length := by
  obtain ⟨before, text, after, i, hlines, rfl, hfound, hsame⟩ := h
  have hpos : 0 < query.term.length := List.length_pos_iff.mpr hfound.nonempty
  have hwithin := hfound.within
  have hget : (Rope.lines rope)[before.length]? = some text := by
    rw [hlines, List.getElem?_append_right (Nat.le_refl _), Nat.sub_self]
    rfl
  have hlt : before.length < Rope.lenLines rope := (List.getElem?_eq_some_iff.1 hget).1
  have hstart : Rope.lineToChar rope before.length = before.flatten.length := by
    rw [Rope.lineToChar, hlines, List.take_left]
  have hnext := Rope.lineToChar_succ hget
  have hlen := Rope.lineToChar_le_length rope (before.length + 1)
  have hline : Editor.Lines.lineOf rope (before.flatten.length + i) = before.length := by
    rw [Editor.Lines.lineOf, Nat.min_eq_left (by omega)]
    exact Rope.charToLine_eq_of_between hlt (by omega) fun _ => by omega
  have hmin : min before.length (Rope.lenLines rope - 1) = before.length := by omega
  obtain ⟨body, hbody, hends⟩ := @Editor.Find.exists_body text rope
    (hlines ▸ List.mem_append_right _ List.mem_cons_self)
  have hbodylen := (Editor.Find.within_body hbody hpos hends).1 ⟨hwithin, hfound.short⟩
  rw [hline, Editor.Lines.lineStart, Editor.Lines.lineText, hmin, hstart,
    List.getD_eq_getElem?_getD, hget, Option.getD_some, trimmed_body hbody hends,
    Nat.add_sub_cancel_left, ← hsame, Editor.Find.take_body hends hbodylen]
  exact ⟨Nat.le_add_right _ _, hbodylen, rfl⟩

theorem occurs_of_mem {limit : Nat} {range : Nat × Nat}
    (h : range ∈ Editor.Find.findAll letters rope query limit) :
    Editor.Find.Occurs letters rope query range.1 ∧ range.2 = range.1 + query.term.length := by
  refine ⟨?_, (@Editor.Find.ranged_findAll letters rope query limit).length range h⟩
  by_cases hterm : '\n' ∈ query.term
  · rw [Editor.Find.findAll, if_pos (.inr hterm)] at h
    cases h
  · obtain ⟨places, hplaces, hfound⟩ := Editor.Find.findAll_leftmost letters rope hterm
    rw [hfound] at h
    obtain ⟨a, ha, rfl⟩ := List.mem_map.1 (List.mem_of_mem_take h)
    exact hplaces.sound a ha

/-- A list of results that each come out. -/
theorem exists_mapM {α β γ : Type} {f : α → Option β} {g : α → γ} {g' : β → γ} {P : β → Prop}
    {l : List α} (h : ∀ a ∈ l, ∃ b, f a = some b ∧ g' b = g a ∧ P b) :
    ∃ results, l.mapM f = some results ∧ results.map g' = l.map g ∧ ∀ b ∈ results, P b := by
  induction l with
  | nil => exact ⟨[], rfl, rfl, nofun⟩
  | cons a l ih =>
      obtain ⟨b, hb, hsame, hP⟩ := h a List.mem_cons_self
      obtain ⟨results, hresults, hmap, hall⟩ := ih fun a ha => h a (List.mem_cons_of_mem _ ha)
      refine ⟨b :: results, ?_, ?_, ?_⟩
      · rw [List.mapM_cons, hb, hresults]
        rfl
      · rw [List.map_cons, List.map_cons, hsame, hmap]
      · intro c hc
        rcases List.mem_cons.1 hc with rfl | hc
        · exact hP
        · exact hall c hc

/-- Every listed match is exact, and the listed ranges are those of the matches. -/
theorem rowsIn_exact (letters : Letters) (rope : Rope) (query : Query) (limit : Nat) :
    ∃ rows, rowsIn letters rope query limit = some rows ∧
      rows.map Row.toFileMatch = matchesIn letters rope query limit ∧
      ∀ row ∈ rows, Exact rope row := by
  refine exists_mapM fun range hrange => ?_
  have hhigh := (@Editor.Find.ranged_findAll letters rope query limit).le_high range hrange
  obtain ⟨hoccurs, hlength⟩ := occurs_of_mem hrange
  obtain ⟨hstart, hlen, hsame⟩ := occurs_line hoccurs
  have hsub : range.2 - range.1 = query.term.length := by omega
  obtain ⟨shown, hshown, hshows⟩ := @snippet_shows
    (Editor.Lines.lineText rope (Editor.Lines.lineOf rope range.1)) _ _
    (Nat.le_add_right _ query.term.length) hlen
  have hslice : (rope.take range.2).drop range.1 =
      (rope.drop range.1).take query.term.length := by
    rw [hlength, List.take_drop]
  rw [← List.take_drop, hsame, ← hslice] at hshows
  refine ⟨_, by dsimp only; rw [hsub, hshown]; rfl, rfl, ?_, rfl, rfl, hshows⟩
  dsimp only
  omega

/-! ## Files with one kind of terminator -/

/-- An LF text with a file's terminators. -/
def spelled (eol : LineEnding) (text : Rope) : List Char :=
  text.flatMap fun c => if c = '\n' then eol.asStr else [c]

theorem spelled_append (eol : LineEnding) (text text' : Rope) :
    spelled eol (text ++ text') = spelled eol text ++ spelled eol text' := List.flatMap_append

theorem spelled_of_not_mem (eol : LineEnding) {text : Rope} (h : '\n' ∉ text) :
    spelled eol text = text := by
  induction text with
  | nil => rfl
  | cons c text ih =>
      have hc : c ≠ '\n' := fun heq => h (heq ▸ List.mem_cons_self)
      rw [spelled, List.flatMap_cons, if_neg hc]
      exact congrArg (c :: ·) (ih fun hmem => h (List.mem_cons_of_mem _ hmem))

/-- Lines with one terminator. -/
theorem joined_spelled {lines : List Text.Line} (h : Text.Lines lines) (eol : LineEnding) :
    Text.joined (lines.map fun line => (line.1, line.2.map fun _ => eol)) =
      spelled eol (Text.textOf lines) := by
  induction h with
  | nil => rfl
  | last hplain hne =>
      rw [Text.textOf_cons, List.map_cons, Text.joined_cons, spelled_append, spelled_append,
        spelled_of_not_mem eol hplain.1]
      rfl
  | cons hplain hlines ih =>
      rw [Text.textOf_cons, List.map_cons, Text.joined_cons, ih, spelled_append, spelled_append,
        spelled_of_not_mem eol hplain.1]
      congr 2
      exact (List.append_nil _).symm

/-- A text without CRs is written with the one terminator of its file. -/
theorem encode_spelled (diff : Diff) {format : TextFormat} (hmixed : format.mixed = none)
    {text : Rope} (hcr : '\r' ∉ text) :
    Text.encode diff text format = Text.encodeRaw format.encoding (spelled format.eol text) := by
  have hlines := Text.lines_splitLines text
  have hwritten : Text.writtenLines diff text format =
      (Text.splitLines text).map fun line => (line.1, line.2.map fun _ => format.eol) := by
    have hspec := Text.writtenLines_textOf hlines diff format
    rw [Text.textOf_splitLines hcr] at hspec
    rw [hspec, Text.endings, hmixed]
    refine List.ext_getElem? fun i => ?_
    rw [List.getElem?_mapIdx, List.getElem?_map]
    cases hi : (Text.splitLines text)[i]? with
    | none => rfl
    | some line =>
        have hlt := (List.getElem?_eq_some_iff.1 hi).1
        obtain ⟨content, ending⟩ := line
        cases ending with
        | none => rfl
        | some ending =>
            simp [hlt]
  rw [Text.encode, hwritten, joined_spelled hlines, Text.textOf_splitLines hcr]

theorem not_mem_textOf {lines : List Text.Line} (h : Text.Lines lines) :
    '\r' ∉ Text.textOf lines := by
  induction h with
  | nil => exact List.not_mem_nil
  | last hplain hne =>
      rw [Text.textOf_cons]
      simpa [Text.textOf] using hplain.2
  | cons hplain hlines ih =>
      rw [Text.textOf_cons]
      simpa using ⟨hplain.2, ih⟩

/-- Every line of the text that has a terminator has this one. -/
def OneKind (eol : LineEnding) (raw : List Char) : Prop :=
  ∀ line ∈ Text.splitLines raw, ∀ ending ∈ line.2, ending = eol

instance (eol : LineEnding) (raw : List Char) : Decidable (OneKind eol raw) :=
  inferInstanceAs (Decidable (∀ line ∈ Text.splitLines raw, ∀ ending ∈ line.2, ending = eol))

section

variable {eol : LineEnding} {raw : List Char} {held : Bytes} {encoding : Text.Encoding}

theorem raw_spelled (h : OneKind eol raw) :
    spelled eol (Text.textOf (Text.splitLines raw)) = raw := by
  have hsame : (Text.splitLines raw).map (fun line => (line.1, line.2.map fun _ => eol)) =
      Text.splitLines raw := by
    refine (List.map_congr_left fun line hline => ?_).trans (List.map_id _)
    obtain ⟨content, ending⟩ := line
    cases ending with
    | none => rfl
    | some ending => rw [Option.map_some, ← h _ hline ending rfl, id_eq]
  rw [← joined_spelled (Text.lines_splitLines raw), hsame, Text.joined_splitLines]

theorem classify_oneKind (h : OneKind eol raw) (defaultEol : LineEnding) :
    (Text.classify (Text.splitLines raw) defaultEol).2 = false := by
  have hnone : ∀ ending, ending ≠ eol → Text.count (Text.splitLines raw) ending = 0 := by
    intro ending hne
    rw [Text.count, List.countP_eq_zero]
    intro line hline hending
    exact hne (h line hline ending (of_decide_eq_true hending))
  have hkinds : ∀ a b c : Nat, a = 0 ∧ b = 0 ∨ a = 0 ∧ c = 0 ∨ b = 0 ∧ c = 0 →
      ([a, b, c].filter fun n => decide (n > 0)).length ≤ 1 := by
    intro a b c h
    grind
  rw [Text.classify, decide_eq_false_iff_not, Nat.not_lt]
  refine hkinds _ _ _ ?_
  cases eol with
  | lf => exact .inr (.inr ⟨hnone .crLf (by decide), hnone .cr (by decide)⟩)
  | crLf => exact .inr (.inl ⟨hnone .lf (by decide), hnone .cr (by decide)⟩)
  | cr => exact .inl ⟨hnone .lf (by decide), hnone .crLf (by decide)⟩

/-- A text with an LF was split at a terminator. -/
theorem exists_ending {lines : List Text.Line} (h : Text.Lines lines)
    (hmem : '\n' ∈ Text.textOf lines) : ∃ content ending, (content, some ending) ∈ lines := by
  induction h with
  | nil => cases hmem
  | last hplain hne =>
      rw [Text.textOf_cons] at hmem
      refine absurd ?_ hplain.1
      simpa [Text.textOf] using hmem
  | @cons content ending _ hplain hlines ih => exact ⟨content, ending, List.mem_cons_self⟩

/-- A file with one kind of terminator as it is read. -/
theorem decode_oneKind (hraw : Text.decodeRaw held = .ok (encoding, raw)) (h : OneKind eol raw) :
    ∃ decoded, Text.decode held .lf = .ok decoded ∧
      decoded.text = Text.textOf (Text.splitLines raw) ∧ decoded.format.encoding = encoding ∧
        decoded.format.mixed = none ∧ ('\n' ∈ decoded.text → decoded.format.eol = eol) := by
  have hone := classify_oneKind h .lf
  refine ⟨⟨Text.textOf (Text.splitLines raw), encoding,
    (Text.classify (Text.splitLines raw) .lf).1, none⟩, ?_, rfl, rfl, rfl, fun hbreak => ?_⟩
  · rw [Text.decode, hraw, Except.map]
    dsimp only
    rw [hone]
    rfl
  · obtain ⟨content, ending, hline⟩ := exists_ending (Text.lines_splitLines raw) hbreak
    exact (Text.classify_eol hone hline).trans (h _ hline ending rfl)

end

/-! ## Replacing on disk -/

/-- The matches are replaced, and the lines they are not on are kept. -/
structure Replaced (text text' : Rope) (replacement : List Char) (standing : List FileMatch) :
    Prop where
  woven : text' = Splice.weave text 0 (standing.map (FileMatch.splice replacement))
  lines : SplitLines.SameLines (fun c => c = '\n') text text'
    (standing.map (FileMatch.splice replacement))

/-- The matches that are still there, and the others. -/
def standing (text : Rope) (targets : List FileMatch) : List FileMatch :=
  targets.filter (stands text)

def refused (text : Rope) (targets : List FileMatch) : List FileMatch :=
  targets.filter fun m => !stands text m

/-- The answer and what the file holds, where `bytes` are written if a match is still there. -/
def outcome (calls : WriteCalls) (held bytes : Bytes) (text : Rope) (targets : List FileMatch) :
    Except String (Nat × Nat) × Bytes :=
  if standing text targets = [] then (.ok (0, (refused text targets).length), held)
  else
    let written := atomicWrite calls held bytes
    (written.1.map fun _ => ((standing text targets).length, (refused text targets).length),
      written.2)

theorem verifiedEdits_eq (text : Rope) (targets : List FileMatch) (replacement : List Char) :
    verifiedEdits text targets replacement =
      ((standing text targets).map fun m => (m.start, m.stop, replacement),
        (refused text targets).length) := rfl

theorem Listed.sublist {n : Nat} {rows targets : List FileMatch} (h : Listed n rows)
    (hsub : targets.Sublist rows) : Listed n targets where
  length m hm := h.length m (hsub.subset hm)
  ordered := h.ordered.sublist hsub
  pos hne := h.pos fun hnil => hne (List.sublist_nil.1 (hnil ▸ hsub))

section

variable {replacement : List Char} {targets : List FileMatch} {m : FileMatch}

theorem apply_standing {n : Nat} (hlisted : Listed n targets)
    (h : ∀ m ∈ targets, stands rope m = true) (replacement : List Char) :
    ((Editor.Transaction.replace rope
        (targets.map fun m => (m.start, m.stop, replacement))).bind fun tx => tx.apply rope) =
      some (Splice.weave rope 0 (targets.map (FileMatch.splice replacement))) := by
  have hdisjoint : Editor.Transaction.Disjoint rope.length
      (targets.map fun m => (m.start, m.stop, replacement)) := by
    refine ⟨fun edit hedit => ?_, ?_, ?_⟩
    · obtain ⟨m, hm, rfl⟩ := List.mem_map.1 hedit
      have hstands := stands_iff.1 (h m hm)
      exact ⟨hstands.1, hstands.2.1⟩
    · exact List.pairwise_map.2 (hlisted.ordered.imp .inl)
    · refine List.pairwise_map.2 (hlisted.ordered.imp_of_mem fun {a b} ha _ _ hempty => ?_)
      have hlt := hlisted.lt ha
      dsimp only at hempty
      omega
  obtain ⟨tx, rope', htx, hsim⟩ := Editor.Transaction.replace_simultaneous rope _ hdisjoint
  have hinOrder : Editor.Transaction.inOrder
      (targets.map fun m => (m.start, m.stop, replacement)) =
        targets.map (FileMatch.splice replacement) := by
    rw [Editor.Transaction.inOrder, Editor.Transaction.mergeSort_earlier_of_order
      (fun edit hedit => (hdisjoint.within edit hedit).1) (List.pairwise_map.2 hlisted.ordered),
      List.map_map]
    rfl
  rw [htx, Option.bind_some, hsim.apply, hsim.text, hinOrder]

theorem not_mem_found {limit : Nat} (hm : m ∈ matchesIn letters rope query limit) :
    '\n' ∉ m.found := by
  obtain ⟨range, hrange, rfl⟩ := List.mem_map.1 hm
  obtain ⟨⟨before, line, after, i, -, -, hfound, hsame⟩, hlength⟩ := occurs_of_mem hrange
  have hshort := hfound.short
  rw [hsame] at hshort
  dsimp only
  rwa [hlength, ← List.take_drop]

/-- Matches that stand in a text, each on one line, replaced by a text without line breaks. -/
theorem replaced_standing {n : Nat} (hlisted : Listed n targets)
    (h : ∀ m ∈ targets, stands rope m = true) (hfound : ∀ m ∈ targets, '\n' ∉ m.found)
    (hreplacement : '\n' ∉ replacement) :
    Replaced rope (Splice.weave rope 0 (targets.map (FileMatch.splice replacement))) replacement
      targets := by
  refine ⟨rfl, SplitLines.sameLines_weave ?_ (List.pairwise_map.2 hlisted.ordered) ?_⟩
  · intro a ha
    obtain ⟨m, hm, rfl⟩ := List.mem_map.1 ha
    have hstands := stands_iff.1 (h m hm)
    exact ⟨hstands.1, hstands.2.1⟩
  · intro a ha
    obtain ⟨m, hm, rfl⟩ := List.mem_map.1 ha
    refine ⟨List.countP_eq_zero.2 fun c hc hbreak => ?_,
      List.countP_eq_zero.2 fun c hc hbreak => ?_⟩
    · refine hfound m hm ?_
      rw [← (stands_iff.1 (h m hm)).2.2, ← of_decide_eq_true hbreak]
      exact hc
    · exact hreplacement (of_decide_eq_true hbreak ▸ hc)

theorem Replaced.not_mem {text text' : Rope} {standing : List FileMatch} {c : Char}
    (h : Replaced text text' replacement standing) (htext : c ∉ text)
    (hreplacement : c ∉ replacement) : c ∉ text' := by
  intro hmem
  rw [h.woven] at hmem
  rcases Splice.mem_weave hmem with hold | ⟨a, ha, hnew⟩
  · exact htext hold
  · obtain ⟨m, -, rfl⟩ := List.mem_map.1 ha
    exact hreplacement hnew

theorem Replaced.mem_break {text text' : Rope} {standing : List FileMatch}
    (h : Replaced text text' replacement standing) (hmem : '\n' ∈ text') : '\n' ∈ text := by
  have hlength := h.lines.length
  rw [SplitLines.length_split, SplitLines.length_split, Nat.add_right_cancel_iff] at hlength
  have hpos : 0 < text'.countP (fun c => c = '\n') :=
    List.countP_pos_iff.2 ⟨_, hmem, decide_eq_true rfl⟩
  rw [hlength] at hpos
  obtain ⟨c, hc, hbreak⟩ := List.countP_pos_iff.1 hpos
  exact of_decide_eq_true hbreak ▸ hc

variable {diff : Diff} {maxBytes : Nat} {calls : WriteCalls} {held : Bytes}

theorem atomicWrite_error {held' bytes : Bytes} {reason : String}
    (h : atomicWrite calls held bytes = (.error reason, held')) : held' = held := by
  rw [atomicWrite] at h
  split at h
  · cases h
    rfl
  · split at h
    · cases h
      rfl
    · cases h

/-- Where an error is answered the file holds what it held. -/
theorem replaceFile_error {look : Look} {held' : Bytes} {reason : String}
    (h : replaceFile diff maxBytes replacement look targets calls held =
      some (.error reason, held')) : held' = held := by
  rw [replaceFile] at h
  split at h
  · cases h
    rfl
  · split at h
    · cases h
      rfl
    · split at h
      · cases h
        rfl
      · split at h
        · cases h
          rfl
        · dsimp only at h
          split at h
          · cases h
          · obtain ⟨rope, -, hwritten⟩ := Option.map_eq_some_iff.1 h
            rw [Prod.mk.injEq] at hwritten
            obtain ⟨herror, rfl⟩ := hwritten
            cases hout : (atomicWrite calls held (Text.encode diff rope _)).1 with
            | ok _ =>
                rw [hout] at herror
                cases herror
            | error _ => exact atomicWrite_error (Prod.ext hout rfl)

/-- What the file holds after an answer of `replaceOnDisk`. -/
def settled (held : Bytes) : Except String ((Nat × Nat) × Bytes) → Except String (Nat × Nat) × Bytes
  | .ok result => (.ok result.1, result.2)
  | .error reason => (.error reason, held)

/-- `replaceOnDisk` answers the same and leaves the same file. -/
theorem replaceFile_eq (look : Look) (hheld : ∀ bytes, look.bytes = .ok bytes → bytes = held) :
    replaceFile diff maxBytes replacement look targets calls held =
      (replaceOnDisk diff maxBytes replacement look targets
        ⟨0, (atomicWrite calls held []).1, none⟩).map (settled held) := by
  rw [replaceFile, replaceOnDisk]
  cases look.stamp with
  | error reason => rfl
  | ok stamp =>
      dsimp only
      split
      · rfl
      · cases hbytes : look.bytes with
        | error reason => rfl
        | ok bytes =>
            obtain rfl := hheld bytes hbytes
            dsimp only
            cases Text.decode bytes .lf with
            | error reason => rfl
            | ok decoded =>
                dsimp only
                split
                · rfl
                · rw [Option.map_map]
                  refine congrArg (fun f => Option.map f _) (funext fun rope => ?_)
                  rw [Function.comp_apply, atomicWrite, atomicWrite]
                  cases calls.prepared with
                  | error reason => rfl
                  | ok _ => cases calls.persist <;> rfl

/-- What `replace_on_disk` comes to where the file can be read: the matches that stand in its
text are replaced. -/
theorem replaceFile_spec {limit : Nat} {scanned : Rope} {stamp : Stamp} {isThere : Bool}
    {encoding : Text.Encoding} {raw : List Char} {eol : LineEnding}
    (hsub : targets.Sublist (matchesIn letters scanned query limit))
    (hlf : '\n' ∉ replacement) (hcr : '\r' ∉ replacement) (hsize : stamp.len ≤ maxBytes)
    (hraw : Text.decodeRaw held = .ok (encoding, raw)) (hkind : OneKind eol raw) :
    ∃ text', Replaced (Text.textOf (Text.splitLines raw)) text' replacement
        (standing (Text.textOf (Text.splitLines raw)) targets) ∧
      replaceFile diff maxBytes replacement ⟨.ok stamp, isThere, .ok held⟩ targets calls held =
        some (outcome calls held (Text.encodeRaw encoding (spelled eol text'))
          (Text.textOf (Text.splitLines raw)) targets) := by
  obtain ⟨decoded, hdecoded, htext, rfl, hmixed, heol⟩ := decode_oneKind hraw hkind
  rw [← htext]
  have hlisted : Listed query.term.length (standing decoded.text targets) :=
    (listed_matchesIn letters scanned query limit).sublist (List.filter_sublist.trans hsub)
  have hstands : ∀ m ∈ standing decoded.text targets, stands decoded.text m = true :=
    fun m hm => (List.mem_filter.1 hm).2
  have hreplaced := replaced_standing hlisted hstands
    (fun m hm => not_mem_found (hsub.subset (List.mem_filter.1 hm).1)) hlf
  refine ⟨_, hreplaced, ?_⟩
  have hwritten : Text.encode diff (Splice.weave decoded.text 0
      ((standing decoded.text targets).map (FileMatch.splice replacement))) decoded.format =
      Text.encodeRaw decoded.format.encoding (spelled eol (Splice.weave decoded.text 0
        ((standing decoded.text targets).map (FileMatch.splice replacement)))) := by
    rw [encode_spelled diff hmixed
      (hreplaced.not_mem (htext ▸ not_mem_textOf (Text.lines_splitLines raw)) hcr)]
    by_cases hbreak : '\n' ∈ Splice.weave decoded.text 0
        ((standing decoded.text targets).map (FileMatch.splice replacement))
    · rw [heol (hreplaced.mem_break hbreak)]
    · rw [spelled_of_not_mem _ hbreak, spelled_of_not_mem _ hbreak]
  rw [replaceFile]
  dsimp only
  rw [if_neg (Nat.not_lt.2 hsize), hdecoded]
  dsimp only
  rw [verifiedEdits_eq, outcome]
  dsimp only
  by_cases hnone : standing decoded.text targets = []
  · rw [if_pos hnone, if_pos (List.map_eq_nil_iff.2 hnone)]
  · rw [if_neg hnone, if_neg fun hnil => hnone (List.map_eq_nil_iff.1 hnil),
      apply_standing hlisted hstands, Option.map_some, hwritten, List.length_map]

end

/-! ## A search and what is replaced after it -/

/-- Every match carries the text at its range and shows it. And in a file with one kind of
terminator those that still stand are replaced, the others refused, and the lines they are not
on kept; nothing is written where none stands or an error is answered. -/
theorem search_exact (letters : Letters) (scanned : Rope) (query : Query) (limit : Nat) :
    ∃ rows, rowsIn letters scanned query limit = some rows ∧ (∀ row ∈ rows, Exact scanned row) ∧
      ∀ (targets : List FileMatch) (diff : Diff) (maxBytes : Nat) (replacement : List Char)
        (calls : WriteCalls) (held : Bytes), targets.Sublist (rows.map Row.toFileMatch) →
        '\n' ∉ replacement → '\r' ∉ replacement →
        (∀ (stamp : Stamp) (isThere : Bool) (encoding : Text.Encoding) (raw : List Char)
          (eol : LineEnding), stamp.len ≤ maxBytes →
          Text.decodeRaw held = .ok (encoding, raw) → OneKind eol raw →
          raw = spelled eol (Text.textOf (Text.splitLines raw)) ∧
          ∃ text', Replaced (Text.textOf (Text.splitLines raw)) text' replacement
              (standing (Text.textOf (Text.splitLines raw)) targets) ∧
            replaceFile diff maxBytes replacement ⟨.ok stamp, isThere, .ok held⟩ targets calls
              held = some (outcome calls held (Text.encodeRaw encoding (spelled eol text'))
                (Text.textOf (Text.splitLines raw)) targets)) ∧
        ∀ (look : Look) (reason : String) (held' : Bytes),
          replaceFile diff maxBytes replacement look targets calls held =
            some (.error reason, held') → held' = held := by
  obtain ⟨rows, hrows, hmatches, hexact⟩ := rowsIn_exact letters scanned query limit
  refine ⟨rows, hrows, hexact, fun targets diff maxBytes replacement calls held hsub hlf hcr =>
    ⟨fun stamp isThere encoding raw eol hsize hraw hkind =>
      ⟨(raw_spelled hkind).symm, ?_⟩, fun look reason held' h => replaceFile_error h⟩⟩
  rw [hmatches] at hsub
  exact replaceFile_spec hsub hlf hcr hsize hraw hkind

/-- A file that was found with the word on two lines. -/
def foundTwice : Rope := ['f', 'o', 'o', ' ', 'b', '\n', 'f', 'o', 'o', '\n']

/-- The file by now: "foo b" and "fob", with CRLF. -/
def heldNow : Bytes := [102, 111, 111, 32, 98, 13, 10, 102, 111, 98, 13, 10]

def wrote : WriteCalls := ⟨.ok (), .ok (), .ok (), .ok (), .ok (), .ok ()⟩

/-- One of two matches is still there. -/
theorem search_exact_crLf : ∃ rows, rowsIn ascii foundTwice word 10 = some rows ∧
    (∀ row ∈ rows, Exact foundTwice row) ∧
    ∃ text', Replaced ['f', 'o', 'o', ' ', 'b', '\n', 'f', 'o', 'b', '\n'] text'
        ['q', 'u', 'u', 'x'] [⟨0, 3, ['f', 'o', 'o']⟩] ∧
      replaceFile Text.plainDiff 100 ['q', 'u', 'u', 'x'] ⟨.ok ⟨12, none⟩, true, .ok heldNow⟩
        (rows.map Row.toFileMatch) wrote heldNow =
          some (.ok (1, 1), Text.encodeRaw (.utf8 false) (spelled .crLf text')) := by
  obtain ⟨rows, hrows, hexact, hreplaces⟩ := search_exact ascii foundTwice word 10
  have hlisted : rows = [⟨⟨0, 3, ['f', 'o', 'o']⟩, 0, ['f', 'o', 'o', ' ', 'b'], 0, 3⟩,
      ⟨⟨6, 9, ['f', 'o', 'o']⟩, 1, ['f', 'o', 'o'], 0, 3⟩] :=
    Option.some.inj (hrows.symm.trans (by decide))
  obtain ⟨-, text', hreplaced, hfile⟩ := (hreplaces _ Text.plainDiff 100 ['q', 'u', 'u', 'x'] wrote
    heldNow (List.Sublist.refl _) (by decide) (by decide)).1 ⟨12, none⟩ true (.utf8 false)
    ['f', 'o', 'o', ' ', 'b', '\r', '\n', 'f', 'o', 'b', '\r', '\n'] .crLf (by decide) rfl
    (by decide)
  subst hlisted
  exact ⟨_, hrows, hexact, text', hreplaced, hfile⟩

end FileSearch

end Throng
