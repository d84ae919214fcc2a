import Mathlib.Data.List.Nodup
import Throng.App.FileSearch
import Throng.Core.TextSave
import Throng.Editor.UndoRun

/-!
# Rows committed one by one

The rows of a file keep the places they were found at, also once other rows of the file are
committed. They are still right for a row as long as nothing before it has changed its
length: when the replacement is as long as the term, or when the rows are committed from the
last to the first. Then the file ends up as if it had been committed at once.
-/

namespace Throng

open Editor (Letters Query Rope Selection Transaction)
open Text (Diff TextFormat)

namespace FileSearch

variable {diff : Diff} {maxBytes : Nat} {replacement : List Char} {rope : Rope} {m : FileMatch}
  {targets : List FileMatch} {env : Env}

/-! ## Matches as ranges -/

/-- What a commit of the match puts in its place. -/
def FileMatch.splice (replacement : List Char) (m : FileMatch) : Splice Char :=
  ⟨m.start, m.stop, replacement⟩

/-- The text with the matches replaced one after the other. -/
def replaced (replacement : List Char) (rope : Rope) (order : List FileMatch) : Rope :=
  (order.map (FileMatch.splice replacement)).foldl Splice.apply rope

/-- The matches from the last to the first. -/
def backwards (replacement : List Char) (targets : List FileMatch) : List (Splice Char) :=
  ((targets.map fun m => (m.start, m.stop, replacement)).mergeSort Transaction.later).map
    Transaction.toSplice

theorem stands_iff : stands rope m = true ↔ m.start ≤ m.stop ∧ m.stop ≤ rope.length ∧
    (rope.take m.stop).drop m.start = m.found := by
  rw [stands, decide_eq_true_eq, Rope.slice]
  split
  · next h =>
      rw [Option.some.injEq]
      exact ⟨fun hfound => ⟨h.1, h.2, hfound⟩, fun h => h.2.2⟩
  · next h =>
      exact iff_of_false (Option.some_ne_none _).symm fun hstands => h ⟨hstands.1, hstands.2.1⟩

theorem verifiedEdits_of_stands (h : ∀ m ∈ targets, stands rope m = true) :
    verifiedEdits rope targets replacement =
      (targets.map fun m => (m.start, m.stop, replacement), 0) := by
  have hall : targets.filter (stands rope) = targets := List.filter_eq_self.mpr h
  have hnone : (targets.filter fun m => !stands rope m) = [] := by
    rw [List.filter_eq_nil_iff]
    intro m hm
    rw [h m hm]
    exact Bool.false_ne_true
  rw [verifiedEdits, hall, hnone]
  rfl

/-- Matches that stand apart in the text are replaced from the last to the first. -/
theorem apply_targets (h : ∀ m ∈ targets, stands rope m = true)
    (hapart : targets.Pairwise fun a b => a.stop ≤ b.start) :
    ((Transaction.replace rope (targets.map fun m => (m.start, m.stop, replacement))).bind fun tx =>
      tx.apply rope) = some ((backwards replacement targets).foldl Splice.apply rope) := by
  obtain ⟨tx, htx, happly⟩ := @Transaction.apply_replace rope
    (targets.map fun m => (m.start, m.stop, replacement)) (by
      intro edit hedit
      obtain ⟨m, hm, rfl⟩ := List.mem_map.mp hedit
      have hstands := stands_iff.mp (h m hm)
      exact ⟨hstands.1, hstands.2.1⟩) (by
      rw [List.pairwise_map]
      exact hapart.imp .inl)
  rw [htx, Option.bind_some, happly, backwards]

/-! ## One commit -/

/-- What is written is read back as the text. -/
def readsBack (diff : Diff) (format : TextFormat) (text : Rope) : Bool :=
  match Text.decode (Text.encode diff text format) .lf with
  | .ok again => again.text = text
  | .error _ => false

/-- Nothing keeps the file from holding the text it is given: it is open, or the write goes
through, the file is not too large to be read before it, and what it holds then is read back as
the text. -/
def Place.takes (diff : Diff) (maxBytes : Nat) (env : Env) (edited : Rope → Rope) : Place → Bool
  | .opened _ => true
  | .unopened bytes =>
      match Text.decode bytes .lf with
      | .ok decoded => env.wrote.isOk && bytes.length ≤ maxBytes &&
          readsBack diff decoded.format (edited decoded.text)
      | .error _ => false

theorem edit_rope {buf : Editor.TextDoc} {tx : Transaction} {rope : Rope} {before after : Selection}
    {kind : Editor.EditKind} {now : Nat} (h : tx.apply buf.rope = some rope) :
    ∃ buf' applied, buf.edit tx before after kind now = some (buf', applied) ∧
      buf'.rope = rope := by
  rw [Editor.TextDoc.edit]
  split
  · next hempty =>
      obtain ⟨changes⟩ := tx
      obtain rfl := List.isEmpty_iff.mp hempty
      rw [Transaction.apply_nil, Option.some.injEq] at h
      exact ⟨buf, none, rfl, h⟩
  · obtain ⟨buf', applied, happly, hrope, -, -⟩ := buf.apply_of_rope h
    rw [happly]
    exact ⟨_, _, rfl, hrope⟩

theorem rope_saveTo {doc saved : Document} {path : Option String} {wrote : Except String Unit}
    {stamp : Option Stamp} (h : doc.saveTo diff path wrote stamp = .ok saved) :
    saved.buf.rope = doc.buf.rope := by
  rw [Document.saveTo] at h
  split at h
  · cases h
  · cases wrote with
    | error reason => cases h
    | ok _ =>
        cases h
        rfl

theorem replaceInBuffer_spec {doc : Document} (hne : targets ≠ [])
    (h : ∀ m ∈ targets, stands doc.buf.rope m = true)
    (hapart : targets.Pairwise fun a b => a.stop ≤ b.start) :
    ∃ doc' failures, replaceInBuffer diff replacement doc targets env =
        some (doc', (targets.length, 0), failures) ∧
      doc'.buf.rope = (backwards replacement targets).foldl Splice.apply doc.buf.rope := by
  have hrope : doc.isDirty.2.buf.rope = doc.buf.rope := (Editor.TextDoc.isDirty_snd doc.buf).1
  have hmap : (targets.map fun m => (m.start, m.stop, replacement)) ≠ [] := by
    rwa [Ne, List.map_eq_nil_iff]
  obtain ⟨tx, htx, happly⟩ := Option.bind_eq_some_iff.mp (@apply_targets replacement _ _ h hapart)
  have happly' : tx.apply doc.isDirty.2.buf.rope =
      some ((backwards replacement targets).foldl Splice.apply doc.buf.rope) := by
    rw [hrope, happly]
  obtain ⟨buf, applied, hedit, hbuf⟩ := @edit_rope _ _ _ (Selection.point 0)
    ((Selection.point 0).map tx) .other env.now happly'
  rw [replaceInBuffer, hrope, verifiedEdits_of_stands h, if_neg hmap, htx, Option.bind_some,
    Document.transact, hedit, List.length_map, Option.map_some, Option.map_some]
  split
  · exact ⟨_, _, rfl, hbuf⟩
  · split
    · next saved hsaved => exact ⟨_, _, rfl, (rope_saveTo hsaved).trans hbuf⟩
    · exact ⟨_, _, rfl, hbuf⟩

theorem text_of_takes {place : Place} {edited : Rope → Rope}
    (h : place.takes diff maxBytes env edited = true) {bytes : Bytes}
    (hplace : place = .unopened bytes) : ∃ decoded, Text.decode bytes .lf = .ok decoded ∧
      place.text = decoded.text ∧ env.wrote = .ok () ∧ bytes.length ≤ maxBytes ∧
        readsBack diff decoded.format (edited decoded.text) = true := by
  subst hplace
  rw [Place.takes] at h
  cases hdecoded : Text.decode bytes .lf with
  | error reason =>
      rw [hdecoded] at h
      cases h
  | ok decoded =>
      rw [hdecoded] at h
      dsimp only at h
      rw [Bool.and_eq_true, Bool.and_eq_true, decide_eq_true_eq] at h
      refine ⟨decoded, rfl, ?_, ?_, h.1.2, h.2⟩
      · rw [Place.text, hdecoded]
      · cases hwrote : env.wrote with
        | error reason =>
            rw [hwrote] at h
            cases h.1.1
        | ok _ => rfl

theorem replaceOnDisk_spec {bytes : Bytes} (hne : targets ≠ [])
    (htakes : (Place.unopened bytes).takes diff maxBytes env
      (fun rope => (backwards replacement targets).foldl Splice.apply rope) = true)
    (h : ∀ m ∈ targets, stands (Place.unopened bytes).text m = true)
    (hapart : targets.Pairwise fun a b => a.stop ≤ b.start) :
    ∃ bytes', replaceOnDisk diff maxBytes replacement (SearchedFile.look bytes) targets env =
        some (.ok ((targets.length, 0), bytes')) ∧
      (Place.unopened bytes').text =
        (backwards replacement targets).foldl Splice.apply (Place.unopened bytes).text := by
  obtain ⟨decoded, hdecoded, htext, hwrote, hsize, hreads⟩ := text_of_takes htakes rfl
  rw [htext] at h ⊢
  have hmap : (targets.map fun m => (m.start, m.stop, replacement)) ≠ [] := by
    rwa [Ne, List.map_eq_nil_iff]
  refine ⟨Text.encode diff ((backwards replacement targets).foldl Splice.apply decoded.text)
    decoded.format, ?_, ?_⟩
  · rw [replaceOnDisk, SearchedFile.look]
    dsimp only
    rw [if_neg (Nat.not_lt.mpr hsize), hdecoded]
    dsimp only
    rw [verifiedEdits_of_stands h, if_neg hmap, apply_targets h hapart, hwrote, List.length_map]
    rfl
  · rw [Place.text]
    rw [readsBack] at hreads
    split at hreads
    · next again hagain =>
        rw [hagain]
        exact of_decide_eq_true hreads
    · cases hreads

/-- What a commit of matches that stand in the text does. -/
theorem commit_spec {file : SearchedFile} {what : Commit} (hne : file.targets what ≠ [])
    (htakes : file.place.takes diff maxBytes env (fun rope =>
      (backwards replacement (file.targets what)).foldl Splice.apply rope) = true)
    (h : ∀ m ∈ file.targets what, stands file.place.text m = true)
    (hapart : (file.targets what).Pairwise fun a b => a.stop ≤ b.start) :
    ∃ place failures, file.commit diff maxBytes replacement what env =
        some (file.committed place (file.targets what) ((file.targets what).length, 0) failures) ∧
      place.text =
        (backwards replacement (file.targets what)).foldl Splice.apply file.place.text := by
  rw [SearchedFile.commit, if_neg hne]
  cases hplace : file.place with
  | opened doc =>
      rw [hplace] at h
      obtain ⟨doc', failures, hreplace, hrope⟩ :=
        @replaceInBuffer_spec diff replacement _ env doc hne h hapart
      dsimp only
      rw [hreplace]
      exact ⟨.opened doc', failures, rfl, hrope⟩
  | unopened bytes =>
      rw [hplace] at h htakes
      obtain ⟨bytes', hreplace, htext⟩ := replaceOnDisk_spec hne htakes h hapart
      dsimp only
      rw [hreplace]
      exact ⟨.unopened bytes', [], rfl, htext⟩

/-! ## One row after the other -/

theorem backwards_singleton : backwards replacement [m] = [m.splice replacement] := by
  rw [backwards, List.map_cons, List.map_nil, List.mergeSort_singleton]
  rfl

theorem backwards_perm :
    (backwards replacement targets).Perm (targets.map (FileMatch.splice replacement)) := by
  have hperm := ((targets.map fun m => (m.start, m.stop, replacement)).mergeSort_perm
    Transaction.later).map Transaction.toSplice
  rwa [List.map_map] at hperm

/-- The matches of a scan: in order, and as long as the term. -/
structure Listed (n : Nat) (rows : List FileMatch) : Prop where
  length : ∀ m ∈ rows, m.stop = m.start + n
  ordered : rows.Pairwise fun a b => a.stop ≤ b.start
  pos : rows ≠ [] → 0 < n

theorem listed_matchesIn (letters : Letters) (rope : Rope) (query : Query) (limit : Nat) :
    Listed query.term.length (matchesIn letters rope query limit) := by
  have hranged := @Editor.Find.ranged_findAll letters rope query limit
  refine ⟨fun m hm => ?_, ?_, fun hne => ?_⟩
  · obtain ⟨range, hrange, rfl⟩ := List.mem_map.mp hm
    exact hranged.length range hrange
  · exact List.pairwise_map.mpr hranged.ordered
  · obtain ⟨m, hm⟩ := List.exists_mem_of_ne_nil _ hne
    obtain ⟨range, hrange, -⟩ := List.mem_map.mp hm
    exact List.length_pos_iff.mpr (Editor.Find.term_ne_nil hrange)

theorem Listed.lt {n : Nat} {rows : List FileMatch} (h : Listed n rows) (hm : m ∈ rows) :
    m.start < m.stop := by
  have hlength := h.length m hm
  have hpos := h.pos (List.ne_nil_of_mem hm)
  omega

theorem Listed.nodup {n : Nat} {rows : List FileMatch} (h : Listed n rows) : rows.Nodup := by
  refine h.ordered.imp_of_mem fun {a b} ha _ hle heq => ?_
  have hlt := h.lt ha
  rw [heq] at hle hlt
  omega

theorem Listed.apart {n : Nat} {rows : List FileMatch} (h : Listed n rows) {a b : FileMatch}
    (ha : a ∈ rows) (hb : b ∈ rows) (hne : a ≠ b) : a.stop ≤ b.start ∨ b.stop ≤ a.start := by
  have hapart : rows.Pairwise fun a b => a.stop ≤ b.start ∨ b.stop ≤ a.start := h.ordered.imp .inl
  have _ : Std.Symm fun a b : FileMatch => a.stop ≤ b.start ∨ b.stop ≤ a.start :=
    ⟨fun _ _ => Or.symm⟩
  exact hapart.forall ha hb hne

/-- A match stands in every text that agrees at its place. -/
theorem stands_congr {rope' : Rope} (h : stands rope m = true) (hlen : m.stop ≤ rope'.length)
    (hsame : ∀ i, m.start ≤ i → i < m.stop → rope'[i]? = rope[i]?) : stands rope' m = true := by
  obtain ⟨hle, -, hfound⟩ := stands_iff.mp h
  refine stands_iff.mpr ⟨hle, hlen, ?_⟩
  rw [← hfound]
  refine List.ext_getElem? fun i => ?_
  rw [List.getElem?_drop, List.getElem?_drop, List.getElem?_take, List.getElem?_take]
  split
  · next hi => exact hsame _ (Nat.le_add_right _ _) hi
  · rfl

/-- A match whose place nothing replaced so far has moved still stands there. -/
theorem stands_replaced {n : Nat} {rows order : List FileMatch} (hlisted : Listed n rows)
    (hsub : ∀ a ∈ order, a ∈ rows ∧ a ≠ m) (hm : m ∈ rows) (h : stands rope m = true)
    (hplace : replacement.length = n ∨ ∀ a ∈ order, m.stop ≤ a.start) :
    stands (replaced replacement rope order) m = true := by
  have hlen := (stands_iff.mp h).2.1
  rcases hplace with heven | hafter
  · have heven' : ∀ a ∈ order.map (FileMatch.splice replacement), a.Even := by
      intro a ha
      obtain ⟨b, hb, rfl⟩ := List.mem_map.mp ha
      have hlength := hlisted.length b (hsub b hb).1
      show replacement.length = b.stop - b.start
      omega
    refine stands_congr h ?_ fun i hstart hstop => ?_
    · rw [replaced, Splice.length_foldl heven']
      exact hlen
    · refine Splice.getElem?_foldl_of_out heven' fun a ha => ?_
      obtain ⟨b, hb, rfl⟩ := List.mem_map.mp ha
      have hapart := hlisted.apart (hsub b hb).1 hm (hsub b hb).2
      show i < b.start ∨ b.stop ≤ i
      omega
  · have htake : (replaced replacement rope order).take m.stop = rope.take m.stop := by
      refine Splice.take_foldl fun a ha => ?_
      obtain ⟨b, hb, rfl⟩ := List.mem_map.mp ha
      exact hafter b hb
    refine stands_congr h ?_ fun i hstart hstop => ?_
    · have hlength := congrArg List.length htake
      rw [List.length_take, List.length_take] at hlength
      omega
    · rw [← List.getElem?_take_of_lt hstop, htake, List.getElem?_take_of_lt hstop]

/-! ## Runs -/

/-- The click commits a row at its place: the replacement is as long as the term, or no match
before the row has been committed. And the file takes what it is given. -/
def InPlace (diff : Diff) (maxBytes : Nat) (replacement : List Char) (n : Nat)
    (start file : SearchedFile) (click : Click) : Prop :=
  ∀ m ∈ file.rows[click.row]?,
    (replacement.length = n ∨ ∀ a ∈ start.rows, a.stop ≤ m.start → a ∈ file.rows) ∧
      file.place.takes diff maxBytes click.env
        (fun rope => Splice.apply rope (m.splice replacement)) = true

/-- What a run that replaced each match at its place has come to: the matches that are not
listed any more are replaced. -/
structure Inv (replacement : List Char) (n : Nat) (start file : SearchedFile) : Prop where
  refused : file.tally.refused = 0
  counted : file.tally.replaced + file.rows.length = start.rows.length
  order : ∃ order : List FileMatch, (order ++ file.rows).Perm start.rows ∧
    file.place.text = replaced replacement start.place.text order ∧
      (replacement.length = n ∨ order.Pairwise fun a b => b.stop ≤ a.start)

theorem Inv.step {n : Nat} {start file file' : SearchedFile} {click : Click}
    (hlisted : Listed n start.rows) (hstands : ∀ m ∈ start.rows, stands start.place.text m = true)
    (hi : Inv replacement n start file)
    (hok : InPlace diff maxBytes replacement n start file click)
    (hstep : file.commit diff maxBytes replacement (.row click.row) click.env = some file') :
    Inv replacement n start file' := by
  obtain ⟨hrefused, hcounted, order, hperm, htext, horder⟩ := hi
  cases hrow : file.rows[click.row]? with
  | none =>
      have hnone : file.targets (.row click.row) = [] := by
        rw [SearchedFile.targets, hrow]
        rfl
      rw [SearchedFile.commit, if_pos hnone] at hstep
      cases hstep
      exact ⟨hrefused, hcounted, order, hperm, htext, horder⟩
  | some m =>
      have htargets : file.targets (.row click.row) = [m] := by
        rw [SearchedFile.targets, hrow]
        rfl
      obtain ⟨hplace, htakes⟩ := hok m hrow
      have hmem : m ∈ file.rows := List.mem_of_getElem? hrow
      obtain ⟨-, hnodup, hdisjoint⟩ := List.nodup_append'.mp (hperm.nodup_iff.mpr hlisted.nodup)
      have hm : m ∈ start.rows := hperm.mem_iff.mp (List.mem_append_right _ hmem)
      have hsub : ∀ a ∈ order, a ∈ start.rows ∧ a ≠ m := by
        intro a ha
        refine ⟨hperm.mem_iff.mp (List.mem_append_left _ ha), ?_⟩
        rintro rfl
        exact hdisjoint ha hmem
      -- A match that is committed already and not after this one would have moved it.
      have hplace' : replacement.length = n ∨ ∀ a ∈ order, m.stop ≤ a.start := by
        refine hplace.imp_right fun hbefore a ha => ?_
        refine (hlisted.apart (hsub a ha).1 hm (hsub a ha).2).resolve_left fun hle => ?_
        exact hdisjoint ha (hbefore a (hsub a ha).1 hle)
      have hstill : stands file.place.text m = true := by
        rw [htext]
        exact stands_replaced hlisted hsub hm (hstands m hm) hplace'
      have hspec := @commit_spec diff maxBytes replacement click.env file (.row click.row)
      rw [htargets, backwards_singleton, List.length_singleton] at hspec
      obtain ⟨place, failures, hcommit, htext'⟩ := hspec (List.cons_ne_nil _ _) htakes
        (fun a ha => List.mem_singleton.mp ha ▸ hstill) (List.pairwise_singleton _ _)
      obtain rfl := Option.some.inj (hstep.symm.trans hcommit)
      have hleft : (m :: (file.committed place [m] (1, 0) failures).rows).Perm file.rows := by
        have herase : (file.committed place [m] (1, 0) failures).rows = file.rows.erase m := by
          rw [hnodup.erase_eq_filter]
          refine List.filter_congr fun a _ => ?_
          by_cases ha : a = m <;> simp [ha]
        rw [herase]
        exact (List.perm_cons_erase hmem).symm
      refine ⟨hrefused, ?_, order ++ [m], ?_, ?_, ?_⟩
      · have hlength := hleft.length_eq
        rw [List.length_cons] at hlength
        show file.tally.replaced + 1 + (file.committed place [m] (1, 0) failures).rows.length = _
        omega
      · rw [List.append_assoc]
        exact (hleft.append_left order).trans hperm
      · rw [replaced, List.map_append, List.foldl_append]
        show place.text = _
        rw [htext', htext]
        rfl
      · rw [List.pairwise_append]
        rcases hplace' with heven | hafter
        · exact .inl heven
        · refine horder.imp_right fun hordered => ⟨hordered, List.pairwise_singleton _ _, ?_⟩
          intro a ha b hb
          rw [List.mem_singleton.mp hb]
          exact hafter a ha

/-! ## Row by row and at once -/

/-- The commits so far refused nothing and replaced a match each, and once no row is left the
text is the one that a single commit of the whole file gives. -/
structure CommitsAlike (diff : Diff) (maxBytes : Nat) (replacement : List Char) (env : Env)
    (start file : SearchedFile) : Prop where
  refused : file.tally.refused = 0
  counted : file.tally.replaced + file.rows.length = start.rows.length
  text : file.rows = [] → ∃ whole, start.commit diff maxBytes replacement .file env = some whole ∧
    whole.tally.refused = 0 ∧ file.place.text = whole.place.text

/-- All rows replaced one after the other give the text with all of them replaced at once. -/
theorem replaced_all {n : Nat} {rows order : List FileMatch} (hlisted : Listed n rows)
    (hperm : order.Perm rows)
    (horder : replacement.length = n ∨ order.Pairwise fun a b => b.stop ≤ a.start) (rope : Rope) :
    replaced replacement rope order = (backwards replacement rows).foldl Splice.apply rope := by
  have hsplices : (order.map (FileMatch.splice replacement)).Perm (backwards replacement rows) :=
    (hperm.map _).trans backwards_perm.symm
  rcases horder with heven | hbackwards
  · refine Splice.foldl_perm hsplices (fun a ha => ?_) ?_ rope
    · obtain ⟨m, hm, rfl⟩ := List.mem_map.mp ha
      have hlength := hlisted.length m (hperm.mem_iff.mp hm)
      show replacement.length = m.stop - m.start
      omega
    · have hapart : rows.Pairwise fun a b => a.stop ≤ b.start ∨ b.stop ≤ a.start :=
        hlisted.ordered.imp .inl
      exact List.pairwise_map.mpr (hperm.symm.pairwise hapart fun h => h.symm)
  · have hranges : ∀ a ∈ order.map (FileMatch.splice replacement), a.start < a.stop := by
      intro a ha
      obtain ⟨m, hm, rfl⟩ := List.mem_map.mp ha
      exact hlisted.lt (hperm.mem_iff.mp hm)
    have hlater : (backwards replacement rows).Pairwise fun a b => b.stop ≤ a.start := by
      refine List.pairwise_map.mpr (Transaction.pairwise_later (fun edit hedit => ?_) ?_)
      · obtain ⟨m, hm, rfl⟩ := List.mem_map.mp hedit
        exact Nat.le_of_lt (hlisted.lt hm)
      · exact List.pairwise_map.mpr (hlisted.ordered.imp .inl)
    rw [replaced, Splice.eq_of_backwards hsplices hranges (List.pairwise_map.mpr hbackwards) hlater]

/-- Rows that are committed one by one, each at its place, come to what a single commit of the
file does. -/
theorem commitsAlike_of_inPlace (letters : Letters) (diff : Diff) (maxBytes : Nat)
    (replacement : List Char) (query : Query) (limit : Nat) (scanned : Rope) (place : Place)
    (env : Env)
    (hstands : ∀ m ∈ matchesIn letters scanned query limit, stands place.text m = true)
    (htakes : place.takes diff maxBytes env (fun rope => (backwards replacement
      (matchesIn letters scanned query limit)).foldl Splice.apply rope) = true)
    (file : SearchedFile)
    (h : (machine diff maxBytes replacement (found letters query limit scanned place)).Reach
      (InPlace diff maxBytes replacement query.term.length
        (found letters query limit scanned place)) file) :
    CommitsAlike diff maxBytes replacement env (found letters query limit scanned place) file := by
  have hlisted : Listed query.term.length (found letters query limit scanned place).rows :=
    listed_matchesIn letters scanned query limit
  have hinv : Inv replacement query.term.length (found letters query limit scanned place) file := by
    refine h.invariant (fun s hs => ?_) fun s click s' hi hok hstep => ?_
    · rw [hs]
      exact ⟨rfl, Nat.zero_add _, [], List.Perm.refl _, rfl, .inr .nil⟩
    · exact hi.step hlisted hstands hok hstep
  obtain ⟨hrefused, hcounted, order, hperm, htext, horder⟩ := hinv
  refine ⟨hrefused, hcounted, fun hdone => ?_⟩
  rw [hdone, List.append_nil] at hperm
  rw [htext, replaced_all hlisted hperm horder]
  by_cases hnone : (found letters query limit scanned place).rows = []
  · have hnil : backwards replacement [] = [] := by
      rw [backwards, List.map_nil, List.mergeSort_nil, List.map_nil]
    rw [SearchedFile.commit, SearchedFile.targets, if_pos hnone, hnone, hnil]
    exact ⟨_, rfl, rfl, rfl⟩
  · obtain ⟨place', failures, hcommit, htext'⟩ := @commit_spec diff maxBytes replacement env
      (found letters query limit scanned place) .file hnone htakes hstands hlisted.ordered
    exact ⟨_, hcommit, rfl, htext'.symm⟩

/-! ## A file with two matches -/

instance {n : Nat} {start : SearchedFile} :
    DecidableRel (InPlace diff maxBytes replacement n start) := fun file click =>
  inferInstanceAs (Decidable (∀ m ∈ file.rows[click.row]?,
    (replacement.length = n ∨ ∀ a ∈ start.rows, a.stop ≤ m.start → a ∈ file.rows) ∧
      file.place.takes diff maxBytes click.env
        (fun rope => Splice.apply rope (m.splice replacement)) = true))

/-- Letters as in ASCII. -/
def ascii : Letters := ⟨Editor.asciiTable, fun c => [c.toLower]⟩

def twice : Rope := ['f', 'o', 'o', ' ', 'f', 'o', 'o', '\n']

/-- The word that stands there twice, in any case. -/
def word : Query := ⟨['f', 'o', 'o'], false, false⟩

/-- The file is open and clean. -/
def openFile : Place :=
  .opened { Document.untitled .lf with buf := Editor.TextDoc.new twice, path := some "a.txt" }

def wroteIt : Env := ⟨0, .ok (), none⟩

/-- Both rows are replaced by a longer word, the last one first. -/
theorem commitsAlike_of_inPlace_backwards : ∃ file : SearchedFile,
    CommitsAlike Text.plainDiff 100 ['q', 'u', 'u', 'x'] wroteIt
      (found ascii word 10 twice openFile)
      file ∧ file.place.text = ['q', 'u', 'u', 'x', ' ', 'q', 'u', 'u', 'x', '\n'] := by
  obtain ⟨file, hreach, htext⟩ := (Machine.Reach.init rfl :
    (machine Text.plainDiff 100 ['q', 'u', 'u', 'x'] (found ascii word 10 twice openFile)).Reach
      (InPlace Text.plainDiff 100 ['q', 'u', 'u', 'x'] word.term.length
        (found ascii word 10 twice openFile)) _).exists_of_exec
      [⟨1, wroteIt⟩, ⟨0, wroteIt⟩]
      (fun file => file.place.text = ['q', 'u', 'u', 'x', ' ', 'q', 'u', 'u', 'x', '\n'])
      (by decide +kernel)
  exact ⟨file, commitsAlike_of_inPlace _ _ _ _ _ _ _ _ _ (by decide +kernel) rfl _ hreach,
    of_decide_eq_true htext⟩

/-- Whatever the click writes goes through. -/
def Wrote (_ : SearchedFile) (click : Click) : Prop := click.env.wrote.isOk = true

instance : DecidableRel Wrote := fun _ click =>
  inferInstanceAs (Decidable (click.env.wrote.isOk = true))

/-- The first row is replaced by a longer word, and then the second one is refused. -/
theorem not_commitsAlike :
    ¬ ∀ (letters : Letters) (diff : Diff) (maxBytes : Nat) (replacement : List Char)
      (query : Query) (limit : Nat) (place : Place) (env : Env) (file : SearchedFile),
      env.wrote.isOk = true →
      (machine diff maxBytes replacement (found letters query limit place.text place)).Reach
        Wrote file →
      CommitsAlike diff maxBytes replacement env (found letters query limit place.text place)
        file := by
  intro h
  obtain ⟨file, hreach, hrefused⟩ := (Machine.Reach.init rfl :
    (machine Text.plainDiff 100 ['q', 'u', 'u', 'x']
      (found ascii word 10 openFile.text openFile)).Reach Wrote _).exists_of_exec
      [⟨0, wroteIt⟩, ⟨0, wroteIt⟩] (fun file => file.tally.refused = 1) (by decide +kernel)
  have hnone := (h _ _ _ _ _ _ _ wroteIt file rfl hreach).refused
  rw [of_decide_eq_true hrefused] at hnone
  cases hnone

end FileSearch

end Throng
