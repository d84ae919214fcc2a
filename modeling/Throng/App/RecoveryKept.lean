import Throng.App.Launch
import Throng.App.RecoveryTracked

/-!
# What recovery keeps of the last session

A record adopted at launch waits until its editor opens, and its text is put back into
the document opened then. Its file may go only after that, once the document is found
clean or closed. An open that fails takes the record from those that wait all the same,
so this holds as long as no document with a waiting record fails to open.
-/

namespace Throng.RecoveryRun

open Text (Diff)

/-- The file of a record adopted at launch still holds it. -/
def State.stored (s : State) (name : String) : Bool :=
  s.source name == some .left && (s.holds name).isSome

/-- An adopted record is never out of reach: it waits for its editor with its file in
the folder, or its text was put back. -/
def Reachable (s : State) : Prop :=
  ∀ name owner text, s.kept name = some (owner, text) →
    (∃ record, s.documents.recovered[owner]? = some record ∧ record.text = text) ∧
      (∃ record, s.holds name = some record ∧ record.text = text) ∨
    ∃ opening, s.putBack name = some opening

/-- An adopted record's file goes only after its text was put back into a document that
is clean or closed then. -/
def DeletedAfter (s s' : State) : Prop :=
  ∀ name owner text, s.kept name = some (owner, text) → s.stored name = true →
    s'.holds name = none →
    ∃ opening, s.putBack name = some opening ∧
      ∀ key doc, s.docs[key]? = some doc → s.opened key = opening → doc.isDirty.1 = false

/-- The file a record is deleted by when nothing refers to it, if its path does not tell. -/
def discardedFile (record : Record) : Option String :=
  match record.path, record.untitled with
  | none, some panel => some (fileName (.untitled panel))
  | _, _ => none

/-- The records a launch adopts are of different documents, and none has the file name of
an untitled record that is discarded. -/
def AdoptedApart (s : State) (keyFor : String → String) (shown : DocKey → Bool) : Prop :=
  ∀ name ∈ s.folder.keys, (s.adopts keyFor shown name).isSome = true →
    ∀ other ∈ s.folder.keys,
      ((s.adopts keyFor shown name).map Prod.fst = (s.adopts keyFor shown other).map Prod.fst →
        name = other) ∧
      ((s.adopts keyFor shown other).isSome = false →
        (s.folder.read other).bind discardedFile ≠ some name)

/-- A file can be opened: it is read, or it is gone and there is unsaved text for it. -/
def opens (look : Look) (maxBytes : Nat) (eol : Text.LineEnding) : Bool :=
  (readFile look maxBytes eol).isOk || !look.isThere

/-- A document with a waiting record opens. -/
def OpensWaiting (s : State) (key : DocKey) (look : Look) (maxBytes : Nat)
    (eol : Text.LineEnding) : Prop :=
  s.documents.recovered.contains key = true → s.docs.contains key = false →
    opens look maxBytes eol = true

/-- No document moves to or from the key of an adopted record that is still in its file. -/
def MovesElsewhere (s : State) (key dest : DocKey) : Prop :=
  ∀ name ∈ s.folder.keys, s.stored name = true →
    ∀ kept ∈ s.kept name, kept.1 ≠ key ∧ kept.1 ≠ dest

/-- No key has the file of another's adopted record. -/
def AdoptedFiles (s : State) : Prop :=
  ∀ name ∈ s.folder.keys, s.stored name = true → ∀ kept ∈ s.kept name,
    ∀ key ∈ s.docs.keys ++ s.recovery.written.keys, fileName key = name → key = kept.1

instance (s : State) (keyFor : String → String) (shown : DocKey → Bool) :
    Decidable (AdoptedApart s keyFor shown) := by
  unfold AdoptedApart
  infer_instance

instance (s : State) (key : DocKey) (look : Look) (maxBytes : Nat) (eol : Text.LineEnding) :
    Decidable (OpensWaiting s key look maxBytes eol) := by
  unfold OpensWaiting
  infer_instance

instance (s : State) (key dest : DocKey) : Decidable (MovesElsewhere s key dest) := by
  unfold MovesElsewhere
  infer_instance

instance (s : State) : Decidable (AdoptedFiles s) := by
  unfold AdoptedFiles
  infer_instance

/-- Records are adopted apart, documents with waiting records open, and no document gets
in the way of another's record. -/
def keepsAdopted (s : State) : Action → Prop
  | .launch keyFor shown _ _ _ => AdoptedApart s keyFor shown
  | .openFile key _ look maxBytes eol => OpensWaiting s (.file key) look maxBytes eol
  | .saveAs key dest _ _ _ => MovesElsewhere s key dest
  | .move key dest _ _ => MovesElsewhere s key dest
  | .tick _ _ _ _ _ => AdoptedFiles s
  | _ => True

instance : DecidableRel keepsAdopted := fun s a =>
  match a with
  | .launch keyFor shown _ _ _ => inferInstanceAs (Decidable (AdoptedApart s keyFor shown))
  | .openFile key _ look maxBytes eol =>
      inferInstanceAs (Decidable (OpensWaiting s (.file key) look maxBytes eol))
  | .saveAs key dest _ _ _ => inferInstanceAs (Decidable (MovesElsewhere s key dest))
  | .move key dest _ _ => inferInstanceAs (Decidable (MovesElsewhere s key dest))
  | .tick _ _ _ _ _ => inferInstanceAs (Decidable (AdoptedFiles s))
  | .openUntitled _ _ | .edit _ _ _ _ _ _ | .undo _ | .redo _ | .save _ _ _ | .checkDisk _ _ _
  | .reload _ _ _ | .keepMine _ _ | .close _ => isTrue trivial

variable {s s' : State} {a : Action}

/-! ## The launch -/

section Launch

variable {keyFor : String → String} {shown : DocKey → Bool} {history : Bool}
  {stuck listing : List String} {name : String} {owner : DocKey} {text : List Char}

theorem adopts_some (h : s.adopts keyFor shown name = some (owner, text)) :
    ∃ record, s.folder.read name = some record ∧
      (record.key keyFor).filter shown = some owner ∧ record.text = text := by
  rw [State.adopts, Option.bind_eq_some_iff] at h
  obtain ⟨record, hread, h⟩ := h
  rw [Option.map_eq_some_iff] at h
  obtain ⟨key, hkey, h⟩ := h
  rw [Prod.mk.injEq] at h
  exact ⟨record, hread, h.1 ▸ hkey, h.2⟩

/-- A record that is not shown does not take an adopted one's file with it. -/
theorem not_reaches {record discarded : Record}
    (hkey : (record.key keyFor).filter shown = some owner)
    (hnot : (discarded.key keyFor).any shown = false)
    (hfile : discardedFile discarded ≠ some name) : discarded.reaches name record = false := by
  unfold discardedFile at hfile
  unfold Record.key at hnot hkey
  unfold Record.reaches
  rw [← Bool.not_eq_true]
  intro hreaches
  cases hpath : discarded.path with
  | some path =>
      -- a record of the same path has the same key, which is shown
      simp only [hpath, decide_eq_true_eq] at hreaches
      simp only [hpath, Option.any_some] at hnot
      simp [hreaches, Option.filter, hnot] at hkey
  | none =>
      cases huntitled : discarded.untitled with
      | some panel =>
          simp only [hpath, huntitled, decide_eq_true_eq] at hreaches
          simp [hpath, huntitled, hreaches] at hfile
      | none => simp [hpath, huntitled] at hreaches

/-- What a launch adopts waits for its editor, with its file in the folder. -/
theorem launch_keeps (history : Bool) (stuck : List String) (hapart : AdoptedApart s keyFor shown)
    (hlisting : listing.Perm s.folder.keys) (h : s.adopts keyFor shown name = some (owner, text)) :
    (∃ record, (s.launch keyFor shown history stuck listing).documents.recovered[owner]? =
        some record ∧ record.text = text) ∧
      ∃ record, (s.launch keyFor shown history stuck listing).holds name = some record ∧
        record.text = text := by
  obtain ⟨record, hread, hkey, rfl⟩ := adopts_some h
  have hname : name ∈ s.folder.keys := by
    rw [Std.ExtTreeMap.mem_keys, Std.ExtTreeMap.mem_iff_isSome_getElem?,
      Folder.getElem?_of_read hread]
    rfl
  have happart := hapart name hname (by rw [h]; rfl)
  -- every record read stands under a name, which is this one if it is adopted for the owner
  have hread' : ∀ other ∈ listing.filterMap s.folder.read,
      ∃ name' ∈ s.folder.keys, s.folder.read name' = some other := by
    intro other hother
    rw [List.mem_filterMap] at hother
    obtain ⟨name', hname', hother⟩ := hother
    exact ⟨name', hlisting.mem_iff.mp hname', hother⟩
  have hmem : record ∈ listing.filterMap s.folder.read :=
    List.mem_filterMap.mpr ⟨name, hlisting.mem_iff.mpr hname, hread⟩
  constructor
  · refine List.foldl_settles (P := fun left : Launch =>
      ∃ waiting, left.recovered[owner]? = some waiting ∧ waiting.text = record.text) hmem ?_ ?_
    · intro left other hother hleft
      unfold Launch.adopt
      split
      · next key hother' =>
          by_cases hsame : key = owner
          · subst hsame
            obtain ⟨name', hname', hreadother⟩ := hread' other hother
            have hadopts : s.adopts keyFor shown name' = some (key, other.text) := by
              simp [State.adopts, hreadother, hother']
            obtain rfl := (happart name' hname').1 (by rw [h, hadopts]; rfl)
            rw [hread, Option.some.injEq] at hreadother
            subst hreadother
            exact ⟨_, Std.ExtTreeMap.getElem?_insert_self, rfl⟩
          · simpa [Std.ExtTreeMap.getElem?_insert, hsame] using hleft
      · exact hleft
    · intro left
      rw [Launch.adopt, hkey]
      exact ⟨_, Std.ExtTreeMap.getElem?_insert_self, rfl⟩
  · refine ⟨record, ?_, rfl⟩
    simp only [State.holds, State.launch, startRecovery, (adopt_untouched _ _).1]
    have hkept : ((s.folder.loadAll stuck listing).1.reconcile stuck
        (s.folder.loadAll stuck listing).2 fun record => (record.key keyFor).any shown)[name]? =
        some (some record) := by
      refine Folder.reconcile_keeps (Folder.loadAll_keeps hread) ?_
      intro other hother hnot hreaches
      obtain ⟨name', hname', hreadother⟩ := hread' other hother
      have hdiscard := (happart name' hname').2 ?_
      · rw [hreadother] at hdiscard
        rw [not_reaches hkey hnot hdiscard] at hreaches
        cases hreaches
      · simp only [State.adopts, hreadother, Option.bind_some, Option.isSome_map]
        cases hkeyother : other.key keyFor with
        | none => rfl
        | some key => simpa [hkeyother, Option.filter] using hnot
    rw [hkept]
    rfl

end Launch

/-! ## The invariant -/

/-- How the adopted records stand: nothing is open or adopted before the launch; a record that was
not put back waits, and its document is neither open nor kept as written; and a document
a record was put back into stays at the record's key while its file is there. -/
structure Adopted (s : State) : Prop where
  before : s.launched = false →
    s.docs = ∅ ∧ (s.putBack = fun _ => none) ∧ s.kept = fun _ => none
  waiting : ∀ name owner text, s.kept name = some (owner, text) → s.putBack name = none →
    (∃ record, s.documents.recovered[owner]? = some record ∧ record.text = text) ∧
      (∃ record, s.holds name = some record ∧ record.text = text) ∧
      s.source name = some .left ∧ owner ∉ s.docs ∧ owner ∉ s.recovery.written
  home : ∀ name owner text opening, s.kept name = some (owner, text) → s.stored name = true →
    s.putBack name = some opening → ∀ key, key ∈ s.docs → s.opened key = opening → key = owner

theorem Adopted.reachable (h : Adopted s) : Reachable s := by
  intro name owner text hkept
  cases hput : s.putBack name with
  | some opening => exact Or.inr ⟨opening, rfl⟩
  | none =>
      obtain ⟨hwaits, hholds, -⟩ := h.waiting name owner text hkept hput
      exact Or.inl ⟨hwaits, hholds⟩

theorem stored_iff {name : String} : s.stored name = true ↔
    s.source name = some .left ∧ (s.holds name).isSome = true := by
  rw [State.stored, Bool.and_eq_true, beq_iff_eq]

theorem mem_keys_of_stored {name : String} (h : s.stored name = true) : name ∈ s.folder.keys := by
  have hholds := (stored_iff.mp h).2
  rw [Std.ExtTreeMap.mem_keys, Std.ExtTreeMap.mem_iff_isSome_getElem?]
  rw [State.holds] at hholds
  cases hfolder : s.folder[name]? with
  | none => simp [hfolder] at hholds
  | some content => rfl

theorem Adopted.stored_of_waiting (h : Adopted s) {name : String} {owner : DocKey}
    {text : List Char} (hkept : s.kept name = some (owner, text)) (hput : s.putBack name = none) :
    s.stored name = true := by
  obtain ⟨-, ⟨record, hholds, -⟩, hsource, -⟩ := h.waiting name owner text hkept hput
  exact stored_iff.mpr ⟨hsource, by rw [hholds]; rfl⟩

theorem adopted_start (folder : Folder) (languages : Std.ExtTreeMap DocKey String) :
    Adopted (State.start folder languages) := by
  constructor <;> simp [State.start, State.docs]

/-! ## Ticks -/

section Tick

variable {order : List DocKey} {now : Nat} {persist flush : Bool} {broken : List String}
  {name : String} {owner : DocKey} {text : List Char}

theorem applySetting_stored (persist : Bool) (broken : List String) (name : String) :
    (s.applySetting persist broken).stored name = s.stored name := by
  obtain ⟨-, -, hsource, -⟩ := applySetting_opened (s := s) persist broken
  have htext := congrArg Option.isSome (applySetting_text (s := s) persist broken name)
  rw [Option.isSome_map, Option.isSome_map] at htext
  rw [State.stored, State.stored, hsource, htext]

theorem applySetting_written (persist : Bool) (broken : List String) {key : DocKey}
    (h : key ∈ (s.applySetting persist broken).recovery.written) : key ∈ s.recovery.written := by
  unfold State.applySetting at h
  split at h
  · simp [Recovery.dropHistories] at h
  · exact h

theorem applySetting_waits (persist : Bool) (broken : List String)
    (h : ∃ record, s.documents.recovered[owner]? = some record ∧ record.text = text) :
    ∃ record, (s.applySetting persist broken).documents.recovered[owner]? = some record ∧
      record.text = text := by
  obtain ⟨record, hrecord, htext⟩ := h
  unfold State.applySetting
  split
  · exact ⟨{ record with history := none }, by simp [hrecord], htext⟩
  · exact ⟨record, hrecord, htext⟩

theorem applySetting_holds (persist : Bool) (broken : List String)
    (h : ∃ record, s.holds name = some record ∧ record.text = text) :
    ∃ record, (s.applySetting persist broken).holds name = some record ∧ record.text = text := by
  obtain ⟨record, hrecord, rfl⟩ := h
  have htext := applySetting_text (s := s) persist broken name
  rw [hrecord, Option.map_some, Option.map_eq_some_iff] at htext
  exact htext

theorem Adopted.applySetting (h : Adopted s) (persist : Bool) (broken : List String) :
    Adopted (s.applySetting persist broken) := by
  obtain ⟨hopened, -, hsource, hkept, hput⟩ := applySetting_opened (s := s) persist broken
  refine ⟨?_, ?_, ?_⟩
  · rw [applySetting_docs, hput, hkept]
    intro hlaunched
    refine h.before ?_
    unfold State.applySetting at hlaunched
    split at hlaunched <;> exact hlaunched
  · intro name owner text hkept' hput'
    rw [hkept] at hkept'
    rw [hput] at hput'
    obtain ⟨hwaits, hholds, hleft, hdocs, hwritten⟩ := h.waiting name owner text hkept' hput'
    exact ⟨applySetting_waits persist broken hwaits, applySetting_holds persist broken hholds,
      hsource ▸ hleft, applySetting_docs (s := s) persist broken ▸ hdocs,
      mt (applySetting_written persist broken) hwritten⟩
  · rw [hkept, hput, hopened, applySetting_docs]
    intro name owner text opening hkept' hstored
    rw [applySetting_stored] at hstored
    exact h.home name owner text opening hkept' hstored

theorem AdoptedFiles.of_owner (h : AdoptedFiles s) (hkept : s.kept name = some (owner, text))
    (hstored : s.stored name = true) (key : DocKey)
    (hkey : key ∈ s.docs ∨ key ∈ s.recovery.written) (hfile : fileName key = name) :
    key = owner := by
  refine h name (mem_keys_of_stored hstored) hstored (owner, text) ?_ key ?_ hfile
  · rw [hkept]
    rfl
  · rwa [List.mem_append, Std.ExtTreeMap.mem_keys, Std.ExtTreeMap.mem_keys]

theorem AdoptedFiles.applySetting (h : AdoptedFiles s) (persist : Bool) (broken : List String) :
    AdoptedFiles (s.applySetting persist broken) := by
  obtain ⟨-, -, -, hkept, -⟩ := applySetting_opened (s := s) persist broken
  intro name _ hstored ⟨owner, text⟩ hkept' key hkey hfile
  rw [applySetting_stored] at hstored
  rw [hkept, Option.mem_def] at hkept'
  rw [List.mem_append, Std.ExtTreeMap.mem_keys, Std.ExtTreeMap.mem_keys, applySetting_docs] at hkey
  exact h.of_owner hkept' hstored key
    (hkey.imp id (applySetting_written persist broken)) hfile

/-- No job of a tick is about the file of a record that waits. -/
theorem Adopted.not_target (h : Adopted s) (hfiles : AdoptedFiles s)
    (horder : order.Perm s.docs.keys) (hkept : s.kept name = some (owner, text))
    (hput : s.putBack name = none) (job : Job) (hjob : job ∈ s.jobs order now persist flush) :
    job.target ≠ some name := by
  intro htarget
  obtain ⟨-, -, -, hdocs, hwritten⟩ := h.waiting name owner text hkept hput
  obtain ⟨key, hkey, hfile⟩ :=
    Recovery.tick_jobs_target (nodup_of_perm horder) (mem_of_perm horder) hjob
  rw [htarget, Option.some.injEq] at hfile
  obtain rfl := hfiles.of_owner hkept (h.stored_of_waiting hkept hput) key hkey hfile.symm
  exact hkey.elim hdocs hwritten

/-- What is still the last session's record after a tick was so before. -/
theorem stored_of_tick (horder : order.Perm s.docs.keys)
    (h : (s.tick order now persist flush broken).stored name = true) : s.stored name = true := by
  obtain ⟨hsource, hholds⟩ := stored_iff.mp h
  simp only [State.tick] at hsource
  split at hsource
  · rw [Option.map_eq_some_iff] at hsource
    obtain ⟨doc, -, hsource⟩ := hsource
    cases hsource
  · next hwrites =>
      refine stored_iff.mpr ⟨hsource, ?_⟩
      rcases tick_holds_unwritten horder hwrites with hbefore | hbefore
      · rw [hbefore] at hholds
        cases hholds
      · rwa [hbefore] at hholds

theorem Adopted.tick (h : Adopted s) (hfiles : AdoptedFiles s) (horder : order.Perm s.docs.keys) :
    Adopted (s.tick order now persist flush broken) := by
  refine ⟨h.before, ?_, ?_⟩
  · intro name owner text hkept hput
    obtain ⟨hwaits, hholds, hleft, hdocs, hwritten⟩ := h.waiting name owner text hkept hput
    refine ⟨hwaits, ?_, ?_, hdocs, ?_⟩
    · rw [State.holds, tick_untouched horder]
      · exact hholds
      · intro job hjob htarget
        exact absurd htarget (h.not_target hfiles horder hkept hput job hjob)
    · cases hwrites : s.writes order now flush broken name with
      | none => simpa only [State.tick, hwrites] using hleft
      | some key =>
          obtain ⟨-, hfile, doc, hdoc, -⟩ := writes_some hwrites
          obtain rfl := hfiles.of_owner hkept (h.stored_of_waiting hkept hput) key
            (Or.inl (mem_docs hdoc)) hfile
          exact absurd (mem_docs hdoc) hdocs
    · intro hmem
      exact (Recovery.mem_tick_written (mem_of_perm horder) hmem).elim hdocs hwritten
  · intro name owner text opening hkept hstored
    exact h.home name owner text opening hkept (stored_of_tick horder hstored)

/-- A tick deletes an adopted record's file only once its text was put back into a document
that is clean or closed. -/
theorem Adopted.deletedAfter_tick (h : Adopted s) (hfiles : AdoptedFiles s)
    (horder : order.Perm s.docs.keys) :
    DeletedAfter s (s.tick order now persist flush broken) := by
  intro name owner text hkept hstored hgone
  have howner := hfiles.of_owner hkept hstored
  have hapart : ApartAt s name := fun key other hkey hother hfile hfile' =>
    (howner key hkey hfile).trans (howner other hother hfile').symm
  -- some job about the file went through
  have hreach : ∃ job ∈ s.jobs order now persist flush,
      job.target = some name ∧ name ∉ broken := by
    by_contra hnone
    have hbefore := (stored_iff.mp hstored).2
    rw [State.holds, tick_untouched horder] at hgone
    · rw [State.holds, hgone] at hbefore
      cases hbefore
    · intro job hjob htarget
      by_contra hname
      exact hnone ⟨job, hjob, htarget, hname⟩
  obtain ⟨job, hjob, htarget, hname⟩ := hreach
  cases hput : s.putBack name with
  | none => exact absurd htarget (h.not_target hfiles horder hkept hput job hjob)
  | some opening =>
      refine ⟨opening, rfl, ?_⟩
      intro key doc hdoc hopening
      obtain rfl := h.home name owner text opening hkept hstored hput key (mem_docs hdoc) hopening
      rcases (mem_jobs horder job).mp hjob with
        ⟨other, doc', hdoc', hturn⟩ | ⟨other, hkept', hother, rfl⟩
      · have hfile := Held.jobs_target hturn
        rw [htarget, Option.some.injEq] at hfile
        obtain rfl := howner other (Or.inl (mem_docs hdoc')) hfile.symm
        rw [hdoc, Option.some.injEq] at hdoc'
        subst hdoc'
        cases job with
        | write target record =>
            rw [State.holds, tick_content horder hapart hjob htarget hname] at hgone
            cases hgone
        | delete target => exact (Held.jobs_delete hturn).1
        | stripHistories => cases htarget
      · obtain rfl := howner other (Or.inr hkept') (Option.some.inj htarget)
        exact absurd (mem_docs hdoc) hother

end Tick

/-! ## Every step -/

theorem openWith_error {record : Record} {path : String} {look : Look} {maxBytes : Nat}
    {eol : Text.LineEnding} {reason : OpenError}
    (h : Documents.openWith (some record) path look maxBytes eol = .error reason) :
    opens look maxBytes eol = false := by
  unfold Documents.openWith Document.openFile at h
  unfold opens
  cases hread : readFile look maxBytes eol with
  | ok read => simp [hread, Except.map] at h
  | error reason' =>
      cases hthere : look.isThere with
      | false => simp [hread, hthere, Except.map] at h
      | true => simp [Except.isOk, Except.toBool]

theorem restores_iff {documents : Documents} {key owner : DocKey} {name : String}
    {text : List Char} {doc : Document} (hkept : s.kept name = some (owner, text))
    (hdoc : documents.docs[key]? = some doc) :
    s.restores documents key name = true ↔
      owner = key ∧ s.documents.recovered.contains key = true ∧ doc.buf.rope = text := by
  simp only [State.restores, hkept, hdoc, Bool.and_eq_true, beq_iff_eq, and_assoc]

theorem contains_of_getElem? {records : Std.ExtTreeMap DocKey Record} {key : DocKey}
    {record : Record} (h : records[key]? = some record) : records.contains key = true := by
  rw [← Std.ExtTreeMap.mem_iff_contains, Std.ExtTreeMap.mem_iff_isSome_getElem?, h]
  rfl

theorem Adopted.launch (h : Adopted s) {keyFor : String → String} {shown : DocKey → Bool}
    {history : Bool} {stuck listing : List String} (hnot : s.launched = false)
    (hlisting : listing.Perm s.folder.keys) (hapart : AdoptedApart s keyFor shown) :
    Adopted (s.launch keyFor shown history stuck listing) := by
  obtain ⟨hdocs, hput, -⟩ := h.before hnot
  refine ⟨fun hlaunched => Bool.noConfusion hlaunched, ?_, ?_⟩
  · intro name owner text hkept _
    obtain ⟨hwaits, hholds⟩ := launch_keeps history stuck hapart hlisting hkept
    refine ⟨hwaits, hholds, ?_, ?_, ?_⟩
    · change (s.adopts keyFor shown name).map _ = _
      rw [show s.adopts keyFor shown name = some (owner, text) from hkept]
      rfl
    · change owner ∉ s.docs
      rw [hdocs]
      exact Std.ExtTreeMap.not_mem_empty
    · simp only [State.launch, startRecovery, (adopt_untouched _ _).2]
      exact Std.ExtTreeMap.not_mem_empty
  · intro name owner text opening _ _ hopening
    change s.putBack name = some opening at hopening
    rw [hput] at hopening
    cases hopening

theorem Adopted.opened (h : Adopted s) (hnumbered : Numbered s) {key : DocKey} {doc : Document}
    (hlaunched : s.launched = true) (hkey : key ∉ s.docs)
    (hrope : ∀ record, s.documents.recovered[key]? = some record → doc.buf.rope = record.text) :
    Adopted (s.afterOpen key
      { s.documents with
        docs := s.docs.insert key doc
        recovered := s.documents.recovered.erase key }) := by
  rw [afterOpen_new s _ hkey Std.ExtTreeMap.mem_insert_self]
  have hinsert : ({ s.documents with
      docs := s.docs.insert key doc
      recovered := s.documents.recovered.erase key } : Documents).docs[key]? = some doc :=
    Std.ExtTreeMap.getElem?_insert_self
  refine ⟨?_, ?_, ?_⟩
  · intro hnot
    rw [show s.launched = false from hnot] at hlaunched
    cases hlaunched
  · intro name owner text hkept hput
    change s.kept name = some (owner, text) at hkept
    dsimp only at hput
    split_ifs at hput with hrestores
    obtain ⟨⟨record, hrecord, htext⟩, hholds, hleft, hdocs, hwritten⟩ :=
      h.waiting name owner text hkept hput
    have hne : owner ≠ key := by
      rintro rfl
      refine hrestores ((restores_iff hkept hinsert).mpr ⟨rfl, contains_of_getElem? hrecord, ?_⟩)
      rw [hrope record hrecord, htext]
    refine ⟨⟨record, ?_, htext⟩, hholds, hleft, ?_, hwritten⟩
    · simpa [Std.ExtTreeMap.getElem?_erase, Ne.symm hne] using hrecord
    · exact fun hmem => hdocs ((mem_insert_docs.mp hmem).resolve_left hne)
  · intro name owner text opening hkept hstored hput other hother hopening
    change s.kept name = some (owner, text) at hkept
    dsimp only at hput hopening
    split_ifs at hput with hrestores
    · have howner := ((restores_iff hkept hinsert).mp hrestores).1
      by_cases hsame : other = key
      · rw [hsame, howner]
      · rw [if_neg hsame] at hopening
        have hrecent := hnumbered.recent other ((mem_insert_docs.mp hother).resolve_left hsame)
        rw [Option.some.injEq] at hput
        omega
    · have hpast := hnumbered.putBack name opening hput
      split_ifs at hopening with hsame
      · omega
      · exact h.home name owner text opening hkept hstored hput other
          ((mem_insert_docs.mp hother).resolve_left hsame) hopening

theorem Adopted.failed (h : Adopted s) {key path : String} {look : Look} {maxBytes : Nat}
    {eol : Text.LineEnding} {reason : OpenError} (hkey : DocKey.file key ∉ s.docs)
    (hopen : Documents.openWith s.documents.recovered[DocKey.file key]? path look maxBytes eol =
      .error reason) (hok : OpensWaiting s (.file key) look maxBytes eol) :
    Adopted
      { s with
        documents :=
          { s.documents with recovered := s.documents.recovered.erase (.file key) } } := by
  refine ⟨h.before, ?_, h.home⟩
  intro name owner text hkept hput
  obtain ⟨⟨record, hrecord, htext⟩, hrest⟩ := h.waiting name owner text hkept hput
  have hne : owner ≠ .file key := by
    rintro rfl
    rw [hrecord] at hopen
    have hclosed : s.docs.contains (.file key) = false := by
      rw [← Bool.not_eq_true, ← Std.ExtTreeMap.mem_iff_contains]
      exact hkey
    have hopens := hok (contains_of_getElem? hrecord) hclosed
    rw [openWith_error hopen] at hopens
    cases hopens
  exact ⟨⟨record, by simpa [Std.ExtTreeMap.getElem?_erase, Ne.symm hne] using hrecord, htext⟩,
    hrest⟩

theorem Adopted.move (h : Adopted s) {key dest : DocKey} {doc doc' : Document}
    (hdoc : s.docs[key]? = some doc) (hlaunched : s.launched = true)
    (hok : MovesElsewhere s key dest) : Adopted (s.move key dest doc') := by
  refine ⟨?_, ?_, ?_⟩
  · intro hnot
    rw [show s.launched = false from hnot] at hlaunched
    cases hlaunched
  · intro name owner text hkept hput
    have hstored := h.stored_of_waiting hkept hput
    obtain ⟨hwaits, hholds, hleft, hdocs, hwritten⟩ := h.waiting name owner text hkept hput
    obtain ⟨-, hdest⟩ := hok name (mem_keys_of_stored hstored) hstored (owner, text) hkept
    refine ⟨?_, hholds, hleft, ?_, hwritten⟩
    · simp only [State.move, Documents.rekey]
      split <;> exact hwaits
    · intro hmem
      exact (mem_move.mp hmem).elim hdest fun hmem => hdocs hmem.2
  · intro name owner text opening hkept hstored hput other hother hopening
    obtain ⟨hfrom, -⟩ := hok name (mem_keys_of_stored hstored) hstored (owner, text) hkept
    simp only [State.move] at hopening
    split_ifs at hopening with hdest
    · exact absurd (h.home name owner text opening hkept hstored hput key (mem_docs hdoc) hopening)
        (Ne.symm hfrom)
    · exact h.home name owner text opening hkept hstored hput other
        ((mem_move.mp hother).resolve_left hdest).2 hopening

/-- Fewer open documents, at the same keys. -/
theorem Adopted.shrink (h : Adopted s) {docs : Std.ExtTreeMap DocKey Document}
    (hdocs : ∀ key, key ∈ docs → key ∈ s.docs) (hlaunched : s.launched = true) :
    Adopted { s with documents := { s.documents with docs := docs } } := by
  refine ⟨?_, ?_, ?_⟩
  · intro hnot
    rw [show s.launched = false from hnot] at hlaunched
    cases hlaunched
  · intro name owner text hkept hput
    obtain ⟨hwaits, hholds, hleft, hgone, hwritten⟩ := h.waiting name owner text hkept hput
    exact ⟨hwaits, hholds, hleft, fun hmem => hgone (hdocs owner hmem), hwritten⟩
  · intro name owner text opening hkept hstored hput key hkey
    exact h.home name owner text opening hkept hstored hput key (hdocs key hkey)

theorem Adopted.takes (h : Adopted s) (hnumbered : Numbered s) (hstep : Takes s a s')
    (hok : keepsAdopted s a) : Adopted s' := by
  cases hstep with
  | launch hnot hlisting => exact h.launch hnot hlisting hok
  | opened hlaunched _ hkey hrope => exact h.opened hnumbered hlaunched hkey hrope
  | present => exact h
  | failed _ hkey hopen => exact h.failed hkey hopen hok
  | @follows _ key doc doc' hlaunched hdoc _ =>
      refine h.shrink ?_ hlaunched
      intro other hother
      rcases mem_insert_docs.mp hother with rfl | hother
      · exact mem_docs hdoc
      · exact hother
  | @move _ key dest doc doc' hlaunched hmoves hdoc _ =>
      refine h.move hdoc hlaunched ?_
      cases a <;> simp only [Action.moves, Option.some.injEq, Prod.mk.injEq, reduceCtorEq] at hmoves
      · obtain ⟨rfl, rfl⟩ := hmoves
        exact hok
      · obtain ⟨rfl, rfl⟩ := hmoves
        exact hok
  | unmoved => exact h
  | close hlaunched =>
      exact h.shrink (fun _ hmem => Std.ExtTreeMap.mem_of_mem_erase hmem) hlaunched
  | @tick order now persist flush broken _ horder =>
      refine (h.applySetting persist broken).tick (hok.applySetting persist broken) ?_
      rwa [applySetting_docs]

theorem deletedAfter_of_folder (h : s'.folder = s.folder) : DeletedAfter s s' := by
  intro name owner text _ hstored hgone
  have hholds := (stored_iff.mp hstored).2
  rw [State.holds, h] at hgone
  rw [State.holds, hgone] at hholds
  cases hholds

theorem Adopted.deletedAfter (h : Adopted s) (hstep : Takes s a s') (hok : keepsAdopted s a) :
    DeletedAfter s s' := by
  cases hstep with
  | launch hnot _ =>
      intro name owner text hkept
      rw [(h.before hnot).2.2] at hkept
      cases hkept
  | opened _ _ hkey _ =>
      rw [afterOpen_new s _ hkey Std.ExtTreeMap.mem_insert_self]
      exact deletedAfter_of_folder rfl
  | present => exact deletedAfter_of_folder rfl
  | failed => exact deletedAfter_of_folder rfl
  | follows => exact deletedAfter_of_folder rfl
  | move => exact deletedAfter_of_folder rfl
  | unmoved => exact deletedAfter_of_folder rfl
  | close => exact deletedAfter_of_folder rfl
  | @tick order now persist flush broken _ horder =>
      have hset : DeletedAfter (s.applySetting persist broken)
          ((s.applySetting persist broken).tick order now persist flush broken) := by
        refine (h.applySetting persist broken).deletedAfter_tick
          (hok.applySetting persist broken) ?_
        rwa [applySetting_docs]
      obtain ⟨hopened, -, -, hkept, hput⟩ := applySetting_opened (s := s) persist broken
      intro name owner text hkept' hstored hgone
      have hafter := hset name owner text (hkept ▸ hkept')
        ((applySetting_stored persist broken name).trans hstored) hgone
      rw [hput, applySetting_docs, hopened] at hafter
      exact hafter

/-- In every run whose steps keep the adopted records, none is ever out of reach, and each
one's file goes only after its text was put back into a document that is clean or closed. -/
theorem keptAdopted_of_taken {diff : Diff} (h : (machine diff).Taken keepsAdopted s a s') :
    Reachable s' ∧ DeletedAfter s s' := by
  have hinvariant : Numbered s ∧ Adopted s := by
    refine Machine.Reach.invariant (P := fun s => Numbered s ∧ Adopted s) ?_ ?_ h.reach
    · rintro _ ⟨folder, languages, rfl⟩
      exact ⟨numbered_start folder languages, adopted_start folder languages⟩
    · intro t a t' ⟨hnumbered, hadopted⟩ hok hstep
      have htakes := step_takes hstep
      exact ⟨hnumbered.takes htakes, hadopted.takes hnumbered htakes hok⟩
  obtain ⟨hnumbered, hadopted⟩ := hinvariant
  have htakes := step_takes h.step
  exact ⟨(hadopted.takes hnumbered htakes h.ok).reachable, hadopted.deletedAfter htakes h.ok⟩

/-! ## Two runs -/

/-- What the last session left of the file `a`. -/
def leftRecord : Record := ⟨1, some "a", none, ['x'], none, none, none⟩

def leftFolder : Folder := (∅ : Folder).insert (fileName (.file "a")) (some leftRecord)

def relaunched : Action := .launch id (fun _ => true) true [] [fileName (.file "a")]

/-- A file over the limit. -/
def largeFile : Look := ⟨.ok ⟨10, some 1⟩, true, .ok []⟩

/-- The record's text is put back and saved; then its file goes. -/
theorem keptAdopted_saved : ∃ s s', (Reachable s' ∧ DeletedAfter s s') ∧
    s.stored (fileName (.file "a")) = true ∧ s'.holds (fileName (.file "a")) = none := by
  have hinit : (machine noDiff).Reach keepsAdopted (State.start leftFolder ∅) :=
    .init ⟨leftFolder, ∅, rfl⟩
  obtain ⟨s, s', htaken, hs⟩ := Machine.Taken.exists_of_exec hinit
    [relaunched, .openFile "a" "a" (emptyFile 1) 9 .lf, .save (.file "a") (.ok ()) none]
    (.tick [.file "a"] 0 true false [])
    (fun s s' => s.stored (fileName (.file "a")) &&
      decide (s'.holds (fileName (.file "a")) = none))
    (by decide +kernel)
  rw [Bool.and_eq_true, decide_eq_true_eq] at hs
  exact ⟨s, s', keptAdopted_of_taken htaken, hs⟩

/-- Without the condition, an open that fails leaves the record neither waiting nor put back;
the retry opens the file without it, and the next tick deletes it. -/
theorem not_keptAdopted : ¬ ∀ s a s', (machine noDiff).Taken Machine.anyStep s a s' →
    Reachable s' ∧ DeletedAfter s s' := by
  intro h
  have hinit : (machine noDiff).Reach Machine.anyStep (State.start leftFolder ∅) :=
    .init ⟨leftFolder, ∅, rfl⟩
  obtain ⟨s, s', htaken, hs⟩ := Machine.Taken.exists_of_exec hinit
    [relaunched, .openFile "a" "a" largeFile 9 .lf, .openFile "a" "a" (emptyFile 1) 9 .lf]
    (.tick [.file "a"] 0 true false [])
    (fun s s' => decide (s.kept (fileName (.file "a")) = some (.file "a", ['x'])) &&
      s.stored (fileName (.file "a")) && decide (s'.holds (fileName (.file "a")) = none) &&
      decide (s.putBack (fileName (.file "a")) = none))
    (by decide +kernel)
  simp only [Bool.and_eq_true, decide_eq_true_eq] at hs
  obtain ⟨⟨⟨hkept, hstored⟩, hgone⟩, hput⟩ := hs
  obtain ⟨opening, hopening, -⟩ := (h s _ s' htaken).2 _ _ _ hkept hstored hgone
  rw [hput] at hopening
  cases hopening

end Throng.RecoveryRun
