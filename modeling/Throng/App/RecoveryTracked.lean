import Throng.App.RecoveryRun

/-!
# What recovery keeps of every document

After a flushing tick each unsaved document should have its text in the folder, and
nothing else should be left there but the records that wait for their editors. The tick
decides by numbers, so this holds as long as what it skips was written from the document
as it stands, and the recovery still knows of every record there is.
-/

namespace Throng.RecoveryRun

open Text (Diff)

namespace State

/-- The record a file holds. -/
def holds (s : State) (name : String) : Option Record := s.folder[name]?.join

/-- The record under `name` was left by the last session, and waits for its editor. -/
def waits (s : State) (name : String) : Bool :=
  s.source name == some .left &&
    (s.kept name).any fun kept => s.documents.recovered.contains kept.1

/-- The document of `key` is open and unsaved. -/
def unsaved (s : State) (key : DocKey) : Bool := s.docs[key]?.any fun doc => doc.isDirty.1

end State

/-- What a flushing tick should leave. -/
structure Tracked (s : State) : Prop where
  unsaved : ∀ key doc, s.docs[key]? = some doc → doc.isDirty.1 = true →
    ∃ record, s.holds (fileName key) = some record ∧ record.text = doc.buf.rope
  others : ∀ name record, s.holds name = some record →
    s.waits name = true ∨ ∃ key, fileName key = name ∧ s.unsaved key = true

/-- An unsaved document whose number is the one it was last written at has its record in
the folder, taken from this document at its version. -/
def Same (s : State) : Prop :=
  ∀ entry ∈ s.docs.toList, entry.2.isDirty.1 = true →
    s.recovery.written[entry.1]? = some entry.2.number →
    (s.holds (fileName entry.1)).isSome = true ∧
      s.source (fileName entry.1) = some (.taken (s.opened entry.1) entry.2.buf.version)

/-- Every record in the folder waits, or has the file name of a key that is kept as
written, of an adopted key that is open, or of an unsaved document. -/
def Known (s : State) : Prop :=
  ∀ name ∈ s.folder.keys, (s.holds name).isSome = true →
    s.waits name = true ∨ (∃ key ∈ s.recovery.written.keys, fileName key = name) ∨
      ∃ key ∈ s.docs.keys, fileName key = name ∧
        (s.recovery.adopted.contains key = true ∨ s.unsaved key = true)

/-- The keys that are open or kept as written have files of their own. -/
def Apart (s : State) : Prop :=
  ∀ key ∈ s.docs.keys ++ s.recovery.written.keys,
    ∀ other ∈ s.docs.keys ++ s.recovery.written.keys, fileName key = fileName other → key = other

instance (s : State) : Decidable (Same s) := by
  unfold Same
  infer_instance

instance (s : State) : Decidable (Known s) := by
  unfold Known
  infer_instance

instance (s : State) : Decidable (Apart s) := by
  unfold Apart
  infer_instance

/-- The ticks find their files apart, and the flushing ones all whose jobs go through find
what was written the same and every record known. -/
def inTurn (s : State) : Action → Prop
  | .tick _ _ persist flush broken =>
      Apart (s.applySetting persist broken) ∧
        (flush = true ∧ broken = [] →
          Same (s.applySetting persist broken) ∧ Known (s.applySetting persist broken))
  | _ => True

instance : DecidableRel inTurn := fun s a =>
  match a with
  | .tick _ _ persist flush broken =>
      inferInstanceAs (Decidable (Apart (s.applySetting persist broken) ∧
        (flush = true ∧ broken = [] →
          Same (s.applySetting persist broken) ∧ Known (s.applySetting persist broken))))
  | .launch _ _ _ _ _ | .openFile _ _ _ _ _ | .openUntitled _ _ | .edit _ _ _ _ _ _ | .undo _
  | .redo _ | .save _ _ _ | .saveAs _ _ _ _ _ | .checkDisk _ _ _ | .reload _ _ _
  | .keepMine _ _ | .move _ _ _ _ | .close _ => isTrue trivial

variable {s s' : State} {a : Action} {order : List DocKey} {now : Nat} {persist flush : Bool}
  {broken : List String} {name : String}

/-! ## What a tick leaves in the folder -/

/-- The file `name` is one key's at most, of those that are open or kept as written. -/
def ApartAt (s : State) (name : String) : Prop :=
  ∀ key other, key ∈ s.docs ∨ key ∈ s.recovery.written →
    other ∈ s.docs ∨ other ∈ s.recovery.written → fileName key = name → fileName other = name →
      key = other

theorem Apart.at_name (h : Apart s) (name : String) : ApartAt s name := by
  intro key other hkey hother hname hname'
  refine h key ?_ other ?_ (hname.trans hname'.symm)
  · rwa [List.mem_append, Std.ExtTreeMap.mem_keys, Std.ExtTreeMap.mem_keys]
  · rwa [List.mem_append, Std.ExtTreeMap.mem_keys, Std.ExtTreeMap.mem_keys]

theorem nodup_of_perm (horder : order.Perm s.docs.keys) : order.Nodup := by
  have hkeys : s.docs.keys.Nodup := by
    refine List.Pairwise.imp ?_ Std.ExtTreeMap.distinct_keys
    rintro key other hne rfl
    exact hne Std.ReflCmp.compare_self
  exact horder.nodup_iff.mpr hkeys

theorem mem_of_perm (horder : order.Perm s.docs.keys) (key : DocKey) :
    key ∈ order ↔ key ∈ s.docs := by
  rw [horder.mem_iff, Std.ExtTreeMap.mem_keys]

/-- The jobs a tick sends. -/
abbrev State.jobs (s : State) (order : List DocKey) (now : Nat) (persist flush : Bool) :
    List Job := (s.recovery.tick s.docs order now persist flush).jobs

theorem jobs_have_target (horder : order.Perm s.docs.keys) (job : Job)
    (hjob : job ∈ s.jobs order now persist flush) : ∃ target, job.target = some target := by
  obtain ⟨key, -, htarget⟩ :=
    Recovery.tick_jobs_target (nodup_of_perm horder) (mem_of_perm horder) hjob
  exact ⟨fileName key, htarget⟩

/-- A job that goes through leaves its content. -/
theorem tick_content (horder : order.Perm s.docs.keys) (hapart : ApartAt s name) {job : Job}
    (hjob : job ∈ s.jobs order now persist flush) (htarget : job.target = some name)
    (hname : name ∉ broken) :
    (s.tick order now persist flush broken).folder[name]? = job.content := by
  refine getElem?_writer_of_mem (jobs_have_target horder) ?_ hname hjob htarget
  intro other hother hsame
  rw [Recovery.tick_jobs_unique (nodup_of_perm horder) (mem_of_perm horder) hapart hother hjob
    hsame htarget]

/-- A file that no job reaches stays as it was. -/
theorem tick_untouched (horder : order.Perm s.docs.keys)
    (h : ∀ job ∈ s.jobs order now persist flush, job.target = some name → name ∈ broken) :
    (s.tick order now persist flush broken).folder[name]? = s.folder[name]? :=
  getElem?_writer_of_notMem (jobs_have_target horder) h

theorem mem_jobs (horder : order.Perm s.docs.keys) (job : Job) :
    job ∈ s.jobs order now persist flush ↔
      (∃ key doc, s.docs[key]? = some doc ∧
        job ∈ (s.recovery.held key).jobs now persist flush key doc) ∨
      ∃ key, key ∈ s.recovery.written ∧ key ∉ s.docs ∧ job = .delete (fileName key) :=
  Recovery.mem_tick_jobs (nodup_of_perm horder) (mem_of_perm horder) job

/-- What `writes` finds is due and open. -/
theorem writes_some {key : DocKey} (h : s.writes order now flush broken name = some key) :
    name ∉ broken ∧ fileName key = name ∧
      ∃ doc, s.docs[key]? = some doc ∧ (s.recovery.held key).isDue now flush doc = true := by
  rw [State.writes, Option.ite_none_left_eq_some] at h
  obtain ⟨hname, hfind⟩ := h
  have hkey := List.find?_some hfind
  rw [Bool.and_eq_true, beq_iff_eq] at hkey
  refine ⟨hname, hkey.1, ?_⟩
  have hdue := hkey.2
  rw [State.due, Option.any_eq_true] at hdue
  exact hdue

/-- Where `writes` finds nothing, nothing is written. -/
theorem writes_none (horder : order.Perm s.docs.keys)
    (h : s.writes order now flush broken name = none) (hname : name ∉ broken) {key : DocKey}
    {doc : Document} (hdoc : s.docs[key]? = some doc) (hfile : fileName key = name) :
    (s.recovery.held key).isDue now flush doc = false := by
  rw [State.writes, if_neg hname, List.find?_eq_none] at h
  have hkey := h key ((mem_of_perm horder key).mpr (mem_docs hdoc))
  simpa [hfile, State.due, hdoc] using hkey

/-- What a tick writes is there after it. -/
theorem tick_holds_written (horder : order.Perm s.docs.keys) (hapart : ApartAt s name)
    {key : DocKey} {doc : Document} (hdoc : s.docs[key]? = some doc) (hfile : fileName key = name)
    (hdue : (s.recovery.held key).isDue now flush doc = true) (hname : name ∉ broken) :
    (s.tick order now persist flush broken).holds name = some (doc.pending persist key) := by
  have hjob : Job.write (fileName key) (doc.pending persist key) ∈
      s.jobs order now persist flush := by
    refine (mem_jobs horder _).mpr (Or.inl ⟨key, doc, hdoc, ?_⟩)
    rw [Held.jobs_of_isDue hdue]
    exact List.mem_singleton_self _
  rw [State.holds, tick_content horder hapart hjob (congrArg some hfile) hname]
  rfl

/-- A record that a tick did not write was there before. -/
theorem tick_holds_unwritten (horder : order.Perm s.docs.keys)
    (hwrites : s.writes order now flush broken name = none) :
    (s.tick order now persist flush broken).holds name = none ∨
      (s.tick order now persist flush broken).holds name = s.holds name := by
  by_cases hreach : ∃ job ∈ s.jobs order now persist flush,
      job.target = some name ∧ name ∉ broken
  · left
    obtain ⟨job, hjob, htarget, hname⟩ := hreach
    have hdelete : ∀ job ∈ s.jobs order now persist flush, job.target = some name →
        job.content = none := by
      intro job hjob htarget
      rcases (mem_jobs horder job).mp hjob with ⟨key, doc, hdoc, hturn⟩ | ⟨key, -, -, rfl⟩
      · cases job with
        | write target record =>
            obtain ⟨hdue, rfl, -⟩ := Held.jobs_write hturn
            have hnot := writes_none horder hwrites hname hdoc (Option.some.inj htarget)
            rw [hdue] at hnot
            cases hnot
        | delete target => rfl
        | stripHistories => cases htarget
      · rfl
    rw [State.holds, State.tick,
      getElem?_writer_of_mem (jobs_have_target horder) hdelete hname hjob htarget]
    rfl
  · right
    rw [State.holds, State.holds, tick_untouched horder]
    intro job hjob htarget
    by_contra hname
    exact hreach ⟨job, hjob, htarget, hname⟩

/-- Applying the setting leaves every record its text. -/
theorem applySetting_text (persist : Bool) (broken : List String) (name : String) :
    ((s.applySetting persist broken).holds name).map Record.text =
      (s.holds name).map Record.text := by
  have hstrip : ((s.folder.stripHistories broken)[name]?.join).map Record.text =
      (s.folder[name]?.join).map Record.text := by
    refine List.foldl_keeps (P := fun left : Folder =>
      (left[name]?.join).map Record.text = (s.folder[name]?.join).map Record.text) ?_ rfl
    intro left other _ hleft
    split
    · next record hrecord =>
        split_ifs
        · by_cases hname : other = name
          · subst hname
            simp [hrecord]
          · simpa [Std.ExtTreeMap.getElem?_insert, hname] using hleft
        · exact hleft
    · exact hleft
  unfold State.applySetting
  split
  · exact hstrip
  · rfl

/-! ## Records and the documents they were taken from -/

/-- A record taken from an open document is no newer than it, and holds its text if it is
no older. -/
def Right (s : State) : Prop :=
  ∀ name record opening version key doc, s.holds name = some record →
    s.source name = some (.taken opening version) → s.docs[key]? = some doc →
    s.opened key = opening →
    version ≤ doc.buf.version ∧ (version = doc.buf.version → record.text = doc.buf.rope)

theorem right_start (folder : Folder) (languages : Std.ExtTreeMap DocKey String) :
    Right (State.start folder languages) := by
  intro name record opening version key doc _ hsource
  cases hsource

theorem Right.applySetting (h : Right s) (persist : Bool) (broken : List String) :
    Right (s.applySetting persist broken) := by
  intro name record opening version key doc hrecord hsource hdoc hopening
  obtain ⟨hopened, -, hsources, -⟩ := applySetting_opened (s := s) persist broken
  have htext := applySetting_text (s := s) persist broken name
  rw [hrecord, Option.map_some, eq_comm, Option.map_eq_some_iff] at htext
  obtain ⟨before, hbefore, htext⟩ := htext
  rw [applySetting_docs] at hdoc
  rw [hsources] at hsource
  rw [hopened] at hopening
  rw [← htext]
  exact h name before opening version key doc hbefore hsource hdoc hopening

theorem Right.tick (h : Right s) (hnumbered : Numbered s) (horder : order.Perm s.docs.keys)
    (hapart : Apart s) : Right (s.tick order now persist flush broken) := by
  intro name record opening version key doc hrecord hsource hdoc hopening
  change s.docs[key]? = some doc at hdoc
  change s.opened key = opening at hopening
  cases hwrites : s.writes order now flush broken name with
  | some writer =>
      obtain ⟨hname, hfile, written, hwritten, hdue⟩ := writes_some hwrites
      rw [tick_holds_written horder (hapart.at_name name) hwritten hfile hdue hname,
        Option.some.injEq] at hrecord
      simp only [State.tick, hwrites, hwritten, Option.map_some, Option.some.injEq,
        Source.taken.injEq] at hsource
      obtain ⟨hwriter, rfl⟩ := hsource
      have hsame : writer = key := hnumbered.unique writer key (mem_docs hwritten) (mem_docs hdoc)
        (hwriter.trans hopening.symm)
      subst hsame
      rw [hdoc, Option.some.injEq] at hwritten
      subst hwritten
      exact ⟨Nat.le_refl _, fun _ => by rw [← hrecord]; rfl⟩
  | none =>
      simp only [State.tick, hwrites] at hsource
      rcases tick_holds_unwritten horder hwrites with hholds | hholds
      · rw [hholds] at hrecord
        cases hrecord
      · rw [hholds] at hrecord
        exact h name record opening version key doc hrecord hsource hdoc hopening

theorem Right.takes (h : Right s) (hnumbered : Numbered s) (hstep : Takes s a s')
    (hok : inTurn s a) : Right s' := by
  cases hstep with
  | launch _ _ =>
      intro name record opening version key doc _ hsource
      simp [State.launch] at hsource
  | @opened _ key doc _ _ hkey _ =>
      rw [afterOpen_new s _ hkey Std.ExtTreeMap.mem_insert_self]
      intro name record opening version other doc' hrecord hsource hdoc hopening
      have hpast := hnumbered.past name opening version hsource
      dsimp only at hopening
      split_ifs at hopening with heq
      · omega
      · have hdoc' : s.docs[other]? = some doc' := by
          have hne : ¬ key = other := fun h => heq h.symm
          simpa [State.docs, Std.ExtTreeMap.getElem?_insert, hne] using hdoc
        exact h name record opening version other doc' hrecord hsource hdoc' hopening
  | present => exact h
  | failed => exact h
  | @follows _ key doc doc' _ hdoc hfollows =>
      intro name record opening version other found hrecord hsource hfound hopening
      by_cases hkey : key = other
      · subst hkey
        have hfound' : doc' = found := by
          simpa [State.docs] using hfound
        subst hfound'
        obtain ⟨hle, htext⟩ := h name record opening version key doc hrecord hsource hdoc hopening
        refine ⟨Nat.le_trans hle hfollows.version, fun heq => ?_⟩
        have hversion := Nat.le_antisymm (heq ▸ hle) hfollows.version
        rw [hfollows.text hversion]
        exact htext (heq.trans hversion)
      · have hfound' : s.docs[other]? = some found := by
          simpa [State.docs, Std.ExtTreeMap.getElem?_insert, hkey] using hfound
        exact h name record opening version other found hrecord hsource hfound' hopening
  | @move _ key dest doc doc' _ _ hdoc hfollows =>
      intro name record opening version other found hrecord hsource hfound hopening
      rw [getElem?_move] at hfound
      simp only [State.move] at hopening
      by_cases hdest : dest = other
      · subst hdest
        rw [if_pos rfl, Option.some.injEq] at hfound
        rw [if_pos rfl] at hopening
        subst hfound
        obtain ⟨hle, htext⟩ := h name record opening version key doc hrecord hsource hdoc hopening
        refine ⟨Nat.le_trans hle hfollows.version, fun heq => ?_⟩
        have hversion := Nat.le_antisymm (heq ▸ hle) hfollows.version
        rw [hfollows.text hversion]
        exact htext (heq.trans hversion)
      · rw [if_neg hdest] at hfound
        rw [if_neg (Ne.symm hdest)] at hopening
        split_ifs at hfound
        exact h name record opening version other found hrecord hsource hfound hopening
  | unmoved => exact h
  | @close key =>
      intro name record opening version other found hrecord hsource hfound hopening
      have hfound' : s.docs[other]? = some found := by
        simp only [State.docs, Documents.remove, Std.ExtTreeMap.getElem?_erase] at hfound
        split_ifs at hfound
        exact hfound
      exact h name record opening version other found hrecord hsource hfound' hopening
  | @tick order now persist flush broken hlaunched horder =>
      refine (h.applySetting persist broken).tick ?_ ?_ hok.1
      · exact hnumbered.applySetting persist broken
      · rwa [applySetting_docs]

/-! ## After a flushing tick -/

/-- A tick has nothing to do for an unsaved document whose number is the one kept. -/
theorem not_target_of_written (horder : order.Perm s.docs.keys) (hapart : Apart s) {key : DocKey}
    {doc : Document} (hdoc : s.docs[key]? = some doc) (hdirty : doc.isDirty.1 = true)
    (hwritten : s.recovery.written[key]? = some doc.number) (job : Job)
    (hjob : job ∈ s.jobs order now persist flush) : job.target ≠ some (fileName key) := by
  intro htarget
  rcases (mem_jobs horder job).mp hjob with ⟨other, doc', hdoc', hturn⟩ | ⟨other, hkept, hgone, rfl⟩
  · rw [Held.jobs_target hturn, Option.some.injEq] at htarget
    obtain rfl := hapart.at_name _ other key (Or.inl (mem_docs hdoc')) (Or.inl (mem_docs hdoc))
      htarget rfl
    rw [hdoc, Option.some.injEq] at hdoc'
    subst hdoc'
    cases job with
    | write target record =>
        have hdue := (Held.jobs_write hturn).1
        simp [Held.isDue, Recovery.held, hwritten] at hdue
    | delete target =>
        rw [(Held.jobs_delete hturn).1] at hdirty
        cases hdirty
    | stripHistories => cases Held.jobs_target hturn
  · obtain rfl := hapart.at_name _ other key (Or.inr hkept) (Or.inl (mem_docs hdoc))
      (Option.some.inj htarget) rfl
    exact hgone (mem_docs hdoc)

theorem unsaved_tracked (hright : Right s) (hapart : Apart s) (hsame : Same s)
    (horder : order.Perm s.docs.keys) {key : DocKey} {doc : Document}
    (hdoc : s.docs[key]? = some doc) (hdirty : doc.isDirty.1 = true) :
    ∃ record, (s.tick order now persist true []).holds (fileName key) = some record ∧
      record.text = doc.buf.rope := by
  by_cases hwritten : s.recovery.written[key]? = some doc.number
  · have hmem : (key, doc) ∈ s.docs.toList :=
      Std.ExtTreeMap.mem_toList_iff_getElem?_eq_some.mpr hdoc
    obtain ⟨hholds, hsource⟩ := hsame (key, doc) hmem hdirty hwritten
    obtain ⟨record, hrecord⟩ := Option.isSome_iff_exists.mp hholds
    have htext := hright (fileName key) record (s.opened key) doc.buf.version key doc hrecord
      hsource hdoc rfl
    refine ⟨record, ?_, htext.2 rfl⟩
    rw [State.holds, tick_untouched horder]
    · exact hrecord
    · intro job hjob htarget
      exact absurd htarget (not_target_of_written horder hapart hdoc hdirty hwritten job hjob)
  · have hdue : (s.recovery.held key).isDue now true doc = true :=
      Held.isDue_flush hdirty hwritten
    exact ⟨doc.pending persist key,
      tick_holds_written horder (hapart.at_name _) hdoc rfl hdue List.not_mem_nil, rfl⟩

/-- A clean document that the recovery holds something for has its file deleted. -/
theorem clean_deleted (horder : order.Perm s.docs.keys) (hapart : Apart s) {key : DocKey}
    {doc : Document} (hdoc : s.docs[key]? = some doc) (hclean : doc.isDirty.1 = false)
    (hheld : s.recovery.adopted.contains key = true ∨ key ∈ s.recovery.written) :
    (s.tick order now persist flush []).holds (fileName key) = none := by
  have hjob : Job.delete (fileName key) ∈ s.jobs order now persist flush := by
    refine (mem_jobs horder _).mpr (Or.inl ⟨key, doc, hdoc, ?_⟩)
    rw [Held.jobs_of_clean hclean]
    · exact List.mem_singleton_self _
    · exact hheld.imp id Std.ExtTreeMap.mem_iff_isSome_getElem?.mp
  rw [State.holds, tick_content horder (hapart.at_name _) hjob rfl List.not_mem_nil]
  rfl

theorem closed_deleted (horder : order.Perm s.docs.keys) (hapart : Apart s) {key : DocKey}
    (hgone : key ∉ s.docs) (hkept : key ∈ s.recovery.written) :
    (s.tick order now persist flush []).holds (fileName key) = none := by
  have hjob : Job.delete (fileName key) ∈ s.jobs order now persist flush :=
    (mem_jobs horder _).mpr (Or.inr ⟨key, hkept, hgone, rfl⟩)
  rw [State.holds, tick_content horder (hapart.at_name _) hjob rfl List.not_mem_nil]
  rfl

theorem others_tracked (hapart : Apart s) (hknown : Known s) (horder : order.Perm s.docs.keys)
    {record : Record} (h : (s.tick order now persist true []).holds name = some record) :
    (s.tick order now persist true []).waits name = true ∨
      ∃ key, fileName key = name ∧ (s.tick order now persist true []).unsaved key = true := by
  cases hwrites : s.writes order now true [] name with
  | some key =>
      obtain ⟨-, hfile, doc, hdoc, hdue⟩ := writes_some hwrites
      have hdirty : doc.isDirty.1 = true := by
        simp only [Held.isDue, Bool.and_eq_true] at hdue
        exact hdue.1.1
      exact Or.inr ⟨key, hfile, by simpa [State.unsaved, State.tick, hdoc] using hdirty⟩
  | none =>
      have hbefore : s.holds name = some record := by
        rcases tick_holds_unwritten horder hwrites with hholds | hholds
        · rw [hholds] at h
          cases h
        · exact hholds ▸ h
      -- a record the tick neither wrote nor deleted was known for another reason
      have hwritten : ∀ key, key ∈ s.docs → fileName key = name →
          s.recovery.adopted.contains key = true ∨ key ∈ s.recovery.written →
          s.unsaved key = true := by
        rintro key hopen rfl hheld
        obtain ⟨doc, hdoc⟩ := Option.isSome_iff_exists.mp
          (Std.ExtTreeMap.mem_iff_isSome_getElem?.mp hopen)
        by_contra hunsaved
        have hclean : doc.isDirty.1 = false := by
          simpa [State.unsaved, hdoc] using hunsaved
        rw [clean_deleted horder hapart hdoc hclean hheld] at h
        cases h
      have hmem : name ∈ s.folder.keys := by
        rw [Std.ExtTreeMap.mem_keys, Std.ExtTreeMap.mem_iff_isSome_getElem?]
        rw [State.holds] at hbefore
        cases hfolder : s.folder[name]? with
        | none => simp [hfolder] at hbefore
        | some content => rfl
      rcases hknown name hmem (by rw [hbefore]; rfl) with hwaits | ⟨key, hkey, hfile⟩ |
        ⟨key, hkey, hfile, hheld⟩
      · left
        simp only [State.waits, State.tick, hwrites]
        exact hwaits
      · right
        rw [Std.ExtTreeMap.mem_keys] at hkey
        by_cases hopen : key ∈ s.docs
        · exact ⟨key, hfile, hwritten key hopen hfile (Or.inr hkey)⟩
        · subst hfile
          rw [closed_deleted horder hapart hopen hkey] at h
          cases h
      · right
        rw [Std.ExtTreeMap.mem_keys] at hkey
        rcases hheld with hadopted | hunsaved
        · exact ⟨key, hfile, hwritten key hkey hfile (Or.inl hadopted)⟩
        · exact ⟨key, hfile, hunsaved⟩

/-- After every flushing tick whose jobs go through, in a run whose ticks come in turn. -/
theorem tracked_of_taken {diff : Diff}
    (h : (machine diff).Taken inTurn s (.tick order now persist true []) s') : Tracked s' := by
  have hinvariant : Numbered s ∧ Right s := by
    refine Machine.Reach.invariant (P := fun s => Numbered s ∧ Right s) ?_ ?_ h.reach
    · rintro _ ⟨folder, languages, rfl⟩
      exact ⟨numbered_start folder languages, right_start folder languages⟩
    · intro t a t' ⟨hnumbered, hright⟩ hok hstep
      have htakes := step_takes hstep
      exact ⟨hnumbered.takes htakes, hright.takes hnumbered htakes hok⟩
  obtain ⟨hnumbered, hright⟩ := hinvariant
  have hstep := h.step
  simp only [machine, step, act] at hstep
  split at hstep
  · rw [Option.ite_none_right_eq_some, Option.some.injEq] at hstep
    obtain ⟨hperm, rfl⟩ := hstep
    obtain ⟨hapart, hsameKnown⟩ := h.ok
    obtain ⟨hsame, hknown⟩ := hsameKnown ⟨rfl, rfl⟩
    have horder : order.Perm (s.applySetting persist []).docs.keys := by
      rw [applySetting_docs]
      exact List.isPerm_iff.mp hperm
    constructor
    · intro key doc hdoc hdirty
      exact unsaved_tracked (hright.applySetting persist []) hapart hsame horder hdoc hdirty
    · intro name record hrecord
      exact others_tracked hapart hknown horder hrecord
  · cases hstep

/-! ## Two runs -/

/-- An empty file, and a file that is gone. -/
def emptyFile (modified : Nat) : Look := ⟨.ok ⟨0, some modified⟩, true, .ok []⟩

def noFile : Look := ⟨.error "not found", false, .error "not found"⟩

def noDiff : Diff := fun _ _ => []

def launched : Action := .launch id (fun _ => true) true [] []

def typed (key : DocKey) (offset : Nat) (c : Char) : Action :=
  .edit key ⟨[⟨offset, [], [c]⟩]⟩ (.point offset) (.point (offset + 1)) .insert 0

theorem start_init :
    (machine noDiff).init (State.start ∅ ∅) := ⟨∅, ∅, rfl⟩

/-- Two files are edited and one of them is closed; after the tick that follows only the
other one's text is kept. -/
theorem tracked_closed : ∃ s', Tracked s' ∧
    s'.holds (fileName (.file "a")) = none ∧
      (s'.holds (fileName (.file "b"))).map Record.text = some ['y'] := by
  have hinit : (machine noDiff).Reach inTurn (State.start ∅ ∅) := .init start_init
  obtain ⟨s, s', htaken, hs⟩ := Machine.Taken.exists_of_exec hinit
    [launched, .openFile "a" "a" (emptyFile 1) 9 .lf, .openFile "b" "b" (emptyFile 1) 9 .lf,
      typed (.file "a") 0 'x', .tick [.file "a", .file "b"] 0 true true [],
      typed (.file "b") 0 'y', .close (.file "a")]
    (.tick [.file "b"] 0 true true [])
    (fun _ s' => decide (s'.holds (fileName (.file "a")) = none) &&
      decide ((s'.holds (fileName (.file "b"))).map Record.text = some ['y']))
    (by decide +kernel)
  rw [Bool.and_eq_true, decide_eq_true_eq, decide_eq_true_eq] at hs
  exact ⟨s', tracked_of_taken htaken, hs⟩

/-- Without the condition, a document written while its file was gone has the same number
once the file is back and one more edit is made: the edit is not kept. -/
theorem not_tracked : ¬ ∀ s s' order now persist,
    (machine noDiff).Taken Machine.anyStep s (.tick order now persist true []) s' →
      Tracked s' := by
  intro h
  have hinit : (machine noDiff).Reach Machine.anyStep (State.start ∅ ∅) := .init start_init
  obtain ⟨s, s', htaken, hs⟩ := Machine.Taken.exists_of_exec hinit
    [launched, .openFile "a" "a" (emptyFile 1) 9 .lf, typed (.file "a") 0 'x',
      .checkDisk (.file "a") noFile 9, .tick [.file "a"] 0 true true [],
      .checkDisk (.file "a") (emptyFile 2) 9, .tick [.file "a"] 100 true false [],
      typed (.file "a") 1 'y']
    (.tick [.file "a"] 200 true true [])
    (fun s s' => s.unsaved (.file "a") &&
      decide (s.docs[DocKey.file "a"]?.map (fun doc => doc.buf.rope) = some ['x', 'y']) &&
      decide ((s'.holds (fileName (.file "a"))).map Record.text = some ['x']))
    (by decide +kernel)
  simp only [Bool.and_eq_true, decide_eq_true_eq] at hs
  obtain ⟨⟨hunsaved, hrope⟩, hkept⟩ := hs
  have hdocs : s'.docs = s.docs := by
    have hstep := htaken.step
    simp only [machine, step, act] at hstep
    split at hstep
    · rw [Option.ite_none_right_eq_some, Option.some.injEq] at hstep
      obtain ⟨-, rfl⟩ := hstep
      exact applySetting_docs true []
    · cases hstep
  rw [Option.map_eq_some_iff] at hrope
  obtain ⟨doc, hdoc, hrope⟩ := hrope
  have hdirty : doc.isDirty.1 = true := by
    simpa [State.unsaved, hdoc] using hunsaved
  obtain ⟨record, hrecord, htext⟩ :=
    (h s s' _ _ _ htaken).unsaved (.file "a") doc (hdocs ▸ hdoc) hdirty
  rw [hrecord, Option.map_some, htext, hrope] at hkept
  exact absurd hkept (by decide)

end Throng.RecoveryRun
