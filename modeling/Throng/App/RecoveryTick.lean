import Throng.App.Recovery

/-!
# What one tick does

A tick is a pass over the documents and one over the keys whose documents are closed.
Each visit touches what the recovery holds for its own key, so the jobs a tick sends
can be told key by key from what it held before. What the writer thread then leaves
under a name is told by the jobs of that name.
-/

namespace Throng

variable {docs : Std.ExtTreeMap DocKey Document} {order : List DocKey} {now : Nat}
  {persist flush : Bool} {recovery : Recovery}

theorem mem_docs {key : DocKey} {doc : Document} (h : docs[key]? = some doc) : key ∈ docs := by
  rw [Std.ExtTreeMap.mem_iff_isSome_getElem?, h]
  rfl

/-- The file a job is about. -/
def Job.target : Job → Option String
  | .write target _ => some target
  | .delete target => some target
  | .stripHistories => none

/-- What a recovery holds for one key. -/
structure Held where
  written : Option Nat
  changed : Option (Nat × Nat)
  adopted : Bool

def Recovery.held (recovery : Recovery) (key : DocKey) : Held where
  written := recovery.written[key]?
  changed := recovery.changed[key]?
  adopted := recovery.adopted.contains key

namespace Held

/-- Whether the document's recovery file is to be written in its turn. -/
def isDue (now : Nat) (flush : Bool) (doc : Document) (held : Held) : Bool :=
  doc.isDirty.1 && held.written ≠ some doc.number &&
    (flush || debounceMs ≤ now - Recovery.since held.changed doc.number now)

/-- What a document's turn leaves the recovery holding for its key. -/
def turn (now : Nat) (flush : Bool) (doc : Document) (held : Held) : Held :=
  if doc.isDirty.1 = false then { written := none, changed := none, adopted := false }
  else if held.written = some doc.number then held
  else
    let changed := some (doc.number, Recovery.since held.changed doc.number now)
    if held.isDue now flush doc then
      { written := some doc.number, changed := changed, adopted := false }
    else { held with changed := changed }

/-- The jobs of a document's turn. -/
def jobs (now : Nat) (persist flush : Bool) (key : DocKey) (doc : Document) (held : Held) :
    List Job :=
  if doc.isDirty.1 = false then
    if held.adopted || held.written.isSome then [.delete (fileName key)] else []
  else if held.isDue now flush doc then [.write (fileName key) (doc.pending persist key)]
  else []

/-- A turn sends one job at most. -/
theorem jobs_unique {held : Held} {key : DocKey} {doc : Document} {job other : Job}
    (hjob : job ∈ held.jobs now persist flush key doc)
    (hother : other ∈ held.jobs now persist flush key doc) : job = other := by
  unfold jobs at hjob hother
  split_ifs at hjob hother <;> simp_all

theorem jobs_target {held : Held} {key : DocKey} {doc : Document} {job : Job}
    (h : job ∈ held.jobs now persist flush key doc) : job.target = some (fileName key) := by
  unfold jobs at h
  split_ifs at h <;> simp_all [Job.target]

/-- A turn that has something written is a due one. -/
theorem jobs_write {held : Held} {key : DocKey} {doc : Document} {target : String}
    {record : Record} (h : Job.write target record ∈ held.jobs now persist flush key doc) :
    held.isDue now flush doc = true ∧ target = fileName key ∧
      record = doc.pending persist key := by
  unfold jobs at h
  split at h
  · split at h <;> simp at h
  · split at h
    · rename_i hdue
      rw [List.mem_singleton, Job.write.injEq] at h
      exact ⟨hdue, h.1, h.2⟩
    · simp at h

/-- A turn that has something deleted is one of a clean document. -/
theorem jobs_delete {held : Held} {key : DocKey} {doc : Document} {target : String}
    (h : Job.delete target ∈ held.jobs now persist flush key doc) :
    doc.isDirty.1 = false ∧ target = fileName key := by
  unfold jobs at h
  split at h
  · rename_i hclean
    split at h
    · rw [List.mem_singleton, Job.delete.injEq] at h
      exact ⟨hclean, h⟩
    · simp at h
  · split at h <;> simp at h

theorem jobs_of_isDue {held : Held} {key : DocKey} {doc : Document}
    (h : held.isDue now flush doc = true) :
    held.jobs now persist flush key doc = [.write (fileName key) (doc.pending persist key)] := by
  have hdirty : doc.isDirty.1 = true := by
    simp only [isDue, Bool.and_eq_true] at h
    exact h.1.1
  rw [jobs, hdirty, if_neg Bool.true_eq_false.mp, if_pos h]

theorem jobs_of_clean {held : Held} {key : DocKey} {doc : Document} (h : doc.isDirty.1 = false)
    (hheld : held.adopted = true ∨ held.written.isSome = true) :
    held.jobs now persist flush key doc = [.delete (fileName key)] := by
  rw [jobs, if_pos h, if_pos (by simpa using hheld)]

/-- With `flush`, a dirty document is due unless its number is the one kept. -/
theorem isDue_flush {held : Held} {doc : Document} (hdirty : doc.isDirty.1 = true)
    (h : held.written ≠ some doc.number) : held.isDue now true doc = true := by
  simp [isDue, hdirty, h]

end Held

namespace Recovery

/-- One visit of the pass over the documents. -/
def visitDoc (docs : Std.ExtTreeMap DocKey Document) (now : Nat) (persist flush : Bool)
    (pass : Pass) (key : DocKey) : Pass :=
  match docs[key]? with
  | some doc => tickDoc now persist flush pass key doc
  | none => pass

theorem held_erase_self (recovery : Recovery) (key : DocKey) :
    ({ written := recovery.written.erase key
       changed := recovery.changed.erase key
       adopted := recovery.adopted.erase key } : Recovery).held key =
      { written := none, changed := none, adopted := false } := by
  simp [held]

theorem tickDoc_held_self (pass : Pass) (key : DocKey) (doc : Document) :
    (tickDoc now persist flush pass key doc).recovery.held key =
      (pass.recovery.held key).turn now flush doc := by
  by_cases hclean : doc.isDirty.1 = false
  · simp only [tickDoc, Held.turn, hclean, if_true]
    exact held_erase_self pass.recovery key
  · have hdirty : doc.isDirty.1 = true := by simpa using hclean
    by_cases hwritten : pass.recovery.written[key]? = some doc.number
    · simp [tickDoc, Held.turn, hclean, hwritten, held]
    · by_cases hflush : flush = true
      · simp [tickDoc, Held.turn, Held.isDue, hclean, hwritten, hflush, held]
      · by_cases hquiet : now - since pass.recovery.changed[key]? doc.number now < debounceMs
        · simp [tickDoc, Held.turn, Held.isDue, hclean, hwritten, hflush, hquiet,
            Nat.not_le_of_lt hquiet, held]
        · have hle := Nat.le_of_not_lt hquiet
          simp [tickDoc, Held.turn, Held.isDue, hclean, hwritten, hflush, hquiet, hle, held]

theorem tickDoc_held_other (pass : Pass) (key other : DocKey) (doc : Document)
    (hne : other ≠ key) :
    (tickDoc now persist flush pass key doc).recovery.held other = pass.recovery.held other := by
  have hne' : compare key other ≠ .eq := by
    rw [Ne, Std.LawfulEqCmp.compare_eq_iff_eq]
    exact hne.symm
  have hne'' : ¬ key = other := hne.symm
  simp only [tickDoc]
  split_ifs <;>
    simp [held, Std.ExtTreeMap.getElem?_insert, Std.ExtTreeMap.getElem?_erase,
      Std.ExtTreeSet.contains_erase, hne'']

theorem tickDoc_jobs (pass : Pass) (key : DocKey) (doc : Document) :
    (tickDoc now persist flush pass key doc).jobs =
      pass.jobs ++ (pass.recovery.held key).jobs now persist flush key doc := by
  by_cases hclean : doc.isDirty.1 = false
  · simp only [tickDoc, Held.jobs, hclean, if_true, held,
      Std.ExtTreeMap.isSome_getElem?_eq_contains]
    split <;> simp
  · have hdirty : doc.isDirty.1 = true := by simpa using hclean
    by_cases hwritten : pass.recovery.written[key]? = some doc.number
    · simp [tickDoc, Held.jobs, Held.isDue, hclean, hwritten, held]
    · by_cases hflush : flush = true
      · simp [tickDoc, Held.jobs, Held.isDue, hclean, hwritten, hflush, held]
      · by_cases hquiet : now - since pass.recovery.changed[key]? doc.number now < debounceMs
        · simp [tickDoc, Held.jobs, Held.isDue, hclean, hwritten, hflush, hquiet,
            Nat.not_le_of_lt hquiet, held]
        · have hle := Nat.le_of_not_lt hquiet
          simp [tickDoc, Held.jobs, Held.isDue, hclean, hwritten, hflush, hquiet, hle, held]

/-- The pass over the documents. -/
def docSweep (docs : Std.ExtTreeMap DocKey Document) (now : Nat) (persist flush : Bool) :
    Sweep Pass DocKey Held Job where
  visit := visitDoc docs now persist flush
  view := fun pass key => pass.recovery.held key
  out := Pass.jobs
  turn := fun key held =>
    match docs[key]? with
    | some doc => held.turn now flush doc
    | none => held
  emit := fun key held =>
    match docs[key]? with
    | some doc => held.jobs now persist flush key doc
    | none => []
  view_self := by
    intro pass key
    cases hdoc : docs[key]? with
    | none => simp [visitDoc, hdoc]
    | some doc =>
        simp only [visitDoc, hdoc]
        exact tickDoc_held_self pass key doc
  view_other := by
    intro pass key other hne
    cases hdoc : docs[key]? with
    | none => simp [visitDoc, hdoc]
    | some doc =>
        simp only [visitDoc, hdoc]
        exact tickDoc_held_other pass key other doc hne
  out_visit := by
    intro pass key
    cases hdoc : docs[key]? with
    | none => simp [visitDoc, hdoc]
    | some doc =>
        simp only [visitDoc, hdoc]
        exact tickDoc_jobs pass key doc

theorem forget_jobs (pass : Pass) (keys : List DocKey) :
    (keys.foldl forget pass).jobs = pass.jobs ++ keys.map fun key => Job.delete (fileName key) := by
  induction keys generalizing pass with
  | nil => simp
  | cons key keys ih => simp [ih, forget]

theorem forget_written_subset (pass : Pass) (keys : List DocKey) {key : DocKey}
    (h : key ∈ (keys.foldl forget pass).recovery.written) : key ∈ pass.recovery.written := by
  induction keys generalizing pass with
  | nil => exact h
  | cons first keys ih =>
      have hmem := ih (forget pass first) h
      rw [forget, Std.ExtTreeMap.mem_erase] at hmem
      exact hmem.2

/-- A key with no document stays as it is in the documents' turns. -/
theorem mem_tickDocs_written (docs : Std.ExtTreeMap DocKey Document) {order : List DocKey}
    (now : Nat) (persist flush : Bool) (pass : Pass) {key : DocKey} (h : key ∉ order) :
    key ∈ (tickDocs docs order now persist flush pass).recovery.written ↔
      key ∈ pass.recovery.written := by
  have hheld := congrArg Held.written
    ((docSweep docs now persist flush).view_run_of_notMem (s := pass) h)
  rw [Std.ExtTreeMap.mem_iff_isSome_getElem?, Std.ExtTreeMap.mem_iff_isSome_getElem?]
  exact iff_of_eq (congrArg (fun entry : Option Nat => entry.isSome = true) hheld)

/-- The jobs of a tick: one turn each for the documents, one deletion for each key that is
still kept and has no document. -/
theorem mem_tick_jobs (hnodup : order.Nodup) (hdocs : ∀ key, key ∈ order ↔ key ∈ docs) (job : Job) :
    job ∈ (recovery.tick docs order now persist flush).jobs ↔
      (∃ key doc, docs[key]? = some doc ∧
        job ∈ (recovery.held key).jobs now persist flush key doc) ∨
      ∃ key, key ∈ recovery.written ∧ key ∉ docs ∧ job = .delete (fileName key) := by
  have hturns := (docSweep docs now persist flush).mem_out_run
    (s := { recovery, jobs := [], next := none }) hnodup job
  rw [tick, forget_jobs, List.mem_append, List.mem_map]
  refine or_congr (hturns.trans ?_) ?_
  · constructor
    · rintro (h | ⟨key, -, hjob⟩)
      · simp [docSweep] at h
      · cases hdoc : docs[key]? with
        | none => simp [docSweep, hdoc] at hjob
        | some doc => exact ⟨key, doc, hdoc, by simpa [docSweep, hdoc] using hjob⟩
    · rintro ⟨key, doc, hdoc, hjob⟩
      exact Or.inr ⟨key, (hdocs key).mpr (mem_docs hdoc), by simpa [docSweep, hdoc] using hjob⟩
  · have hkept : ∀ key, key ∉ docs →
        (key ∈ (tickDocs docs order now persist flush
          { recovery, jobs := [], next := none }).recovery.written ↔ key ∈ recovery.written) :=
      fun key hkey => mem_tickDocs_written docs now persist flush _ (mt (hdocs key).mp hkey)
    constructor
    · rintro ⟨key, hkey, rfl⟩
      rw [List.mem_filter, Std.ExtTreeMap.mem_keys] at hkey
      have hgone : key ∉ docs := by
        rw [Std.ExtTreeMap.mem_iff_contains, Bool.not_eq_true]
        exact Bool.not_eq_true' _ ▸ hkey.2
      exact ⟨key, (hkept key hgone).mp hkey.1, hgone, rfl⟩
    · rintro ⟨key, hwritten, hgone, rfl⟩
      refine ⟨key, ?_, rfl⟩
      rw [List.mem_filter, Std.ExtTreeMap.mem_keys]
      refine ⟨(hkept key hgone).mpr hwritten, ?_⟩
      rwa [Bool.not_eq_true', ← Bool.not_eq_true, ← Std.ExtTreeMap.mem_iff_contains]

/-- Each job of a tick is about the file of a key that is open or kept. -/
theorem tick_jobs_target (hnodup : order.Nodup) (hdocs : ∀ key, key ∈ order ↔ key ∈ docs)
    {job : Job} (h : job ∈ (recovery.tick docs order now persist flush).jobs) :
    ∃ key, (key ∈ docs ∨ key ∈ recovery.written) ∧ job.target = some (fileName key) := by
  rcases (mem_tick_jobs hnodup hdocs job).mp h with ⟨key, doc, hdoc, hjob⟩ | ⟨key, hkey, -, rfl⟩
  · exact ⟨key, Or.inl (mem_docs hdoc), Held.jobs_target hjob⟩
  · exact ⟨key, Or.inr hkey, rfl⟩

/-- A tick sends one job at most about a file that is one key's only. -/
theorem tick_jobs_unique (hnodup : order.Nodup) (hdocs : ∀ key, key ∈ order ↔ key ∈ docs)
    {name : String} (hapart : ∀ key other, key ∈ docs ∨ key ∈ recovery.written →
      other ∈ docs ∨ other ∈ recovery.written → fileName key = name → fileName other = name →
        key = other)
    {job other : Job} (hjob : job ∈ (recovery.tick docs order now persist flush).jobs)
    (hother : other ∈ (recovery.tick docs order now persist flush).jobs)
    (htarget : job.target = some name) (htarget' : other.target = some name) : job = other := by
  rcases (mem_tick_jobs hnodup hdocs job).mp hjob with
    ⟨key, doc, hdoc, hjob⟩ | ⟨key, hkey, hgone, rfl⟩ <;>
  rcases (mem_tick_jobs hnodup hdocs other).mp hother with
    ⟨key', doc', hdoc', hother⟩ | ⟨key', hkey', hgone', rfl⟩
  · rw [Held.jobs_target hjob, Option.some.injEq] at htarget
    rw [Held.jobs_target hother, Option.some.injEq] at htarget'
    obtain rfl :=
      hapart key key' (Or.inl (mem_docs hdoc)) (Or.inl (mem_docs hdoc')) htarget htarget'
    rw [hdoc, Option.some.injEq] at hdoc'
    subst hdoc'
    exact Held.jobs_unique hjob hother
  · rw [Held.jobs_target hjob, Option.some.injEq] at htarget
    obtain rfl := hapart key key' (Or.inl (mem_docs hdoc)) (Or.inr hkey') htarget
      (Option.some.inj htarget')
    exact absurd (mem_docs hdoc) hgone'
  · rw [Held.jobs_target hother, Option.some.injEq] at htarget'
    obtain rfl := hapart key key' (Or.inr hkey) (Or.inl (mem_docs hdoc'))
      (Option.some.inj htarget) htarget'
    exact absurd (mem_docs hdoc') hgone
  · obtain rfl := hapart key key' (Or.inr hkey) (Or.inr hkey') (Option.some.inj htarget)
      (Option.some.inj htarget')
    rfl

/-- After a tick only documents that are open, or were kept before, are kept. -/
theorem mem_tick_written (hdocs : ∀ key, key ∈ order ↔ key ∈ docs) {key : DocKey}
    (h : key ∈ (recovery.tick docs order now persist flush).recovery.written) :
    key ∈ docs ∨ key ∈ recovery.written := by
  by_cases hkey : key ∈ docs
  · exact Or.inl hkey
  · right
    have hmem := forget_written_subset _ _ h
    exact (mem_tickDocs_written docs now persist flush _ (mt (hdocs key).mp hkey)).mp hmem

end Recovery

/-- What a job that goes through leaves under its name. -/
def Job.content : Job → Option (Option Record)
  | .write _ record => some (some record)
  | .delete _ => none
  | .stripHistories => none

variable {broken : List String} {folder : Folder} {jobs : List Job} {name : String}

theorem Folder.getElem?_removeFile (stuck : List String) (other : String) :
    (folder.removeFile stuck other)[name]? =
      if other = name ∧ other ∉ stuck then none else folder[name]? := by
  unfold removeFile
  by_cases hstuck : other ∈ stuck
  · simp [hstuck]
  · simp [hstuck, Std.ExtTreeMap.getElem?_erase]

/-- A job about another file leaves this one alone. -/
theorem Job.perform_other {job : Job} {target : String} (htarget : job.target = some target)
    (hne : target ≠ name) : (job.perform broken folder)[name]? = folder[name]? := by
  cases job with
  | write target' record =>
      have hne' : ¬ target' = name := by
        rintro rfl
        exact hne (Option.some.inj htarget).symm
      simp only [perform]
      split
      · rfl
      · simp [Std.ExtTreeMap.getElem?_insert, hne']
  | delete target' =>
      have hne' : ¬ target' = name := by
        rintro rfl
        exact hne (Option.some.inj htarget).symm
      simp [perform, Folder.getElem?_removeFile, hne']
  | stripHistories => cases htarget

/-- A job that goes through leaves its content. -/
theorem Job.perform_self {job : Job} (htarget : job.target = some name) (hname : name ∉ broken) :
    (job.perform broken folder)[name]? = job.content := by
  cases job with
  | write target record =>
      cases htarget
      simp [perform, hname, content]
  | delete target =>
      cases htarget
      simp [perform, hname, content, Folder.getElem?_removeFile]
  | stripHistories => cases htarget

/-- A job that does not go through changes nothing. -/
theorem Job.perform_broken {job : Job} (htarget : job.target = some name) (hname : name ∈ broken) :
    job.perform broken folder = folder := by
  cases job with
  | write target record =>
      cases htarget
      simp [perform, hname]
  | delete target =>
      cases htarget
      simp [perform, hname, Folder.removeFile]
  | stripHistories => cases htarget

/-- A file no job is about is left alone. -/
theorem getElem?_writer_of_notMem (hjobs : ∀ job ∈ jobs, ∃ target, job.target = some target)
    (h : ∀ job ∈ jobs, job.target = some name → name ∈ broken) :
    (writer broken folder jobs)[name]? = folder[name]? := by
  refine List.foldl_keeps (P := fun left : Folder => left[name]? = folder[name]?) ?_ rfl
  intro left job hjob hleft
  obtain ⟨target, htarget⟩ := hjobs job hjob
  by_cases hname : target = name
  · subst hname
    rw [Job.perform_broken htarget (h job hjob htarget)]
    exact hleft
  · rw [Job.perform_other htarget hname]
    exact hleft

/-- A file all whose jobs say the same holds what they say. -/
theorem getElem?_writer_of_mem (hjobs : ∀ job ∈ jobs, ∃ target, job.target = some target)
    {content : Option (Option Record)}
    (hall : ∀ job ∈ jobs, job.target = some name → job.content = content)
    (hname : name ∉ broken) {job : Job} (hjob : job ∈ jobs) (htarget : job.target = some name) :
    (writer broken folder jobs)[name]? = content := by
  refine List.foldl_settles (P := fun left : Folder => left[name]? = content) hjob ?_ ?_
  · intro folder' other hother hfolder
    obtain ⟨target, hothers⟩ := hjobs other hother
    by_cases hsame : target = name
    · subst hsame
      rw [Job.perform_self hothers hname]
      exact hall other hother hothers
    · rw [Job.perform_other hothers hsame]
      exact hfolder
  · intro folder'
    rw [Job.perform_self htarget hname]
    exact hall job hjob htarget

end Throng
