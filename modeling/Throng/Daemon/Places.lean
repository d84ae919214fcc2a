import Mathlib.Data.List.Nodup
import Throng.Daemon.Server

/-!
# Where a session is kept

A session that was started is with the `Spawn` that started it, in `sessions`, with the
`Kill` that took it out, in `ending`, or nowhere, and in no two of these places. What keeps it there
does not depend on which requests overlap.
-/

namespace Throng.Daemon.Server

namespace Sys

variable {s s' : Sys}

/-! ## Starts and exits -/

/-- A critical section that lets nobody exit. -/
def KeepsExited (f : Session → Session) : Prop := ∀ session, (f session).isExited = session.isExited

theorem keepsExited_attach (client : ClientId) (replyId cols rows : Nat) :
    KeepsExited fun session => (session.attach client replyId cols rows).1 := by
  intro session
  simp only [Session.attach]
  split
  · rw [Session.isExited, (applySize_state _).2.1]
    rfl
  · rfl

theorem keepsExited_endViews : KeepsExited fun session => session.endViews.1 := by
  intro session
  simp only [Session.endViews]
  split <;> rfl

theorem keepsExited_kill : KeepsExited Session.kill := by
  intro session
  rw [Session.kill]
  split <;> rfl

theorem live_modify_eq {f : Session → Session} (hf : KeepsExited f) (sid sid' : Sid) :
    (s.modify sid f).live sid' = s.live sid' := by
  simp only [live, isExited, modify, Std.ExtTreeMap.getElem?_modify]
  by_cases heq : sid = sid'
  · subst heq
    cases s.heap[sid]? <;> simp [hf _]
  · simp [heq]

theorem live_finish {sid sid' : Sid} (code : Option Int) (hne : sid ≠ sid') :
    (s.modify sid fun session => (session.finish code).1).live sid' = s.live sid' := by
  simp [live, isExited, modify, Std.ExtTreeMap.getElem?_modify, hne]

/-- The sessions whose process runs. -/
def running (s : Sys) : List Sid := s.heap.keys.filter s.live

theorem mem_running {sid : Sid} : sid ∈ s.running ↔ s.live sid = true := by
  rw [running, List.mem_filter, Std.ExtTreeMap.mem_keys]
  refine and_iff_right_of_imp fun hlive => ?_
  by_contra hnone
  simp [live, isExited, Std.ExtTreeMap.getElem?_eq_none hnone] at hlive

theorem running_nodup : s.running.Nodup := by
  exact List.Nodup.filter _ Std.ExtTreeMap.nodup_keys

/-- A session that is made is a new one, and its shell runs. -/
theorem started_fresh {sid : Sid} (hfresh : sid ∉ s.heap) {spec : SpawnSpec} {tailBytes : Nat}
    {elevated : Bool} : s.terminal sid = none ∧
      live { s with heap := s.heap.insert sid (Session.spawn spec tailBytes elevated) } sid =
        true := by
  constructor
  · simp [terminal, Std.ExtTreeMap.getElem?_eq_none hfresh]
  · simp [live, isExited, Session.isExited, Session.spawn]

/-- What a step does to the processes: a start runs a new one, whether the session is kept
or not, an exit ends one, and nothing else starts or ends any. -/
theorem live_step {tailBytes : Nat} {a : Act} (hs : Server.step tailBytes s a = some s')
    (sid : Sid) :
    (s'.live sid = s.live sid) ∨
      (∃ tid elevated, (a = .spawnStart tid sid elevated ∨ a = .spawnLose tid sid elevated) ∧
        s.terminal sid = none ∧ s'.live sid = true) ∨
      ∃ code, a = .finish sid code ∧ s'.live sid = false := by
  cases a with
  | spawnStart tid new elevated =>
      simp only [Server.step] at hs
      split at hs
      · split at hs
        · cases hs
        · next hfresh =>
            cases hs
            by_cases heq : new = sid
            · subst heq
              right
              left
              obtain ⟨hnone, hlive⟩ := started_fresh hfresh
              exact ⟨tid, elevated, .inl rfl, hnone, hlive⟩
            · left
              simp [live, isExited, Std.ExtTreeMap.getElem?_insert, heq]
      · cases hs
  | spawnLose tid new elevated =>
      simp only [Server.step] at hs
      split at hs
      · split at hs
        · cases hs
        · next hfresh =>
            cases hs
            by_cases heq : new = sid
            · subst heq
              right
              left
              obtain ⟨hnone, hlive⟩ := started_fresh hfresh
              exact ⟨tid, elevated, .inr rfl, hnone, hlive⟩
            · left
              simp [live, isExited, Std.ExtTreeMap.getElem?_insert, heq]
      · cases hs
  | finish ended code =>
      simp only [Server.step] at hs
      split at hs
      · next hrunning =>
          obtain ⟨hlive, -⟩ := hrunning
          cases hs
          by_cases heq : ended = sid
          · subst heq
            right
            right
            refine ⟨code, rfl, ?_⟩
            simp only [live, isExited, modify, Std.ExtTreeMap.getElem?_modify_self]
            cases hheap : s.heap[ended]? with
            | none => simp [live, isExited, hheap] at hlive
            | some session => simp [Session.isExited, Session.finish]
          · exact .inl (live_finish code heq)
      · cases hs
  | spawnAttach tid replyId =>
      simp only [Server.step] at hs
      split at hs
      · cases hs
        exact .inl (live_modify_eq (keepsExited_attach _ _ _ _) _ _)
      · cases hs
  | killTell tid =>
      simp only [Server.step] at hs
      split at hs
      · cases hs
        exact .inl (live_modify_eq keepsExited_endViews _ _)
      · cases hs
  | killMark tid =>
      simp only [Server.step] at hs
      split at hs
      · cases hs
        exact .inl (live_modify_eq keepsExited_kill _ _)
      · cases hs
  | closeKill tid busy =>
      simp only [Server.step] at hs
      split at hs
      · split at hs
        · cases hs
          exact .inl rfl
        · cases hs
          exact .inl (live_modify_eq keepsExited_kill _ _)
      · cases hs
  | killNext =>
      simp only [Server.step] at hs
      split at hs
      · cases hs
        exact .inl (live_modify_eq keepsExited_kill _ _)
      · cases hs
  | _ =>
      left
      simp only [Server.step] at hs
      grind [live, isExited, setPc]

/-- Only a `Kill` and the count of the running sessions change `ending`. -/
theorem ending_step {tailBytes : Nat} {a : Act} (hs : Server.step tailBytes s a = some s')
    (hpush : ∀ tid, a ≠ .killPush tid) (hcount : a ≠ .liveSessions) : s'.ending = s.ending := by
  cases a with
  | killPush tid => exact absurd rfl (hpush tid)
  | liveSessions => exact absurd rfl hcount
  | _ =>
      simp only [Server.step] at hs
      grind [setPc, modify]

/-! ## One place each -/

structure Placed (s : Sys) : Prop where
  filed : ∀ (t : TerminalId) sid, s.sessions[t]? = some sid → s.terminal sid = some t
  started : ∀ tid spec sid, s.pc tid = .spawnStarted spec sid →
    s.terminal sid = some spec.terminal ∧ (∀ t : TerminalId, s.sessions[t]? ≠ some sid) ∧
      sid ∉ s.ending ∧ ∀ other, (s.pc other).ending ≠ some sid ∧
        ∀ spec', s.pc other = .spawnStarted spec' sid → other = tid
  held : ∀ tid sid, (s.pc tid).ending = some sid →
    s.terminal sid ≠ none ∧ (∀ t : TerminalId, s.sessions[t]? ≠ some sid) ∧ sid ∉ s.ending ∧
      ∀ other, (s.pc other).ending = some sid → other = tid
  ended : ∀ sid ∈ s.ending, s.terminal sid ≠ none ∧ ∀ t : TerminalId, s.sessions[t]? ≠ some sid
  nodup : s.ending.Nodup

/-- A step that moves no session to another place. -/
theorem Placed.frame (h : Placed s) (hpc : ∀ tid, s'.pc tid = s.pc tid)
    (hsessions : ∀ (t : TerminalId) sid, s'.sessions[t]? = some sid → s.sessions[t]? = some sid)
    (hending : s'.ending.Sublist s.ending) (hterminal : ∀ sid, s'.terminal sid = s.terminal sid) :
    Placed s' := by
  have hmem : ∀ sid, sid ∈ s'.ending → sid ∈ s.ending := fun sid => hending.mem
  have hnodup := hending.nodup h.nodup
  obtain ⟨filed, started, held, ended, -⟩ := h
  refine ⟨?_, ?_, ?_, ?_, hnodup⟩
  all_goals simp only [hpc, hterminal]
  all_goals grind

theorem Placed.modify (h : Placed s) {f : Session → Session} (hf : Advances f) (sid : Sid) :
    Placed (s.modify sid f) :=
  h.frame (fun _ => rfl) (fun _ _ h => h) (List.Sublist.refl _) fun _ => terminal_modify hf _ _

/-- A thread that holds no session goes where it holds none either. -/
theorem Placed.setFree (h : Placed s) {tid : Tid} {pc : Pc} (hpc : pc.ending = none)
    (hstarted : ∀ spec sid, pc ≠ .spawnStarted spec sid) : Placed (s.setPc tid pc) := by
  obtain ⟨filed, started, held, ended, nodup⟩ := h
  constructor
  all_goals simp only [pc_setPc, terminal_setPc, sessions_setPc, ending_setPc]
  all_goals grind [Pc.ending]

/-- A `Kill` goes on with the session it holds. -/
theorem Placed.setHeld (h : Placed s) {tid : Tid} {pc : Pc}
    (hpc : pc.ending = (s.pc tid).ending) (hstarted : ∀ spec sid, pc ≠ .spawnStarted spec sid) :
    Placed (s.setPc tid pc) := by
  obtain ⟨filed, started, held, ended, nodup⟩ := h
  constructor
  all_goals simp only [pc_setPc, terminal_setPc, sessions_setPc, ending_setPc]
  all_goals grind [Pc.ending]

theorem Placed.spawnStart (h : Placed s) {tid : Tid} {spec : SpawnSpec} {sid : Sid}
    {session : Session} (hfresh : sid ∉ s.heap) (hid : session.id = spec.terminal)
    (hpc' : ∀ t, s'.pc t = if tid = t then .spawnStarted spec sid else s.pc t)
    (hsessions : s'.sessions = s.sessions) (hheap : s'.heap = s.heap.insert sid session)
    (hending : s'.ending = s.ending) : Placed s' := by
  have hnew : s.terminal sid = none := by simp [terminal, Std.ExtTreeMap.getElem?_eq_none hfresh]
  have hterminal := terminal_insert hheap hid
  obtain ⟨filed, started, held, ended, nodup⟩ := h
  constructor
  all_goals simp only [hpc', hsessions, hterminal, hending]
  all_goals grind [Pc.ending]

/-- A session that is lost at once is in none of the places. -/
theorem Placed.spawnLose (h : Placed s) {tid : Tid} {spec : SpawnSpec} {sid : Sid}
    {session : Session} (hfresh : sid ∉ s.heap) (hid : session.id = spec.terminal)
    (hpc' : ∀ t, s'.pc t = if tid = t then .idle else s.pc t)
    (hsessions : s'.sessions = s.sessions) (hheap : s'.heap = s.heap.insert sid session)
    (hending : s'.ending = s.ending) : Placed s' := by
  have hnew : s.terminal sid = none := by simp [terminal, Std.ExtTreeMap.getElem?_eq_none hfresh]
  have hterminal := terminal_insert hheap hid
  obtain ⟨filed, started, held, ended, nodup⟩ := h
  constructor
  all_goals simp only [hpc', hsessions, hterminal, hending]
  all_goals grind [Pc.ending]

theorem Placed.spawnInsert (h : Placed s) {tid : Tid} {spec : SpawnSpec} {sid : Sid}
    (hpc : s.pc tid = .spawnStarted spec sid)
    (hpc' : ∀ t, s'.pc t = if tid = t then .spawnInserted spec sid else s.pc t)
    (hsessions : ∀ t : TerminalId, s'.sessions[t]? =
      if spec.terminal = t then some sid else s.sessions[t]?)
    (hheap : s'.heap = s.heap) (hending : s'.ending = s.ending) : Placed s' := by
  have hterminal : ∀ sid, s'.terminal sid = s.terminal sid := by simp [terminal, hheap]
  obtain ⟨filed, started, held, ended, nodup⟩ := h
  constructor
  all_goals simp only [hpc', hsessions, hterminal, hending]
  all_goals grind [Pc.ending]

theorem Placed.killRemove (h : Placed s) {tid : Tid} {t : TerminalId} {sid : Sid}
    (hfound : s.sessions[t]? = some sid)
    (hpc' : ∀ other, s'.pc other = if tid = other then .killRemoved sid else s.pc other)
    (hsessions : ∀ t' : TerminalId, s'.sessions[t']? =
      if t = t' then none else s.sessions[t']?)
    (hheap : s'.heap = s.heap) (hending : s'.ending = s.ending) : Placed s' := by
  have hterminal : ∀ sid, s'.terminal sid = s.terminal sid := by simp [terminal, hheap]
  obtain ⟨filed, started, held, ended, nodup⟩ := h
  constructor
  all_goals simp only [hpc', hsessions, hterminal, hending]
  all_goals grind [Pc.ending]

theorem Placed.killPush (h : Placed s) {tid : Tid} {sid : Sid} (hpc : s.pc tid = .killEnded sid)
    (hpc' : ∀ t, s'.pc t = if tid = t then .idle else s.pc t)
    (hsessions : s'.sessions = s.sessions) (hheap : s'.heap = s.heap)
    (hending : s'.ending = s.ending ++ [sid]) : Placed s' := by
  have hterminal : ∀ sid, s'.terminal sid = s.terminal sid := by simp [terminal, hheap]
  have hheld := h.held tid sid (by rw [hpc, Pc.ending])
  have hnodup : s'.ending.Nodup := by
    rw [hending, List.nodup_append_comm]
    exact List.nodup_cons.mpr ⟨hheld.2.2.1, h.nodup⟩
  obtain ⟨filed, started, held, ended, -⟩ := h
  refine ⟨?_, ?_, ?_, ?_, hnodup⟩
  all_goals simp only [hpc', hsessions, hterminal, hending, List.mem_append, List.mem_singleton]
  all_goals grind [Pc.ending]

theorem Placed.step {tailBytes : Nat} {a : Act} (h : Placed s)
    (hs : Server.step tailBytes s a = some s') : Placed s' := by
  have hsame : ∀ {s' : Sys}, (∀ tid, s'.pc tid = s.pc tid) → s'.sessions = s.sessions →
      s'.ending = s.ending → s'.heap = s.heap → Placed s' := by
    intro s' hpc hsessions hending hheap
    refine h.frame hpc (fun t sid hin => ?_) (hending ▸ List.Sublist.refl _) fun sid => ?_
    · rwa [hsessions] at hin
    · rw [terminal, hheap]
      rfl
  cases a with
  | spawnLookup tid spec =>
      simp only [Server.step] at hs
      split at hs
      · cases hs
        exact h.setFree rfl (by simp)
      · cases hs
  | spawnCheck tid =>
      simp only [Server.step] at hs
      split at hs
      · split at hs
        · cases hs
          exact h.setFree rfl (by simp)
        · cases hs
          exact h.setFree rfl (by simp)
      · cases hs
  | spawnFail tid =>
      simp only [Server.step] at hs
      split at hs
      · cases hs
        exact h.setFree rfl (by simp)
      · cases hs
  | spawnStart tid sid elevated =>
      simp only [Server.step] at hs
      split at hs
      · next spec hpc =>
          split at hs
          · cases hs
          · next hfresh =>
              cases hs
              exact h.spawnStart hfresh (rfl : (Session.spawn spec tailBytes elevated).id = _)
                (fun t => pc_setPc tid t _) rfl rfl rfl
      · cases hs
  | spawnLose tid sid elevated =>
      simp only [Server.step] at hs
      split at hs
      · next spec hpc =>
          split at hs
          · cases hs
          · next hfresh =>
              cases hs
              exact h.spawnLose hfresh (rfl : (Session.spawn spec tailBytes elevated).id = _)
                (fun t => pc_setPc tid t _) rfl rfl rfl
      · cases hs
  | spawnInsert tid =>
      simp only [Server.step] at hs
      split at hs
      · next spec sid hpc =>
          cases hs
          exact h.spawnInsert hpc (fun t => pc_setPc tid t _)
            (fun t => by simp [Std.ExtTreeMap.getElem?_insert]) rfl rfl
      · cases hs
  | spawnAttach tid replyId =>
      simp only [Server.step] at hs
      split at hs
      · next spec sid hpc =>
          cases hs
          exact (h.modify (advances_attach tid replyId spec.cols spec.rows) sid).setFree rfl
            (by simp)
      · cases hs
  | killRemove tid terminal =>
      simp only [Server.step] at hs
      split at hs
      · split at hs
        · next sid hfound =>
            cases hs
            exact h.killRemove hfound (fun t => pc_setPc tid t _)
              (fun t => by simp [Std.ExtTreeMap.getElem?_erase]) rfl rfl
        · cases hs
          exact h
      · cases hs
  | killTell tid =>
      simp only [Server.step] at hs
      split at hs
      · next sid hpc =>
          cases hs
          refine (h.modify advances_endViews sid).setHeld ?_ (by simp)
          show _ = (s.pc tid).ending
          rw [hpc, Pc.ending, Pc.ending]
      · cases hs
  | killMark tid =>
      simp only [Server.step] at hs
      split at hs
      · next sid hpc =>
          cases hs
          refine (h.modify advances_kill sid).setHeld ?_ (by simp)
          show _ = (s.pc tid).ending
          rw [hpc, Pc.ending, Pc.ending]
      · cases hs
  | killPush tid =>
      simp only [Server.step] at hs
      split at hs
      · next sid hpc =>
          cases hs
          exact h.killPush hpc (fun t => pc_setPc tid t _) rfl rfl rfl
      · cases hs
  | closeLookup tid terminal =>
      simp only [Server.step] at hs
      split at hs
      · cases hs
        exact h.setFree rfl (by simp)
      · cases hs
  | closeKill tid busy =>
      simp only [Server.step] at hs
      split at hs
      · next sid hpc =>
          split at hs
          · cases hs
            exact h.setFree rfl (by simp)
          · cases hs
            exact (h.modify advances_kill sid).setFree rfl (by simp)
      · cases hs
  | forget tid terminal =>
      simp only [Server.step] at hs
      split at hs
      · split at hs
        · cases hs
          refine h.frame (fun _ => rfl) (fun t sid hin => ?_) (List.Sublist.refl _) fun _ => rfl
          grind
        · cases hs
          exact h
      · cases hs
        exact h
      · cases hs
  | liveSessions =>
      cases hs
      exact h.frame (fun _ => rfl) (fun _ _ hin => hin) List.filter_sublist fun _ => rfl
  | finish sid code =>
      simp only [Server.step] at hs
      split at hs
      · cases hs
        exact (h.modify (advances_finish code) sid).frame (fun _ => rfl) (fun _ _ hin => hin)
          (List.Sublist.refl _) fun _ => rfl
      · cases hs
  | sessionEnded sid =>
      simp only [Server.step] at hs
      split at hs
      · split at hs
        · cases hs
          exact hsame (fun _ => rfl) rfl rfl rfl
        · split at hs
          · split at hs
            · cases hs
              refine h.frame (fun _ => rfl) (fun t sid hin => ?_) (List.Sublist.refl _) fun _ => rfl
              grind
            · cases hs
              exact hsame (fun _ => rfl) rfl rfl rfl
          · cases hs
            exact hsame (fun _ => rfl) rfl rfl rfl
      · cases hs
  | stop =>
      cases hs
      exact hsame (fun _ => rfl) rfl rfl rfl
  | collectSessions =>
      simp only [Server.step] at hs
      split at hs
      · split at hs
        · cases hs
          exact hsame (fun _ => rfl) rfl rfl rfl
        · cases hs
      · cases hs
  | collectEnding =>
      simp only [Server.step] at hs
      split at hs
      · cases hs
        exact hsame (fun _ => rfl) rfl rfl rfl
      · cases hs
  | killNext =>
      simp only [Server.step] at hs
      split at hs
      · next sid left hmain =>
          cases hs
          exact (h.modify advances_kill sid).frame (fun _ => rfl) (fun _ _ hin => hin)
            (List.Sublist.refl _) fun _ => rfl
      · cases hs

/-- The sessions that are found through an id. -/
def entered (s : Sys) : List Sid := s.sessions.toList.map Prod.snd

theorem mem_entered {sid : Sid} :
    sid ∈ s.entered ↔ ∃ t : TerminalId, s.sessions[t]? = some sid := by
  rw [entered, List.mem_map]
  constructor
  · rintro ⟨⟨t, found⟩, hin, rfl⟩
    exact ⟨t, Std.ExtTreeMap.mem_toList_iff_getElem?_eq_some.mp hin⟩
  · rintro ⟨t, hin⟩
    exact ⟨(t, sid), Std.ExtTreeMap.mem_toList_iff_getElem?_eq_some.mpr hin, rfl⟩

theorem length_entered : s.entered.length = s.sessions.size := by
  rw [entered, List.length_map, Std.ExtTreeMap.length_toList]

/-- Each session is entered once. -/
theorem Placed.entered_nodup (h : Placed s) : s.entered.Nodup := by
  rw [entered, List.Nodup, List.pairwise_map]
  refine Std.ExtTreeMap.distinct_keys_toList.imp_of_mem fun {a b} ha hb hne heq => hne ?_
  have ha' := h.filed a.1 a.2 (Std.ExtTreeMap.mem_toList_iff_getElem?_eq_some.mp ha)
  have hb' := h.filed b.1 b.2 (Std.ExtTreeMap.mem_toList_iff_getElem?_eq_some.mp hb)
  rw [heq, hb', Option.some.injEq] at ha'
  rw [ha', Std.compare_self]

/-- The sessions that run though `sessions` has them no more: killed ones. -/
def unentered (s : Sys) : List Sid := s.running.filter fun sid => sid ∉ s.entered

/-- The sessions that have exited and wait in `sessions` to be read. -/
def unread (s : Sys) : List Sid := s.entered.filter s.isExited

/-- More run than are entered exactly as far as more run unentered than wait to be read. -/
theorem Placed.length_running_le (h : Placed s) (hle : s.unentered.length ≤ s.unread.length) :
    s.running.length ≤ s.sessions.size := by
  have hboth : (s.running.filter fun sid => sid ∈ s.entered).Perm (s.entered.filter s.live) := by
    refine (List.perm_ext_iff_of_nodup (running_nodup.filter _) (h.entered_nodup.filter _)).mpr ?_
    intro sid
    rw [List.mem_filter, List.mem_filter, mem_running, decide_eq_true_eq, and_comm]
  have hrunning := List.length_eq_length_filter_add (l := s.running) fun sid => sid ∈ s.entered
  have hentered := List.length_eq_length_filter_add (l := s.entered) s.live
  have hunentered : (s.running.filter fun sid => !decide (sid ∈ s.entered)) = s.unentered :=
    List.filter_congr fun sid _ => decide_not.symm
  have hunread : (s.entered.filter fun sid => !s.live sid) = s.unread :=
    List.filter_congr fun sid _ => by rw [live, Bool.not_not]
  rw [hunentered, hboth.length_eq] at hrunning
  rw [hunread] at hentered
  rw [← length_entered]
  omega

/-- No session is both ending and entered. -/
theorem Placed.not_entered (h : Placed s) {sid : Sid} (hin : sid ∈ s.ending) :
    sid ∉ s.entered := by
  rw [mem_entered]
  rintro ⟨t, ht⟩
  exact (h.ended sid hin).2 t ht

end Sys

end Throng.Daemon.Server
