import Throng.Lib.Machine
import Throng.Daemon.Session

/-!
# The daemon's sessions

The daemon finds a session by its terminal id in `sessions`; a session the user
ended is moved to `ending` until its processes are gone. Requests are handled on
one thread per client, and what a request does with the two collections it does
in separate lock scopes. The machine below takes one step per lock scope: its
state holds the two collections, every session whose shell was ever started (the
targets of the `Arc`s), and how far each thread has got. A `Session::spawn` that
fails once its shell runs leaves a session that is in neither collection.
-/

namespace Throng.Daemon.Server

/-- A session object. -/
abbrev Sid := Nat

/-- A client's thread. -/
abbrev Tid := Nat

/-- How far a client's thread is in handling a request. -/
inductive Pc
  | idle
  /-- `Spawn` has looked its id up. -/
  | spawnFound (spec : SpawnSpec) (existing : Option Sid)
  /-- `Spawn` has seen that no live session has the id. -/
  | spawnChecked (spec : SpawnSpec)
  /-- `Spawn` has started the shell. -/
  | spawnStarted (spec : SpawnSpec) (sid : Sid)
  /-- `Spawn` has entered the session, and is about to attach. -/
  | spawnInserted (spec : SpawnSpec) (sid : Sid)
  /-- `Kill` has taken the session out. -/
  | killRemoved (sid : Sid)
  /-- `Kill` has told the views. -/
  | killTold (sid : Sid)
  /-- `Kill` has marked the session and signalled its processes. -/
  | killEnded (sid : Sid)
  /-- `CloseIdle` has found an idle session. -/
  | closeFound (sid : Sid)
deriving DecidableEq

/-- How far the accept loop's thread is in `end_all_sessions`. -/
inductive MainPc
  | accepting
  /-- It holds what was in `sessions`. -/
  | collected (held : List Sid)
  /-- It is killing one session after the other. -/
  | killing (left : List Sid)
deriving DecidableEq

structure Sys where
  sessions : Std.ExtTreeMap TerminalId Sid
  ending : List Sid
  heap : Std.ExtTreeMap Sid Session
  /-- Sessions that have exited and whose `on_exit` has not run yet. -/
  exiting : List Sid
  /-- Sessions that `Session::spawn` gave up on: no thread waits for their exit. -/
  lost : List Sid
  threads : Std.ExtTreeMap Tid Pc
  main : MainPc
  stopping : Bool

inductive Act
  | spawnLookup (tid : Tid) (spec : SpawnSpec)
  | spawnCheck (tid : Tid)
  /-- `Session::spawn` fails with no shell started. -/
  | spawnFail (tid : Tid)
  | spawnStart (tid : Tid) (sid : Sid) (elevated : Bool)
  /-- It fails with the shell running: the PTY's reader or writer cannot be had, or the thread
  that reads it or the one that waits for the exit cannot be started. -/
  | spawnLose (tid : Tid) (sid : Sid) (elevated : Bool)
  | spawnInsert (tid : Tid)
  | spawnAttach (tid : Tid) (replyId : Nat)
  | killRemove (tid : Tid) (terminal : TerminalId)
  | killTell (tid : Tid)
  | killMark (tid : Tid)
  | killPush (tid : Tid)
  | closeLookup (tid : Tid) (terminal : TerminalId)
  | closeKill (tid : Tid) (busy : Bool)
  | forget (tid : Tid) (terminal : TerminalId)
  | liveSessions
  | finish (sid : Sid) (code : Option Int)
  | sessionEnded (sid : Sid)
  | stop
  | collectSessions
  | collectEnding
  | killNext
deriving DecidableEq

namespace Sys

variable (s : Sys)

def pc (tid : Tid) : Pc := s.threads[tid]?.getD .idle

def setPc (tid : Tid) (pc : Pc) : Sys := { s with threads := s.threads.insert tid pc }

/-- Take a session's lock and leave it as `f` says. -/
def modify (sid : Sid) (f : Session → Session) : Sys :=
  { s with heap := s.heap.modify sid f }

def isExited (sid : Sid) : Bool := s.heap[sid]?.all Session.isExited

/-- The session's process runs. -/
def live (sid : Sid) : Bool := !s.isExited sid

/-- The user asked for the session's end. -/
def userKilled (sid : Sid) : Bool := s.heap[sid]?.any fun session => session.state.userKilled

/-- The id a session was started under. -/
def terminal (sid : Sid) : Option TerminalId := s.heap[sid]?.map Session.id

end Sys

def step (tailBytes : Nat) (s : Sys) : Act → Option Sys
  | .spawnLookup tid spec =>
      match s.pc tid with
      | .idle => some (s.setPc tid (.spawnFound spec s.sessions[spec.terminal]?))
      | _ => none
  | .spawnCheck tid =>
      match s.pc tid with
      | .spawnFound spec existing =>
          if existing.any s.live then some (s.setPc tid .idle)
          else some (s.setPc tid (.spawnChecked spec))
      | _ => none
  | .spawnFail tid =>
      match s.pc tid with
      | .spawnChecked _ => some (s.setPc tid .idle)
      | _ => none
  | .spawnStart tid sid elevated =>
      match s.pc tid with
      | .spawnChecked spec =>
          if sid ∈ s.heap then none
          else some { s.setPc tid (.spawnStarted spec sid) with
            heap := s.heap.insert sid (Session.spawn spec tailBytes elevated) }
      | _ => none
  | .spawnLose tid sid elevated =>
      match s.pc tid with
      | .spawnChecked spec =>
          if sid ∈ s.heap then none
          else some { s.setPc tid .idle with
            heap := s.heap.insert sid (Session.spawn spec tailBytes elevated)
            lost := sid :: s.lost }
      | _ => none
  | .spawnInsert tid =>
      match s.pc tid with
      | .spawnStarted spec sid =>
          some { s.setPc tid (.spawnInserted spec sid) with
            sessions := s.sessions.insert spec.terminal sid }
      | _ => none
  | .spawnAttach tid replyId =>
      match s.pc tid with
      | .spawnInserted spec sid =>
          some ((s.modify sid fun session =>
            (session.attach tid replyId spec.cols spec.rows).1).setPc tid .idle)
      | _ => none
  | .killRemove tid terminal =>
      match s.pc tid with
      | .idle =>
          match s.sessions[terminal]? with
          | some sid =>
              some { s.setPc tid (.killRemoved sid) with sessions := s.sessions.erase terminal }
          | none => some s
      | _ => none
  | .killTell tid =>
      match s.pc tid with
      | .killRemoved sid =>
          some ((s.modify sid fun session => session.endViews.1).setPc tid (.killTold sid))
      | _ => none
  | .killMark tid =>
      match s.pc tid with
      | .killTold sid => some ((s.modify sid Session.kill).setPc tid (.killEnded sid))
      | _ => none
  | .killPush tid =>
      match s.pc tid with
      | .killEnded sid => some { s.setPc tid .idle with ending := s.ending ++ [sid] }
      | _ => none
  | .closeLookup tid terminal =>
      match s.pc tid, s.sessions[terminal]? with
      | .idle, some sid => some (s.setPc tid (.closeFound sid))
      | _, _ => none
  | .closeKill tid busy =>
      match s.pc tid with
      | .closeFound sid =>
          if busy then some (s.setPc tid .idle)
          else some ((s.modify sid Session.kill).setPc tid .idle)
      | _ => none
  | .forget tid terminal =>
      match s.pc tid, s.sessions[terminal]? with
      | .idle, some sid =>
          if s.isExited sid then some { s with sessions := s.sessions.erase terminal } else some s
      | .idle, none => some s
      | _, _ => none
  | .liveSessions => some { s with ending := s.ending.filter s.live }
  | .finish sid code =>
      if s.live sid ∧ sid ∉ s.lost then
        some { s.modify sid (fun session => (session.finish code).1) with
          exiting := sid :: s.exiting }
      else none
  | .sessionEnded sid =>
      if sid ∈ s.exiting then
        let s' := { s with exiting := s.exiting.erase sid }
        match s.terminal sid with
        | none => some s'
        | some terminal =>
            match s.sessions[terminal]? with
            | some found =>
                -- the session found may be a newer one, started under the same id
                if s.isExited found && s.userKilled found then
                  some { s' with sessions := s.sessions.erase terminal }
                else some s'
            | none => some s'
      else none
  | .stop => some { s with stopping := true }
  | .collectSessions =>
      match s.main with
      | .accepting =>
          if s.stopping then some { s with main := .collected (s.sessions.toList.map Prod.snd) }
          else none
      | _ => none
  | .collectEnding =>
      match s.main with
      | .collected held => some { s with main := .killing (held ++ s.ending) }
      | _ => none
  | .killNext =>
      match s.main with
      | .killing (sid :: left) =>
          some { s.modify sid Session.kill with main := .killing left }
      | _ => none

/-- A daemon that has just started to accept clients. -/
def machine (tailBytes : Nat) : Machine Sys Act where
  init s := s = ⟨∅, [], ∅, [], [], ∅, .accepting, false⟩
  step := step tailBytes

/-! ## What is to hold -/

namespace Pc

/-- The id a `Spawn` between its look-up and its insert is for. -/
def spawning : Pc → Option TerminalId
  | .spawnFound spec _ | .spawnChecked spec | .spawnStarted spec _ => some spec.terminal
  | _ => none

/-- The session a `Kill` holds, on its way from `sessions` to `ending`. -/
def ending : Pc → Option Sid
  | .killRemoved sid | .killTold sid | .killEnded sid => some sid
  | _ => none

end Pc

namespace Sys

variable (s : Sys)

/-- No request is being handled. -/
def Quiet : Prop := ∀ tid, s.pc tid = .idle

/-- A `Kill` has taken the session out of `sessions`. -/
def BeingEnded (sid : Sid) : Prop := sid ∈ s.ending ∨ ∃ tid, (s.pc tid).ending = some sid

/-- No live session is orphaned: between requests each is found through
`sessions` or `ending`, an id has one live session beside those a `Kill` has taken
out, and once `end_all_sessions` is through, every live one has been told to end. -/
structure Kept : Prop where
  found : s.Quiet → ∀ sid, s.live sid →
    (∃ t : TerminalId, s.sessions[t]? = some sid) ∨ sid ∈ s.ending
  single : ∀ sid₁ sid₂, s.live sid₁ → s.live sid₂ → s.terminal sid₁ = s.terminal sid₂ →
    ¬ s.BeingEnded sid₁ → ¬ s.BeingEnded sid₂ → sid₁ = sid₂
  ended : s.Quiet → s.main = .killing [] → ∀ sid, s.live sid → s.userKilled sid

/-- No `Spawn` looks its id up while another `Spawn` of it is between its look-up
and its insert, none fails once its shell runs, and `end_all_sessions` neither
overlaps a `Spawn` nor is followed by one. -/
def apart : Act → Bool
  | .spawnLookup _ spec =>
      s.threads.toList.all (fun thread => thread.2.spawning != some spec.terminal) &&
        s.main == .accepting
  | .spawnLose _ _ _ => false
  | .collectSessions => s.threads.toList.all fun thread => thread.2.spawning == none
  | _ => true

end Sys

/-! ## One lock scope on a session -/

/-- What no critical section of a session undoes. -/
structure Advances (f : Session → Session) : Prop where
  id : ∀ session, (f session).id = session.id
  exited : ∀ session, session.isExited → (f session).isExited
  userKilled : ∀ session, session.state.userKilled → (f session).state.userKilled

theorem applySize_state (session : Session) :
    session.applySize.id = session.id ∧
      session.applySize.state.exited = session.state.exited ∧
      session.applySize.state.userKilled = session.state.userKilled := by
  unfold Session.applySize
  split
  · exact ⟨rfl, rfl, rfl⟩
  · split <;> exact ⟨rfl, rfl, rfl⟩

theorem advances_attach (client : ClientId) (replyId cols rows : Nat) :
    Advances fun session => (session.attach client replyId cols rows).1 := by
  constructor <;> intro session <;> simp only [Session.attach] <;> split <;>
    simp [applySize_state, Session.isExited]

theorem advances_endViews : Advances fun session => session.endViews.1 := by
  constructor <;> intro session <;> simp only [Session.endViews] <;> split <;>
    simp_all [Session.isExited]

theorem advances_kill : Advances Session.kill := by
  constructor <;> intro session <;> simp only [Session.kill] <;> split <;>
    simp_all [Session.isExited]

theorem advances_finish (code : Option Int) :
    Advances fun session => (session.finish code).1 := by
  constructor <;> intro session <;> simp [Session.finish, Session.isExited]

namespace Sys

variable {s s' : Sys}

@[simp] theorem pc_setPc (tid tid' : Tid) (pc : Pc) :
    (s.setPc tid pc).pc tid' = if tid = tid' then pc else s.pc tid' := by
  by_cases h : tid = tid' <;> simp [Sys.pc, setPc, Std.ExtTreeMap.getElem?_insert, h]

theorem live_modify {f : Session → Session} (hf : Advances f) {sid sid' : Sid}
    (h : (s.modify sid f).live sid') : s.live sid' := by
  simp only [live, isExited, modify, Std.ExtTreeMap.getElem?_modify] at h ⊢
  by_cases heq : sid = sid'
  · subst heq
    cases hs : s.heap[sid]? with
    | none => simp [hs] at h
    | some session =>
        have hexited := hf.exited session
        simp only [hs, Std.compare_self, if_true, Option.map_some, Option.all_some] at h ⊢
        grind
  · simpa [heq] using h

theorem terminal_modify {f : Session → Session} (hf : Advances f) (sid sid' : Sid) :
    (s.modify sid f).terminal sid' = s.terminal sid' := by
  simp only [terminal, modify, Std.ExtTreeMap.getElem?_modify]
  by_cases heq : sid = sid'
  · subst heq
    cases s.heap[sid]? <;> simp [hf.id]
  · simp [heq]

theorem userKilled_modify {f : Session → Session} (hf : Advances f) {sid sid' : Sid}
    (h : s.userKilled sid') : (s.modify sid f).userKilled sid' := by
  simp only [userKilled, modify, Std.ExtTreeMap.getElem?_modify] at h ⊢
  by_cases heq : sid = sid'
  · subst heq
    cases hs : s.heap[sid]? with
    | none => simp [hs] at h
    | some session => simpa [hs] using hf.userKilled session (by simpa [hs] using h)
  · simpa [heq] using h

/-- A session that is made has its own id, and the others keep theirs. -/
theorem terminal_insert {sid : Sid} {session : Session} {t : TerminalId}
    (hheap : s'.heap = s.heap.insert sid session) (hid : session.id = t) (other : Sid) :
    s'.terminal other = if sid = other then some t else s.terminal other := by
  by_cases heq : sid = other <;>
    simp [terminal, hheap, Std.ExtTreeMap.getElem?_insert, heq, ← hid]

/-- A killed session that still runs is marked. -/
theorem userKilled_modify_kill {sid : Sid} (h : (s.modify sid Session.kill).live sid) :
    (s.modify sid Session.kill).userKilled sid := by
  simp only [live, isExited, userKilled, modify, Std.ExtTreeMap.getElem?_modify] at h ⊢
  cases hs : s.heap[sid]? with
  | none => simp [hs] at h
  | some session =>
      simp only [hs, Std.compare_self, if_true, Option.map_some, Option.all_some,
        Option.any_some] at h ⊢
      unfold Session.kill at h ⊢
      split <;> simp_all [Session.isExited]

/-! ## The invariant -/

/-- The sessions `end_all_sessions` still has to kill, once it has begun. -/
def doomed : Option (List Sid) :=
  match s.main with
  | .accepting => none
  | .collected held => some held
  | .killing left => some left

structure Inv (s : Sys) : Prop where
  filed : ∀ (t : TerminalId) sid, s.sessions[t]? = some sid → s.terminal sid = some t
  started : ∀ tid spec sid, s.pc tid = .spawnStarted spec sid →
    s.terminal sid = some spec.terminal
  known : ∀ sid, s.BeingEnded sid → s.terminal sid ≠ none
  held : ∀ sid, s.live sid →
    (∃ t : TerminalId, s.sessions[t]? = some sid) ∨ s.BeingEnded sid ∨
      ∃ tid spec, s.pc tid = .spawnStarted spec sid
  alone : ∀ t₁ t₂ id, (s.pc t₁).spawning = some id → (s.pc t₂).spawning = some id → t₁ = t₂
  looked : ∀ tid spec existing, s.pc tid = .spawnFound spec existing →
    ∀ sid, s.sessions[spec.terminal]? = some sid → existing = some sid
  checked : ∀ tid spec, s.pc tid = .spawnChecked spec →
    ∀ sid, s.sessions[spec.terminal]? = some sid → ¬ s.live sid
  clear : ∀ tid spec new, s.pc tid = .spawnStarted spec new →
    ∀ sid, s.sessions[spec.terminal]? = some sid → ¬ s.live sid
  marked : ∀ sid, sid ∈ s.ending ∨ (∃ tid, s.pc tid = .killEnded sid) →
    s.live sid → s.userKilled sid
  closed : ∀ left, s.doomed = some left → ∀ tid, (s.pc tid).spawning = none
  closing : ∀ left, s.doomed = some left → ∀ sid, s.live sid → s.userKilled sid = false →
    sid ∈ left ∨ ∃ tid, s.pc tid = .killRemoved sid ∨ s.pc tid = .killTold sid

/-! ## What each lock scope preserves -/

section setPc

variable (tid : Tid) (pc : Pc)

@[simp] theorem live_setPc (sid : Sid) : (s.setPc tid pc).live sid = s.live sid := rfl
@[simp] theorem terminal_setPc (sid : Sid) :
    (s.setPc tid pc).terminal sid = s.terminal sid := rfl
@[simp] theorem userKilled_setPc (sid : Sid) :
    (s.setPc tid pc).userKilled sid = s.userKilled sid := rfl
@[simp] theorem doomed_setPc : (s.setPc tid pc).doomed = s.doomed := rfl
@[simp] theorem sessions_setPc : (s.setPc tid pc).sessions = s.sessions := rfl
@[simp] theorem ending_setPc : (s.setPc tid pc).ending = s.ending := rfl

end setPc

/-- What is seen of every thread's `spawning` holds of each thread, the idle ones
included. -/
theorem spawning_of_all {p : Option TerminalId → Bool}
    (h : s.threads.toList.all (fun thread => p thread.2.spawning) = true)
    (hidle : p none = true) (tid : Tid) : p (s.pc tid).spawning = true := by
  unfold Sys.pc
  cases ht : s.threads[tid]? with
  | none => exact hidle
  | some pc =>
      rw [List.all_eq_true] at h
      exact h (tid, pc) (Std.ExtTreeMap.mem_toList_iff_getElem?_eq_some.mpr ht)

/-- A step that moves no thread and files nothing may let sessions exit, mark
them, and drop exited ones from `ending`. -/
theorem Inv.frame (h : Inv s) (hpc : ∀ tid, s'.pc tid = s.pc tid)
    (hsessions : s'.sessions = s.sessions) (hending : ∀ sid, sid ∈ s'.ending → sid ∈ s.ending)
    (hkept : ∀ sid, s'.live sid → sid ∈ s.ending → sid ∈ s'.ending)
    (hdoomed : s'.doomed = s.doomed) (hterminal : ∀ sid, s'.terminal sid = s.terminal sid)
    (hlive : ∀ sid, s'.live sid → s.live sid)
    (hmark : ∀ sid, s.userKilled sid → s'.userKilled sid) : Inv s' := by
  obtain ⟨filed, started, known, held, alone, looked, checked, clear, marked, closed, closing⟩ := h
  constructor
  all_goals simp only [BeingEnded, hpc, hsessions, hdoomed, hterminal]
  all_goals grind [BeingEnded]

theorem Inv.modify (h : Inv s) {f : Session → Session} (hf : Advances f) (sid : Sid) :
    Inv (s.modify sid f) :=
  h.frame (fun _ => rfl) rfl (fun _ hin => hin) (fun _ _ hin => hin) rfl
    (fun _ => terminal_modify hf _ _) (fun _ => live_modify hf) (fun _ => userKilled_modify hf)

/-- A thread that holds no session of its own may go where it holds none either. -/
theorem Inv.setFree (h : Inv s) {tid : Tid} {pc : Pc} (hending : (s.pc tid).ending = none)
    (hstarted : ∀ spec sid, s.pc tid ≠ .spawnStarted spec sid) (hpc : pc.ending = none)
    (hspawning : pc.spawning = none) : Inv (s.setPc tid pc) := by
  obtain ⟨filed, started, known, held, alone, looked, checked, clear, marked, closed, closing⟩ := h
  constructor
  all_goals simp only [pc_setPc, BeingEnded, live_setPc, terminal_setPc, userKilled_setPc,
    doomed_setPc, sessions_setPc, ending_setPc]
  all_goals grind [Pc.spawning, BeingEnded, Pc.ending]

theorem Inv.setIdle (h : Inv s) {tid : Tid} (hending : (s.pc tid).ending = none)
    (hstarted : ∀ spec sid, s.pc tid ≠ .spawnStarted spec sid) : Inv (s.setPc tid .idle) :=
  h.setFree hending hstarted rfl rfl

/-- The condition keeps every other `Spawn` of the id away from its look-up. -/
theorem Inv.spawnLookup (h : Inv s) {tid : Tid} {spec : SpawnSpec}
    (hok : s.apart (.spawnLookup tid spec)) (hpc : s.pc tid = .idle) :
    Inv (s.setPc tid (.spawnFound spec s.sessions[spec.terminal]?)) := by
  simp only [apart, Bool.and_eq_true, beq_iff_eq] at hok
  have hothers : ∀ t, (s.pc t).spawning ≠ some spec.terminal := by
    intro t
    simpa using @spawning_of_all s (fun id => id != some spec.terminal) hok.1 rfl t
  have hmain : s.doomed = none := by simp [doomed, hok.2]
  obtain ⟨filed, started, known, held, alone, looked, checked, clear, marked, closed, closing⟩ := h
  constructor
  all_goals simp only [pc_setPc, BeingEnded, live_setPc, terminal_setPc, userKilled_setPc,
    doomed_setPc, sessions_setPc, ending_setPc]
  all_goals grind [Pc.spawning, BeingEnded, Pc.ending]

/-- What the look-up found is still all that the id can lead to. -/
theorem Inv.spawnCheck (h : Inv s) {tid : Tid} {spec : SpawnSpec} {existing : Option Sid}
    (hpc : s.pc tid = .spawnFound spec existing) (hlive : existing.any s.live = false) :
    Inv (s.setPc tid (.spawnChecked spec)) := by
  obtain ⟨filed, started, known, held, alone, looked, checked, clear, marked, closed, closing⟩ := h
  constructor
  all_goals simp only [pc_setPc, BeingEnded, live_setPc, terminal_setPc, userKilled_setPc,
    doomed_setPc, sessions_setPc, ending_setPc]
  all_goals grind [Pc.spawning, BeingEnded, Pc.ending]

/-- A new session object is found through the thread that started it. -/
theorem Inv.spawnStart (h : Inv s) {tid : Tid} {spec : SpawnSpec} {sid : Sid}
    {session : Session} (hpc : s.pc tid = .spawnChecked spec) (hfresh : sid ∉ s.heap)
    (hid : session.id = spec.terminal)
    (hpc' : ∀ t, s'.pc t = if tid = t then .spawnStarted spec sid else s.pc t)
    (hsessions : s'.sessions = s.sessions) (hheap : s'.heap = s.heap.insert sid session)
    (hending : s'.ending = s.ending) (hmain : s'.main = s.main) : Inv s' := by
  have hnone : s.heap[sid]? = none := Std.ExtTreeMap.getElem?_eq_none hfresh
  have hterminal := terminal_insert hheap hid
  have hlive : ∀ other, sid ≠ other → s'.live other = s.live other := by
    intro other heq
    simp [live, isExited, hheap, Std.ExtTreeMap.getElem?_insert, heq]
  have hmark : ∀ other, sid ≠ other → s'.userKilled other = s.userKilled other := by
    intro other heq
    simp [userKilled, hheap, Std.ExtTreeMap.getElem?_insert, heq]
  have hnew : s.terminal sid = none := by simp [terminal, hnone]
  have hdoomed : s'.doomed = s.doomed := by simp [doomed, hmain]
  obtain ⟨filed, started, known, held, alone, looked, checked, clear, marked, closed, closing⟩ := h
  constructor
  all_goals simp only [hpc', hsessions, BeingEnded, hterminal, hdoomed, hending]
  all_goals grind [Pc.spawning, BeingEnded, Pc.ending]

theorem Inv.spawnInsert (h : Inv s) {tid : Tid} {spec : SpawnSpec} {sid : Sid}
    (hpc : s.pc tid = .spawnStarted spec sid)
    (hpc' : ∀ t, s'.pc t = if tid = t then .spawnInserted spec sid else s.pc t)
    (hsessions : ∀ t : TerminalId, s'.sessions[t]? =
      if spec.terminal = t then some sid else s.sessions[t]?)
    (hheap : s'.heap = s.heap) (hending : s'.ending = s.ending) (hmain : s'.main = s.main) :
    Inv s' := by
  have hlive : ∀ sid, s'.live sid = s.live sid := by simp [live, isExited, hheap]
  have hterminal : ∀ sid, s'.terminal sid = s.terminal sid := by simp [terminal, hheap]
  have hmark : ∀ sid, s'.userKilled sid = s.userKilled sid := by simp [userKilled, hheap]
  have hdoomed : s'.doomed = s.doomed := by simp [doomed, hmain]
  obtain ⟨filed, started, known, held, alone, looked, checked, clear, marked, closed, closing⟩ := h
  constructor
  all_goals simp only [hpc', hsessions, BeingEnded, hlive, hterminal, hmark, hdoomed, hending]
  all_goals grind [Pc.spawning, BeingEnded, Pc.ending]

/-- `Kill` takes the session out and holds it. -/
theorem Inv.killRemove (h : Inv s) {tid : Tid} {terminal : TerminalId} {sid : Sid}
    (hpc : s.pc tid = .idle) (hfound : s.sessions[terminal]? = some sid)
    (hpc' : ∀ t, s'.pc t = if tid = t then .killRemoved sid else s.pc t)
    (hsessions : ∀ t : TerminalId, s'.sessions[t]? =
      if terminal = t then none else s.sessions[t]?)
    (hheap : s'.heap = s.heap) (hending : s'.ending = s.ending) (hmain : s'.main = s.main) :
    Inv s' := by
  have hlive : ∀ sid, s'.live sid = s.live sid := by simp [live, isExited, hheap]
  have hterminal : ∀ sid, s'.terminal sid = s.terminal sid := by simp [Sys.terminal, hheap]
  have hmark : ∀ sid, s'.userKilled sid = s.userKilled sid := by simp [userKilled, hheap]
  have hdoomed : s'.doomed = s.doomed := by simp [doomed, hmain]
  obtain ⟨filed, started, known, held, alone, looked, checked, clear, marked, closed, closing⟩ := h
  constructor
  all_goals simp only [hpc', hsessions, BeingEnded, hlive, hterminal, hmark, hdoomed, hending]
  all_goals grind [Pc.spawning, BeingEnded, Pc.ending]

theorem Inv.killTell (h : Inv s) {tid : Tid} {sid : Sid} (hpc : s.pc tid = .killRemoved sid) :
    Inv (s.setPc tid (.killTold sid)) := by
  obtain ⟨filed, started, known, held, alone, looked, checked, clear, marked, closed, closing⟩ := h
  constructor
  all_goals simp only [pc_setPc, BeingEnded, live_setPc, terminal_setPc, userKilled_setPc,
    doomed_setPc, sessions_setPc, ending_setPc]
  all_goals grind [Pc.spawning, BeingEnded, Pc.ending]

/-- From here on the session need not be killed by anyone else. -/
theorem Inv.killMark (h : Inv s) {tid : Tid} {sid : Sid} (hpc : s.pc tid = .killTold sid)
    (hmarked : s.live sid → s.userKilled sid) : Inv (s.setPc tid (.killEnded sid)) := by
  obtain ⟨filed, started, known, held, alone, looked, checked, clear, marked, closed, closing⟩ := h
  constructor
  all_goals simp only [pc_setPc, BeingEnded, live_setPc, terminal_setPc, userKilled_setPc,
    doomed_setPc, sessions_setPc, ending_setPc]
  all_goals grind [Pc.spawning, BeingEnded, Pc.ending]

theorem Inv.killPush (h : Inv s) {tid : Tid} {sid : Sid} (hpc : s.pc tid = .killEnded sid)
    (hpc' : ∀ t, s'.pc t = if tid = t then .idle else s.pc t)
    (hsessions : s'.sessions = s.sessions) (hheap : s'.heap = s.heap)
    (hending : s'.ending = s.ending ++ [sid]) (hmain : s'.main = s.main) : Inv s' := by
  have hlive : ∀ sid, s'.live sid = s.live sid := by simp [live, isExited, hheap]
  have hterminal : ∀ sid, s'.terminal sid = s.terminal sid := by simp [Sys.terminal, hheap]
  have hmark : ∀ sid, s'.userKilled sid = s.userKilled sid := by simp [userKilled, hheap]
  have hdoomed : s'.doomed = s.doomed := by simp [doomed, hmain]
  obtain ⟨filed, started, known, held, alone, looked, checked, clear, marked, closed, closing⟩ := h
  constructor
  all_goals simp only [hpc', hsessions, BeingEnded, hlive, hterminal, hmark, hdoomed, hending,
    List.mem_append, List.mem_singleton]
  all_goals grind [Pc.spawning, BeingEnded, Pc.ending]

/-- An exited session may be taken out of `sessions` and left to nobody. -/
theorem Inv.drop (h : Inv s) {terminal : TerminalId} {sid : Sid}
    (hfound : s.sessions[terminal]? = some sid) (hexited : s.live sid = false)
    (hpc' : ∀ t, s'.pc t = s.pc t)
    (hsessions : ∀ t : TerminalId, s'.sessions[t]? =
      if terminal = t then none else s.sessions[t]?)
    (hheap : s'.heap = s.heap) (hending : s'.ending = s.ending) (hmain : s'.main = s.main) :
    Inv s' := by
  have hlive : ∀ sid, s'.live sid = s.live sid := by simp [live, isExited, hheap]
  have hterminal : ∀ sid, s'.terminal sid = s.terminal sid := by simp [Sys.terminal, hheap]
  have hmark : ∀ sid, s'.userKilled sid = s.userKilled sid := by simp [userKilled, hheap]
  have hdoomed : s'.doomed = s.doomed := by simp [doomed, hmain]
  obtain ⟨filed, started, known, held, alone, looked, checked, clear, marked, closed, closing⟩ := h
  constructor
  all_goals simp only [hpc', hsessions, BeingEnded, hlive, hterminal, hmark, hdoomed, hending]
  all_goals grind [BeingEnded]

/-- A step of the accept loop's thread changes nothing but what it still holds. -/
theorem Inv.doom (h : Inv s) {left : List Sid} (hpc' : ∀ t, s'.pc t = s.pc t)
    (hsessions : s'.sessions = s.sessions) (hheap : s'.heap = s.heap)
    (hending : s'.ending = s.ending) (hdoomed : s'.doomed = some left)
    (hclosed : ∀ tid, (s.pc tid).spawning = none)
    (hclosing : ∀ sid, s.live sid → s.userKilled sid = false →
      sid ∈ left ∨ ∃ tid, s.pc tid = .killRemoved sid ∨ s.pc tid = .killTold sid) : Inv s' := by
  have hlive : ∀ sid, s'.live sid = s.live sid := by simp [live, isExited, hheap]
  have hterminal : ∀ sid, s'.terminal sid = s.terminal sid := by simp [Sys.terminal, hheap]
  have hmark : ∀ sid, s'.userKilled sid = s.userKilled sid := by simp [userKilled, hheap]
  obtain ⟨filed, started, known, held, alone, looked, checked, clear, marked, closed, closing⟩ := h
  constructor
  all_goals simp only [hpc', hsessions, BeingEnded, hlive, hterminal, hmark, hdoomed, hending]
  all_goals grind [BeingEnded]

/-- When the accept loop collects, every live session that is not marked is in
`sessions` or in the hands of a `Kill` that will mark it. -/
theorem Inv.unmarked (h : Inv s) (hclosed : ∀ tid, (s.pc tid).spawning = none) {sid : Sid}
    (hlive : s.live sid) (hmark : s.userKilled sid = false) :
    (∃ t : TerminalId, s.sessions[t]? = some sid) ∨
      ∃ tid, s.pc tid = .killRemoved sid ∨ s.pc tid = .killTold sid := by
  have hmarked := h.marked sid
  rcases h.held sid hlive with hin | (hin | ⟨tid, hpc⟩) | ⟨tid, spec, hpc⟩
  · exact .inl hin
  · grind
  · refine .inr ⟨tid, ?_⟩
    cases hp : s.pc tid <;> grind [Pc.ending]
  · have hnone := hclosed tid
    rw [hpc] at hnone
    cases hnone

/-- One step in which no two `Spawn`s of an id overlap keeps the invariant. -/
theorem Inv.step {tailBytes : Nat} {a : Act} (h : Inv s) (hok : s.apart a)
    (hs : Server.step tailBytes s a = some s') : Inv s' := by
  cases a with
  | spawnLookup tid spec =>
      simp only [Server.step] at hs
      split at hs
      · next hpc =>
          cases hs
          exact h.spawnLookup hok hpc
      · cases hs
  | spawnCheck tid =>
      simp only [Server.step] at hs
      split at hs
      · next spec existing hpc =>
          split at hs
          · cases hs
            exact h.setIdle (by simp [hpc, Pc.ending]) (by simp [hpc])
          · next hlive =>
              cases hs
              exact h.spawnCheck hpc (by simpa using hlive)
      · cases hs
  | spawnFail tid =>
      simp only [Server.step] at hs
      split at hs
      · next hpc =>
          cases hs
          exact h.setIdle (by simp [hpc, Pc.ending]) (by simp [hpc])
      · cases hs
  | spawnStart tid sid elevated =>
      simp only [Server.step] at hs
      split at hs
      · next spec hpc =>
          split at hs
          · cases hs
          · next hfresh =>
              cases hs
              exact h.spawnStart hpc hfresh (rfl : (Session.spawn spec tailBytes elevated).id = _)
                (fun t => pc_setPc tid t _) rfl rfl rfl rfl
      · cases hs
  | spawnLose tid sid elevated => cases hok
  | spawnInsert tid =>
      simp only [Server.step] at hs
      split at hs
      · next spec sid hpc =>
          cases hs
          exact h.spawnInsert hpc (fun t => pc_setPc tid t _)
            (fun t => by simp [Std.ExtTreeMap.getElem?_insert]) rfl rfl rfl
      · cases hs
  | spawnAttach tid replyId =>
      simp only [Server.step] at hs
      split at hs
      · next spec sid hpc =>
          cases hs
          refine (h.modify (advances_attach tid replyId spec.cols spec.rows) sid).setIdle ?_ ?_
          · change (s.pc tid).ending = none
            simp [hpc, Pc.ending]
          · change ∀ spec sid, s.pc tid ≠ .spawnStarted spec sid
            simp [hpc]
      · cases hs
  | killRemove tid terminal =>
      simp only [Server.step] at hs
      split at hs
      · next hpc =>
          split at hs
          · next sid hfound =>
              cases hs
              exact h.killRemove hpc hfound (fun t => pc_setPc tid t _)
                (fun t => by simp [Std.ExtTreeMap.getElem?_erase]) rfl rfl rfl
          · cases hs
            exact h
      · cases hs
  | killTell tid =>
      simp only [Server.step] at hs
      split at hs
      · next sid hpc =>
          cases hs
          exact (h.modify advances_endViews sid).killTell hpc
      · cases hs
  | killMark tid =>
      simp only [Server.step] at hs
      split at hs
      · next sid hpc =>
          cases hs
          exact (h.modify advances_kill sid).killMark hpc userKilled_modify_kill
      · cases hs
  | killPush tid =>
      simp only [Server.step] at hs
      split at hs
      · next sid hpc =>
          cases hs
          exact h.killPush hpc (fun t => pc_setPc tid t _) rfl rfl rfl rfl
      · cases hs
  | closeLookup tid terminal =>
      simp only [Server.step] at hs
      split at hs
      · next sid hpc hfound =>
          cases hs
          exact h.setFree (by simp [hpc, Pc.ending]) (by simp [hpc]) rfl rfl
      · cases hs
  | closeKill tid busy =>
      simp only [Server.step] at hs
      split at hs
      · next sid hpc =>
          split at hs
          · cases hs
            exact h.setIdle (by simp [hpc, Pc.ending]) (by simp [hpc])
          · cases hs
            refine (h.modify advances_kill sid).setIdle ?_ ?_
            · change (s.pc tid).ending = none
              simp [hpc, Pc.ending]
            · change ∀ spec sid, s.pc tid ≠ .spawnStarted spec sid
              simp [hpc]
      · cases hs
  | forget tid terminal =>
      simp only [Server.step] at hs
      split at hs
      · next sid hpc hfound =>
          split at hs
          · next hexited =>
              cases hs
              exact h.drop hfound (by simp [live, hexited]) (fun _ => rfl)
                (fun t => by simp [Std.ExtTreeMap.getElem?_erase]) rfl rfl rfl
          · cases hs
            exact h
      · cases hs
        exact h
      · cases hs
  | liveSessions =>
      cases hs
      exact h.frame (fun _ => rfl) rfl (fun _ hin => List.mem_of_mem_filter hin)
        (fun _ hl hin => List.mem_filter.mpr ⟨hin, hl⟩) rfl (fun _ => rfl) (fun _ hl => hl)
        (fun _ hm => hm)
  | finish sid code =>
      simp only [Server.step] at hs
      split at hs
      · cases hs
        exact (h.modify (advances_finish code) sid).frame (fun _ => rfl) rfl (fun _ hin => hin)
          (fun _ _ hin => hin) rfl (fun _ => rfl) (fun _ hl => hl) (fun _ hm => hm)
      · cases hs
  | sessionEnded sid =>
      have hsame : ∀ exiting, Inv { s with exiting } := fun exiting =>
        h.frame (fun _ => rfl) rfl (fun _ hin => hin) (fun _ _ hin => hin) rfl (fun _ => rfl)
          (fun _ hl => hl) (fun _ hm => hm)
      simp only [Server.step] at hs
      split at hs
      · split at hs
        · cases hs
          exact hsame _
        · split at hs
          · next found hfound =>
              split at hs
              · next hexited =>
                  cases hs
                  refine h.drop hfound ?_ (fun _ => rfl)
                    (fun t => by simp [Std.ExtTreeMap.getElem?_erase]) rfl rfl rfl
                  simp only [Bool.and_eq_true] at hexited
                  simp [live, hexited.1]
              · cases hs
                exact hsame _
          · cases hs
            exact hsame _
      · cases hs
  | stop =>
      cases hs
      exact h.frame (fun _ => rfl) rfl (fun _ hin => hin) (fun _ _ hin => hin) rfl (fun _ => rfl)
        (fun _ hl => hl) (fun _ hm => hm)
  | collectSessions =>
      have hclosed : ∀ tid, (s.pc tid).spawning = none := by
        intro tid
        simpa using @spawning_of_all s (fun id => id == none) hok rfl tid
      simp only [Server.step] at hs
      split at hs
      · split at hs
        · cases hs
          refine h.doom (fun _ => rfl) rfl rfl rfl rfl hclosed fun sid hlive hmark => ?_
          rcases h.unmarked hclosed hlive hmark with ⟨t, ht⟩ | hheld
          · exact .inl (List.mem_map.mpr
              ⟨(t, sid), Std.ExtTreeMap.mem_toList_iff_getElem?_eq_some.mpr ht, rfl⟩)
          · exact .inr hheld
        · cases hs
      · cases hs
  | collectEnding =>
      simp only [Server.step] at hs
      split at hs
      · next held hmain =>
          cases hs
          have hdoomed : s.doomed = some held := by simp [doomed, hmain]
          refine h.doom (fun _ => rfl) rfl rfl rfl rfl (h.closed held hdoomed)
            fun sid hlive hmark => ?_
          rcases h.closing held hdoomed sid hlive hmark with hin | hheld
          · exact .inl (List.mem_append_left _ hin)
          · exact .inr hheld
      · cases hs
  | killNext =>
      simp only [Server.step] at hs
      split at hs
      · next sid left hmain =>
          cases hs
          have hdoomed : s.doomed = some (sid :: left) := by simp [doomed, hmain]
          have hkill := h.modify advances_kill sid
          refine hkill.doom (fun _ => rfl) rfl rfl rfl rfl (h.closed _ hdoomed)
            fun other hlive hmark => ?_
          have hne : other ≠ sid := by
            rintro rfl
            rw [userKilled_modify_kill hlive] at hmark
            cases hmark
          rcases hkill.closing _ hdoomed other hlive hmark with hin | hheld
          · exact .inl ((List.mem_cons.mp hin).resolve_left hne)
          · exact .inr hheld
      · cases hs

theorem Inv.of_init {tailBytes : Nat} (h : (machine tailBytes).init s) : Inv s := by
  cases h
  constructor <;> simp [BeingEnded, Sys.pc, doomed, live, isExited, Pc.ending, Pc.spawning]

/-- Where a live session that no `Kill` has taken out is held. -/
theorem Inv.place (h : Inv s) {sid : Sid} (hlive : s.live sid) (hkept : ¬ s.BeingEnded sid) :
    ∃ t : TerminalId, s.terminal sid = some t ∧ (s.sessions[t]? = some sid ∨
      ∃ tid spec, spec.terminal = t ∧ s.pc tid = .spawnStarted spec sid) := by
  rcases h.held sid hlive with ⟨t, ht⟩ | hending | ⟨tid, spec, hpc⟩
  · exact ⟨t, h.filed t sid ht, .inl ht⟩
  · exact absurd hending hkept
  · exact ⟨spec.terminal, h.started tid spec sid hpc, .inr ⟨tid, spec, rfl, hpc⟩⟩

theorem Inv.single (h : Inv s) {sid₁ sid₂ : Sid} (hlive₁ : s.live sid₁) (hlive₂ : s.live sid₂)
    (hid : s.terminal sid₁ = s.terminal sid₂) (hkept₁ : ¬ s.BeingEnded sid₁)
    (hkept₂ : ¬ s.BeingEnded sid₂) : sid₁ = sid₂ := by
  obtain ⟨t, ht₁, hplace₁⟩ := h.place hlive₁ hkept₁
  obtain ⟨t', ht₂, hplace₂⟩ := h.place hlive₂ hkept₂
  obtain rfl : t = t' := by
    rw [ht₁, ht₂] at hid
    exact Option.some.inj hid
  rcases hplace₁ with hin₁ | ⟨tid₁, spec₁, hspec₁, hpc₁⟩ <;>
    rcases hplace₂ with hin₂ | ⟨tid₂, spec₂, hspec₂, hpc₂⟩
  · rw [hin₁] at hin₂
    exact Option.some.inj hin₂
  · exact absurd hlive₁ (h.clear tid₂ spec₂ sid₂ hpc₂ sid₁ (hspec₂ ▸ hin₁))
  · exact absurd hlive₂ (h.clear tid₁ spec₁ sid₁ hpc₁ sid₂ (hspec₁ ▸ hin₂))
  · obtain rfl : tid₁ = tid₂ := h.alone tid₁ tid₂ t (by simp [hpc₁, Pc.spawning, hspec₁])
      (by simp [hpc₂, Pc.spawning, hspec₂])
    rw [hpc₁] at hpc₂
    cases hpc₂
    rfl

theorem Quiet.not_held (hquiet : s.Quiet) {sid : Sid} (h : s.BeingEnded sid) :
    sid ∈ s.ending := by
  rcases h with hin | ⟨tid, hpc⟩
  · exact hin
  · rw [hquiet tid] at hpc
    cases hpc

theorem Inv.kept (h : Inv s) : s.Kept where
  found hquiet sid hlive := by
    rcases h.held sid hlive with hin | hending | ⟨tid, spec, hpc⟩
    · exact .inl hin
    · exact .inr (hquiet.not_held hending)
    · rw [hquiet tid] at hpc
      cases hpc
  single _ _ := h.single
  ended hquiet hmain sid hlive := by
    by_contra hmark
    have hdoomed : s.doomed = some [] := by simp [doomed, hmain]
    rcases h.closing [] hdoomed sid hlive (by simpa using hmark) with hin | ⟨tid, hpc⟩
    · cases hin
    · rw [hquiet tid] at hpc
      rcases hpc with hpc | hpc <;> cases hpc

end Sys

/-- As long as no `Spawn` looks an id up while another `Spawn` of it is under way,
none fails once its shell runs, and none overlaps or follows `end_all_sessions`, no
live session is orphaned. -/
theorem kept_of_reach (tailBytes : Nat) (s : Sys)
    (h : (machine tailBytes).Reach (fun s a => s.apart a) s) : s.Kept :=
  (h.invariant (fun _ => Sys.Inv.of_init) fun _ _ _ => Sys.Inv.step).kept

/-- Every thread with a record being idle, so are the others. -/
theorem Sys.quiet_of_all {s : Sys} (h : s.threads.toList.all (fun thread => thread.2 == .idle)) :
    s.Quiet := by
  intro tid
  unfold Sys.pc
  cases ht : s.threads[tid]? with
  | none => rfl
  | some pc =>
      rw [List.all_eq_true] at h
      simpa using h (tid, pc) (Std.ExtTreeMap.mem_toList_iff_getElem?_eq_some.mpr ht)

/-- A shell under the id 1. -/
def shell : SpawnSpec := ⟨⟨1⟩, ⟨2⟩, "shell", "sh", [], "/", [], 80, 24, none, false⟩

/-- One client spawns a terminal and another one kills it. -/
theorem kept_spawn_kill : ∃ s : Sys, s.Kept ∧ s.Quiet ∧ s.live 0 ∧ s.ending = [0] := by
  have hinit : (machine 4096).Reach (fun s a => s.apart a)
      ⟨∅, [], ∅, [], [], ∅, .accepting, false⟩ := .init rfl
  obtain ⟨s, hreach, hs⟩ := hinit.exists_of_exec
    [.spawnLookup 1 shell, .spawnCheck 1, .spawnStart 1 0 false, .spawnInsert 1,
      .spawnAttach 1 7, .killRemove 2 ⟨1⟩, .killTell 2, .killMark 2, .killPush 2]
    (fun s => s.threads.toList.all (fun thread => thread.2 == .idle) && s.live 0 &&
      s.ending == [0])
    (by decide)
  simp only [Bool.and_eq_true, beq_iff_eq] at hs
  exact ⟨s, kept_of_reach 4096 s hreach, Sys.quiet_of_all hs.1.1, hs.1.2, hs.2⟩

/-- Two clients spawn one terminal at once: each finds no session, and the one
that is entered first is lost to the other. -/
theorem not_kept :
    ¬ ∀ (tailBytes : Nat) (s : Sys), (machine tailBytes).Reach Machine.anyStep s → s.Kept := by
  intro h
  have hinit : (machine 4096).Reach Machine.anyStep ⟨∅, [], ∅, [], [], ∅, .accepting, false⟩ :=
    .init rfl
  obtain ⟨s, hreach, hs⟩ := hinit.exists_of_exec
    [.spawnLookup 1 shell, .spawnLookup 2 shell, .spawnCheck 1, .spawnCheck 2,
      .spawnStart 1 0 false, .spawnStart 2 1 false, .spawnInsert 1, .spawnInsert 2,
      .spawnAttach 1 7, .spawnAttach 2 7]
    (fun s => s.threads.toList.all (fun thread => thread.2 == .idle) && s.live 0 &&
      s.sessions.toList.all (fun entry => entry.2 != 0) && s.ending == [])
    (by decide)
  simp only [Bool.and_eq_true, beq_iff_eq, List.all_eq_true] at hs
  obtain ⟨⟨⟨hquiet, hlive⟩, hsessions⟩, hending⟩ := hs
  have hfound := (h 4096 s hreach).found (Sys.quiet_of_all (by simpa using hquiet)) 0 hlive
  rcases hfound with ⟨t, ht⟩ | hin
  · simpa using hsessions (t, 0) (Std.ExtTreeMap.mem_toList_iff_getElem?_eq_some.mpr ht)
  · rw [hending] at hin
    cases hin

end Throng.Daemon.Server
