import Throng.Lib.Machine
import Throng.Daemon.Session

/-!
# Repaint nudges and the size of the PTY

An attach to a program on the alternate screen starts a nudge: a thread that
reads the agreed size, shrinks the PTY by one row, sleeps and restores it. The
nudge does not hold the session's lock while it sleeps, so the machine below
interleaves its three steps with every critical section of the session. The
agreed size is stated on its own, from the attached views alone.
-/

namespace Throng.Daemon.Nudge

/-- Where a nudge thread stands. It keeps the columns it read for both resizes. -/
inductive Phase
  | started
  | read (cols rows : Nat)
  | shrunk (cols : Nat)
deriving DecidableEq, Repr

/-- A session, the nudges that attaches have asked for but whose thread has not
started, the nudges in progress, and the size the views agree on. -/
structure Sys where
  session : Session
  asked : Nat
  nudges : Std.ExtTreeMap Nat Phase
  agreed : PtySize

/-- What the views agree on: the smallest columns and rows among them, or what
was agreed last when there is none. -/
def agree (views : Std.ExtTreeMap ClientId (Nat × Nat)) (last : PtySize) : PtySize :=
  match State.smallest views with
  | some (cols, rows) => ⟨cols, rows⟩
  | none => last

inductive Act
  | attach (client : ClientId) (replyId cols rows : Nat)
  | detach (client : ClientId)
  | resize (client : ClientId) (cols rows : Nat)
  | output (chunk : Bytes)
  | finish (code : Option Int)
  | endViews
  | kill
  /-- The thread an attach asked for starts, as nudge `i`. -/
  | start (i : Nat)
  /-- The thread an attach asked for could not be started. -/
  | notStarted
  | read (i : Nat)
  | shrink (i : Nat)
  | restore (i : Nat)
deriving DecidableEq

/-- A critical section of the session, after which the views may agree on
another size. -/
def Sys.update (s : Sys) (session : Session) : Sys :=
  { s with session, agreed := agree session.state.views s.agreed }

/-- The resize a nudge asks of the PTY. -/
def Sys.resizePty (s : Sys) (size : PtySize) : Sys :=
  { s with session := { s.session with master := size } }

def step (s : Sys) : Act → Option Sys
  | .attach client replyId cols rows =>
      let (session, snapshot, _) := s.session.attach client replyId cols rows
      let nudges := snapshot.altScreen && snapshot.exited.isNone
      some { s.update session with asked := if nudges then s.asked + 1 else s.asked }
  | .detach client => some (s.update (s.session.detach client))
  | .resize client cols rows => some (s.update (s.session.resize client cols rows))
  | .output chunk => some (s.update (s.session.pumpOutput chunk))
  | .finish code => some (s.update (s.session.finish code).1)
  | .endViews => some (s.update s.session.endViews.1)
  | .kill => some (s.update s.session.kill)
  | .start i =>
      if 0 < s.asked ∧ i ∉ s.nudges then
        some { s with asked := s.asked - 1, nudges := s.nudges.insert i .started }
      else none
  | .notStarted => if 0 < s.asked then some { s with asked := s.asked - 1 } else none
  | .read i =>
      match s.nudges[i]? with
      | some .started =>
          let (cols, rows) := s.session.state.size
          if rows < 2 then some { s with nudges := s.nudges.erase i }
          else some { s with nudges := s.nudges.insert i (.read cols rows) }
      | _ => none
  | .shrink i =>
      match s.nudges[i]? with
      | some (.read cols rows) =>
          some { s.resizePty ⟨cols, rows - 1⟩ with nudges := s.nudges.insert i (Phase.shrunk cols) }
      | _ => none
  | .restore i =>
      match s.nudges[i]? with
      | some (.shrunk cols) =>
          -- the rows are read again, under the lock; the columns are the ones read before
          some { s.resizePty ⟨cols, s.session.state.size.2⟩ with nudges := s.nudges.erase i }
      | _ => none

/-- A session that has just been started, with no view and no nudge. -/
def fresh (session : Session) : Prop :=
  ∃ spec tailBytes elevated, session = Session.spawn spec tailBytes elevated

def machine : Machine Sys Act where
  init s := fresh s.session ∧ s.asked = 0 ∧ s.nudges = ∅ ∧ s.agreed = s.session.master
  step := step

/-- Whenever no nudge is in progress, the PTY has the smallest columns and rows
over the attached views, or what was agreed last when there is none. -/
def PtyFollowsViews (s : Sys) : Prop :=
  s.nudges = ∅ → s.session.master = agree s.session.state.views s.agreed

/-- A restore puts back the columns that are agreed on when it does. -/
def restoresAgreedColumns (s : Sys) : Act → Bool
  | .restore i =>
      match s.nudges[i]? with
      | some (.shrunk cols) => cols == s.agreed.cols
      | _ => true
  | _ => true

/-! ## What a critical section does to the size -/

/-- What a critical section does to the size: it keeps both sizes and leaves the
views at it or leaves none attached, or it gives both the size the new views
agree on. -/
inductive Settles (s s' : Session) : Prop
  | kept (master : s'.master = s.master) (size : s'.state.size = s.state.size)
      (views : s'.state.views = s.state.views)
  | alone (master : s'.master = s.master) (size : s'.state.size = s.state.size)
      (views : State.smallest s'.state.views = none)
  | same (master : s'.master = s.master) (size : s'.state.size = s.state.size)
      (views : State.smallest s'.state.views = some s.state.size)
  | resized (size : State.smallest s'.state.views = some s'.state.size)
      (master : s'.master = ⟨s'.state.size.1, s'.state.size.2⟩)

theorem settles_applySize {s t : Session} (hmaster : t.master = s.master)
    (hsize : t.state.size = s.state.size) : Settles s t.applySize := by
  unfold Session.applySize
  split
  · next hnone => exact .alone hmaster hsize hnone
  · next cols rows hsome =>
      by_cases hne : (cols, rows) ≠ t.state.size
      · rw [if_pos hne]
        exact .resized hsome rfl
      · rw [if_neg hne]
        rw [not_not] at hne
        refine .same hmaster hsize ?_
        rw [hsome, hne, hsize]

theorem settles_attach (s : Session) (client : ClientId) (replyId cols rows : Nat) :
    Settles s (s.attach client replyId cols rows).1 := by
  unfold Session.attach
  by_cases hlive : s.state.exited.isNone
  · rw [if_pos hlive]
    exact settles_applySize rfl rfl
  · rw [if_neg hlive]
    exact .kept rfl rfl rfl

theorem settles_detach (s : Session) (client : ClientId) : Settles s (s.detach client) := by
  unfold Session.detach
  split
  · exact settles_applySize rfl rfl
  · exact .kept rfl rfl rfl

theorem settles_resize (s : Session) (client : ClientId) (cols rows : Nat) :
    Settles s (s.resize client cols rows) := by
  unfold Session.resize
  split
  · exact settles_applySize rfl rfl
  · exact .kept rfl rfl rfl

theorem smallest_empty : State.smallest ∅ = none := by
  rw [State.smallest_eq_none_iff]
  rfl

theorem settles_finish (s : Session) (code : Option Int) : Settles s (s.finish code).1 :=
  .alone rfl rfl smallest_empty

theorem settles_endViews (s : Session) : Settles s s.endViews.1 := by
  unfold Session.endViews
  split
  · exact .alone rfl rfl smallest_empty
  · exact .kept rfl rfl rfl

theorem settles_kill (s : Session) : Settles s s.kill := by
  unfold Session.kill
  split <;> exact .kept rfl rfl rfl

/-! ## The invariant -/

/-- The recorded size is the agreed one, the attached views agree on it, and the
PTY has it unless some nudge has shrunk it and not yet restored it. -/
structure Sized (s : Sys) : Prop where
  recorded : s.session.state.size = (s.agreed.cols, s.agreed.rows)
  settled : agree s.session.state.views s.agreed = s.agreed
  followed : s.session.master = s.agreed ∨ ∃ (i cols : Nat), s.nudges[i]? = some (Phase.shrunk cols)

theorem agree_of_smallest {views : Std.ExtTreeMap ClientId (Nat × Nat)} {last : PtySize}
    {size : Nat × Nat} (h : State.smallest views = some size) :
    agree views last = ⟨size.1, size.2⟩ := by
  simp [agree, h]

theorem agree_of_none {views : Std.ExtTreeMap ClientId (Nat × Nat)} {last : PtySize}
    (h : State.smallest views = none) : agree views last = last := by
  simp [agree, h]

theorem Sized.update {s : Sys} (h : Sized s) {session : Session}
    (hset : Settles s.session session) : Sized (s.update session) := by
  have hagree : ∀ {size : Nat × Nat}, State.smallest session.state.views = some size →
      agree session.state.views s.agreed = ⟨size.1, size.2⟩ := agree_of_smallest
  -- in the first three cases the agreed size stays what it was
  have hstay : session.master = s.session.master → session.state.size = s.session.state.size →
      agree session.state.views s.agreed = s.agreed → Sized (s.update session) := by
    intro hmaster hsize hsame
    constructor
    · simp only [Sys.update, hsize, hsame, h.recorded]
    · simp only [Sys.update, hsame]
    · simp only [Sys.update, hsame, hmaster]
      exact h.followed
  cases hset with
  | kept hmaster hsize hviews =>
      exact hstay hmaster hsize (hviews ▸ h.settled)
  | alone hmaster hsize hviews =>
      exact hstay hmaster hsize (agree_of_none hviews)
  | same hmaster hsize hviews =>
      refine hstay hmaster hsize ?_
      rw [hagree hviews, h.recorded]
  | resized hsize hmaster =>
      constructor
      · simp only [Sys.update, hagree hsize]
      · simpa only [Sys.update, hagree hsize] using agree_of_smallest hsize
      · left
        simp only [Sys.update, hagree hsize, hmaster]

/-- What one step preserves: only a restore that meets the condition ends a
nudge that has shrunk the PTY. -/
theorem Sized.step {s s' : Sys} {a : Act} (h : Sized s) (hok : restoresAgreedColumns s a)
    (hs : step s a = some s') : Sized s' := by
  cases a with
  | attach client replyId cols rows =>
      cases hs
      have hu := h.update (settles_attach s.session client replyId cols rows)
      exact ⟨hu.recorded, hu.settled, hu.followed⟩
  | detach client =>
      cases hs
      exact h.update (settles_detach _ _)
  | resize client cols rows =>
      cases hs
      exact h.update (settles_resize _ _ _ _)
  | output chunk =>
      cases hs
      exact h.update (.kept rfl rfl rfl)
  | finish code =>
      cases hs
      exact h.update (settles_finish _ _)
  | endViews =>
      cases hs
      exact h.update (settles_endViews _)
  | kill =>
      cases hs
      exact h.update (settles_kill _)
  | start i =>
      simp only [Nudge.step, Option.ite_none_right_eq_some, Option.some.injEq] at hs
      obtain ⟨⟨-, hnew⟩, rfl⟩ := hs
      refine ⟨h.recorded, h.settled, ?_⟩
      rcases h.followed with hf | ⟨j, cols, hj⟩
      · exact .inl hf
      · refine .inr ⟨j, cols, ?_⟩
        have hne : i ≠ j := by
          rintro rfl
          exact hnew (Std.ExtTreeMap.mem_iff_isSome_getElem?.mpr (by simp [hj]))
        simp [Std.ExtTreeMap.getElem?_insert, hne, hj]
  | notStarted =>
      simp only [Nudge.step, Option.ite_none_right_eq_some, Option.some.injEq] at hs
      obtain ⟨-, rfl⟩ := hs
      exact ⟨h.recorded, h.settled, h.followed⟩
  | read i =>
      simp only [Nudge.step] at hs
      split at hs
      · next hi =>
          -- a nudge that has not shrunk the PTY moves on or gives up
          have hkeep : ∀ j cols, s.nudges[j]? = some (Phase.shrunk cols) → i ≠ j := by
            rintro j cols hj rfl
            simp [hi] at hj
          have hf : ∀ nudges : Std.ExtTreeMap Nat Phase,
              (∀ j, i ≠ j → nudges[j]? = s.nudges[j]?) →
              Sized { s with nudges } := by
            intro nudges hsame
            refine ⟨h.recorded, h.settled, ?_⟩
            rcases h.followed with hf | ⟨j, cols, hj⟩
            · exact .inl hf
            · exact .inr ⟨j, cols, (hsame j (hkeep j cols hj)).trans hj⟩
          split at hs
          · cases hs
            exact hf _ fun j hne => by simp [Std.ExtTreeMap.getElem?_erase, hne]
          · cases hs
            exact hf _ fun j hne => by simp [Std.ExtTreeMap.getElem?_insert, hne]
      · cases hs
  | shrink i =>
      simp only [Nudge.step] at hs
      split at hs
      · next cols rows hi =>
          cases hs
          exact ⟨h.recorded, h.settled, .inr ⟨i, cols, by simp⟩⟩
      · cases hs
  | restore i =>
      simp only [Nudge.step] at hs
      split at hs
      · next cols hi =>
          cases hs
          refine ⟨h.recorded, h.settled, .inl ?_⟩
          have hcols : cols = s.agreed.cols := by
            simpa [restoresAgreedColumns, hi] using hok
          simp only [Sys.resizePty, h.recorded, hcols]
      · cases hs

theorem Sized.of_init {s : Sys} (h : machine.init s) : Sized s := by
  obtain ⟨⟨spec, tailBytes, elevated, hsession⟩, -, -, hagreed⟩ := h
  have hviews : s.session.state.views = ∅ := by rw [hsession]; rfl
  refine ⟨?_, ?_, .inl hagreed.symm⟩
  · rw [hagreed, hsession]
    rfl
  · rw [hviews]
    exact agree_of_none smallest_empty

/-- An 80 by 24 terminal before any view attaches. -/
def unattached : Sys :=
  let spec : SpawnSpec :=
    ⟨⟨1⟩, ⟨2⟩, "shell", "sh", [], "/", [], 80, 24, none, false⟩
  let session := Session.spawn spec 4096 false
  { session, asked := 0, nudges := ∅, agreed := session.master }

theorem unattached_init : machine.init unattached :=
  ⟨⟨_, _, _, rfl⟩, rfl, rfl, rfl⟩

/-- The program switches to the alternate screen and a view attaches, which
starts a nudge; the nudge shrinks the PTY and sleeps. -/
def nudgeAsleep : List Act :=
  [.output [27, 91, 63, 52, 55, 104], .attach 1 1 80 24, .start 0, .read 0, .shrink 0]

/-- In every run whose restores all put back columns that are still agreed on,
the PTY has the agreed size whenever no nudge is in progress. -/
theorem ptyFollowsViews_of_reach {s : Sys}
    (h : machine.Reach (fun s a => restoresAgreedColumns s a) s) : PtyFollowsViews s := by
  have hsized : Sized s :=
    h.invariant (fun _ hi => .of_init hi) (fun _ _ _ hsz hok hs => hsz.step hok hs)
  intro hquiet
  rcases hsized.followed with hf | ⟨i, cols, hi⟩
  · exact hf.trans hsized.settled.symm
  · simp [hquiet] at hi

/-- A second view, shorter but as wide, attaches during the nudge. -/
theorem ptyFollowsViews_shorter :
    ∃ s, PtyFollowsViews s ∧ s.nudges = ∅ ∧ s.agreed = ⟨80, 20⟩ := by
  have hinit : machine.Reach (fun s a => restoresAgreedColumns s a) unattached :=
    .init unattached_init
  obtain ⟨s, hreach, hs⟩ := hinit.exists_of_exec
    (nudgeAsleep ++ [.attach 2 1 90 20, .restore 0])
    (fun s => s.nudges.isEmpty && s.agreed == ⟨80, 20⟩) (by decide)
  simp only [Bool.and_eq_true, Std.ExtTreeMap.isEmpty_iff, beq_iff_eq] at hs
  exact ⟨s, ptyFollowsViews_of_reach hreach, hs⟩

/-- Without the condition the PTY can be left wider than the only view, which
narrowed while the nudge slept. No other nudge is asked for, so the size stays. -/
theorem not_ptyFollowsViews :
    ¬ ∀ s, machine.Reach Machine.anyStep s → s.asked = 0 → PtyFollowsViews s := by
  intro h
  have hinit : machine.Reach Machine.anyStep unattached := .init unattached_init
  obtain ⟨s, hreach, hs⟩ := hinit.exists_of_exec
    (nudgeAsleep ++ [.resize 1 40 24, .restore 0])
    (fun s => s.nudges.isEmpty && s.asked == 0 && s.session.master == ⟨80, 24⟩ &&
      agree s.session.state.views s.agreed == ⟨40, 24⟩)
    (by decide)
  simp only [Bool.and_eq_true, Std.ExtTreeMap.isEmpty_iff, beq_iff_eq] at hs
  obtain ⟨⟨⟨hquiet, hasked⟩, hmaster⟩, hagreed⟩ := hs
  have hfollows := h s hreach hasked hquiet
  rw [hmaster, hagreed] at hfollows
  cases hfollows

end Throng.Daemon.Nudge
