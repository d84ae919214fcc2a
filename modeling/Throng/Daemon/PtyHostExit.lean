import Throng.Daemon.PtyHostOutput

/-!
# An exit is announced behind all that was printed

While neither process ends early, the terminal's output can be read and its last output drains in
time, the daemon learns how the shell ended, and when it does all that was printed has come through.
-/

namespace Throng.Daemon.PtyHost

variable {start : Start} {s s' : Sys} {a : Act} {pid : Option UInt32} {status : ShellStatus}

/-- Nobody ends early, the threads that pass the output on are there, and it can be read and drains
in time. -/
def Act.steady : Act → Bool
  | .timeout | .ptyFails | .crash | .die | .sayStarted false _ | .linkFails _ => false
  | _ => true

def steady (_ : Sys) (a : Act) : Prop := a.steady = true

instance : DecidableRel steady := fun _ a => inferInstanceAs (Decidable (a.steady = true))

/-- A frame that a host may send while it runs. -/
def FromHost.relays : FromHost → Bool
  | .started _ | .output _ => true
  | _ => false

/-- A frame that says whether the shell was started. -/
def FromHost.answers : FromHost → Bool
  | .started _ | .failed _ => true
  | _ => false

/-- The host's last words. -/
def Farewell (s : Sys) : Prop :=
  (s.link = .asking ∧ ∃ reason, s.fromHost = [.failed reason]) ∨
    ∃ pre status, s.fromHost = pre ++ [.exited status.code status.signalName] ∧
      (∀ frame ∈ pre, frame.relays = true) ∧ s.shell = .exited status ∧ s.output = .done

structure Steady (s : Sys) : Prop where
  /-- The daemon listens until the host has ended. -/
  listens : s.main.alive = true → s.listens = true
  asking : s.main.before = true → s.link = .asking
  answered : s.link = .asking → s.main.before = false →
    ∃ frame rest, s.fromHost = frame :: rest ∧ frame.answers = true
  relays : s.main.alive = true → ∀ frame ∈ s.fromHost, frame.relays = true
  farewell : s.listens = true → s.main.alive = false → Farewell s
  waited : ∀ status, s.main = .draining status ∨ s.main = .exiting status →
    s.shell = .exited status
  drained : ∀ status, s.main = .exiting status → s.output = .done
  whole : s.output = .done → s.sent = s.taken ∧ s.pending = [] ∧ s.hungUp = true
  followed : ∀ pid status, s.link = .done pid status →
    s.shell = .exited status ∧ s.output = .done ∧ s.delivered = s.sent
  ended : s.ended = true → s.closed = true ∧ s.reader.rest = []

theorem statusOf_eq (status : ShellStatus) : statusOf status.code status.signalName = status := by
  cases status <;> rfl

/-- The daemon is not done with a host that runs. -/
theorem Steady.not_done (h : Steady s) (halive : s.main.alive = true) :
    s.link ≠ .done pid status := by
  intro hdone
  have hlistens := h.listens halive
  rw [Sys.listens, hdone] at hlistens
  cases hlistens

/-- The main thread goes on from one place to another. -/
theorem Steady.goes (h : Steady s) (halive : s.main.alive = true) (hmain : s'.main.alive = true)
    (hbefore : s'.main.before = s.main.before) (hlink : s'.link = s.link)
    (hfrom : s'.fromHost = s.fromHost) (houtput : s'.output = s.output)
    (hbytes : s'.sent = s.sent ∧ s'.taken = s.taken ∧ s'.pending = s.pending ∧ s'.hungUp = s.hungUp)
    (hended : s'.ended = s.ended) (hreader : s'.reader = s.reader)
    (hwaited : ∀ status, s'.main = .draining status ∨ s'.main = .exiting status →
      s'.shell = .exited status)
    (hdrained : ∀ status, s'.main = .exiting status → s'.output = .done) : Steady s' where
  listens _ := by
    have hlistens := h.listens halive
    rw [Sys.listens] at hlistens ⊢
    rw [hlink]
    exact hlistens
  asking hnow := by
    rw [hlink]
    exact h.asking (hbefore ▸ hnow)
  answered hasking hnow := by
    rw [hfrom]
    exact h.answered (hlink ▸ hasking) (hbefore ▸ hnow)
  relays _ := by
    rw [hfrom]
    exact h.relays halive
  farewell _ hnot := by
    rw [hmain] at hnot
    cases hnot
  waited := hwaited
  drained := hdrained
  whole hdone := by
    rw [hbytes.1, hbytes.2.1, hbytes.2.2.1, hbytes.2.2.2]
    exact h.whole (houtput ▸ hdone)
  followed pid status hdone := absurd (hlink ▸ hdone) (h.not_done halive)
  ended hend := by
    rw [Sys.closed, hlink, hreader]
    exact h.ended (hended ▸ hend)

/-- The thread that relays goes on. -/
theorem Steady.relaysOn (h : Steady s) (halive : s.main.alive = true) (hmain : s'.main = s.main)
    (hlink : s'.link = s.link) (hshell : s'.shell = s.shell)
    (hfrom : s'.fromHost = s.fromHost ∨ ∃ data, s'.fromHost = s.fromHost ++ [.output data])
    (hexiting : ∀ status, s.main = .exiting status → s'.output = .done)
    (hended : s'.ended = s.ended) (hreader : s'.reader = s.reader)
    (hwhole : s'.output = .done → s'.sent = s'.taken ∧ s'.pending = [] ∧ s'.hungUp = true) :
    Steady s' where
  listens _ := by
    have hlistens := h.listens halive
    rw [Sys.listens] at hlistens ⊢
    rw [hlink]
    exact hlistens
  asking hnow := by
    rw [hlink]
    exact h.asking (hmain ▸ hnow)
  answered hasking hnow := by
    obtain ⟨frame, rest, hframes, hanswers⟩ := h.answered (hlink ▸ hasking) (hmain ▸ hnow)
    rcases hfrom with hsame | ⟨data, hmore⟩
    · exact ⟨frame, rest, hsame.trans hframes, hanswers⟩
    · exact ⟨frame, rest ++ [.output data], by rw [hmore, hframes, List.cons_append], hanswers⟩
  relays _ := by
    have hrelays := h.relays halive
    rcases hfrom with hsame | ⟨data, hmore⟩
    · rw [hsame]
      exact hrelays
    · rw [hmore]
      intro frame hframe
      rcases List.mem_append.1 hframe with hframe | hframe
      · exact hrelays frame hframe
      · rw [List.mem_singleton.1 hframe]
        rfl
  farewell _ hnot := by
    rw [hmain, halive] at hnot
    cases hnot
  waited status hwaits := by
    rw [hshell]
    exact h.waited status (hmain ▸ hwaits)
  drained status hnow := hexiting status (hmain ▸ hnow)
  whole := hwhole
  followed pid status hdone := absurd (hlink ▸ hdone) (h.not_done halive)
  ended hend := by
    rw [Sys.closed, hlink, hreader]
    exact h.ended (hended ▸ hend)

/-- Taking a frame leaves the last one where it is. -/
theorem Farewell.tail {message : FromHost} {rest : List FromHost} (h : Farewell s)
    (hfrom : s.fromHost = message :: rest) (hrelays : message.relays = true)
    (hrest : s'.fromHost = rest) (hshell : s'.shell = s.shell) (houtput : s'.output = s.output) :
    Farewell s' := by
  rcases h with ⟨-, reason, hfailed⟩ | ⟨pre, status, hlast, hpre, hexited, hdone⟩
  · rw [hfrom] at hfailed
    cases hfailed
    cases hrelays
  · rw [hfrom] at hlast
    cases pre with
    | nil =>
        cases hlast
        cases hrelays
    | cons first pre =>
        cases hlast
        exact .inr ⟨pre, status, hrest,
          fun frame hframe => hpre frame (List.mem_cons_of_mem _ hframe),
          hshell.trans hexited, houtput.trans hdone⟩

/-- Nothing comes behind an exit. -/
theorem Farewell.exit {code : UInt32} {signal : Option String} {rest : List FromHost}
    (h : Farewell s) (hfrom : s.fromHost = .exited code signal :: rest) :
    rest = [] ∧ s.shell = .exited (statusOf code signal) ∧ s.output = .done := by
  rcases h with ⟨-, reason, hfailed⟩ | ⟨pre, status, hlast, hpre, hexited, hdone⟩
  · rw [hfrom] at hfailed
    cases hfailed
  · rw [hfrom] at hlast
    cases pre with
    | nil =>
        cases hlast
        rw [statusOf_eq]
        exact ⟨rfl, hexited, hdone⟩
    | cons first pre =>
        cases hlast
        cases hpre _ List.mem_cons_self

/-- The link thread goes on with a frame that does not end it. -/
theorem Steady.passes {message : FromHost} {rest : List FromHost} (h : Steady s)
    (hlink : (∃ pid, s.link = .up pid) ∨ s.link = .asking) (hafter : s.main.before = false)
    (hfrom : s.fromHost = message :: rest) (hrelays : message.relays = true)
    (hnow : ∃ pid, s'.link = .up pid)
    (hrest : s'.fromHost = rest) (hmain : s'.main = s.main) (hshell : s'.shell = s.shell)
    (houtput : s'.output = s.output)
    (hbytes : s'.sent = s.sent ∧ s'.taken = s.taken ∧ s'.pending = s.pending ∧ s'.hungUp = s.hungUp)
    (hended : s'.ended = s.ended) : Steady s' := by
  obtain ⟨pid', hup⟩ := hnow
  have hlistens : s.listens = true := by
    rcases hlink with ⟨pid, hlink⟩ | hlink
    · rw [Sys.listens, hlink]
    · exact listens_of_asking hlink
  refine ⟨fun _ => ?_, fun hbefore => ?_, fun hasking => ?_, fun halive frame hframe => ?_,
    fun _ hnot => ?_, fun status hwaits => ?_, fun status hexiting => ?_, fun hdone => ?_,
    fun pid status hdone => ?_, fun hend => ?_⟩
  · rw [Sys.listens, hup]
  · rw [hmain, hafter] at hbefore
    cases hbefore
  · rw [hup] at hasking
    cases hasking
  · rw [hrest] at hframe
    exact h.relays (hmain ▸ halive) frame (hfrom ▸ List.mem_cons_of_mem _ hframe)
  · exact (h.farewell hlistens (hmain ▸ hnot)).tail hfrom hrelays hrest hshell houtput
  · rw [hshell]
    exact h.waited status (hmain ▸ hwaits)
  · rw [houtput]
    exact h.drained status (hmain ▸ hexiting)
  · rw [hbytes.1, hbytes.2.1, hbytes.2.2.1, hbytes.2.2.2]
    exact h.whole (houtput ▸ hdone)
  · rw [hup] at hdone
    cases hdone
  · have hclosed := (h.ended (hended ▸ hend)).1
    rcases hlink with ⟨pid, hlink⟩ | hlink
    · rw [Sys.closed, hlink] at hclosed
      cases hclosed
    · rw [Sys.closed, hlink] at hclosed
      cases hclosed

/-- The host says why it did not start the shell, and ends. -/
theorem Steady.refuses {reason : String} (h : Steady s) (hnamed : Named start s)
    (hmain : s.main = .reading) (hmain' : s'.main = .ended 1) (hlink : s'.link = s.link)
    (hfrom : s'.fromHost = (s.toDaemon (.failed reason)).fromHost) (houtput : s'.output = s.output)
    (hended : s'.ended = s.ended) (hreader : s'.reader = s.reader) : Steady s' := by
  have hbefore : s.main.before = true := by rw [hmain]; rfl
  have hasking := h.asking hbefore
  have hframes : s'.fromHost = [.failed reason] := by
    rw [hfrom, Sys.toDaemon]
    dsimp only
    rw [listens_of_asking hasking, if_pos rfl, (hnamed.before hbefore).2]
    rfl
  have hidle := (hnamed.idle hbefore).1
  refine ⟨fun halive => ?_, fun hnow => ?_, fun _ _ => ⟨_, _, hframes, rfl⟩, fun halive => ?_,
    fun _ _ => .inl ⟨hlink.trans hasking, reason, hframes⟩, fun status hbad => ?_,
    fun status hbad => ?_, fun hdone => ?_, fun pid status hdone => ?_, fun hend => ?_⟩
  · rw [hmain'] at halive
    cases halive
  · rw [hmain'] at hnow
    cases hnow
  · rw [hmain'] at halive
    cases halive
  · rw [hmain'] at hbad
    rcases hbad with hbad | hbad <;> cases hbad
  · rw [hmain'] at hbad
    cases hbad
  · cases hidle.symm.trans (houtput.symm.trans hdone)
  · cases hasking.symm.trans (hlink.symm.trans hdone)
  · rw [Sys.closed, hlink, hreader]
    exact h.ended (hended ▸ hend)

theorem Steady.step (h : Steady s) (hrelayed : Relayed s) (hnamed : Named start s)
    (hsteady : steady s a) (hstep : Moves s a s') : Steady s' := by
  cases hstep with
  | opened hmain hto =>
      have halive : s.main.alive = true := by rw [hmain]; rfl
      refine h.goes halive rfl (by rw [hmain]; rfl) rfl rfl rfl ⟨rfl, rfl, rfl, rfl⟩ rfl rfl ?_ ?_
      · rintro status (hbad | hbad) <;> cases hbad
      · rintro status hbad
        cases hbad
  | unopened hmain hto => exact h.refuses hnamed hmain rfl rfl rfl rfl rfl rfl
  | halfOpened hmain hto => exact h.refuses hnamed hmain rfl rfl rfl rfl rfl rfl
  | unasked hmain hto hgo =>
      rw [hnamed.asked hmain] at hto
      cases hto
  | misled hmain hto hother =>
      rw [hnamed.asked hmain] at hto
      cases hto
      exact absurd rfl (hother start)
  | @started pid relays carries hmain hlistens =>
      have hbefore : s.main.before = true := by rw [hmain]; rfl
      have hasking := h.asking hbefore
      have hframes : (s.toDaemon (.started pid)).fromHost = [.started pid] := by
        rw [Sys.toDaemon]
        dsimp only
        rw [if_pos hlistens, (hnamed.before hbefore).2]
        rfl
      refine ⟨fun _ => hlistens, Bool.noConfusion, fun _ _ => ⟨_, _, hframes, rfl⟩,
        fun _ frame hframe => ?_, fun _ => Bool.noConfusion, ?_, ?_, fun hdone => ?_,
        fun pid status hdone => ?_, h.ended⟩
      · rw [List.mem_singleton.1 (hframes ▸ hframe : frame ∈ [FromHost.started pid])]
        rfl
      · rintro status (hbad | hbad) <;> cases hbad
      · rintro status hbad
        cases hbad
      · cases relays with
        | true => cases hdone
        | false => cases hsteady
      · cases hasking.symm.trans hdone
  | unheard hmain hlistens =>
      rw [h.listens (by rw [hmain]; rfl)] at hlistens
      cases hlistens
  | waited hmain hshell =>
      refine h.goes (by rw [hmain]; rfl) rfl (by rw [hmain]; rfl) rfl rfl rfl
        ⟨rfl, rfl, rfl, rfl⟩ rfl rfl ?_ ?_
      · rintro status' (hnow | hnow)
        · cases hnow
          exact hshell
        · cases hnow
      · rintro status' hbad
        cases hbad
  | @drained status hmain houtput =>
      refine h.goes (by rw [hmain]; rfl) rfl (by rw [hmain]; rfl) rfl rfl rfl
        ⟨rfl, rfl, rfl, rfl⟩ rfl rfl ?_ fun _ _ => houtput
      rintro status' (hnow | hnow)
      · cases hnow
      · cases hnow
        exact h.waited status (.inl hmain)
  | timedOut hmain => cases hsteady
  | @exited status hmain =>
      have halive : s.main.alive = true := by rw [hmain]; rfl
      have hlistens := h.listens halive
      have hframes : (s.toDaemon (.exited status.code status.signalName)).fromHost =
          s.fromHost ++ [.exited status.code status.signalName] := by
        rw [Sys.toDaemon]
        exact if_pos hlistens
      refine ⟨Bool.noConfusion, Bool.noConfusion, fun hasking _ => ?_, Bool.noConfusion,
        fun _ _ => .inr ⟨s.fromHost, status, hframes, h.relays halive, h.waited status (.inr hmain),
          h.drained status hmain⟩, ?_, ?_, h.whole, fun pid status hdone => ?_, h.ended⟩
      · obtain ⟨frame, rest, hfrom, hanswers⟩ := h.answered hasking (by rw [hmain]; rfl)
        refine ⟨frame, rest ++ [.exited status.code status.signalName], ?_, hanswers⟩
        exact hframes.trans (by rw [hfrom, List.cons_append])
      · rintro status (hbad | hbad) <;> cases hbad
      · rintro status hbad
        cases hbad
      · exact absurd hdone (h.not_done halive)
  | @took n halive houtput =>
      refine h.relaysOn halive rfl rfl rfl (.inl rfl) (fun status hexiting => ?_) rfl rfl
        Output.noConfusion
      rw [h.drained status hexiting] at houtput
      cases houtput
  | @sent data halive houtput hlistens =>
      have hframes : (s.toDaemon (.output data)).fromHost = s.fromHost ++ [.output data] := by
        rw [Sys.toDaemon]
        exact if_pos hlistens
      refine h.relaysOn halive rfl rfl rfl (.inr ⟨data, hframes⟩) (fun status hexiting => ?_) rfl
        rfl Output.noConfusion
      rw [h.drained status hexiting] at houtput
      cases houtput
  | unsent halive houtput hlistens =>
      rw [h.listens halive] at hlistens
      cases hlistens
  | outputEnded halive houtput hhung hpending =>
      refine h.relaysOn halive rfl rfl rfl (.inl rfl) (fun _ _ => rfl) rfl rfl
        fun _ => ⟨?_, hpending, hhung⟩
      rw [hrelayed.held (by rw [houtput]; exact Output.noConfusion), houtput]
      exact (List.append_nil _).symm
  | outputFailed halive houtput => cases hsteady
  | @heard message rest halive hinput hto =>
      cases message with
      | _ =>
          exact ⟨h.listens, h.asking, h.answered, h.relays, h.farewell, h.waited, h.drained,
            h.whole, h.followed, h.ended⟩
  | written halive hinput =>
      exact ⟨h.listens, h.asking, h.answered, h.relays, h.farewell, h.waited, h.drained, h.whole,
        h.followed, h.ended⟩
  | unwritten halive hinput =>
      exact ⟨h.listens, h.asking, h.answered, h.relays, h.farewell, h.waited, h.drained, h.whole,
        h.followed, h.ended⟩
  | fed halive hinput hn =>
      exact ⟨h.listens, h.asking, h.answered, h.relays, h.farewell, h.waited, h.drained, h.whole,
        h.followed, h.ended⟩
  | inputEnded halive hinput hto hgo =>
      exact ⟨h.listens, h.asking, h.answered, h.relays, h.farewell, h.waited, h.drained, h.whole,
        h.followed, h.ended⟩
  | printed hshell hhung =>
      refine ⟨h.listens, h.asking, h.answered, h.relays, h.farewell, h.waited, h.drained,
        fun hdone => ?_, h.followed, h.ended⟩
      rw [(h.whole hdone).2.2] at hhung
      cases hhung
  | shellExited hshell =>
      refine ⟨h.listens, h.asking, h.answered, h.relays, fun hlistens hnot => ?_,
        fun status hwaits => ?_, h.drained, h.whole, fun pid status hdone => ?_, h.ended⟩
      · rcases h.farewell hlistens hnot with hfailed | ⟨pre, status, -, -, hexited, -⟩
        · exact .inl hfailed
        · cases hshell.symm.trans hexited
      · cases hshell.symm.trans (h.waited status hwaits)
      · cases hshell.symm.trans (h.followed pid status hdone).1
  | hungUp hshell =>
      exact ⟨h.listens, h.asking, h.answered, h.relays, h.farewell, h.waited, h.drained,
        fun hdone => ⟨(h.whole hdone).1, (h.whole hdone).2.1, rfl⟩, h.followed, h.ended⟩
  | crashed halive => cases hsteady
  | answered hlink hfrom =>
      exact h.passes (.inr hlink) (hnamed.after_of_frame hfrom) hfrom rfl ⟨_, rfl⟩ rfl rfl rfl rfl
        ⟨rfl, rfl, rfl, rfl⟩ rfl
  | refused hlink hfrom =>
      have hnot : s.main.alive = false := Bool.eq_false_iff.2 fun halive => by
        cases h.relays halive _ (hfrom ▸ List.mem_cons_self)
      refine ⟨fun halive => ?_, fun hbefore => ?_, Link.noConfusion, fun halive => ?_,
        Bool.noConfusion, h.waited, h.drained, h.whole, fun _ _ => Link.noConfusion, fun hend => ?_⟩
      · cases hnot.symm.trans halive
      · cases (hnamed.after_of_frame hfrom).symm.trans hbefore
      · cases hnot.symm.trans halive
      · have hclosed := (h.ended hend).1
        rw [Sys.closed, hlink] at hclosed
        cases hclosed
  | @puzzled message rest hlink hfrom hstarted hfailed =>
      obtain ⟨frame, rest', hframes, hanswers⟩ :=
        h.answered hlink (hnamed.after_of_frame hfrom)
      rw [hfrom] at hframes
      cases hframes
      cases message with
      | started pid => exact absurd rfl (hstarted pid)
      | failed reason => exact absurd rfl (hfailed reason)
      | _ => cases hanswers
  | unanswered hlink hfrom halive =>
      have hafter : s.main.before = false := Bool.eq_false_iff.2 fun hbefore => by
        cases halive.symm.trans (alive_of_before hbefore)
      obtain ⟨frame, rest, hframes, -⟩ := h.answered hlink hafter
      rw [hfrom] at hframes
      cases hframes
  | unlinked hlink hfrom => cases hsteady
  | @followed pid message rest hlink hfrom =>
      have hafter := hnamed.after_of_frame hfrom
      have hlistens : s.listens = true := by rw [Sys.listens, hlink]
      cases message with
      | exited code signal =>
          have hnot : s.main.alive = false := Bool.eq_false_iff.2 fun halive => by
            cases h.relays halive _ (hfrom ▸ List.mem_cons_self)
          obtain ⟨rfl, hexited, hdone⟩ := (h.farewell hlistens hnot).exit hfrom
          refine ⟨fun halive => ?_, fun hbefore => ?_, Link.noConfusion, fun halive => ?_,
            Bool.noConfusion, h.waited, h.drained, h.whole, fun pid status hnow =>
              ?_, fun hend => ?_⟩
          · cases hnot.symm.trans halive
          · cases hafter.symm.trans hbefore
          · cases hnot.symm.trans halive
          · cases hnow
            refine ⟨hexited, hdone, ?_⟩
            have hlinked := hrelayed.linked hlistens
            rw [hfrom] at hlinked
            exact (List.append_nil _).symm.trans hlinked
          · have hclosed := (h.ended hend).1
            rw [Sys.closed, hlink] at hclosed
            cases hclosed
      | output data =>
          have hpasses : Steady { s with fromHost := rest } :=
            h.passes (.inl ⟨pid, hlink⟩) hafter hfrom rfl ⟨pid, hlink⟩ rfl rfl rfl rfl
              ⟨rfl, rfl, rfl, rfl⟩ rfl
          refine ⟨hpasses.listens, hpasses.asking, hpasses.answered, hpasses.relays,
            hpasses.farewell, hpasses.waited, hpasses.drained, hpasses.whole,
            fun pid' status hdone => ?_, fun hend => ?_⟩
          · cases hlink.symm.trans hdone
          · have hclosed := (h.ended hend).1
            rw [Sys.closed, hlink] at hclosed
            cases hclosed
      | started pid' =>
          exact h.passes (.inl ⟨pid, hlink⟩) hafter hfrom rfl ⟨pid, hlink⟩ rfl rfl rfl rfl
            ⟨rfl, rfl, rfl, rfl⟩ rfl
      | failed reason =>
          -- a host that could not start its shell is refused, and never followed
          by_cases halive : s.main.alive = true
          · cases h.relays halive _ (hfrom ▸ List.mem_cons_self)
          · rcases h.farewell hlistens (Bool.eq_false_iff.2 halive) with
              ⟨hasking, -⟩ | ⟨pre, status, hlast, hpre, -⟩
            · cases hlink.symm.trans hasking
            · rw [hfrom] at hlast
              cases pre with
              | nil => cases hlast
              | cons first pre =>
                  cases hlast
                  cases hpre _ List.mem_cons_self
  | linkEnded hlink hfrom halive =>
      have hlistens : s.listens = true := by rw [Sys.listens, hlink]
      rcases h.farewell hlistens halive with ⟨hasking, -⟩ | ⟨pre, status, hlast, -⟩
      · cases hlink.symm.trans hasking
      · rw [hfrom] at hlast
        cases List.append_ne_nil_of_right_ne_nil pre (List.cons_ne_nil _ _) hlast.symm
  | @read room data reader hroom hread =>
      obtain ⟨hrest, hend, -⟩ := OutputReader.readChunks_spec hrelayed.pos hread
      refine ⟨h.listens, h.asking, h.answered, h.relays, h.farewell, h.waited, h.drained, h.whole,
        fun pid status hdone => ?_, fun hnow => ?_⟩
      · obtain ⟨hexited, hdone', hsent⟩ := h.followed pid status hdone
        refine ⟨hexited, hdone', ?_⟩
        rw [← hsent, Sys.delivered, Sys.delivered]
        dsimp only
        rw [List.append_assoc, hrest]
        rfl
      · rcases Bool.or_eq_true_iff.1 hnow with hnow | hnow
        · obtain ⟨hclosed, hnone⟩ := h.ended hnow
          have hall : data ++ reader.rest = [] := hrest.trans hnone
          exact ⟨hclosed, (List.append_eq_nil_iff.1 hall).2⟩
        · exact hend (List.isEmpty_iff.1 hnow) hroom
  | typed hconnected hgo =>
      exact ⟨h.listens, h.asking, h.answered, h.relays, h.farewell, h.waited, h.drained, h.whole,
        h.followed, h.ended⟩
  | resized hconnected hgo =>
      exact ⟨h.listens, h.asking, h.answered, h.relays, h.farewell, h.waited, h.drained, h.whole,
        h.followed, h.ended⟩
  | askedToEnd hconnected hgo =>
      exact ⟨h.listens, h.asking, h.answered, h.relays, h.farewell, h.waited, h.drained, h.whole,
        h.followed, h.ended⟩
  | letGo hconnected =>
      exact ⟨h.listens, h.asking, h.answered, h.relays, h.farewell, h.waited, h.drained, h.whole,
        h.followed, h.ended⟩
  | died => cases hsteady

theorem steady_of_reach (h : (machine start).Reach steady s) : Steady s := by
  refine h.invariant' (P := Steady) ?_ fun s a s' hr hs hok hstep =>
    hs.step (relayed_of_reach hr) (named_of_reach hr) hok (moves_of_step hstep)
  rintro s rfl
  refine ⟨fun _ => rfl, fun _ => rfl, fun _ => Bool.noConfusion, fun _ frame hframe => ?_,
    fun _ => Bool.noConfusion, ?_, ?_, Output.noConfusion, fun _ _ => Link.noConfusion,
    Bool.noConfusion⟩
  · cases hframe
  · rintro status (hbad | hbad) <;> cases hbad
  · rintro status hbad
    cases hbad

/-- When the daemon knows how the shell ended, that is how the shell ended that it asked for, and
all that was printed has come through; once the session sees the end it has read all of it. -/
theorem whole_of_steady (h : (machine start).Reach steady s) :
    (∀ pid status, s.link = .done pid status → s.launched = some (start, pid) ∧
      s.shell = .exited status ∧ s.read ++ s.reader.rest = s.printed) ∧
    (s.ended = true → s.read = s.printed ∧ ∃ pid status, s.link = .done pid status) := by
  have hsteady := steady_of_reach h
  have hdone : ∀ pid status, s.link = .done pid status → s.launched = some (start, pid) ∧
      s.shell = .exited status ∧ s.read ++ s.reader.rest = s.printed := by
    intro pid status hlink
    obtain ⟨hexited, hoff, hsent⟩ := hsteady.followed pid status hlink
    obtain ⟨htaken, hpending, -⟩ := hsteady.whole hoff
    refine ⟨(named_of_reach h).up pid (.inr ⟨status, hlink⟩), hexited, ?_⟩
    rw [Sys.printed, hpending, List.append_nil, ← htaken]
    exact hsent
  refine ⟨hdone, fun hended => ?_⟩
  obtain ⟨hclosed, hrest⟩ := hsteady.ended hended
  cases hlink : s.link with
  | done pid status =>
      have hall := (hdone pid status hlink).2.2
      rw [hrest, List.append_nil] at hall
      exact ⟨hall, pid, status, rfl⟩
  | _ =>
      rw [Sys.closed, hlink] at hclosed
      cases hclosed

theorem whole_of_steady_exited :
    ∃ s : Sys, s.ended = true ∧ s.shell = .exited (.exitCode 3) ∧
      (∀ pid status, s.link = .done pid status → s.launched = some (shStart, pid) ∧
        s.shell = .exited status ∧ s.read ++ s.reader.rest = s.printed) ∧
      (s.ended = true → s.read = s.printed ∧ ∃ pid status, s.link = .done pid status) := by
  obtain ⟨s, hreach, hs⟩ := Machine.Reach.exists_of_exec
    (Machine.Reach.init rfl : (machine shStart).Reach steady (.asked shStart))
    (comesUp ++ [.print [104, 105], .readPty 2, .exit (.exitCode 3), .sendOutput, .wait, .hangUp,
      .ptyEnds, .drained, .sayExited, .follow, .read 9, .follow, .read 9])
    (fun s => decide (s.ended = true ∧ s.shell = .exited (.exitCode 3)))
    (by decide +kernel)
  obtain ⟨hended, hshell⟩ := of_decide_eq_true hs
  exact ⟨s, hended, hshell, whole_of_steady hreach⟩

end Throng.Daemon.PtyHost
