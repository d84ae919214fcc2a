import Throng.Daemon.PtyHostOutput

/-!
# What a host makes of what it is asked

The terminal takes the input in the order in which it was written, and all of it as long as no write
to the PTY fails. Once the daemon has let go of a host, or is gone, the host ends its shell; while
input is on its way that takes a terminal that takes it, since the thread that hears of the end
waits for the write before it.
-/

namespace Throng.Daemon.PtyHost

variable {start : Start} {s s' : Sys} {a : Act}

/-! ## The input -/

/-- The input in the pipe. -/
def inputs : List ToHost → Bytes :=
  List.flatMap fun frame =>
    match frame with
    | .input data => data
    | _ => []

theorem inputs_append (frames frames' : List ToHost) :
    inputs (frames ++ frames') = inputs frames ++ inputs frames' := List.flatMap_append

/-- What is being written and was not taken yet. -/
def Input.held : Input → Bytes
  | .writing data => data
  | _ => []

theorem Input.held_spawned (carries : Bool) : (Input.spawned carries).held = [] := by
  cases carries <;> rfl

/-- The bytes on their way, from the session to the terminal. -/
structure Fed (s : Sys) : Prop where
  linked : s.hears = true → s.heard ++ inputs s.toHost = s.typed
  heard : s.heard <+: s.typed
  fed : (s.fed ++ s.input.held).Sublist s.heard

/-- A step that moves no input. -/
theorem Fed.of_eq (h : Fed s) (hhears : s'.hears = true → s.hears = true)
    (hto : s'.hears = true → inputs s'.toHost = inputs s.toHost) (hheard : s'.heard = s.heard)
    (hfed : (s'.fed ++ s'.input.held).Sublist (s.fed ++ s.input.held))
    (htyped : s'.typed = s.typed) : Fed s' := by
  refine ⟨fun hnow => ?_, ?_, ?_⟩
  · rw [hheard, hto hnow, htyped]
    exact h.linked (hhears hnow)
  · rw [hheard, htyped]
    exact h.heard
  · rw [hheard]
    exact hfed.trans h.fed

theorem Fed.asks {message : ToHost} (h : Fed s) (hnone : inputs [message] = []) :
    Fed (s.ask message) := by
  refine h.of_eq id (fun hnow => ?_) rfl (List.Sublist.refl _) rfl
  rw [Sys.ask]
  dsimp only
  split_ifs
  · rw [inputs_append, hnone, List.append_nil]
  · rfl

theorem Fed.types {data : Bytes} (h : Fed s) :
    Fed { s.ask (.input data) with typed := if s.hears then s.typed ++ data else s.typed } := by
  cases hhears : s.hears with
  | false =>
      refine h.of_eq id (fun hnow => ?_) rfl (List.Sublist.refl _) ?_
      · cases hhears.symm.trans hnow
      · dsimp only
        rw [if_neg Bool.false_ne_true]
  | true =>
      refine ⟨fun _ => ?_, ?_, h.fed⟩
      · rw [Sys.ask]
        dsimp only
        rw [hhears, if_pos rfl, if_pos rfl, inputs_append, ← List.append_assoc, h.linked hhears]
        exact congrArg (s.typed ++ ·) (List.append_nil data)
      · dsimp only
        rw [if_pos rfl]
        exact h.heard.trans (List.prefix_append _ _)

theorem Fed.hears {message : ToHost} {rest : List ToHost} (h : Fed s)
    (hhears : s.hears = true) (hinput : s.input = .reading) (hto : s.toHost = message :: rest) :
    Fed (({ s with toHost := rest }).carryOut message) := by
  have hlinked := h.linked hhears
  rw [hto] at hlinked
  have hfed := h.fed
  rw [hinput] at hfed
  cases message with
  | input data =>
      have hnow : s.heard ++ data ++ inputs rest = s.typed := by
        rw [List.append_assoc]
        exact hlinked
      refine ⟨fun _ => hnow, ⟨_, hnow⟩, ?_⟩
      rw [show s.fed ++ (Input.reading).held = s.fed from List.append_nil _] at hfed
      exact hfed.append (List.Sublist.refl data)
  | kill => exact ⟨fun _ => hlinked, h.heard, hfed⟩
  | _ => exact ⟨fun _ => hlinked, h.heard, h.fed⟩

theorem hears_of_main (hmain : s'.main.alive = true → s.main.alive = true)
    (hinput : s'.input = s.input) : s'.hears = true → s.hears = true := by
  intro hnow
  rw [Sys.hears, Bool.and_eq_true] at hnow ⊢
  exact ⟨hmain hnow.1, hinput ▸ hnow.2⟩

theorem hears_of_input (hmain : s.main.alive = true) (hinput : s.input ≠ .done) :
    s.hears = true := by
  rw [Sys.hears, hmain, Bool.true_and]
  exact bne_iff_ne.2 hinput

theorem Fed.step (h : Fed s) (hnamed : Named start s) (hstep : Moves s a s') : Fed s' := by
  cases hstep with
  | @opened start' rest pid hmain hto =>
      refine h.of_eq (hears_of_main (fun _ => by rw [hmain]; rfl) rfl) (fun _ => ?_)
        rfl (List.Sublist.refl _) rfl
      rw [hto]
      rfl
  | unopened hmain hto =>
      exact h.of_eq Bool.noConfusion Bool.noConfusion rfl (List.Sublist.refl _) rfl
  | halfOpened hmain hto =>
      exact h.of_eq Bool.noConfusion Bool.noConfusion rfl (List.Sublist.refl _) rfl
  | unasked hmain hto hgo =>
      exact h.of_eq Bool.noConfusion Bool.noConfusion rfl (List.Sublist.refl _) rfl
  | misled hmain hto hother =>
      exact h.of_eq Bool.noConfusion Bool.noConfusion rfl (List.Sublist.refl _) rfl
  | @started pid relays carries hmain hlistens =>
      have hidle := (hnamed.idle (by rw [hmain]; rfl)).2
      refine h.of_eq (fun _ => hears_of_input (by rw [hmain]; rfl) ?_) (fun _ => rfl) rfl ?_ rfl
      · rw [hidle]
        exact Input.noConfusion
      · dsimp only [Sys.toDaemon]
        rw [Input.held_spawned, hidle]
        exact List.Sublist.refl _
  | unheard hmain hlistens =>
      exact h.of_eq Bool.noConfusion Bool.noConfusion rfl (List.Sublist.refl _) rfl
  | waited hmain hshell =>
      exact h.of_eq (hears_of_main (fun _ => by rw [hmain]; rfl) rfl) (fun _ => rfl)
        rfl (List.Sublist.refl _) rfl
  | drained hmain houtput =>
      exact h.of_eq (hears_of_main (fun _ => by rw [hmain]; rfl) rfl) (fun _ => rfl)
        rfl (List.Sublist.refl _) rfl
  | timedOut hmain =>
      exact h.of_eq (hears_of_main (fun _ => by rw [hmain]; rfl) rfl) (fun _ => rfl)
        rfl (List.Sublist.refl _) rfl
  | exited hmain => exact h.of_eq Bool.noConfusion Bool.noConfusion rfl (List.Sublist.refl _) rfl
  | took halive houtput => exact h.of_eq id (fun _ => rfl) rfl (List.Sublist.refl _) rfl
  | sent halive houtput hlistens => exact h.of_eq id (fun _ => rfl) rfl (List.Sublist.refl _) rfl
  | unsent halive houtput hlistens => exact h.of_eq id (fun _ => rfl) rfl (List.Sublist.refl _) rfl
  | outputEnded halive houtput hhung hpending =>
      exact h.of_eq id (fun _ => rfl) rfl (List.Sublist.refl _) rfl
  | outputFailed halive houtput => exact h.of_eq id (fun _ => rfl) rfl (List.Sublist.refl _) rfl
  | heard halive hinput hto =>
      exact h.hears (hears_of_input halive (by rw [hinput]; exact Input.noConfusion)) hinput hto
  | written halive hinput =>
      refine h.of_eq (fun _ => hears_of_input halive ?_) (fun _ => rfl) rfl ?_ rfl
      · rw [hinput]
        exact Input.noConfusion
      · rw [hinput]
        exact List.Sublist.refl _
  | unwritten halive hinput =>
      refine h.of_eq (fun _ => hears_of_input halive ?_) (fun _ => rfl) rfl ?_ rfl
      · rw [hinput]
        exact Input.noConfusion
      · exact (List.append_nil s.fed).symm ▸ List.sublist_append_left _ _
  | @fed n data halive hinput hn =>
      refine h.of_eq (fun _ => hears_of_input halive ?_) (fun _ => rfl) rfl ?_ rfl
      · rw [hinput]
        exact Input.noConfusion
      · rw [hinput]
        dsimp only [Input.held]
        rw [List.append_assoc, List.take_append_drop]
  | inputEnded halive hinput hto hgo =>
      refine h.of_eq (fun hnow => ?_) (fun _ => rfl) rfl ?_ rfl
      · rw [Sys.hears, Bool.and_eq_true] at hnow
        cases hnow.2
      · rw [hinput]
        exact List.Sublist.refl _
  | printed hshell hhung => exact h.of_eq id (fun _ => rfl) rfl (List.Sublist.refl _) rfl
  | shellExited hshell => exact h.of_eq id (fun _ => rfl) rfl (List.Sublist.refl _) rfl
  | hungUp hshell => exact h.of_eq id (fun _ => rfl) rfl (List.Sublist.refl _) rfl
  | crashed halive => exact h.of_eq Bool.noConfusion Bool.noConfusion rfl (List.Sublist.refl _) rfl
  | answered hlink hfrom => exact h.of_eq id (fun _ => rfl) rfl (List.Sublist.refl _) rfl
  | refused hlink hfrom => exact h.of_eq id (fun _ => rfl) rfl (List.Sublist.refl _) rfl
  | puzzled hlink hfrom hstarted hfailed =>
      exact h.of_eq id (fun _ => rfl) rfl (List.Sublist.refl _) rfl
  | unanswered hlink hfrom halive => exact h.of_eq id (fun _ => rfl) rfl (List.Sublist.refl _) rfl
  | unlinked hlink hfrom => exact h.of_eq id (fun _ => rfl) rfl (List.Sublist.refl _) rfl
  | @followed pid message rest hlink hfrom =>
      cases message with
      | _ => exact h.of_eq id (fun _ => rfl) rfl (List.Sublist.refl _) rfl
  | linkEnded hlink hfrom halive => exact h.of_eq id (fun _ => rfl) rfl (List.Sublist.refl _) rfl
  | read hroom hread => exact h.of_eq id (fun _ => rfl) rfl (List.Sublist.refl _) rfl
  | typed hconnected hgo => exact h.types
  | resized hconnected hgo => exact h.asks rfl
  | askedToEnd hconnected hgo => exact h.asks rfl
  | letGo hconnected => exact h.of_eq id (fun _ => rfl) rfl (List.Sublist.refl _) rfl
  | died => exact h.of_eq id (fun _ => rfl) rfl (List.Sublist.refl _) rfl

theorem fed_of_reach {ok : Sys → Act → Prop} (h : (machine start).Reach ok s) : Fed s := by
  refine h.invariant' (P := Fed) ?_ fun s a s' hr hs _ hstep =>
    hs.step (named_of_reach hr) (moves_of_step hstep)
  rintro s rfl
  exact ⟨fun _ => rfl, List.prefix_refl _, List.Sublist.refl _⟩

/-- No write to the PTY fails. -/
def writes (_ : Sys) : Act → Prop
  | .writeFails => False
  | _ => True

instance : DecidableRel writes := fun _ a => by
  cases a <;> unfold writes <;> infer_instance

theorem fed_eq_step (hnamed : Named start s) (h : s.fed ++ s.input.held = s.heard)
    (hwrites : writes s a) (hstep : Moves s a s') : s'.fed ++ s'.input.held = s'.heard := by
  cases hstep with
  | @started pid relays carries hmain hlistens =>
      have hidle := (hnamed.idle (by rw [hmain]; rfl)).2
      rw [hidle] at h
      dsimp only [Sys.toDaemon]
      rwa [Input.held_spawned]
  | @heard message rest halive hinput hto =>
      rw [hinput] at h
      have hfed : s.fed = s.heard := (List.append_nil s.fed).symm.trans h
      cases message with
      | input data => exact congrArg (· ++ data) hfed
      | kill => exact h
      | _ =>
          rw [← hinput] at h
          exact h
  | written halive hinput =>
      rw [hinput] at h
      exact h
  | unwritten halive hinput => exact absurd hwrites id
  | @fed n data halive hinput hn =>
      rw [hinput] at h
      dsimp only [Input.held] at h ⊢
      rwa [List.append_assoc, List.take_append_drop]
  | inputEnded halive hinput hto hgo =>
      rw [hinput] at h
      exact h
  | @followed pid message rest hlink hfrom =>
      cases message with
      | _ => exact h
  | _ => exact h

/-- The terminal takes what the session writes, in its order: all of it that the host has read but
for what it is writing, and what it has not read is in the pipe as long as it reads. -/
theorem fed_of_writes (h : (machine start).Reach writes s) :
    s.fed <+: s.typed ∧
      (s.hears = true → s.fed ++ s.input.held ++ inputs s.toHost = s.typed) := by
  have hfed := fed_of_reach h
  have hall : s.fed ++ s.input.held = s.heard := by
    refine h.invariant' (P := fun s => s.fed ++ s.input.held = s.heard) ?_
      fun s a s' hr hs hok hstep => fed_eq_step (named_of_reach hr) hs hok (moves_of_step hstep)
    rintro s rfl
    rfl
  rw [hall]
  exact ⟨(List.prefix_append _ _).trans (hall ▸ hfed.heard), hfed.linked⟩

theorem fed_of_writes_typing :
    ∃ s : Sys, s.fed = [108] ∧ s.input = .writing [115] ∧ s.typed = [108, 115, 10] ∧
      s.fed <+: s.typed ∧
      (s.hears = true → s.fed ++ s.input.held ++ inputs s.toHost = s.typed) := by
  obtain ⟨s, hreach, hs⟩ := Machine.Reach.exists_of_exec
    (Machine.Reach.init rfl : (machine shStart).Reach writes (.asked shStart))
    (comesUp ++ [.type [108, 115], .resize 90 30, .hear, .type [10], .feed 1])
    (fun s => decide (s.fed = [108] ∧ s.input = .writing [115] ∧ s.typed = [108, 115, 10]))
    (by decide +kernel)
  obtain ⟨hfed, hinput, htyped⟩ := of_decide_eq_true hs
  exact ⟨s, hfed, hinput, htyped, fed_of_writes hreach⟩

/-! ## No shell is left running unseen -/

/-- The steps of the host's own threads. -/
def Act.ofHost : Act → Bool
  | .openPty _ | .openFails _ _ | .noStart | .sayStarted _ _ | .wait | .drained | .timeout
  | .sayExited | .readPty _ | .sendOutput | .ptyEnds | .ptyFails | .hear | .written | .writeFails
  | .inputEnds => true
  | _ => false

/-- The terminal takes input. -/
def Act.feeds : Act → Bool
  | .feed _ => true
  | _ => false

/-- A host that could start the shell holds it, and can spawn the thread that hears of its end. -/
def holds (_ : Sys) : Act → Prop
  | .openFails _ _ | .sayStarted _ false => False
  | _ => True

instance : DecidableRel holds := fun _ a => by
  unfold holds
  split <;> infer_instance

structure Watched (s : Sys) : Prop where
  unstarted : s.main = .reading → s.shell = .none
  killed : s.input = .done → s.killed = true
  waited : ∀ status, s.main = .draining status ∨ s.main = .exiting status →
    s.shell = .exited status
  leaves : ∀ code, s.main = .ended code → s.shell = .running → s.killed = true
  hearing : s.main.alive = true → s.main.before = false → s.input ≠ .idle
  asking : s.letGo = true → s.main.before = true → s.listens = false

/-- The main thread goes on from one place to another. -/
theorem Watched.goes (h : Watched s) (halive : s.main.alive = true) (hmain : s'.main.alive = true)
    (hbefore : s.main.before = false) (hbefore' : s'.main.before = false)
    (hinput : s'.input = s.input) (hkilled : s'.killed = s.killed)
    (hwaited : ∀ status, s'.main = .draining status ∨ s'.main = .exiting status →
      s'.shell = .exited status) : Watched s' where
  unstarted hreading := by
    rw [hreading] at hbefore'
    cases hbefore'
  killed hdone := by
    rw [hkilled]
    exact h.killed (hinput ▸ hdone)
  waited := hwaited
  leaves code hended := by
    rw [hended] at hmain
    cases hmain
  hearing _ _ := by
    rw [hinput]
    exact h.hearing halive hbefore
  asking _ hnow := by
    rw [hbefore'] at hnow
    cases hnow

/-- The host ends. -/
theorem Watched.ends (h : Watched s) (hmain : s'.main.alive = false)
    (hinput : s'.input = s.input) (hkilled : s.killed = true → s'.killed = true)
    (hleaves : ∀ code, s'.main = .ended code → s'.shell = .running → s'.killed = true) :
    Watched s' where
  unstarted hreading := by
    rw [hreading] at hmain
    cases hmain
  killed hdone := hkilled (h.killed (hinput ▸ hdone))
  waited status hwaits := by
    rcases hwaits with hwaits | hwaits
    · rw [hwaits] at hmain
      cases hmain
    · rw [hwaits] at hmain
      cases hmain
  leaves := hleaves
  hearing halive := by
    rw [hmain] at halive
    cases halive
  asking _ hbefore := by
    cases hmain.symm.trans (alive_of_before hbefore)

theorem Watched.step (h : Watched s) (hnamed : Named start s) (hholds : holds s a)
    (hstep : Moves s a s') : Watched s' := by
  cases hstep with
  | @opened start' rest pid hmain hto =>
      refine ⟨Main.noConfusion, h.killed, ?_, fun _ => Main.noConfusion, fun _ => Bool.noConfusion,
        fun hgo _ => h.asking hgo (by rw [hmain]; rfl)⟩
      rintro status (hbad | hbad) <;> cases hbad
  | unopened hmain hto =>
      refine h.ends rfl rfl id fun code _ hrunning => ?_
      cases (h.unstarted hmain).symm.trans hrunning
  | halfOpened hmain hto => exact absurd hholds id
  | unasked hmain hto hgo =>
      refine h.ends rfl rfl id fun code _ hrunning => ?_
      cases (h.unstarted hmain).symm.trans hrunning
  | misled hmain hto hother =>
      refine h.ends rfl rfl id fun code _ hrunning => ?_
      cases (h.unstarted hmain).symm.trans hrunning
  | @started pid relays carries hmain hlistens =>
      cases carries with
      | false => exact absurd hholds id
      | true =>
          refine ⟨Main.noConfusion, Input.noConfusion, ?_, fun _ => Main.noConfusion,
            fun _ _ => Input.noConfusion, fun _ => Bool.noConfusion⟩
          rintro status (hbad | hbad) <;> cases hbad
  | unheard hmain hlistens => exact h.ends rfl rfl (fun _ => rfl) fun _ _ _ => rfl
  | waited hmain hshell =>
      refine h.goes (by rw [hmain]; rfl) rfl (by rw [hmain]; rfl) rfl rfl rfl ?_
      rintro status' (hnow | hnow)
      · cases hnow
        exact hshell
      · cases hnow
  | @drained status hmain houtput =>
      refine h.goes (by rw [hmain]; rfl) rfl (by rw [hmain]; rfl) rfl rfl rfl ?_
      rintro status' (hnow | hnow)
      · cases hnow
      · cases hnow
        exact h.waited status (.inl hmain)
  | @timedOut status hmain =>
      refine h.goes (by rw [hmain]; rfl) rfl (by rw [hmain]; rfl) rfl rfl rfl ?_
      rintro status' (hnow | hnow)
      · cases hnow
      · cases hnow
        exact h.waited status (.inl hmain)
  | @exited status hmain =>
      refine h.ends rfl rfl id fun code _ hrunning => ?_
      cases (h.waited status (.inr hmain)).symm.trans hrunning
  | took halive houtput =>
      exact ⟨h.unstarted, h.killed, h.waited, h.leaves, h.hearing, h.asking⟩
  | sent halive houtput hlistens =>
      exact ⟨h.unstarted, h.killed, h.waited, h.leaves, h.hearing, h.asking⟩
  | unsent halive houtput hlistens =>
      exact ⟨h.unstarted, h.killed, h.waited, h.leaves, h.hearing, h.asking⟩
  | outputEnded halive houtput hhung hpending =>
      exact ⟨h.unstarted, h.killed, h.waited, h.leaves, h.hearing, h.asking⟩
  | outputFailed halive houtput =>
      exact ⟨h.unstarted, h.killed, h.waited, h.leaves, h.hearing, h.asking⟩
  | @heard message rest halive hinput hto =>
      cases message with
      | kill =>
          exact ⟨h.unstarted, fun _ => rfl, h.waited, fun _ _ _ => rfl,
            fun _ _ => Input.noConfusion, h.asking⟩
      | input data =>
          exact ⟨h.unstarted, Input.noConfusion, h.waited, h.leaves, fun _ _ => Input.noConfusion,
            h.asking⟩
      | _ => exact ⟨h.unstarted, h.killed, h.waited, h.leaves, h.hearing, h.asking⟩
  | written halive hinput =>
      exact ⟨h.unstarted, Input.noConfusion, h.waited, h.leaves, fun _ _ => Input.noConfusion,
        h.asking⟩
  | unwritten halive hinput =>
      exact ⟨h.unstarted, Input.noConfusion, h.waited, h.leaves, fun _ _ => Input.noConfusion,
        h.asking⟩
  | fed halive hinput hn =>
      exact ⟨h.unstarted, Input.noConfusion, h.waited, h.leaves, fun _ _ => Input.noConfusion,
        h.asking⟩
  | inputEnded halive hinput hto hgo =>
      exact ⟨h.unstarted, fun _ => rfl, h.waited, fun _ _ _ => rfl, fun _ _ => Input.noConfusion,
        h.asking⟩
  | printed hshell hhung => exact ⟨h.unstarted, h.killed, h.waited, h.leaves, h.hearing, h.asking⟩
  | shellExited hshell =>
      refine ⟨fun hmain => ?_, h.killed, fun status hwaits => ?_, fun _ _ => Shell.noConfusion,
        h.hearing, h.asking⟩
      · cases (h.unstarted hmain).symm.trans hshell
      · cases (h.waited status hwaits).symm.trans hshell
  | hungUp hshell => exact ⟨h.unstarted, h.killed, h.waited, h.leaves, h.hearing, h.asking⟩
  | crashed halive => exact h.ends rfl rfl id fun _ => Main.noConfusion
  | @answered pid rest hlink hfrom =>
      refine ⟨h.unstarted, h.killed, h.waited, h.leaves, h.hearing, fun _ hbefore => ?_⟩
      cases (hnamed.after_of_frame hfrom).symm.trans hbefore
  | refused hlink hfrom =>
      exact ⟨h.unstarted, h.killed, h.waited, h.leaves, h.hearing, fun _ _ => rfl⟩
  | puzzled hlink hfrom hstarted hfailed =>
      exact ⟨h.unstarted, h.killed, h.waited, h.leaves, h.hearing, fun _ _ => rfl⟩
  | unanswered hlink hfrom halive =>
      exact ⟨h.unstarted, h.killed, h.waited, h.leaves, h.hearing, fun _ _ => rfl⟩
  | unlinked hlink hfrom =>
      exact ⟨h.unstarted, h.killed, h.waited, h.leaves, h.hearing, fun _ _ => rfl⟩
  | @followed pid message rest hlink hfrom =>
      have hafter := hnamed.after_of_frame hfrom
      cases message with
      | _ =>
          refine ⟨h.unstarted, h.killed, h.waited, h.leaves, h.hearing, fun _ hbefore => ?_⟩
          cases hafter.symm.trans hbefore
  | linkEnded hlink hfrom halive =>
      exact ⟨h.unstarted, h.killed, h.waited, h.leaves, h.hearing, fun _ _ => rfl⟩
  | read hroom hread => exact ⟨h.unstarted, h.killed, h.waited, h.leaves, h.hearing, h.asking⟩
  | typed hconnected hgo => exact ⟨h.unstarted, h.killed, h.waited, h.leaves, h.hearing, h.asking⟩
  | resized hconnected hgo => exact ⟨h.unstarted, h.killed, h.waited, h.leaves, h.hearing, h.asking⟩
  | askedToEnd hconnected hgo =>
      exact ⟨h.unstarted, h.killed, h.waited, h.leaves, h.hearing, h.asking⟩
  | letGo hconnected =>
      refine ⟨h.unstarted, h.killed, h.waited, h.leaves, h.hearing, fun _ hbefore => ?_⟩
      cases hconnected.symm.trans (hnamed.before hbefore).1
  | died => exact ⟨h.unstarted, h.killed, h.waited, h.leaves, h.hearing, fun _ _ => rfl⟩

theorem watched_of_reach (h : (machine start).Reach holds s) : Watched s := by
  refine h.invariant' (P := Watched) ?_ fun s a s' hr hs hok hstep =>
    hs.step (named_of_reach hr) hok (moves_of_step hstep)
  rintro s rfl
  refine ⟨fun _ => rfl, Input.noConfusion, ?_, fun _ => Main.noConfusion, fun _ => Bool.noConfusion,
    Bool.noConfusion⟩
  rintro status (hbad | hbad) <;> cases hbad

/-- The steps that end the shell: the host's own, and where input is on its way (`pending`) the
terminal takes it. -/
def Ends (start : Start) (s : Sys) (pending : Bytes) : Prop :=
  ∃ acts s', (∀ a ∈ acts, a.ofHost = true ∨ (a.feeds = true ∧ pending ≠ [])) ∧
    (machine start).exec Machine.anyStep s acts = some s' ∧ s'.killed = true

theorem Ends.of_killed {pending : Bytes} (h : s.killed = true) : Ends start s pending :=
  ⟨[], s, fun _ ha => absurd ha List.not_mem_nil, rfl, h⟩

theorem Ends.cons {pending : Bytes} (ha : a.ofHost = true ∨ (a.feeds = true ∧ pending ≠ []))
    (hstep : step s a = some s') (h : Ends start s' pending) : Ends start s pending := by
  obtain ⟨acts, s'', hacts, hexec, hkilled⟩ := h
  refine ⟨a :: acts, s'', fun b hb => ?_,
    (Machine.exec_cons_of_step trivial hstep acts).trans hexec, hkilled⟩
  rcases List.mem_cons.1 hb with rfl | hb
  · exact ha
  · exact hacts b hb

/-- What is left to be taken is on its way. -/
theorem Ends.mono {pending pending' : Bytes} (hpending : pending' = [] → pending = [])
    (h : Ends start s pending) : Ends start s pending' := by
  obtain ⟨acts, s', hacts, hexec, hkilled⟩ := h
  exact ⟨acts, s', fun a ha => (hacts a ha).imp_right fun hfeeds =>
    ⟨hfeeds.1, fun hnone => hfeeds.2 (hpending hnone)⟩, hexec, hkilled⟩

/-- The thread gets to the end of what it is writing, as the terminal takes it. -/
theorem Ends.of_writing {data pending : Bytes} (halive : s.main.alive = true)
    (hinput : s.input = .writing data) (hpending : pending = [] → data = [])
    (h : ∀ fed, Ends start { s with fed, input := .reading } pending) :
    Ends start s pending := by
  have hwritten (fed : Bytes) : Ends start { s with fed, input := .writing [] } pending := by
    refine .cons (a := .written) (.inl rfl) ?_ (h fed)
    rw [step]
    exact if_pos ⟨halive, rfl⟩
  cases data with
  | nil =>
      have hsame : s = { s with fed := s.fed, input := .writing [] } := by rw [← hinput]
      rw [hsame]
      exact hwritten s.fed
  | cons b data =>
      refine .cons (a := .feed (b :: data).length)
        (.inr ⟨rfl, fun hnone => List.cons_ne_nil b data (hpending hnone)⟩) ?_
        (hwritten (s.fed ++ (b :: data)))
      rw [step, hinput]
      dsimp only
      rw [if_pos ⟨halive, Nat.succ_pos _, Nat.le_refl _⟩, List.take_length, List.drop_length]

/-- The thread that carries out what it is asked gets to the end of its input. -/
theorem ends_of_reading (halive : s.main.alive = true) (hinput : s.input = .reading)
    (hgo : s.letGo = true) : Ends start s (inputs s.toHost) := by
  induction hto : s.toHost generalizing s with
  | nil =>
      have hstep : step s .inputEnds = some { s with killed := true, input := .done } := by
        rw [step]
        exact if_pos ⟨halive, hinput, hto, hgo⟩
      exact .cons (.inl rfl) hstep (.of_killed rfl)
  | cons message rest ih =>
      have hstep : step s .hear = some (({ s with toHost := rest }).carryOut message) := by
        rw [step, hto]
        exact if_pos ⟨halive, hinput⟩
      refine .cons (.inl rfl) hstep ?_
      cases message with
      | kill => exact .of_killed rfl
      | input data =>
          refine .of_writing halive rfl (fun hnone => (List.append_eq_nil_iff.1 hnone).1) fun fed =>
            ?_
          have hends : Ends start
              { s with toHost := rest, heard := s.heard ++ data, fed, input := .reading }
              (inputs rest) := ih halive rfl hgo rfl
          exact hends.mono fun hnone => (List.append_eq_nil_iff.1 hnone).2
      | start start' =>
          have hends : Ends start { s with toHost := rest } (inputs rest) :=
              ih halive hinput hgo rfl
          exact hends
      | resize cols rows =>
          have hends : Ends start (({ s with toHost := rest }).carryOut (.resize cols rows))
              (inputs rest) := ih halive hinput hgo rfl
          exact hends

end Throng.Daemon.PtyHost
