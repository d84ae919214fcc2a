import Mathlib.Data.List.Infix
import Throng.Daemon.PtyHostSteps

/-!
# What a session reads from a host

Whatever happens, the session reads what the terminal printed, in order and with nothing left out in
front of what it has read. While neither process ends early, the PTY can be read and its last output
drains in time, the shell's exit is announced behind all that was printed.
-/

namespace Throng.Daemon.PtyHost

variable {start : Start} {s s' : Sys} {a : Act} {pid : Option UInt32} {status : ShellStatus}

/-! ## The reader -/

theorem OutputReader.readChunks_spec {closed : Bool} {room : Nat} {output : List Bytes}
    {chunk data : Bytes} {pos : Nat} {reader : OutputReader} (hpos : pos ≤ chunk.length)
    (h : readChunks closed room output chunk pos = some (data, reader)) :
    data ++ reader.rest = chunk.drop pos ++ output.flatten ∧
      (data = [] → 0 < room → closed = true ∧ reader.rest = []) ∧
      reader.pos ≤ reader.chunk.length := by
  induction output generalizing chunk pos with
  | nil =>
      rw [readChunks] at h
      split_ifs at h with hread hclosed
      · cases h
        subst hread
        refine ⟨rfl, fun _ _ => ⟨hclosed, ?_⟩, Nat.le_refl _⟩
        rw [rest, List.drop_length, List.flatten_nil, List.append_nil]
      · cases h
        refine ⟨?_, fun hnil hroom => ?_, ?_⟩
        · rw [rest, ← List.append_assoc, ← List.drop_drop, List.take_append_drop]
        · have hlength := congrArg List.length hnil
          rw [List.length_take, List.length_drop, List.length_nil] at hlength
          omega
        · dsimp only
          omega
  | cons next output ih =>
      rw [readChunks] at h
      split_ifs at h with hread
      · subst hread
        rw [List.drop_length, List.nil_append, List.flatten_cons]
        exact ih (Nat.zero_le _) h
      · cases h
        refine ⟨?_, fun hnil hroom => ?_, ?_⟩
        · rw [rest, ← List.append_assoc, ← List.drop_drop, List.take_append_drop]
        · have hlength := congrArg List.length hnil
          rw [List.length_take, List.length_drop, List.length_nil] at hlength
          omega
        · dsimp only
          omega

/-- The output in the pipe. -/
def outputs : List FromHost → Bytes :=
  List.flatMap fun frame =>
    match frame with
    | .output data => data
    | _ => []

theorem outputs_append (frames frames' : List FromHost) :
    outputs (frames ++ frames') = outputs frames ++ outputs frames' := List.flatMap_append

/-- What a thread has read of the terminal and not sent yet. -/
def Output.held : Output → Bytes
  | .holding data => data
  | _ => []

/-- What has come through the pipe. -/
def Sys.delivered (s : Sys) : Bytes := s.read ++ s.reader.rest

/-! ## In any run -/

/-- The threads that relay are not started yet. -/
def Main.before : Main → Bool
  | .reading | .opened _ => true
  | _ => false

theorem alive_of_before {m : Main} (h : m.before = true) : m.alive = true := by
  cases m with
  | reading => rfl
  | opened pid => rfl
  | _ => cases h

/-- The bytes on their way, from the terminal to the session. -/
structure Relayed (s : Sys) : Prop where
  idle : s.main.before = true → s.output = .idle
  held : s.output ≠ .done → s.taken = s.sent ++ s.output.held
  sent : s.sent <+: s.taken
  linked : s.listens = true → s.delivered ++ outputs s.fromHost = s.sent
  delivered : s.delivered <+: s.sent
  pos : s.reader.pos ≤ s.reader.chunk.length

/-- A step that moves no output. -/
theorem Relayed.of_eq (h : Relayed s) (hbefore : s'.main.before = true → s.main.before = true)
    (houtput : s'.output = s.output) (htaken : s'.taken = s.taken) (hsent : s'.sent = s.sent)
    (hlistens : s'.listens = true → s.listens = true)
    (hfrom : s'.listens = true → outputs s'.fromHost = outputs s.fromHost)
    (hread : s'.read = s.read) (hreader : s'.reader = s.reader) : Relayed s' := by
  have hdelivered : s'.delivered = s.delivered := by
    rw [Sys.delivered, hread, hreader]
    rfl
  refine ⟨fun hmain => ?_, fun hnot => ?_, ?_, fun hlisten => ?_, ?_, ?_⟩
  · rw [houtput]
    exact h.idle (hbefore hmain)
  · rw [htaken, hsent, houtput]
    exact h.held (houtput ▸ hnot)
  · rw [htaken, hsent]
    exact h.sent
  · rw [hdelivered, hfrom hlisten, hsent]
    exact h.linked (hlistens hlisten)
  · rw [hdelivered, hsent]
    exact h.delivered
  · rw [hreader]
    exact h.pos

/-- The thread that relays starts or stops. -/
theorem Relayed.of_output (h : Relayed s) (hbefore : s'.main.before = false)
    (hheld : s'.output ≠ .done → s.output ≠ .done ∧ s'.output.held = s.output.held)
    (htaken : s'.taken = s.taken) (hsent : s'.sent = s.sent)
    (hlistens : s'.listens = true → s.listens = true)
    (hfrom : s'.listens = true → outputs s'.fromHost = outputs s.fromHost)
    (hread : s'.read = s.read) (hreader : s'.reader = s.reader) : Relayed s' := by
  have heq : Relayed { s' with output := s.output } :=
    h.of_eq (fun hmain => absurd hmain (by rw [hbefore]; exact Bool.false_ne_true)) rfl htaken hsent
      hlistens hfrom hread hreader
  refine ⟨fun hmain => ?_, fun hnot => ?_, heq.sent, heq.linked, heq.delivered, heq.pos⟩
  · rw [hbefore] at hmain
    cases hmain
  · obtain ⟨hnot', hsame⟩ := hheld hnot
    rw [hsame]
    exact heq.held hnot'

/-- A frame that holds no output. -/
theorem outputs_toDaemon {message : FromHost} (hnone : outputs [message] = []) :
    outputs (s.toDaemon message).fromHost = outputs s.fromHost := by
  rw [Sys.toDaemon]
  dsimp only
  split_ifs
  · rw [outputs_append, hnone, List.append_nil]
  · rfl

/-- A chunk that is read of the terminal. -/
theorem Relayed.took {n : Nat} (h : Relayed s) (houtput : s.output = .reading)
    (hbefore : s.main.before = false) :
    Relayed
      { s with
        taken := s.taken ++ s.pending.take n
        pending := s.pending.drop n
        output := .holding (s.pending.take n) } := by
  have hheld : s.taken = s.sent := by
    rw [h.held (by rw [houtput]; exact Output.noConfusion), houtput]
    exact List.append_nil _
  refine ⟨fun hmain => ?_, fun _ => ?_, h.sent.trans (List.prefix_append _ _), h.linked,
    h.delivered, h.pos⟩
  · exact absurd (hbefore.symm.trans hmain) Bool.false_ne_true
  · dsimp only
    rw [hheld]
    rfl

/-- A chunk that is sent. -/
theorem Relayed.sends {data : Bytes} (h : Relayed s) (houtput : s.output = .holding data)
    (hlistens : s.listens = true) :
    Relayed { s.toDaemon (.output data) with sent := s.sent ++ data, output := .reading } := by
  have hheld := h.held (by rw [houtput]; exact Output.noConfusion)
  rw [houtput, Output.held] at hheld
  refine ⟨fun hmain => ?_, fun _ => ?_, ?_, fun _ => ?_, ?_, h.pos⟩
  · rw [h.idle hmain] at houtput
    cases houtput
  · exact hheld.trans (List.append_nil _).symm
  · exact ⟨[], by rw [List.append_nil]; exact hheld.symm⟩
  · change s.delivered ++ outputs (s.toDaemon (.output data)).fromHost = s.sent ++ data
    rw [Sys.toDaemon]
    dsimp only
    rw [if_pos hlistens, outputs_append, ← List.append_assoc, h.linked hlistens]
    exact congrArg (s.sent ++ ·) (List.append_nil data)
  · exact h.delivered.trans (List.prefix_append _ _)

/-- What the link thread makes of a frame. -/
theorem Relayed.follows {message : FromHost} {rest : List FromHost} (h : Relayed s)
    (hlink : s.link = .up pid) (hfrom : s.fromHost = message :: rest) :
    Relayed (({ s with fromHost := rest }).follow pid message) := by
  have hlistens : s.listens = true := by rw [Sys.listens, hlink]
  have hlinked := h.linked hlistens
  rw [hfrom] at hlinked
  cases message with
  | output data =>
      have hmore : ({ s.reader with output := s.reader.output ++ [data] } : OutputReader).rest =
          s.reader.rest ++ data := by
        rw [OutputReader.rest, OutputReader.rest, List.flatten_append, List.append_assoc]
        exact congrArg (fun more => s.reader.chunk.drop s.reader.pos ++
          (s.reader.output.flatten ++ more)) (List.append_nil data)
      have hnow : s.delivered ++ data ++ outputs rest = s.sent := by
        rw [List.append_assoc]
        exact hlinked
      refine ⟨h.idle, h.held, h.sent, fun _ => ?_, ?_, h.pos⟩
      · rw [Sys.delivered, Sys.follow]
        dsimp only
        rw [hmore, ← List.append_assoc]
        exact hnow
      · rw [Sys.delivered, Sys.follow]
        dsimp only
        rw [hmore, ← List.append_assoc]
        exact ⟨_, hnow⟩
  | exited code signal =>
      exact ⟨h.idle, h.held, h.sent, fun hlisten => absurd hlisten Bool.false_ne_true, h.delivered,
        h.pos⟩
  | started pid => exact ⟨h.idle, h.held, h.sent, fun _ => hlinked, h.delivered, h.pos⟩
  | failed reason => exact ⟨h.idle, h.held, h.sent, fun _ => hlinked, h.delivered, h.pos⟩

theorem Relayed.reads {room : Nat} {data : Bytes} {reader : OutputReader} (h : Relayed s)
    (hread : s.reader.read s.closed room = some (data, reader)) :
    Relayed { s with reader, read := s.read ++ data, ended := s.ended || data.isEmpty } := by
  obtain ⟨hrest, -, hpos⟩ := OutputReader.readChunks_spec h.pos hread
  have hdelivered : s.read ++ data ++ reader.rest = s.delivered := by
    rw [List.append_assoc, hrest]
    rfl
  refine ⟨h.idle, h.held, h.sent, fun hlistens => ?_, ?_, hpos⟩
  · rw [Sys.delivered, hdelivered]
    exact h.linked hlistens
  · rw [Sys.delivered, hdelivered]
    exact h.delivered

/-- A thread that relays runs only once it was started. -/
theorem Relayed.before_of_output (h : Relayed s) (houtput : s.output ≠ .idle) :
    s.main.before = false :=
  Bool.eq_false_iff.2 fun hmain => houtput (h.idle hmain)

theorem listens_of_asking (hlink : s.link = .asking) : s.listens = true := by
  rw [Sys.listens, hlink]

theorem Relayed.step (h : Relayed s) (hstep : Moves s a s') : Relayed s' := by
  cases hstep with
  | opened hmain hto =>
      exact h.of_eq (fun _ => by rw [hmain]; rfl) rfl rfl rfl id (fun _ => rfl) rfl rfl
  | unopened hmain hto =>
      exact h.of_eq Bool.noConfusion rfl rfl rfl id (fun _ => outputs_toDaemon rfl) rfl rfl
  | halfOpened hmain hto =>
      exact h.of_eq Bool.noConfusion rfl rfl rfl id (fun _ => outputs_toDaemon rfl) rfl rfl
  | unasked hmain hto hgo => exact h.of_eq Bool.noConfusion rfl rfl rfl id (fun _ => rfl) rfl rfl
  | misled hmain hto hother => exact h.of_eq Bool.noConfusion rfl rfl rfl id (fun _ => rfl) rfl rfl
  | @started pid relays carries hmain hlistens =>
      have hidle := h.idle (by rw [hmain]; rfl)
      refine h.of_output rfl (fun hnot => ?_) rfl rfl id (fun _ => outputs_toDaemon rfl) rfl rfl
      rw [hidle]
      cases relays with
      | true => exact ⟨Output.noConfusion, rfl⟩
      | false => exact absurd rfl hnot
  | unheard hmain hlistens => exact h.of_eq Bool.noConfusion rfl rfl rfl id (fun _ => rfl) rfl rfl
  | waited hmain hshell => exact h.of_eq Bool.noConfusion rfl rfl rfl id (fun _ => rfl) rfl rfl
  | drained hmain houtput => exact h.of_eq Bool.noConfusion rfl rfl rfl id (fun _ => rfl) rfl rfl
  | timedOut hmain => exact h.of_eq Bool.noConfusion rfl rfl rfl id (fun _ => rfl) rfl rfl
  | exited hmain =>
      exact h.of_eq Bool.noConfusion rfl rfl rfl id (fun _ => outputs_toDaemon rfl) rfl rfl
  | took halive houtput =>
      exact h.took houtput (h.before_of_output (by rw [houtput]; exact Output.noConfusion))
  | sent halive houtput hlistens => exact h.sends houtput hlistens
  | unsent halive houtput hlistens =>
      exact h.of_output (h.before_of_output (by rw [houtput]; exact Output.noConfusion))
        (fun hnot => absurd rfl hnot) rfl rfl id (fun _ => rfl) rfl rfl
  | outputEnded halive houtput hhung hpending =>
      exact h.of_output (h.before_of_output (by rw [houtput]; exact Output.noConfusion))
        (fun hnot => absurd rfl hnot) rfl rfl id (fun _ => rfl) rfl rfl
  | outputFailed halive houtput =>
      exact h.of_output (h.before_of_output (by rw [houtput]; exact Output.noConfusion))
        (fun hnot => absurd rfl hnot) rfl rfl id (fun _ => rfl) rfl rfl
  | @heard message rest halive hinput hto =>
      cases message with
      | _ => exact h.of_eq id rfl rfl rfl id (fun _ => rfl) rfl rfl
  | written halive hinput => exact h.of_eq id rfl rfl rfl id (fun _ => rfl) rfl rfl
  | unwritten halive hinput => exact h.of_eq id rfl rfl rfl id (fun _ => rfl) rfl rfl
  | fed halive hinput hn => exact h.of_eq id rfl rfl rfl id (fun _ => rfl) rfl rfl
  | inputEnded halive hinput hto hgo => exact h.of_eq id rfl rfl rfl id (fun _ => rfl) rfl rfl
  | printed hshell hhung => exact h.of_eq id rfl rfl rfl id (fun _ => rfl) rfl rfl
  | shellExited hshell => exact h.of_eq id rfl rfl rfl id (fun _ => rfl) rfl rfl
  | hungUp hshell => exact h.of_eq id rfl rfl rfl id (fun _ => rfl) rfl rfl
  | crashed halive => exact h.of_eq Bool.noConfusion rfl rfl rfl id (fun _ => rfl) rfl rfl
  | answered hlink hfrom =>
      refine h.of_eq id rfl rfl rfl (fun _ => listens_of_asking hlink) (fun _ => ?_) rfl rfl
      rw [hfrom]
      rfl
  | refused hlink hfrom =>
      exact h.of_eq id rfl rfl rfl Bool.noConfusion Bool.noConfusion rfl rfl
  | puzzled hlink hfrom hstarted hfailed =>
      exact h.of_eq id rfl rfl rfl Bool.noConfusion Bool.noConfusion rfl rfl
  | unanswered hlink hfrom halive =>
      exact h.of_eq id rfl rfl rfl Bool.noConfusion Bool.noConfusion rfl rfl
  | unlinked hlink hfrom =>
      exact h.of_eq id rfl rfl rfl Bool.noConfusion Bool.noConfusion rfl rfl
  | followed hlink hfrom => exact h.follows hlink hfrom
  | linkEnded hlink hfrom halive =>
      exact h.of_eq id rfl rfl rfl Bool.noConfusion Bool.noConfusion rfl rfl
  | read hroom hread => exact h.reads hread
  | typed hconnected hgo => exact h.of_eq id rfl rfl rfl id (fun _ => rfl) rfl rfl
  | resized hconnected hgo => exact h.of_eq id rfl rfl rfl id (fun _ => rfl) rfl rfl
  | askedToEnd hconnected hgo => exact h.of_eq id rfl rfl rfl id (fun _ => rfl) rfl rfl
  | letGo hconnected => exact h.of_eq id rfl rfl rfl id (fun _ => rfl) rfl rfl
  | died => exact h.of_eq id rfl rfl rfl Bool.noConfusion Bool.noConfusion rfl rfl

theorem relayed_of_reach {ok : Sys → Act → Prop} (h : (machine start).Reach ok s) : Relayed s := by
  refine h.invariant (P := Relayed) ?_ fun s a s' hs _ hstep => hs.step (moves_of_step hstep)
  rintro s rfl
  exact ⟨fun _ => rfl, fun _ => rfl, List.prefix_refl _, fun _ => rfl, List.prefix_refl _,
    Nat.le_refl _⟩

/-- Whatever happens, the session reads what the terminal printed, from its start on. -/
theorem prefix_of_reach (h : (machine start).Reach Machine.anyStep s) : s.read <+: s.printed := by
  have hrelayed := relayed_of_reach h
  calc
    s.read <+: s.delivered := List.prefix_append _ _
    _ <+: s.sent := hrelayed.delivered
    _ <+: s.taken := hrelayed.sent
    _ <+: s.printed := List.prefix_append _ _

/-- The host is struck down with output on its way. -/
theorem prefix_of_reach_crashed :
    ∃ s : Sys, s.main = .crashed ∧ s.read = [104] ∧ s.printed = [104, 105, 33] ∧
      s.read <+: s.printed := by
  obtain ⟨s, hreach, hs⟩ := Machine.Reach.exists_of_exec
    (Machine.Reach.init rfl : (machine shStart).Reach Machine.anyStep (.asked shStart))
    (comesUp ++ [.print [104, 105, 33], .readPty 2, .sendOutput, .readPty 1, .crash,
      .follow, .read 1])
    (fun s => decide (s.main = .crashed ∧ s.read = [104] ∧ s.printed = [104, 105, 33]))
    (by decide +kernel)
  obtain ⟨hmain, hread, hprinted⟩ := of_decide_eq_true hs
  exact ⟨s, hmain, hread, hprinted, prefix_of_reach hreach⟩

/-! ## Which shell it is -/

/-- What the daemon is told of the shell that was asked for. -/
structure Named (start : Start) (s : Sys) : Prop where
  asked : s.main = .reading → s.toHost = [.start start]
  before : s.main.before = true → s.connected = false ∧ s.fromHost = []
  idle : s.main.before = true → s.output = .idle ∧ s.input = .idle
  opened : ∀ pid, s.main = .opened pid → s.launched = some (start, pid)
  told : ∀ pid, .started pid ∈ s.fromHost → s.launched = some (start, pid)
  up : ∀ pid, (s.link = .up pid ∨ ∃ status, s.link = .done pid status) →
    s.launched = some (start, pid)

/-- A frame for the host comes behind what it starts from. -/
theorem Named.asks {message : ToHost} (h : Named start s) (hconnected : s.connected = true) :
    Named start (s.ask message) where
  asked hmain := by
    obtain ⟨hnot, -⟩ := h.before (by rw [show s.main = .reading from hmain]; rfl)
    rw [hnot] at hconnected
    cases hconnected
  before := h.before
  idle := h.idle
  opened := h.opened
  told := h.told
  up := h.up

/-- A frame that tells of no start. -/
theorem Named.tells {message : FromHost} (h : Named start s) (hmain : s'.main.before = false)
    (hother : ∀ pid, message ≠ .started pid) (hfrom : s'.fromHost = (s.toDaemon message).fromHost)
    (hlink : s'.link = s.link) (hlaunched : s'.launched = s.launched) : Named start s' where
  asked hreading := by
    rw [hreading] at hmain
    cases hmain
  before hbefore := by
    rw [hmain] at hbefore
    cases hbefore
  idle hbefore := by
    rw [hmain] at hbefore
    cases hbefore
  opened pid hopened := by
    rw [hopened] at hmain
    cases hmain
  told pid hpid := by
    rw [hlaunched]
    rw [hfrom, Sys.toDaemon] at hpid
    dsimp only at hpid
    split_ifs at hpid
    · rcases List.mem_append.1 hpid with hpid | hpid
      · exact h.told pid hpid
      · exact absurd (List.mem_singleton.1 hpid).symm (hother pid)
    · exact h.told pid hpid
  up pid hup := by
    rw [hlink] at hup
    rw [hlaunched]
    exact h.up pid hup

/-- The host's main thread goes on. -/
theorem Named.goes (h : Named start s) (hmain : s'.main.before = false)
    (hfrom : s'.fromHost = s.fromHost) (hlink : s'.link = s.link)
    (hlaunched : s'.launched = s.launched) : Named start s' where
  asked hreading := by
    rw [hreading] at hmain
    cases hmain
  before hbefore := by
    rw [hmain] at hbefore
    cases hbefore
  idle hbefore := by
    rw [hmain] at hbefore
    cases hbefore
  opened pid hopened := by
    rw [hopened] at hmain
    cases hmain
  told := by
    rw [hfrom, hlaunched]
    exact h.told
  up := by
    rw [hlink, hlaunched]
    exact h.up

theorem Named.after_of_frame {message : FromHost} {rest : List FromHost} (h : Named start s)
    (hfrom : s.fromHost = message :: rest) : s.main.before = false :=
  Bool.eq_false_iff.2 fun hbefore => by
    rw [(h.before hbefore).2] at hfrom
    cases hfrom

/-- A frame is taken from the pipe. -/
theorem Named.drops {message : FromHost} {rest : List FromHost} (h : Named start s)
    (hfrom : s.fromHost = message :: rest) (hmain : s'.main = s.main)
    (hrest : s'.fromHost = rest) (hlaunched : s'.launched = s.launched)
    (hup : ∀ pid, (s'.link = .up pid ∨ ∃ status, s'.link = .done pid status) →
      message = .started pid ∨ s.link = .up pid) : Named start s' := by
  have hafter := h.after_of_frame hfrom
  refine ⟨fun hreading => ?_, fun hbefore => ?_, fun hbefore => ?_, fun pid hopened => ?_,
    fun pid hpid => ?_, fun pid hnow => ?_⟩
  · rw [← hmain, hreading] at hafter
    cases hafter
  · rw [hmain, hafter] at hbefore
    cases hbefore
  · rw [hmain, hafter] at hbefore
    cases hbefore
  · rw [← hmain, hopened] at hafter
    cases hafter
  · rw [hlaunched]
    refine h.told pid ?_
    rw [hfrom]
    exact List.mem_cons_of_mem _ (hrest ▸ hpid)
  · rw [hlaunched]
    rcases hup pid hnow with hsaid | hold
    · refine h.told pid ?_
      rw [hfrom, hsaid]
      exact List.mem_cons_self
    · exact h.up pid (.inl hold)

theorem Named.after_of_output (h : Named start s) (houtput : s.output ≠ .idle) :
    s.main.before = false := Bool.eq_false_iff.2 fun hbefore => houtput (h.idle hbefore).1

theorem Named.after_of_input (h : Named start s) (hinput : s.input ≠ .idle) :
    s.main.before = false := Bool.eq_false_iff.2 fun hbefore => hinput (h.idle hbefore).2

theorem Named.step (h : Named start s) (hstep : Moves s a s') : Named start s' := by
  cases hstep with
  | @opened start' rest pid hmain hto =>
      have hreading := h.asked hmain
      rw [hto] at hreading
      cases hreading
      obtain ⟨hnot, hnone⟩ := h.before (by rw [hmain]; rfl)
      refine ⟨Main.noConfusion, fun _ => ⟨hnot, hnone⟩, fun _ => h.idle (by rw [hmain]; rfl),
        ?_, ?_, ?_⟩
      · rintro pid' hpid
        cases hpid
        rfl
      · rintro pid' hpid
        rw [show s.fromHost = [] from hnone] at hpid
        cases hpid
      · rintro pid' (hup | ⟨status, hdone⟩)
        · rw [Sys.connected, show s.link = .up pid' from hup] at hnot
          cases hnot
        · rw [Sys.connected, show s.link = .done pid' status from hdone] at hnot
          cases hnot
  | unopened hmain hto => exact h.tells rfl (fun _ => FromHost.noConfusion) rfl rfl rfl
  | @halfOpened start' rest pid reason hmain hto =>
      obtain ⟨hnot, hnone⟩ := h.before (by rw [hmain]; rfl)
      refine ⟨Main.noConfusion, Bool.noConfusion, Bool.noConfusion, fun _ => Main.noConfusion,
        fun pid' hpid => ?_, ?_⟩
      · rw [Sys.toDaemon] at hpid
        dsimp only at hpid
        rw [hnone] at hpid
        split_ifs at hpid
        · cases List.mem_singleton.1 hpid
        · cases hpid
      · rintro pid' (hup | ⟨status, hdone⟩)
        · rw [Sys.connected, show s.link = .up pid' from hup] at hnot
          cases hnot
        · rw [Sys.connected, show s.link = .done pid' status from hdone] at hnot
          cases hnot
  | unasked hmain hto hgo => exact h.goes rfl rfl rfl rfl
  | misled hmain hto hother => exact h.goes rfl rfl rfl rfl
  | @started pid relays carries hmain hlistens =>
      obtain ⟨-, hnone⟩ := h.before (by rw [hmain]; rfl)
      refine ⟨Main.noConfusion, Bool.noConfusion, Bool.noConfusion, fun _ => Main.noConfusion,
        fun pid' hpid => ?_, h.up⟩
      rw [Sys.toDaemon] at hpid
      dsimp only at hpid
      rw [if_pos hlistens, hnone] at hpid
      cases List.mem_singleton.1 hpid
      exact h.opened pid hmain
  | unheard hmain hlistens => exact h.goes rfl rfl rfl rfl
  | waited hmain hshell => exact h.goes rfl rfl rfl rfl
  | drained hmain houtput => exact h.goes rfl rfl rfl rfl
  | timedOut hmain => exact h.goes rfl rfl rfl rfl
  | exited hmain => exact h.tells rfl (fun _ => FromHost.noConfusion) rfl rfl rfl
  | took halive houtput =>
      exact h.goes (h.after_of_output (by rw [houtput]; exact Output.noConfusion)) rfl rfl rfl
  | sent halive houtput hlistens =>
      exact h.tells (h.after_of_output (by rw [houtput]; exact Output.noConfusion))
        (fun _ => FromHost.noConfusion) rfl rfl rfl
  | unsent halive houtput hlistens =>
      exact h.goes (h.after_of_output (by rw [houtput]; exact Output.noConfusion)) rfl rfl rfl
  | outputEnded halive houtput hhung hpending =>
      exact h.goes (h.after_of_output (by rw [houtput]; exact Output.noConfusion)) rfl rfl rfl
  | outputFailed halive houtput =>
      exact h.goes (h.after_of_output (by rw [houtput]; exact Output.noConfusion)) rfl rfl rfl
  | @heard message rest halive hinput hto =>
      have hafter := h.after_of_input (by rw [hinput]; exact Input.noConfusion)
      cases message with
      | _ => exact h.goes hafter rfl rfl rfl
  | written halive hinput =>
      exact h.goes (h.after_of_input (by rw [hinput]; exact Input.noConfusion)) rfl rfl rfl
  | unwritten halive hinput =>
      exact h.goes (h.after_of_input (by rw [hinput]; exact Input.noConfusion)) rfl rfl rfl
  | fed halive hinput hn =>
      exact h.goes (h.after_of_input (by rw [hinput]; exact Input.noConfusion)) rfl rfl rfl
  | inputEnded halive hinput hto hgo =>
      exact h.goes (h.after_of_input (by rw [hinput]; exact Input.noConfusion)) rfl rfl rfl
  | printed hshell hhung => exact ⟨h.asked, h.before, h.idle, h.opened, h.told, h.up⟩
  | shellExited hshell => exact ⟨h.asked, h.before, h.idle, h.opened, h.told, h.up⟩
  | hungUp hshell => exact ⟨h.asked, h.before, h.idle, h.opened, h.told, h.up⟩
  | crashed halive => exact h.goes rfl rfl rfl rfl
  | answered hlink hfrom =>
      refine h.drops hfrom rfl rfl rfl ?_
      rintro pid (hup | ⟨status, hdone⟩)
      · cases hup
        exact .inl rfl
      · cases hdone
  | refused hlink hfrom =>
      refine h.drops hfrom rfl rfl rfl ?_
      rintro pid (hup | ⟨status, hdone⟩)
      · cases hup
      · cases hdone
  | puzzled hlink hfrom hstarted hfailed =>
      refine h.drops hfrom rfl rfl rfl ?_
      rintro pid (hup | ⟨status, hdone⟩)
      · cases hup
      · cases hdone
  | unanswered hlink hfrom halive =>
      refine ⟨h.asked, fun hbefore => ⟨rfl, (h.before hbefore).2⟩, h.idle, h.opened, h.told, ?_⟩
      rintro pid (hup | ⟨status, hdone⟩)
      · cases hup
      · cases hdone
  | unlinked hlink hfrom =>
      refine h.drops hfrom rfl rfl rfl ?_
      rintro pid (hup | ⟨status, hdone⟩)
      · cases hup
      · cases hdone
  | @followed pid message rest hlink hfrom =>
      cases message with
      | exited code signal =>
          refine h.drops hfrom rfl rfl rfl ?_
          rintro pid' (hup | ⟨status, hdone⟩)
          · cases hup
          · cases hdone
            exact .inr hlink
      | _ =>
          refine h.drops hfrom rfl rfl rfl ?_
          rintro pid' (hup | ⟨status, hdone⟩)
          · exact .inr hup
          · cases hlink.symm.trans hdone
  | @linkEnded pid hlink hfrom halive =>
      refine ⟨h.asked, fun hbefore => ?_, h.idle, h.opened, h.told, ?_⟩
      · obtain ⟨hnot, -⟩ := h.before hbefore
        rw [Sys.connected, hlink] at hnot
        cases hnot
      · rintro pid' (hup | ⟨status, hdone⟩)
        · cases hup
        · cases hdone
          exact h.up pid (.inl hlink)
  | read hroom hread => exact ⟨h.asked, h.before, h.idle, h.opened, h.told, h.up⟩
  | @typed data hconnected hgo =>
      have hasks : Named start (s.ask (.input data)) := h.asks hconnected
      exact ⟨hasks.asked, hasks.before, hasks.idle, hasks.opened, hasks.told, hasks.up⟩
  | resized hconnected hgo => exact h.asks hconnected
  | askedToEnd hconnected hgo => exact h.asks hconnected
  | letGo hconnected => exact ⟨h.asked, h.before, h.idle, h.opened, h.told, h.up⟩
  | died =>
      refine ⟨h.asked, fun hbefore => ⟨rfl, (h.before hbefore).2⟩, h.idle, h.opened, h.told, ?_⟩
      rintro pid (hup | ⟨status, hdone⟩)
      · cases hup
      · cases hdone

theorem named_of_reach {ok : Sys → Act → Prop} (h : (machine start).Reach ok s) :
    Named start s := by
  refine h.invariant (P := Named start) ?_ fun s a s' hs _ hstep => hs.step (moves_of_step hstep)
  rintro s rfl
  refine ⟨fun _ => rfl, fun _ => ⟨rfl, rfl⟩, fun _ => ⟨rfl, rfl⟩, fun _ => Main.noConfusion,
    fun pid hpid => ?_, ?_⟩
  · cases hpid
  · rintro pid (hup | ⟨status, hdone⟩)
    · cases hup
    · cases hdone

end Throng.Daemon.PtyHost
