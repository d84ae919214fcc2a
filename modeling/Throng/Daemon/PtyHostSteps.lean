import Throng.Daemon.PtyHost

/-!
# What a host and its daemon can do

Each way in which a step is taken, with what it found and what it leaves.
-/

namespace Throng.Daemon.PtyHost

variable {s s' : Sys} {a : Act}

/-- The steps, branch by branch. -/
inductive Moves (s : Sys) : Act → Sys → Prop
  | opened {start : Start} {rest : List ToHost} {pid : Option UInt32} :
      s.main = .reading → s.toHost = .start start :: rest →
      Moves s (.openPty (.ok pid))
        { s with
          toHost := rest
          shell := .running
          ptySize := some start.size
          launched := some (start, pid)
          main := .opened pid }
  | unopened {start : Start} {rest : List ToHost} {reason : String} :
      s.main = .reading → s.toHost = .start start :: rest →
      Moves s (.openPty (.error reason))
        { ({ s with toHost := rest }).toDaemon (.failed reason) with main := .ended 1 }
  | halfOpened {start : Start} {rest : List ToHost} {pid : Option UInt32} {reason : String} :
      s.main = .reading → s.toHost = .start start :: rest →
      Moves s (.openFails pid reason)
        { ({ s with toHost := rest }).toDaemon (.failed reason) with
          shell := .running
          ptySize := some start.size
          launched := some (start, pid)
          main := .ended 1 }
  | unasked : s.main = .reading → s.toHost = [] → s.letGo = true →
      Moves s .noStart { s with main := .ended 2 }
  | misled {message : ToHost} {rest : List ToHost} :
      s.main = .reading → s.toHost = message :: rest → (∀ start, message ≠ .start start) →
      Moves s .noStart { s with toHost := rest, main := .ended 2 }
  | started {pid : Option UInt32} {relays carries : Bool} :
      s.main = .opened pid → s.listens = true →
      Moves s (.sayStarted relays carries)
        { s.toDaemon (.started pid) with
          main := .waiting
          output := .spawned relays
          input := .spawned carries }
  | unheard {pid : Option UInt32} {relays carries : Bool} :
      s.main = .opened pid → s.listens = false →
      Moves s (.sayStarted relays carries) { s with killed := true, main := .ended 1 }
  | waited {status : ShellStatus} : s.main = .waiting → s.shell = .exited status →
      Moves s .wait { s with main := .draining status }
  | drained {status : ShellStatus} : s.main = .draining status → s.output = .done →
      Moves s .drained { s with main := .exiting status }
  | timedOut {status : ShellStatus} : s.main = .draining status →
      Moves s .timeout { s with main := .exiting status }
  | exited {status : ShellStatus} : s.main = .exiting status →
      Moves s .sayExited
        { s.toDaemon (.exited status.code status.signalName) with
          main := .ended (returnCode status.code) }
  | took {n : Nat} : s.main.alive = true → s.output = .reading →
      Moves s (.readPty n)
        { s with
          taken := s.taken ++ s.pending.take n
          pending := s.pending.drop n
          output := .holding (s.pending.take n) }
  | sent {data : Bytes} : s.main.alive = true → s.output = .holding data → s.listens = true →
      Moves s .sendOutput
        { s.toDaemon (.output data) with sent := s.sent ++ data, output := .reading }
  | unsent {data : Bytes} : s.main.alive = true → s.output = .holding data → s.listens = false →
      Moves s .sendOutput { s with output := .done }
  | outputEnded : s.main.alive = true → s.output = .reading → s.hungUp = true → s.pending = [] →
      Moves s .ptyEnds { s with output := .done }
  | outputFailed : s.main.alive = true → s.output = .reading →
      Moves s .ptyFails { s with output := .done }
  | heard {message : ToHost} {rest : List ToHost} :
      s.main.alive = true → s.input = .reading → s.toHost = message :: rest →
      Moves s .hear (({ s with toHost := rest }).carryOut message)
  | written : s.main.alive = true → s.input = .writing [] →
      Moves s .written { s with input := .reading }
  | unwritten {b : UInt8} {data : Bytes} : s.main.alive = true → s.input = .writing (b :: data) →
      Moves s .writeFails { s with input := .reading }
  | inputEnded : s.main.alive = true → s.input = .reading → s.toHost = [] → s.letGo = true →
      Moves s .inputEnds { s with killed := true, input := .done }
  | fed {n : Nat} {data : Bytes} : s.main.alive = true → s.input = .writing data →
      n ≤ data.length →
      Moves s (.feed n) { s with fed := s.fed ++ data.take n, input := .writing (data.drop n) }
  | printed {data : Bytes} : s.shell ≠ .none → s.hungUp = false →
      Moves s (.print data) { s with pending := s.pending ++ data }
  | shellExited {status : ShellStatus} : s.shell = .running →
      Moves s (.exit status) { s with shell := .exited status }
  | hungUp {status : ShellStatus} : s.shell = .exited status →
      Moves s .hangUp { s with hungUp := true }
  | crashed : s.main.alive = true → Moves s .crash { s with main := .crashed }
  | answered {pid : Option UInt32} {rest : List FromHost} :
      s.link = .asking → s.fromHost = .started pid :: rest →
      Moves s .answer { s with fromHost := rest, link := .up pid }
  | refused {reason : String} {rest : List FromHost} :
      s.link = .asking → s.fromHost = .failed reason :: rest →
      Moves s .answer { s with fromHost := rest, link := .refused reason, letGo := true }
  | puzzled {message : FromHost} {rest : List FromHost} :
      s.link = .asking → s.fromHost = message :: rest → (∀ pid, message ≠ .started pid) →
      (∀ reason, message ≠ .failed reason) →
      Moves s .answer { s with fromHost := rest, link := .refused «ended», letGo := true }
  | unanswered : s.link = .asking → s.fromHost = [] → s.main.alive = false →
      Moves s .answer { s with link := .refused «ended», letGo := true }
  | unlinked {pid : Option UInt32} {rest : List FromHost} {reason : String} :
      s.link = .asking → s.fromHost = .started pid :: rest →
      Moves s (.linkFails reason)
        { s with fromHost := rest, link := .refused reason, letGo := true }
  | followed {pid : Option UInt32} {message : FromHost} {rest : List FromHost} :
      s.link = .up pid → s.fromHost = message :: rest →
      Moves s .follow (({ s with fromHost := rest }).follow pid message)
  | linkEnded {pid : Option UInt32} : s.link = .up pid → s.fromHost = [] → s.main.alive = false →
      Moves s .followEnds { s with link := .done pid hostEnded }
  | read {room : Nat} {data : Bytes} {reader : OutputReader} :
      0 < room → s.reader.read s.closed room = some (data, reader) →
      Moves s (.read room)
        { s with reader, read := s.read ++ data, ended := s.ended || data.isEmpty }
  | typed {data : Bytes} : s.connected = true → s.letGo = false →
      Moves s (.type data)
        { s.ask (.input data) with typed := if s.hears then s.typed ++ data else s.typed }
  | resized {cols rows : Nat} : s.connected = true → s.letGo = false →
      Moves s (.resize cols rows) (s.ask (.resize cols rows))
  | askedToEnd : s.connected = true → s.letGo = false → Moves s .kill (s.ask .kill)
  | letGo : s.connected = true → Moves s .letGo { s with letGo := true }
  | died : Moves s .die { s with link := .gone, letGo := true }

theorem moves_of_step (h : step s a = some s') : Moves s a s' := by
  cases a with
  | openPty result =>
      rw [step] at h
      split at h
      · next start rest hmain hto =>
          cases result with
          | ok pid =>
              cases h
              exact .opened hmain hto
          | error reason =>
              cases h
              exact .unopened hmain hto
      · cases h
  | openFails pid reason =>
      rw [step] at h
      split at h
      · next start rest hmain hto =>
          cases h
          exact .halfOpened hmain hto
      · cases h
  | noStart =>
      rw [step] at h
      split at h
      · next hmain hto =>
          split_ifs at h with hgo
          cases h
          exact .unasked hmain hto hgo
      · cases h
      · next message rest hno hmain hto =>
          cases h
          exact .misled hmain hto fun start hstart => hno start hstart
      · cases h
  | sayStarted relays carries =>
      rw [step] at h
      split at h
      · next pid hmain =>
          split_ifs at h with hlistens
          · cases h
            exact .started hmain hlistens
          · cases h
            exact .unheard hmain (Bool.eq_false_iff.2 hlistens)
      · cases h
  | wait =>
      rw [step] at h
      split at h
      · next status hmain hshell =>
          cases h
          exact .waited hmain hshell
      · cases h
  | drained =>
      rw [step] at h
      split at h
      · next status hmain houtput =>
          cases h
          exact .drained hmain houtput
      · cases h
  | timeout =>
      rw [step] at h
      split at h
      · next status hmain =>
          cases h
          exact .timedOut hmain
      · cases h
  | sayExited =>
      rw [step] at h
      split at h
      · next status hmain =>
          cases h
          exact .exited hmain
      · cases h
  | readPty n =>
      rw [step] at h
      split_ifs at h with hcan
      cases h
      exact .took hcan.1 hcan.2.1
  | sendOutput =>
      rw [step] at h
      split at h
      · next data houtput =>
          split_ifs at h with halive hlistens
          · cases h
            exact .sent halive houtput hlistens
          · cases h
            exact .unsent halive houtput (Bool.eq_false_iff.2 hlistens)
      · cases h
  | ptyEnds =>
      rw [step] at h
      split_ifs at h with hcan
      cases h
      exact .outputEnded hcan.1 hcan.2.1 hcan.2.2.1 hcan.2.2.2
  | ptyFails =>
      rw [step] at h
      split_ifs at h with hcan
      cases h
      exact .outputFailed hcan.1 hcan.2
  | hear =>
      rw [step] at h
      split at h
      · next message rest hto =>
          split_ifs at h with hcan
          cases h
          exact .heard hcan.1 hcan.2 hto
      · cases h
  | inputEnds =>
      rw [step] at h
      split_ifs at h with hcan
      cases h
      exact .inputEnded hcan.1 hcan.2.1 hcan.2.2.1 hcan.2.2.2
  | written =>
      rw [step] at h
      split_ifs at h with hcan
      cases h
      exact .written hcan.1 hcan.2
  | writeFails =>
      rw [step] at h
      split at h
      · next b data hinput =>
          split_ifs at h with halive
          cases h
          exact .unwritten halive hinput
      · cases h
  | feed n =>
      rw [step] at h
      split at h
      · next data hinput =>
          split_ifs at h with hcan
          cases h
          exact .fed hcan.1 hinput hcan.2.2
      · cases h
  | print data =>
      rw [step] at h
      split_ifs at h with hcan
      cases h
      exact .printed hcan.1 hcan.2
  | exit status =>
      rw [step] at h
      split_ifs at h with hshell
      cases h
      exact .shellExited hshell
  | hangUp =>
      rw [step] at h
      split at h
      · next status hshell =>
          cases h
          exact .hungUp hshell
      · cases h
  | crash =>
      rw [step] at h
      split_ifs at h with halive
      cases h
      exact .crashed halive
  | answer =>
      rw [step] at h
      split at h
      · next pid rest hlink hfrom =>
          cases h
          exact .answered hlink hfrom
      · next reason rest hlink hfrom =>
          cases h
          exact .refused hlink hfrom
      · next message rest hstarted hfailed hlink hfrom =>
          cases h
          exact .puzzled hlink hfrom (fun pid hpid => hstarted pid hpid)
            fun reason hreason => hfailed reason hreason
      · next hlink hfrom =>
          split_ifs at h with halive
          cases h
          exact .unanswered hlink hfrom (Bool.eq_false_iff.2 halive)
      · cases h
  | linkFails reason =>
      rw [step] at h
      split at h
      · next pid rest hlink hfrom =>
          cases h
          exact .unlinked hlink hfrom
      · cases h
  | follow =>
      rw [step] at h
      split at h
      · next pid message rest hlink hfrom =>
          cases h
          exact .followed hlink hfrom
      · cases h
  | followEnds =>
      rw [step] at h
      split at h
      · next pid hlink hfrom =>
          split_ifs at h with halive
          cases h
          exact .linkEnded hlink hfrom (Bool.eq_false_iff.2 halive)
      · cases h
  | read room =>
      rw [step] at h
      split_ifs at h with hcan
      split at h
      · next data reader hread =>
          cases h
          exact .read hcan.1 hread
      · cases h
  | type data =>
      rw [step] at h
      by_cases hcan : s.connected = true ∧ s.letGo = false
      · rw [if_pos hcan] at h
        cases h
        exact .typed hcan.1 hcan.2
      · rw [if_neg hcan] at h
        cases h
  | resize cols rows =>
      rw [step] at h
      split_ifs at h with hcan
      cases h
      exact .resized hcan.1 hcan.2
  | kill =>
      rw [step] at h
      split_ifs at h with hcan
      cases h
      exact .askedToEnd hcan.1 hcan.2
  | letGo =>
      rw [step] at h
      split_ifs at h with hcan
      cases h
      exact .letGo hcan
  | die =>
      rw [step] at h
      cases h
      exact .died

end Throng.Daemon.PtyHost
