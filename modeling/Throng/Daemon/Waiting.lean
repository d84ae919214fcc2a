import Mathlib.Logic.Function.Basic
import Throng.Daemon.Client
import Throng.Lib.Machine

/-!
# Callers that wait for an answer

A caller is entered with the waiters, sends its request and waits at a channel of its own, while the
reader thread hands out the replies and fails all that wait once the connection is gone. Each step
below is one access to what the threads share: the flag, the waiters behind their lock, a channel,
the next id.
-/

namespace Throng.Daemon.Waiting

/-- The error that every waiter is failed with. -/
def disconnected : String := "\x00disconnected"

/-- Why a request failed. -/
inductive RequestError
  | disconnected
  | timeout
  | refused (message : String)
deriving DecidableEq

/-- Where a thread stands that may call `Client::request`. -/
inductive Caller
  | idle
  /-- The connection was up when it looked. -/
  | checked
  | numbered (id : Nat)
  | registered (id : Nat)
  | sent (id : Nat)
  | waiting (id : Nat)
  /-- The waiter is to be removed, as the connection is gone. -/
  | leaving (id : Nat)
  /-- The waiter is to be removed, as no answer came in time. -/
  | giving (id : Nat)
  /-- Whether the connection is up decides on the error. -/
  | judging
  | returned (id : Option Nat) (outcome : Except RequestError Reply)

/-- Where the reader thread stands. -/
inductive Reader
  | reading
  /-- The loop has ended, and the flag is still set. -/
  | lost
  | draining
  /-- The waiters are drained, and the event is to be sent. -/
  | telling
  | done
deriving DecidableEq

structure Sys where
  connected : Bool
  waiters : List Nat
  /-- What stands in the channel of each waiter. -/
  channels : Nat → List (Except String Reply)
  nextId : Nat
  outgoing : List Nat
  events : List ClientEvent
  reader : Reader
  callers : Nat → Caller
  /-- All that the reader thread has read. -/
  heard : List ServerMsg

inductive Act
  | begin (caller : Nat)
  | number (caller : Nat)
  | register (caller : Nat)
  | post (caller : Nat) (ok : Bool)
  | check (caller : Nat)
  | receive (caller : Nat)
  | timeout (caller : Nat)
  | leave (caller : Nat)
  | judge (caller : Nat)
  | rest (caller : Nat)
  /-- `Client::send`: a request that nobody waits for. -/
  | send
  | hear (message : ServerMsg)
  | lose
  | clear
  | drain
  | tell (reason : String)

namespace Sys

variable (s : Sys)

def setCaller (k : Nat) (caller : Caller) : Sys :=
  { s with callers := Function.update s.callers k caller }

/-- `waiters.lock().remove(&id)` -/
def unregister (id : Nat) : Sys := { s with waiters := s.waiters.filter fun w => w ≠ id }

def give (id : Nat) (result : Except String Reply) : Sys :=
  { s with channels := Function.update s.channels id (s.channels id ++ [result]) }

/-- What the reader makes of a message. -/
def hear (message : ServerMsg) : Sys :=
  let s := { s with heard := s.heard ++ [message] }
  match message with
  | .output terminal offset data =>
      { s with events := s.events ++ [.output terminal offset data] }
  | .exited terminal status => { s with events := s.events ++ [.exited terminal status] }
  | .resync terminal => { s with events := s.events ++ [.resync terminal] }
  | .reply id result =>
      if id ∈ s.waiters then (s.unregister id).give id result
      else { s with events := s.events ++ [.reply id result] }
  | .welcome _ _ _ => s

/-- Every waiter is failed. -/
def drain : Sys :=
  { s with
    waiters := []
    channels := fun id =>
      if id ∈ s.waiters then s.channels id ++ [.error disconnected] else s.channels id }

end Sys

/-- What a caller makes of an answer. -/
def outcome : Except String Reply → Except RequestError Reply
  | .ok reply => .ok reply
  | .error message =>
      if message = disconnected then .error .disconnected else .error (.refused message)

def step (s : Sys) : Act → Option Sys
  | .begin k =>
      match s.callers k with
      | .idle =>
          some (s.setCaller k
            (if s.connected then .checked else .returned none (.error .disconnected)))
      | _ => none
  | .number k =>
      match s.callers k with
      | .checked => some { s.setCaller k (.numbered s.nextId) with nextId := s.nextId + 1 }
      | _ => none
  | .register k =>
      match s.callers k with
      | .numbered id => some { s.setCaller k (.registered id) with waiters := id :: s.waiters }
      | _ => none
  | .post k ok =>
      match s.callers k with
      | .registered id =>
          if ok then some { s.setCaller k (.sent id) with outgoing := s.outgoing ++ [id] }
          else some (s.setCaller k (.leaving id))
      | _ => none
  | .check k =>
      match s.callers k with
      -- the reader may have drained the waiters just before
      | .sent id => some (s.setCaller k (if s.connected then .waiting id else .leaving id))
      | _ => none
  | .receive k =>
      match s.callers k with
      | .waiting id =>
          match s.channels id with
          | result :: left =>
              some { s.setCaller k (.returned (some id) (outcome result)) with
                channels := Function.update s.channels id left }
          | [] => none
      | _ => none
  | .timeout k =>
      match s.callers k with
      | .waiting id => if s.channels id = [] then some (s.setCaller k (.giving id)) else none
      | _ => none
  | .leave k =>
      match s.callers k with
      | .leaving id =>
          some ((s.setCaller k (.returned none (.error .disconnected))).unregister id)
      | .giving id => some ((s.setCaller k .judging).unregister id)
      | _ => none
  | .judge k =>
      match s.callers k with
      | .judging =>
          some (s.setCaller k
            (.returned none (.error (if s.connected then .timeout else .disconnected))))
      | _ => none
  | .rest k =>
      match s.callers k with
      | .returned _ _ => some (s.setCaller k .idle)
      | _ => none
  | .send => some { s with nextId := s.nextId + 1, outgoing := s.outgoing ++ [s.nextId] }
  | .hear message => if s.reader = .reading then some (s.hear message) else none
  | .lose => if s.reader = .reading then some { s with reader := .lost } else none
  | .clear =>
      if s.reader = .lost then some { s with connected := false, reader := .draining } else none
  | .drain => if s.reader = .draining then some { s.drain with reader := .telling } else none
  | .tell reason =>
      if s.reader = .telling then
        some { s with events := s.events ++ [.disconnected reason], reader := .done }
      else none

/-- A connection that has just been made. -/
def machine : Machine Sys Act where
  init s := s = ⟨true, [], fun _ => [], 1, [], [], .reading, fun _ => .idle, []⟩
  step := step

/-- The number under which a caller may be entered. -/
def Caller.holds : Caller → Option Nat
  | .numbered id | .registered id | .sent id | .waiting id | .leaving id | .giving id => some id
  | _ => none

/-- Every waiter has been failed. -/
def Reader.drained : Reader → Bool
  | .telling | .done => true
  | _ => false

/-- On the way the caller that waits at the channel takes the result out and returns with it. -/
def Handed (s : Sys) (acts : List Act) (id : Nat) (result : Except String Reply) : Prop :=
  ∃ before k after t t', acts = before ++ .receive k :: after ∧
    machine.exec Machine.anyStep s before = some t ∧ t.callers k = .waiting id ∧
      step t (.receive k) = some t' ∧ t'.callers k = .returned (some id) (outcome result)

/-- What a caller may rely on. -/
structure Served (s : Sys) : Prop where
  /-- Whoever has registered is entered, or has an answer in the channel. -/
  entered : ∀ k id, s.callers k = .registered id ∨ s.callers k = .sent id ∨
    s.callers k = .waiting id → id ∈ s.waiters ∨ s.channels id ≠ []
  /-- A reply that is read while its number is entered stands alone in that channel until the
  caller there takes it, whatever the threads do meanwhile. -/
  delivered : ∀ id result s₁, id ∈ s.waiters → step s (.hear (.reply id result)) = some s₁ →
    ∀ acts s₂, machine.exec Machine.anyStep s₁ acts = some s₂ →
      s₂.channels id = [result] ∨ Handed s₁ acts id result
  /-- Nobody waits out a timeout for a daemon that is gone. -/
  answered : s.reader.drained = true → ∀ k id, s.callers k = .waiting id → s.channels id ≠ []
  /-- What stands in a channel is the reply under its number, or the failure. -/
  own : ∀ id, ∀ result ∈ s.channels id, ServerMsg.reply id result ∈ s.heard ∨
    s.reader.drained = true ∧ result = .error disconnected
  /-- A reply that is returned was read under the caller's number. -/
  returned : ∀ k id reply, s.callers k = .returned (some id) (.ok reply) →
    ServerMsg.reply id (.ok reply) ∈ s.heard
  /-- The reader never blocks at a channel. -/
  once : ∀ id, (s.channels id).length ≤ 1
  /-- No two callers wait at one channel. -/
  apart : ∀ k k' id, (s.callers k).holds = some id → (s.callers k').holds = some id → k = k'
  /-- Nobody stays entered who does not wait any more. -/
  released : ∀ id ∈ s.waiters, ∃ k, (s.callers k).holds = some id

/-! ## Between any two accesses -/

/-- What holds of a caller where it stands. -/
def Fits (s : Sys) : Caller → Prop
  | .numbered id => id < s.nextId ∧ id ∉ s.waiters ∧ s.channels id = []
  | .registered id | .sent id => id < s.nextId ∧ (id ∈ s.waiters ∨ s.channels id ≠ [])
  | .waiting id => id < s.nextId ∧ (id ∈ s.waiters ∨ s.channels id ≠ []) ∧
      (s.reader.drained = true → id ∉ s.waiters)
  | .leaving id | .giving id => id < s.nextId
  | .returned (some id) (.ok reply) => ServerMsg.reply id (.ok reply) ∈ s.heard
  | _ => True

structure Inv (s : Sys) : Prop where
  flag : s.connected = true ↔ s.reader = .reading ∨ s.reader = .lost
  fits : ∀ k, Fits s (s.callers k)
  entered : ∀ id ∈ s.waiters, s.channels id = []
  fresh : ∀ id, s.nextId ≤ id → s.channels id = []
  own : ∀ id, ∀ result ∈ s.channels id, ServerMsg.reply id result ∈ s.heard ∨
    s.reader.drained = true ∧ result = .error disconnected
  once : ∀ id, (s.channels id).length ≤ 1
  apart : ∀ k k' id, (s.callers k).holds = some id → (s.callers k').holds = some id → k = k'
  released : ∀ id ∈ s.waiters, ∃ k, (s.callers k).holds = some id

variable {s s' : Sys} {c : Caller} {k id : Nat}

theorem Fits.lt (h : Fits s c) (hholds : c.holds = some id) : id < s.nextId := by
  cases c with
  | numbered i =>
      cases hholds
      exact h.1
  | registered i =>
      cases hholds
      exact h.1
  | sent i =>
      cases hholds
      exact h.1
  | waiting i =>
      cases hholds
      exact h.1
  | leaving i =>
      cases hholds
      exact h
  | giving i =>
      cases hholds
      exact h
  | _ => cases hholds

theorem Inv.lt_of_mem (h : Inv s) (hmem : id ∈ s.waiters) : id < s.nextId := by
  obtain ⟨k, hk⟩ := h.released id hmem
  exact (h.fits k).lt hk

/-- What others do leaves a caller where it is. -/
theorem Fits.mono (h : Fits s c) (hnext : s.nextId ≤ s'.nextId)
    (hout : ∀ id, c.holds = some id → id ∉ s.waiters → s.channels id = [] →
      id ∉ s'.waiters ∧ s'.channels id = [])
    (hstands : ∀ id, c.holds = some id → id ∈ s.waiters ∨ s.channels id ≠ [] →
      id ∈ s'.waiters ∨ s'.channels id ≠ [])
    (hdrained : s'.reader.drained = true → ∀ id, c.holds = some id →
      (s.reader.drained = true → id ∉ s.waiters) → id ∉ s'.waiters)
    (hheard : ∀ message ∈ s.heard, message ∈ s'.heard) : Fits s' c := by
  cases c with
  | numbered i => exact ⟨Nat.lt_of_lt_of_le h.1 hnext, hout i rfl h.2.1 h.2.2⟩
  | registered i => exact ⟨Nat.lt_of_lt_of_le h.1 hnext, hstands i rfl h.2⟩
  | sent i => exact ⟨Nat.lt_of_lt_of_le h.1 hnext, hstands i rfl h.2⟩
  | waiting i =>
      exact ⟨Nat.lt_of_lt_of_le h.1 hnext, hstands i rfl h.2.1,
        fun hnow => hdrained hnow i rfl h.2.2⟩
  | leaving i => exact Nat.lt_of_lt_of_le h hnext
  | giving i => exact Nat.lt_of_lt_of_le h hnext
  | returned i result =>
      cases i with
      | none => trivial
      | some i =>
          cases result with
          | error e => trivial
          | ok reply => exact hheard _ h
  | _ => trivial

/-- A step of one caller. It touches no channel and no waiter but its own. -/
theorem Inv.of_caller (h : Inv s) (hcallers : s'.callers = Function.update s.callers k c)
    (hflag : s'.connected = s.connected) (hreader : s'.reader = s.reader)
    (hheard : s'.heard = s.heard) (hnext : s.nextId ≤ s'.nextId)
    (hothers : ∀ id, id < s.nextId → (s.callers k).holds ≠ some id →
      (id ∈ s'.waiters ↔ id ∈ s.waiters) ∧ s'.channels id = s.channels id)
    (hshrinks : ∀ id, (s'.channels id).Sublist (s.channels id)) (hfits : Fits s' c)
    (hholds : ∀ id, c.holds = some id → (s.callers k).holds = some id ∨ s.nextId ≤ id)
    (hentered : ∀ id ∈ s'.waiters, (s.callers k).holds = some id ∨ id ∉ s.waiters →
      c.holds = some id ∧ s'.channels id = []) : Inv s' := by
  have hself : s'.callers k = c := by rw [hcallers, Function.update_self]
  have hother : ∀ k', k' ≠ k → s'.callers k' = s.callers k' := by
    intro k' hk'
    rw [hcallers, Function.update_of_ne hk']
  -- What another caller holds is neither this one's nor new.
  have hdiffer : ∀ k' id, k' ≠ k → (s.callers k').holds = some id →
      id < s.nextId ∧ (s.callers k).holds ≠ some id := fun k' id hk' hid =>
    ⟨(h.fits k').lt hid, fun hsame => hk' (h.apart k' k id hid hsame)⟩
  refine ⟨by rw [hflag, hreader]; exact h.flag, fun k' => ?_, fun id hid => ?_, fun id hid => ?_,
    fun id result hresult => ?_, fun id => ?_, fun k₁ k₂ id h₁ h₂ => ?_, fun id hid => ?_⟩
  · by_cases hk' : k' = k
    · rw [hk', hself]
      exact hfits
    · rw [hother k' hk']
      refine (h.fits k').mono hnext (fun id hid hout hempty => ?_) (fun id hid hstands => ?_)
        (fun hdrained id hid hout => ?_) (by rw [hheard]; exact fun _ hm => hm)
      · obtain ⟨hmem, hchannel⟩ := hothers id (hdiffer k' id hk' hid).1 (hdiffer k' id hk' hid).2
        rw [hmem, hchannel]
        exact ⟨hout, hempty⟩
      · obtain ⟨hmem, hchannel⟩ := hothers id (hdiffer k' id hk' hid).1 (hdiffer k' id hk' hid).2
        rw [hmem, hchannel]
        exact hstands
      · obtain ⟨hmem, -⟩ := hothers id (hdiffer k' id hk' hid).1 (hdiffer k' id hk' hid).2
        rw [hreader] at hdrained
        rw [hmem]
        exact hout hdrained
  · by_cases hown : (s.callers k).holds = some id ∨ id ∉ s.waiters
    · exact (hentered id hid hown).2
    · rw [not_or, not_not] at hown
      rw [(hothers id (h.lt_of_mem hown.2) hown.1).2]
      exact h.entered id hown.2
  · exact List.sublist_nil.1 (h.fresh id (Nat.le_trans hnext hid) ▸ hshrinks id)
  · rw [hheard, hreader]
    exact h.own id result ((hshrinks id).subset hresult)
  · exact Nat.le_trans (hshrinks id).length_le (h.once id)
  · by_cases hk₁ : k₁ = k
    · by_cases hk₂ : k₂ = k
      · rw [hk₁, hk₂]
      · rw [hk₁, hself] at h₁
        rw [hother k₂ hk₂] at h₂
        obtain ⟨hlt, hne⟩ := hdiffer k₂ id hk₂ h₂
        rcases hholds id h₁ with hsame | hnew
        · exact absurd hsame hne
        · exact absurd hlt (Nat.not_lt.2 hnew)
    · rw [hother k₁ hk₁] at h₁
      by_cases hk₂ : k₂ = k
      · rw [hk₂, hself] at h₂
        obtain ⟨hlt, hne⟩ := hdiffer k₁ id hk₁ h₁
        rcases hholds id h₂ with hsame | hnew
        · exact absurd hsame hne
        · exact absurd hlt (Nat.not_lt.2 hnew)
      · rw [hother k₂ hk₂] at h₂
        exact h.apart k₁ k₂ id h₁ h₂
  · by_cases hown : (s.callers k).holds = some id ∨ id ∉ s.waiters
    · exact ⟨k, by rw [hself]; exact (hentered id hid hown).1⟩
    · rw [not_or, not_not] at hown
      obtain ⟨k', hk'⟩ := h.released id hown.2
      refine ⟨k', ?_⟩
      rw [hother k' fun heq => hown.1 (heq ▸ hk')]
      exact hk'

/-- The same where the waiters and the channels stay as they are. -/
theorem Inv.of_caller' (h : Inv s) {nextId : Nat} {outgoing : List Nat}
    (hnext : s.nextId ≤ nextId) (hfits : Fits { s.setCaller k c with nextId, outgoing } c)
    (hholds : ∀ id, c.holds = some id → (s.callers k).holds = some id ∨ s.nextId ≤ id)
    (hentered : ∀ id ∈ s.waiters, (s.callers k).holds = some id → c.holds = some id) :
    Inv { s.setCaller k c with nextId, outgoing } :=
  h.of_caller rfl rfl rfl rfl hnext (fun _ _ _ => ⟨Iff.rfl, rfl⟩) (fun _ => List.Sublist.refl _)
    hfits hholds fun id hid hown =>
      ⟨hentered id hid (hown.resolve_right fun hnot => hnot hid), h.entered id hid⟩

/-! ### Callers -/

theorem Inv.number (h : Inv s) (hk : s.callers k = .checked) :
    Inv { s.setCaller k (.numbered s.nextId) with nextId := s.nextId + 1 } := by
  refine h.of_caller' (Nat.le_succ _) ⟨Nat.lt_succ_self _, fun hmem => ?_,
    h.fresh _ (Nat.le_refl _)⟩ (fun id hid => ?_) fun id hid hown => ?_
  · exact absurd (h.lt_of_mem hmem) (Nat.lt_irrefl _)
  · cases hid
    exact .inr (Nat.le_refl _)
  · rw [hk] at hown
    cases hown

theorem Inv.register (h : Inv s) (hk : s.callers k = .numbered id) :
    Inv { s.setCaller k (.registered id) with waiters := id :: s.waiters } := by
  have hfits := h.fits k
  rw [hk] at hfits
  have hholds : (s.callers k).holds = some id := by rw [hk]; rfl
  refine h.of_caller rfl rfl rfl rfl (Nat.le_refl _) (fun i _ hne => ⟨?_, rfl⟩)
    (fun _ => List.Sublist.refl _) ⟨hfits.1, .inl List.mem_cons_self⟩ (fun i hi => ?_)
    fun i hi hown => ?_
  · exact List.mem_cons.trans (or_iff_right fun heq => hne (heq ▸ hholds))
  · exact .inl (hholds.trans hi)
  · have heq : i = id := by
      rcases hown with hown | hnot
      · rw [hholds, Option.some.injEq] at hown
        exact hown.symm
      · exact (List.mem_cons.1 hi).resolve_right hnot
    rw [heq]
    exact ⟨rfl, hfits.2.2⟩

/-- A caller that goes on under its number. -/
theorem Inv.goOn (h : Inv s) {outgoing : List Nat} (hsame : c.holds = (s.callers k).holds)
    (hfits : Fits { s.setCaller k c with outgoing } c) :
    Inv { s.setCaller k c with outgoing } :=
  h.of_caller' (Nat.le_refl _) hfits (fun _ hid => .inl (hsame ▸ hid)) fun _ _ hown =>
    hsame.trans hown

theorem Inv.check (h : Inv s) (hk : s.callers k = .sent id) :
    Inv (s.setCaller k (if s.connected then .waiting id else .leaving id)) := by
  have hfits := h.fits k
  rw [hk] at hfits
  cases hconn : s.connected with
  | true =>
      refine h.goOn (by rw [hk]; rfl) ⟨hfits.1, hfits.2, fun hdrained => ?_⟩
      change s.reader.drained = true at hdrained
      rcases h.flag.1 hconn with hreader | hreader
      · rw [hreader] at hdrained
        cases hdrained
      · rw [hreader] at hdrained
        cases hdrained
  | false => exact h.goOn (by rw [hk]; rfl) hfits.1

theorem Inv.receive (h : Inv s) {result : Except String Reply} {left : List (Except String Reply)}
    (hk : s.callers k = .waiting id) (hchannel : s.channels id = result :: left) :
    Inv { s.setCaller k (.returned (some id) (outcome result)) with
      channels := Function.update s.channels id left } := by
  have hholds : (s.callers k).holds = some id := by rw [hk]; rfl
  refine h.of_caller rfl rfl rfl rfl (Nat.le_refl _) (fun i _ hne => ⟨Iff.rfl, ?_⟩) (fun i => ?_) ?_
    nofun fun i hi hown => ?_
  · have hi : i ≠ id := by
      rintro rfl
      exact hne hholds
    exact Function.update_of_ne hi _ _
  · by_cases hi : i = id
    · subst hi
      dsimp only
      rw [Function.update_self, hchannel]
      exact List.sublist_cons_self _ _
    · dsimp only
      rw [Function.update_of_ne hi]
  · cases result with
    | ok reply =>
        rcases h.own id (.ok reply) (by rw [hchannel]; exact List.mem_cons_self) with hheard | hfail
        · exact hheard
        · cases hfail.2
    | error message =>
        rw [outcome]
        split <;> trivial
  · have heq : i = id := by
      rcases hown with hown | hnot
      · rw [hholds, Option.some.injEq] at hown
        exact hown.symm
      · exact absurd hi hnot
    subst heq
    have hempty := h.entered i hi
    rw [hchannel] at hempty
    cases hempty

theorem Inv.leave (h : Inv s) (hholds : (s.callers k).holds = some id) (hnone : c.holds = none)
    (hfits : Fits ((s.setCaller k c).unregister id) c) :
    Inv ((s.setCaller k c).unregister id) := by
  refine h.of_caller rfl rfl rfl rfl (Nat.le_refl _) (fun i _ hne => ⟨?_, rfl⟩)
    (fun _ => List.Sublist.refl _) hfits (fun i hi => ?_) fun i hi hown => ?_
  · have hi : i ≠ id := by
      rintro rfl
      exact hne hholds
    exact List.mem_filter.trans (and_iff_left (decide_eq_true hi))
  · rw [hnone] at hi
    cases hi
  · obtain ⟨hmem, hi⟩ := List.mem_filter.1 hi
    rcases hown with hown | hnot
    · rw [hholds, Option.some.injEq] at hown
      exact absurd hown.symm (of_decide_eq_true hi)
    · exact absurd hmem hnot

/-! ### The reader -/

/-- A step after which every channel and every waiter is as before. -/
theorem Inv.keep (h : Inv s) (hcallers : s'.callers = s.callers) (hwaiters : s'.waiters = s.waiters)
    (hchannels : s'.channels = s.channels) (hnext : s.nextId ≤ s'.nextId)
    (hflag : s'.connected = true ↔ s'.reader = .reading ∨ s'.reader = .lost)
    (hdrained : s'.reader.drained = true ↔ s.reader.drained = true)
    (hheard : ∀ message ∈ s.heard, message ∈ s'.heard) : Inv s' := by
  refine ⟨hflag, fun k => ?_, ?_, fun id hid => ?_, fun id result hresult => ?_, ?_, ?_, ?_⟩
  · rw [hcallers]
    refine (h.fits k).mono hnext (fun id _ => ?_) (fun id _ => ?_) (fun hnow id _ hout => ?_) hheard
    · rw [hwaiters, hchannels]
      exact And.intro
    · rw [hwaiters, hchannels]
      exact fun hstands => hstands
    · rw [hwaiters]
      exact hout (hdrained.1 hnow)
  · rw [hwaiters, hchannels]
    exact h.entered
  · rw [hchannels]
    exact h.fresh id (Nat.le_trans hnext hid)
  · rw [hchannels] at hresult
    exact (h.own id result hresult).imp (hheard _) fun hfail => ⟨hdrained.2 hfail.1, hfail.2⟩
  · rw [hchannels]
    exact h.once
  · rw [hcallers]
    exact h.apart
  · rw [hwaiters, hcallers]
    exact h.released

/-- A reply goes to the waiter that is entered under its number. -/
theorem Inv.give (h : Inv s) {result : Except String Reply} (hmem : id ∈ s.waiters) :
    Inv ((Sys.unregister { s with heard := s.heard ++ [ServerMsg.reply id result] } id).give id
      result) := by
  have hempty := h.entered id hmem
  have hmem' : ∀ {i}, i ∈ s.waiters.filter (fun w => w ≠ id) ↔ i ∈ s.waiters ∧ i ≠ id :=
    List.mem_filter.trans (and_congr_right fun _ => decide_eq_true_iff)
  refine ⟨h.flag, fun k => ?_, fun i hi => ?_, fun i hi => ?_, fun i r hr => ?_, fun i => ?_,
    h.apart, fun i hi => ?_⟩
  · refine (h.fits k).mono (Nat.le_refl _) (fun i _ hout hnone => ?_) (fun i _ hstands => ?_)
      (fun hdrained i _ hout => ?_) fun m hm => List.mem_append_left _ hm
    · have hi : i ≠ id := fun heq => hout (heq ▸ hmem)
      exact ⟨fun hi' => hout (hmem'.1 hi').1, (Function.update_of_ne hi _ _).trans hnone⟩
    · by_cases hi : i = id
      · right
        change Function.update s.channels id (s.channels id ++ [result]) i ≠ []
        rw [hi, Function.update_self]
        exact List.append_ne_nil_of_right_ne_nil _ nofun
      · rcases hstands with hstands | hstands
        · exact .inl (hmem'.2 ⟨hstands, hi⟩)
        · right
          change Function.update s.channels id (s.channels id ++ [result]) i ≠ []
          rw [Function.update_of_ne hi]
          exact hstands
    · exact fun hi' => hout hdrained (hmem'.1 hi').1
  · obtain ⟨hi, hne⟩ := hmem'.1 hi
    exact (Function.update_of_ne hne _ _).trans (h.entered i hi)
  · have hne : i ≠ id := by
      rintro rfl
      exact absurd (h.lt_of_mem hmem) (Nat.not_lt.2 hi)
    exact (Function.update_of_ne hne _ _).trans (h.fresh i hi)
  · change r ∈ Function.update s.channels id (s.channels id ++ [result]) i at hr
    by_cases hi : i = id
    · subst hi
      rw [Function.update_self, hempty, List.nil_append, List.mem_singleton] at hr
      rw [hr]
      exact .inl (List.mem_append_right _ (List.mem_singleton_self _))
    · rw [Function.update_of_ne hi] at hr
      exact (h.own i r hr).imp_left (List.mem_append_left _)
  · change (Function.update s.channels id (s.channels id ++ [result]) i).length ≤ 1
    by_cases hi : i = id
    · subst hi
      rw [Function.update_self, hempty]
      exact Nat.le_refl _
    · rw [Function.update_of_ne hi]
      exact h.once i
  · exact h.released i (hmem'.1 hi).1

theorem Inv.hear (h : Inv s) (message : ServerMsg) : Inv (s.hear message) := by
  have hheard : ∀ m ∈ s.heard, m ∈ s.heard ++ [message] := fun m hm => List.mem_append_left _ hm
  rw [Sys.hear.eq_def]
  cases message with
  | reply id result =>
      dsimp only
      split
      · next hmem => exact h.give hmem
      · exact h.keep rfl rfl rfl (Nat.le_refl _) h.flag Iff.rfl hheard
  | output terminal offset data => exact h.keep rfl rfl rfl (Nat.le_refl _) h.flag Iff.rfl hheard
  | exited terminal status => exact h.keep rfl rfl rfl (Nat.le_refl _) h.flag Iff.rfl hheard
  | resync terminal => exact h.keep rfl rfl rfl (Nat.le_refl _) h.flag Iff.rfl hheard
  | welcome protocol build pid => exact h.keep rfl rfl rfl (Nat.le_refl _) h.flag Iff.rfl hheard

/-- Who is entered when the waiters are drained is failed, and nobody is entered any more. -/
theorem Inv.drain (h : Inv s) (hreader : s.reader = .draining) :
    Inv { s.drain with reader := .telling } := by
  have hconn : s.connected ≠ true := by
    intro hup
    rw [h.flag, hreader] at hup
    rcases hup with hup | hup <;> cases hup
  refine ⟨⟨fun hc => absurd hc hconn, nofun⟩, fun k => ?_, nofun, fun i hi => ?_, fun i r hr => ?_,
    fun i => ?_, h.apart, nofun⟩
  · refine (h.fits k).mono (Nat.le_refl _) (fun i _ hout hnone => ?_) (fun i _ hstands => ?_)
      (fun _ _ _ _ => List.not_mem_nil) fun _ hm => hm
    · exact ⟨List.not_mem_nil, (if_neg hout).trans hnone⟩
    · right
      change (if i ∈ s.waiters then s.channels i ++ [.error disconnected] else s.channels i) ≠ []
      split
      · exact List.append_ne_nil_of_right_ne_nil _ nofun
      · next hout => exact hstands.resolve_left hout
  · exact (if_neg fun hmem => absurd (h.lt_of_mem hmem) (Nat.not_lt.2 hi)).trans (h.fresh i hi)
  · change r ∈ if i ∈ s.waiters then s.channels i ++ [.error disconnected] else s.channels i at hr
    split at hr
    · next hmem =>
        rw [h.entered i hmem, List.nil_append, List.mem_singleton] at hr
        exact .inr ⟨rfl, hr⟩
    · exact (h.own i r hr).imp_right fun hfail => ⟨rfl, hfail.2⟩
  · change (if i ∈ s.waiters then s.channels i ++ [.error disconnected]
      else s.channels i).length ≤ 1
    split
    · next hmem =>
        rw [h.entered i hmem]
        exact Nat.le_refl _
    · exact h.once i

/-! ## Every step, and every run -/

theorem Inv.step {a : Act} (h : Inv s) (hs : step s a = some s') : Inv s' := by
  have hrest : ∀ {k : Nat} {c : Caller}, (s.callers k).holds = none → c.holds = none → Fits s c →
      Inv (s.setCaller k c) := fun hnone hnone' hfits =>
    h.goOn (hnone'.trans hnone.symm) hfits
  rw [Waiting.step.eq_def] at hs
  cases a with
  | begin k =>
      dsimp only at hs
      split at hs
      · next hk =>
          cases hs
          cases s.connected with
          | true => exact hrest (by rw [hk]; rfl) rfl trivial
          | false => exact hrest (by rw [hk]; rfl) rfl trivial
      · cases hs
  | number k =>
      dsimp only at hs
      split at hs
      · next hk =>
          cases hs
          exact h.number hk
      · cases hs
  | register k =>
      dsimp only at hs
      split at hs
      · next hk =>
          cases hs
          exact h.register hk
      · cases hs
  | post k ok =>
      dsimp only at hs
      split at hs
      · next id hk =>
          have hfits := h.fits k
          rw [hk] at hfits
          split at hs
          · cases hs
            exact h.goOn (by rw [hk]; rfl) hfits
          · cases hs
            exact h.goOn (by rw [hk]; rfl) hfits.1
      · cases hs
  | check k =>
      dsimp only at hs
      split at hs
      · next hk =>
          cases hs
          exact h.check hk
      · cases hs
  | receive k =>
      dsimp only at hs
      split at hs
      · next hk =>
          split at hs
          · next hchannel =>
              cases hs
              exact h.receive hk hchannel
          · cases hs
      · cases hs
  | timeout k =>
      dsimp only at hs
      split at hs
      · next id hk =>
          split at hs
          · cases hs
            have hfits := h.fits k
            rw [hk] at hfits
            exact h.goOn (by rw [hk]; rfl) hfits.1
          · cases hs
      · cases hs
  | leave k =>
      dsimp only at hs
      split at hs
      · next hk =>
          cases hs
          exact h.leave (by rw [hk]; rfl) rfl trivial
      · next hk =>
          cases hs
          exact h.leave (by rw [hk]; rfl) rfl trivial
      · cases hs
  | judge k =>
      dsimp only at hs
      split at hs
      · next hk =>
          cases hs
          exact hrest (by rw [hk]; rfl) rfl trivial
      · cases hs
  | rest k =>
      dsimp only at hs
      split at hs
      · next hk =>
          cases hs
          exact hrest (by rw [hk]; rfl) rfl trivial
      · cases hs
  | send =>
      cases hs
      exact h.keep rfl rfl rfl (Nat.le_succ _) h.flag Iff.rfl fun _ hm => hm
  | hear message =>
      dsimp only at hs
      split at hs
      · cases hs
        exact h.hear message
      · cases hs
  | lose =>
      dsimp only at hs
      split at hs
      · next hreader =>
          cases hs
          have hup : s.connected = true := h.flag.2 (.inl hreader)
          refine h.keep rfl rfl rfl (Nat.le_refl _) (iff_of_true hup (.inr rfl)) ?_ fun _ hm => hm
          rw [hreader]
          exact Iff.rfl
      · cases hs
  | clear =>
      dsimp only at hs
      split at hs
      · next hreader =>
          cases hs
          refine h.keep rfl rfl rfl (Nat.le_refl _) (iff_of_false Bool.false_ne_true (by nofun)) ?_
            fun _ hm => hm
          rw [hreader]
          exact Iff.rfl
      · cases hs
  | drain =>
      dsimp only at hs
      split at hs
      · next hreader =>
          cases hs
          exact h.drain hreader
      · cases hs
  | tell reason =>
      dsimp only at hs
      split at hs
      · next hreader =>
          cases hs
          have hdown : s.connected ≠ true := by
            intro hup
            rw [h.flag, hreader] at hup
            rcases hup with hup | hup <;> cases hup
          refine h.keep rfl rfl rfl (Nat.le_refl _) (iff_of_false hdown (by nofun)) ?_
            fun _ hm => hm
          rw [hreader]
          exact Iff.rfl
      · cases hs

theorem inv_init (hs : machine.init s) : Inv s := by
  cases hs
  exact ⟨iff_of_true rfl (.inl rfl), fun _ => trivial, fun _ _ => rfl, fun _ _ => rfl,
    fun _ => nofun, fun _ => Nat.zero_le _, fun _ _ _ => nofun, fun _ => nofun⟩

/-! ## What stands in a channel -/

/-- Only the caller that waits at a channel takes out what stands there, and nothing is added. -/
theorem Inv.stands {a : Act} {result : Except String Reply} (h : Inv s)
    (hchannel : s.channels id = [result]) (hs : Waiting.step s a = some s') :
    s'.channels id = [result] ∨ ∃ k, a = .receive k ∧ s.callers k = .waiting id ∧
      s'.callers k = .returned (some id) (outcome result) := by
  have hout : id ∉ s.waiters := by
    intro hmem
    rw [h.entered id hmem] at hchannel
    cases hchannel
  have hkeep : s'.channels = s.channels → s'.channels id = [result] := by
    intro hsame
    rw [hsame]
    exact hchannel
  rw [Waiting.step.eq_def] at hs
  cases a with
  | receive k =>
      dsimp only at hs
      split at hs
      · next i hk =>
          split at hs
          · next first left hfirst =>
              cases hs
              by_cases hi : i = id
              · subst hi
                rw [hchannel, List.cons.injEq] at hfirst
                obtain ⟨rfl, -⟩ := hfirst
                exact .inr ⟨k, rfl, hk, Function.update_self _ _ _⟩
              · exact .inl ((Function.update_of_ne (Ne.symm hi) _ _).trans hchannel)
          · cases hs
      · cases hs
  | hear message =>
      dsimp only at hs
      split at hs
      · cases hs
        left
        cases message with
        | reply i answer =>
            rw [Sys.hear]
            dsimp only
            split
            · next hmem =>
                have hi : id ≠ i := by
                  rintro rfl
                  exact hout hmem
                exact (Function.update_of_ne hi _ _).trans hchannel
            · exact hchannel
        | _ => exact hchannel
      · cases hs
  | drain =>
      dsimp only at hs
      split at hs
      · cases hs
        exact .inl ((if_neg hout).trans hchannel)
      · cases hs
  | send =>
      cases hs
      exact .inl hchannel
  | begin k | number k | register k | check k | judge k | rest k =>
      dsimp only at hs
      split at hs
      · cases hs
        exact .inl (hkeep rfl)
      · cases hs
  | post k ok =>
      dsimp only at hs
      split at hs
      · split at hs
        · cases hs
          exact .inl (hkeep rfl)
        · cases hs
          exact .inl (hkeep rfl)
      · cases hs
  | timeout k =>
      dsimp only at hs
      split at hs
      · split at hs
        · cases hs
          exact .inl (hkeep rfl)
        · cases hs
      · cases hs
  | leave k =>
      dsimp only at hs
      split at hs
      · cases hs
        exact .inl (hkeep rfl)
      · cases hs
        exact .inl (hkeep rfl)
      · cases hs
  | lose | clear | tell reason =>
      dsimp only at hs
      split at hs
      · cases hs
        exact .inl (hkeep rfl)
      · cases hs

/-- So it stands there through any steps until it is taken. -/
theorem Inv.delivered {result : Except String Reply} (h : Inv s)
    (hchannel : s.channels id = [result]) (acts : List Act)
    (hrun : machine.exec Machine.anyStep s acts = some s') :
    s'.channels id = [result] ∨ Handed s acts id result := by
  induction acts generalizing s with
  | nil =>
      cases hrun
      exact .inl hchannel
  | cons a acts ih =>
      rw [Machine.exec_cons, if_pos (show Machine.anyStep s a from trivial)] at hrun
      obtain ⟨t, hstep, hrest⟩ := Option.bind_eq_some_iff.1 hrun
      rcases h.stands hchannel hstep with hstill | ⟨k, rfl, hk, hreturned⟩
      · refine (ih (h.step hstep) hstill hrest).imp_right ?_
        rintro ⟨before, k, after, u, u', rfl, hu, hk, htake, hreturned⟩
        refine ⟨a :: before, k, after, u, u', rfl, ?_, hk, htake, hreturned⟩
        rw [Machine.exec_cons_of_step trivial hstep]
        exact hu
      · exact .inr ⟨[], k, acts, s, t, rfl, rfl, hk, hstep, hreturned⟩

/-- The reply goes into the channel that is entered under its number. -/
theorem Inv.heard {result : Except String Reply} (h : Inv s) (hmem : id ∈ s.waiters)
    (hs : Waiting.step s (.hear (.reply id result)) = some s') : s'.channels id = [result] := by
  rw [Waiting.step] at hs
  split at hs
  · cases hs
    rw [Sys.hear]
    dsimp only
    rw [if_pos hmem]
    refine (Function.update_self _ _ _).trans ?_
    change s.channels id ++ [result] = [result]
    rw [h.entered id hmem, List.nil_append]
  · cases hs

theorem Inv.entered_of_registered (h : Inv s) (hk : s.callers k = .registered id ∨
    s.callers k = .sent id ∨ s.callers k = .waiting id) :
    id ∈ s.waiters ∨ s.channels id ≠ [] := by
  have hfits := h.fits k
  rcases hk with hk | hk | hk
  · rw [hk] at hfits
    exact hfits.2
  · rw [hk] at hfits
    exact hfits.2
  · rw [hk] at hfits
    exact hfits.2.1

/-- However the callers and the reader thread take turns, each reply goes to whoever waits for it,
and once the connection is gone nobody is left waiting. -/
theorem served (hs : machine.Reach Machine.anyStep s) : Served s := by
  have h : Inv s := hs.invariant (fun _ => inv_init) fun _ _ _ h _ hstep => h.step hstep
  refine ⟨fun _ _ => h.entered_of_registered, fun id result s₁ hmem hs₁ acts s₂ => ?_,
    fun hdrained k id hk => ?_, h.own, fun k id reply hk => ?_, h.once, h.apart, h.released⟩
  · exact (h.step hs₁).delivered (h.heard hmem hs₁) acts
  · have hfits := h.fits k
    rw [hk] at hfits
    exact hfits.2.1.resolve_left (hfits.2.2 hdrained)
  · have hfits := h.fits k
    rw [hk] at hfits
    exact hfits

/-- One caller is answered, and one waits when the connection is lost. -/
theorem served_lost : ∃ s : Sys, Served s ∧ s.reader = .done ∧
    s.channels 2 = [.error disconnected] := by
  obtain ⟨s, hreach, hlost⟩ := (Machine.Reach.init rfl : machine.Reach Machine.anyStep
      ⟨true, [], fun _ => [], 1, [], [], .reading, fun _ => .idle, []⟩).exists_of_exec
    [.begin 0, .begin 1, .number 0, .number 1, .register 1, .register 0, .post 0 true, .post 1 true,
      .check 1, .check 0, .hear (.reply 1 (.ok .pong)), .receive 0, .lose, .clear, .drain,
      .tell "closed"]
    (fun s => decide (s.reader = .done ∧ s.channels 2 = [.error disconnected])) (by decide)
  exact ⟨s, served hreach, of_decide_eq_true hlost⟩

end Throng.Daemon.Waiting
