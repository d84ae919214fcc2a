import Throng.Daemon.WireConn

/-!
# What every wire carries

Each access to what the threads share keeps the connections good for all terminals: what a
connection has not been sent of a terminal it is owed a resync for, unless one is on its way
behind the last output.
-/

namespace Throng.Daemon.Wire

namespace Sys

variable (s : Sys) (client : ClientId) (terminal : TerminalId)

/-- Up to where the terminal's output has been sent to the client or dropped. -/
def next : Nat :=
  match s.locks terminal with
  | .pumping offset _ left =>
      if client ∈ left then offset else (s.sessions terminal).state.endOffset
  | _ => (s.sessions terminal).state.endOffset

/-- The client is attached, and its snapshot is queued. -/
def live : Prop :=
  client ∈ (s.sessions terminal).state.views ∧
    ∀ message, s.locks terminal ≠ .replying client message

/-- Output to the client is about to be dropped. -/
def dropping : Prop :=
  (s.sender = .output terminal (.load true) ∨ s.sender = .output terminal .owe) ∧
    ∃ offset chunk left, s.locks terminal = .pumping offset chunk (client :: left)

end Sys

/-- What the holder of a session's lock has done. -/
structure Held (terminal : TerminalId) (lock : Lock) (session : Session) : Prop where
  id : session.id = terminal
  pumping : ∀ offset chunk left, lock = .pumping offset chunk left →
    session.state.endOffset = offset + chunk.length ∧ chunk.length ≤ readBytes ∧
      left.Nodup ∧ ∀ client ∈ left, client ∈ session.state.views
  replying : ∀ client message, lock = .replying client message →
    stop terminal message = some session.state.endOffset ∧
      ∀ other, isOutput other message = false ∧ (other ≠ terminal → stop other message = none)

/-- What the holder of the registry's lock has found. -/
def Sending (s : Sys) : Prop :=
  match s.sender with
  | .free => True
  | .output terminal stage =>
      ∃ offset chunk client left, s.locks terminal = .pumping offset chunk (client :: left) ∧
        (s.conns client).connected = true ∧
        (stage = .load false ∨ stage = .count ∨ stage = .push →
          terminal ∉ (s.conns client).queue.resync)
  | .reply terminal _ => ∃ client message, s.locks terminal = .replying client message
  | .control _ message _ => isControl message = true

/-- What holds between any two accesses. -/
structure Inv (s : Sys) : Prop where
  held : ∀ terminal, Held terminal (s.locks terminal) (s.sessions terminal)
  sending : Sending s
  good : ∀ client terminal, Good (s.conns client) terminal (s.next client terminal)
    (s.live client terminal) (s.dropping client terminal)
  noted : ∀ client, Noted (s.conns client)

variable {s s' : Sys} {terminal : TerminalId} {client : ClientId}

theorem isControl_keeps {message : ServerMsg} (h : isControl message = true) :
    stop terminal message = none ∧ isOutput terminal message = false := by
  cases message with
  | output t offset data => cases h
  | reply id result =>
      cases result with
      | error reason => exact ⟨rfl, rfl⟩
      | ok reply =>
          cases reply with
          | snapshot snapshot => cases h
          | _ => exact ⟨rfl, rfl⟩
  | _ => exact ⟨rfl, rfl⟩

/-- A step that is not the sender's. -/
theorem Sending.congr (h : Sending s) (hsender : s'.sender = s.sender)
    (hpumping : ∀ t offset chunk c left, s.locks t = .pumping offset chunk (c :: left) →
      s'.locks t = s.locks t)
    (hreplying : ∀ t c message, s.locks t = .replying c message → s'.locks t = s.locks t)
    (hconnected : ∀ c, (s.conns c).connected = true → (s'.conns c).connected = true)
    (hresync : ∀ c t, t ∈ (s'.conns c).queue.resync → t ∈ (s.conns c).queue.resync) :
    Sending s' := by
  rw [Sending] at h ⊢
  rw [hsender]
  split at h
  · trivial
  · obtain ⟨offset, chunk, c, left, hlock, hconn, hunowed⟩ := h
    exact ⟨offset, chunk, c, left, (hpumping _ _ _ _ _ hlock).trans hlock, hconnected c hconn,
      fun hstage howed => hunowed hstage (hresync c _ howed)⟩
  · obtain ⟨c, message, hlock⟩ := h
    exact ⟨c, message, (hreplying _ _ _ hlock).trans hlock⟩
  · exact h

/-- Steps on one terminal leave the others as they are. -/
theorem other_terminal (hlock : s'.locks terminal = s.locks terminal)
    (hsession : s'.sessions terminal = s.sessions terminal) :
    s'.next client terminal = s.next client terminal ∧
      (s'.live client terminal ↔ s.live client terminal) := by
  rw [Sys.next, Sys.next, Sys.live, Sys.live, hlock, hsession]
  exact ⟨rfl, Iff.rfl⟩

theorem dropping_congr (hsender : s'.sender = s.sender)
    (hlock : s'.locks terminal = s.locks terminal) :
    s'.dropping client terminal ↔ s.dropping client terminal := by
  rw [Sys.dropping, Sys.dropping, hsender, hlock]

/-- What is good for a terminal stays so where only others change. -/
theorem Inv.good_other (h : Inv s) (hconn : s'.conns client = s.conns client)
    (hsender : s'.sender = s.sender) (hlock : s'.locks terminal = s.locks terminal)
    (hsession : s'.sessions terminal = s.sessions terminal) :
    Good (s'.conns client) terminal (s'.next client terminal) (s'.live client terminal)
      (s'.dropping client terminal) := by
  obtain ⟨hnext, hlive⟩ := @other_terminal s s' terminal client hlock hsession
  rw [hconn]
  exact (h.good client terminal).mono (Nat.le_of_eq hnext.symm)
    (fun hnew _ => ⟨hlive.1 hnew, hnext⟩) fun hnew => .inr ((dropping_congr hsender hlock).1 hnew)

/-- The sender does not send for the terminal. -/
def Apart (sender : Sender) (terminal : TerminalId) : Prop :=
  (∀ stage, sender ≠ .output terminal stage) ∧ ∀ counted, sender ≠ .reply terminal counted

theorem Apart.not_dropping (h : Apart s.sender terminal) : ¬ s.dropping client terminal :=
  fun hdropping => hdropping.1.elim (h.1 _) (h.1 _)

theorem apart_free : Apart .free terminal := ⟨nofun, nofun⟩

/-- A lock that no sender is behind. -/
theorem Inv.apart (h : Inv s)
    (hpumping : ∀ offset chunk c left, s.locks terminal ≠ .pumping offset chunk (c :: left))
    (hreplying : ∀ c message, s.locks terminal ≠ .replying c message) :
    Apart s.sender terminal := by
  have hsending := h.sending
  refine ⟨fun stage hsender => ?_, fun counted hsender => ?_⟩
  · rw [Sending, hsender] at hsending
    obtain ⟨offset, chunk, c, left, hlock, -⟩ := hsending
    exact hpumping _ _ _ _ hlock
  · rw [Sending, hsender] at hsending
    obtain ⟨c, message, hlock⟩ := hsending
    exact hreplying _ _ hlock

/-- A step of the holder of one session's lock. -/
theorem Inv.of_lock (h : Inv s) (hsender : s'.sender = s.sender) (hapart : Apart s.sender terminal)
    (hother : ∀ t, t ≠ terminal → s'.locks t = s.locks t ∧ s'.sessions t = s.sessions t)
    (hheld : Held terminal (s'.locks terminal) (s'.sessions terminal))
    (hconnected : ∀ c, (s'.conns c).connected = (s.conns c).connected)
    (hresync : ∀ c, (s'.conns c).queue.resync = (s.conns c).queue.resync)
    (hgood : ∀ c t, Good (s'.conns c) t (s'.next c t) (s'.live c t) (s'.dropping c t))
    (hnoted : ∀ c, Noted (s'.conns c)) : Inv s' := by
  refine ⟨fun t => ?_, ?_, hgood, hnoted⟩
  · by_cases ht : t = terminal
    · rw [ht]
      exact hheld
    · rw [(hother t ht).1, (hother t ht).2]
      exact h.held t
  · have hsending := h.sending
    rw [Sending] at hsending ⊢
    rw [hsender]
    split at hsending
    · trivial
    · next t stage houtput =>
        have ht : t ≠ terminal := by
          rintro rfl
          exact hapart.1 stage houtput
        obtain ⟨offset, chunk, c, left, hlock, hconn, hunowed⟩ := hsending
        refine ⟨offset, chunk, c, left, (hother t ht).1.trans hlock, ?_, ?_⟩
        · rw [hconnected]
          exact hconn
        · rw [hresync]
          exact hunowed
    · next t counted hreply =>
        have ht : t ≠ terminal := by
          rintro rfl
          exact hapart.2 counted hreply
        obtain ⟨c, message, hlock⟩ := hsending
        exact ⟨c, message, (hother t ht).1.trans hlock⟩
    · exact hsending

/-- The same where the connections stay as they are. -/
theorem Inv.of_lock' (h : Inv s) (hsender : s'.sender = s.sender) (hapart : Apart s.sender terminal)
    (hother : ∀ t, t ≠ terminal → s'.locks t = s.locks t ∧ s'.sessions t = s.sessions t)
    (hheld : Held terminal (s'.locks terminal) (s'.sessions terminal)) (hconns : s'.conns = s.conns)
    (hnext : ∀ c, s.next c terminal ≤ s'.next c terminal)
    (hlive : ∀ c, s'.live c terminal → (s.conns c).connected = true →
      s.live c terminal ∧ s'.next c terminal = s.next c terminal) : Inv s' := by
  refine h.of_lock hsender hapart hother hheld (fun _ => by rw [hconns]) (fun _ => by rw [hconns])
    (fun c t => ?_) (hconns ▸ h.noted)
  by_cases ht : t = terminal
  · subst ht
    rw [hconns]
    have hapart' : Apart s'.sender t := hsender ▸ hapart
    exact (h.good c t).mono (hnext c) (hlive c) fun hdropping =>
      absurd hdropping hapart'.not_dropping
  · exact h.good_other (by rw [hconns]) hsender (hother t ht).1 (hother t ht).2

/-! ## The session's lock -/

section

variable {lock : Lock} {session : Session}

@[simp] theorem locks_setLock : (s.setLock terminal lock).locks terminal = lock :=
  Function.update_self ..

@[simp] theorem locks_setLock_of_ne {t : TerminalId} (h : t ≠ terminal) :
    (s.setLock terminal lock).locks t = s.locks t := Function.update_of_ne h ..

@[simp] theorem sessions_setSession : (s.setSession terminal session).sessions terminal = session :=
  Function.update_self ..

@[simp] theorem sessions_setSession_of_ne {t : TerminalId} (h : t ≠ terminal) :
    (s.setSession terminal session).sessions t = s.sessions t := Function.update_of_ne h ..

@[simp] theorem conns_setConn {conn : Conn} : (s.setConn client conn).conns client = conn :=
  Function.update_self ..

@[simp] theorem conns_setConn_of_ne {c : ClientId} {conn : Conn} (h : c ≠ client) :
    (s.setConn client conn).conns c = s.conns c := Function.update_of_ne h ..

@[simp] theorem sessions_setLock : (s.setLock terminal lock).sessions = s.sessions := rfl
@[simp] theorem conns_setLock : (s.setLock terminal lock).conns = s.conns := rfl
@[simp] theorem sender_setLock : (s.setLock terminal lock).sender = s.sender := rfl
@[simp] theorem locks_setSession : (s.setSession terminal session).locks = s.locks := rfl
@[simp] theorem conns_setSession : (s.setSession terminal session).conns = s.conns := rfl
@[simp] theorem sender_setSession : (s.setSession terminal session).sender = s.sender := rfl
@[simp] theorem locks_setConn {conn : Conn} : (s.setConn client conn).locks = s.locks := rfl
@[simp] theorem sessions_setConn {conn : Conn} :
    (s.setConn client conn).sessions = s.sessions := rfl
@[simp] theorem sender_setConn {conn : Conn} : (s.setConn client conn).sender = s.sender := rfl

end

theorem next_of_free (hlock : s.locks terminal = .free) :
    s.next client terminal = (s.sessions terminal).state.endOffset := by
  rw [Sys.next, hlock]

theorem next_of_pumping {offset : Nat} {chunk : Bytes} {left : List ClientId}
    (hlock : s.locks terminal = .pumping offset chunk left) :
    s.next client terminal =
      if client ∈ left then offset else (s.sessions terminal).state.endOffset := by
  rw [Sys.next, hlock]

theorem next_of_replying {c : ClientId} {message : ServerMsg}
    (hlock : s.locks terminal = .replying c message) :
    s.next client terminal = (s.sessions terminal).state.endOffset := by
  rw [Sys.next, hlock]

theorem live_of_free (hlock : s.locks terminal = .free) :
    s.live client terminal ↔ client ∈ (s.sessions terminal).state.views := by
  rw [Sys.live, hlock]
  exact and_iff_left nofun

theorem live_of_pumping {offset : Nat} {chunk : Bytes} {left : List ClientId}
    (hlock : s.locks terminal = .pumping offset chunk left) :
    s.live client terminal ↔ client ∈ (s.sessions terminal).state.views := by
  rw [Sys.live, hlock]
  exact and_iff_left nofun

theorem live_of_replying {c : ClientId} {message : ServerMsg}
    (hlock : s.locks terminal = .replying c message) :
    s.live client terminal ↔ client ∈ (s.sessions terminal).state.views ∧ c ≠ client := by
  rw [Sys.live, hlock]
  refine and_congr_right fun _ => ⟨?_, ?_⟩
  · rintro h rfl
    exact h message rfl
  · rintro h m heq
    cases heq
    exact h rfl

theorem Inv.pump (h : Inv s) (hlock : s.locks terminal = .free) {chunk : Bytes}
    (hlen : chunk.length ≤ readBytes) {order : List ClientId}
    (horder : order.Perm (s.sessions terminal).state.views.keys) :
    Inv ((s.setSession terminal ((s.sessions terminal).pumpOutput chunk)).setLock terminal
      (.pumping (s.sessions terminal).state.endOffset chunk order)) := by
  have hviews : ∀ c, c ∈ order ↔ c ∈ (s.sessions terminal).state.views := fun c =>
    horder.mem_iff.trans Std.ExtTreeMap.mem_keys
  have hnext := fun c => @next_of_pumping _ terminal c _ _ _ (@locks_setLock
    (s.setSession terminal ((s.sessions terminal).pumpOutput chunk)) terminal
    (.pumping (s.sessions terminal).state.endOffset chunk order))
  refine h.of_lock' rfl (h.apart (by rw [hlock]; nofun) (by rw [hlock]; nofun))
    (fun t ht => ⟨locks_setLock_of_ne ht, sessions_setSession_of_ne ht⟩) ?_ rfl (fun c => ?_)
    fun c hlive _ => ?_
  · rw [locks_setLock, sessions_setLock, sessions_setSession]
    refine ⟨(h.held terminal).id, ?_, nofun⟩
    rintro offset data left ⟨⟩
    exact ⟨rfl, hlen, horder.nodup_iff.2 Std.ExtTreeMap.nodup_keys, fun c hc => (hviews c).1 hc⟩
  · rw [hnext, next_of_free hlock, sessions_setLock, sessions_setSession]
    split
    · exact Nat.le_refl _
    · exact Nat.le_add_right _ _
  · rw [live_of_pumping locks_setLock, sessions_setLock, sessions_setSession] at hlive
    have hmem : c ∈ (s.sessions terminal).state.views := hlive
    rw [live_of_free hlock, hnext, next_of_free hlock, if_pos ((hviews c).2 hmem)]
    exact ⟨hmem, rfl⟩

theorem Inv.print (h : Inv s) (terminal : TerminalId) (chunk : Bytes) :
    Inv (s.print terminal chunk) :=
  ⟨h.held, h.sending, h.good, h.noted⟩

theorem Inv.done (h : Inv s) {offset : Nat} {chunk : Bytes}
    (hlock : s.locks terminal = .pumping offset chunk []) : Inv (s.setLock terminal .free) := by
  refine h.of_lock' rfl (h.apart (by rw [hlock]; nofun) (by rw [hlock]; nofun))
    (fun t ht => ⟨locks_setLock_of_ne ht, rfl⟩) ?_ rfl (fun c => ?_) fun c hlive _ => ?_
  · rw [locks_setLock]
    exact ⟨(h.held terminal).id, nofun, nofun⟩
  · rw [next_of_pumping hlock, next_of_free locks_setLock, if_neg List.not_mem_nil]
    exact Nat.le_refl _
  · rw [live_of_free locks_setLock] at hlive
    rw [live_of_pumping hlock, next_of_pumping hlock, next_of_free locks_setLock,
      if_neg List.not_mem_nil]
    exact ⟨hlive, rfl⟩

theorem Inv.detach (h : Inv s) (hlock : s.locks terminal = .free) (client : ClientId) :
    Inv (s.setSession terminal ((s.sessions terminal).detach client)) := by
  have hoffset := (@Session.detach_keeps (s.sessions terminal) client).2
  refine h.of_lock' rfl (h.apart (by rw [hlock]; nofun) (by rw [hlock]; nofun))
    (fun t ht => ⟨rfl, sessions_setSession_of_ne ht⟩) ?_ rfl (fun c => ?_) fun c hlive _ => ?_
  · rw [locks_setSession, hlock, sessions_setSession]
    exact ⟨(Session.detach_id _ _).trans (h.held terminal).id, nofun, nofun⟩
  · refine Nat.le_of_eq ?_
    rw [next_of_free hlock, next_of_free (by rw [locks_setSession, hlock]), sessions_setSession,
      hoffset]
  · rw [live_of_free (by rw [locks_setSession, hlock]), sessions_setSession,
      Session.mem_detach] at hlive
    rw [live_of_free hlock, next_of_free hlock, next_of_free (by rw [locks_setSession, hlock]),
      sessions_setSession, hoffset]
    exact ⟨hlive.1, rfl⟩

/-- The client is not connected any more: the output is not sent to it. -/
theorem Inv.skip (h : Inv s) {offset : Nat} {chunk : Bytes} {left : List ClientId}
    (hsender : s.sender = .free) (hlock : s.locks terminal = .pumping offset chunk (client :: left))
    (hconn : (s.conns client).connected = false) :
    Inv (s.setLock terminal (.pumping offset chunk left)) := by
  obtain ⟨hoffset, hlen, hnodup, hviews⟩ := (h.held terminal).pumping _ _ _ hlock
  obtain ⟨hclient, hnodup⟩ := List.nodup_cons.1 hnodup
  refine h.of_lock' rfl (hsender ▸ apart_free) (fun t ht => ⟨locks_setLock_of_ne ht, rfl⟩) ?_ rfl
    (fun c => ?_) fun c hlive hconnected => ?_
  · rw [locks_setLock]
    refine ⟨(h.held terminal).id, ?_, nofun⟩
    rintro _ _ _ ⟨⟩
    exact ⟨hoffset, hlen, hnodup, fun c hc => hviews c (List.mem_cons_of_mem _ hc)⟩
  · rw [next_of_pumping hlock, next_of_pumping locks_setLock, sessions_setLock]
    by_cases hc : c ∈ left
    · refine Nat.le_of_eq ?_
      rw [if_pos hc, if_pos (List.mem_cons_of_mem _ hc)]
    · rw [if_neg hc]
      split <;> omega
  · have hne : c ≠ client := by
      rintro rfl
      rw [hconn] at hconnected
      cases hconnected
    rw [live_of_pumping locks_setLock] at hlive
    rw [live_of_pumping hlock, next_of_pumping hlock, next_of_pumping locks_setLock]
    exact ⟨hlive, if_congr (List.mem_cons.trans (or_iff_right hne)).symm rfl rfl⟩

theorem Inv.skipReply (h : Inv s) {message : ServerMsg} (hsender : s.sender = .free)
    (hlock : s.locks terminal = .replying client message)
    (hconn : (s.conns client).connected = false) : Inv (s.setLock terminal .free) := by
  refine h.of_lock' rfl (hsender ▸ apart_free) (fun t ht => ⟨locks_setLock_of_ne ht, rfl⟩) ?_ rfl
    (fun c => ?_) fun c hlive hconnected => ?_
  · rw [locks_setLock]
    exact ⟨(h.held terminal).id, nofun, nofun⟩
  · rw [next_of_replying hlock, next_of_free locks_setLock]
    exact Nat.le_refl _
  · have hne : client ≠ c := by
      rintro rfl
      rw [hconn] at hconnected
      cases hconnected
    rw [live_of_free locks_setLock] at hlive
    rw [live_of_replying hlock, next_of_replying hlock, next_of_free locks_setLock]
    exact ⟨⟨hlive, hne⟩, rfl⟩

theorem Inv.attach (h : Inv s) (hlock : s.locks terminal = .free) (client : ClientId)
    (replyId cols rows : Nat) :
    Inv (((s.setSession terminal
      ((s.sessions terminal).attach client replyId cols rows).1).setConn client
        ((s.conns client).attach terminal)).setLock terminal
          (.replying client (.reply replyId (.ok (.snapshot
            ((s.sessions terminal).attach client replyId cols rows).2.1))))) := by
  generalize hs' : Sys.setLock _ _ _ = s'
  have hsender : s'.sender = s.sender := by rw [← hs']; rfl
  have hlock' : s'.locks terminal = .replying client (.reply replyId (.ok (.snapshot
      ((s.sessions terminal).attach client replyId cols rows).2.1))) := by
    rw [← hs', locks_setLock]
  have hsession : s'.sessions terminal =
      ((s.sessions terminal).attach client replyId cols rows).1 := by
    rw [← hs', sessions_setLock, sessions_setConn, sessions_setSession]
  have hother : ∀ t, t ≠ terminal → s'.locks t = s.locks t ∧ s'.sessions t = s.sessions t := by
    intro t ht
    rw [← hs', locks_setLock_of_ne ht, sessions_setLock, sessions_setConn,
      sessions_setSession_of_ne ht]
    exact ⟨rfl, rfl⟩
  have hconn : s'.conns client = (s.conns client).attach terminal := by
    rw [← hs', conns_setLock, conns_setConn]
  have hconns : ∀ c, c ≠ client → s'.conns c = s.conns c := by
    intro c hc
    rw [← hs', conns_setLock, conns_setConn_of_ne hc, conns_setSession]
  have hoffset : (s'.sessions terminal).state.endOffset =
      (s.sessions terminal).state.endOffset := by
    rw [hsession]
    exact ((s.sessions terminal).attach_keeps replyId cols rows).2
  have hapart : Apart s.sender terminal := h.apart (by rw [hlock]; nofun) (by rw [hlock]; nofun)
  have hnot : ∀ c, ¬ s'.dropping c terminal := fun _ => Apart.not_dropping (hsender ▸ hapart)
  have hnext : ∀ c, s'.next c terminal = s.next c terminal := by
    intro c
    rw [next_of_replying hlock', next_of_free hlock, hoffset]
  clear hs'
  refine h.of_lock hsender hapart hother ?_ (fun c => ?_) (fun c => ?_) (fun c t => ?_) fun c => ?_
  · rw [hlock', hsession]
    refine ⟨(Session.attach_id _ _ _ _ _).trans (h.held terminal).id, nofun, ?_⟩
    rintro _ _ ⟨⟩
    refine ⟨?_, fun other => ⟨rfl, fun hne => if_neg ?_⟩⟩
    · rw [((s.sessions terminal).attach_keeps replyId cols rows).2]
      exact if_pos (h.held terminal).id
    · exact fun hid => hne (hid.symm.trans (h.held terminal).id)
  · by_cases hc : c = client
    · rw [hc, hconn]
      rfl
    · rw [hconns c hc]
  · by_cases hc : c = client
    · rw [hc, hconn]
      rfl
    · rw [hconns c hc]
  · by_cases hc : c = client
    · subst hc
      rw [hconn]
      by_cases ht : t = terminal
      · subst ht
        have hattached : Good ((s.conns c).attach t) t (s.next c t) False (s.dropping c t) :=
          (h.good c t).attach t nofun
        refine hattached.mono (Nat.le_of_eq (hnext c).symm) (fun hlive _ => ?_) fun hdropping =>
          absurd hdropping (hnot c)
        exact absurd rfl ((live_of_replying hlock').1 hlive).2
      · obtain ⟨hsame, hlive⟩ := @other_terminal s s' t c (hother t ht).1 (hother t ht).2
        rw [hsame]
        refine ((h.good c t).attach terminal fun hnew => ⟨hlive.1 hnew, Ne.symm ht⟩).mono
          (Nat.le_refl _) (fun hnew _ => ⟨hnew, rfl⟩) fun hnew => ?_
        exact .inr ((dropping_congr hsender (hother t ht).1).1 hnew)
    · by_cases ht : t = terminal
      · subst ht
        rw [hconns c hc]
        refine (h.good c t).mono (Nat.le_of_eq (hnext c).symm) (fun hlive _ => ⟨?_, hnext c⟩)
          fun hdropping => absurd hdropping (hnot c)
        obtain ⟨hviews, -⟩ := (live_of_replying hlock').1 hlive
        rw [hsession, Session.mem_attach] at hviews
        exact (live_of_free hlock).2 (hviews.resolve_right fun heq => hc heq.1)
      · exact h.good_other (hconns c hc) hsender (hother t ht).1 (hother t ht).2
  · by_cases hc : c = client
    · rw [hc, hconn]
      exact (h.noted client).attach
    · rw [hconns c hc]
      exact h.noted c

/-! ## The registry's lock and the writer threads -/

/-- A step that leaves the sessions and their locks as they are. -/
theorem Inv.of_conns (h : Inv s) (hsessions : s'.sessions = s.sessions)
    (hlocks : s'.locks = s.locks) (hsending : Sending s')
    (hgood : ∀ c t, Good (s'.conns c) t (s.next c t) (s.live c t) (s'.dropping c t))
    (hnoted : ∀ c, Noted (s'.conns c)) : Inv s' := by
  refine ⟨fun t => ?_, hsending, fun c t => ?_, hnoted⟩
  · rw [hsessions, hlocks]
    exact h.held t
  · obtain ⟨hnext, hlive⟩ := @other_terminal s s' t c (by rw [hlocks]) (by rw [hsessions])
    exact (hgood c t).mono (Nat.le_of_eq hnext.symm) (fun hnew _ => ⟨hlive.1 hnew, hnext⟩) .inr

/-- A step of the sender that leaves the connections as they are. -/
theorem Inv.of_sender (h : Inv s) {sender : Sender} (hsending : Sending { s with sender })
    (hdropping : ∀ c t, Sys.dropping { s with sender } c t →
      t ∈ (s.conns c).queue.resync ∨ s.dropping c t) : Inv { s with sender } :=
  h.of_conns rfl rfl hsending
    (fun c t => (h.good c t).mono (Nat.le_refl _) (fun hlive _ => ⟨hlive, rfl⟩) (hdropping c t))
    h.noted

/-- A step on one connection. -/
theorem Inv.of_conn (h : Inv s) {conn : Conn} {sender : Sender}
    (hsending : Sending { s.setConn client conn with sender })
    (hdropping : ∀ c t, Sys.dropping { s.setConn client conn with sender } c t → s.dropping c t)
    (hgood : ∀ t, Good conn t (s.next client t) (s.live client t) (s.dropping client t))
    (hnoted : Noted conn) : Inv { s.setConn client conn with sender } := by
  refine h.of_conns rfl rfl hsending (fun c t => ?_) fun c => ?_
  · have hconn : Good ((s.setConn client conn).conns c) t (s.next c t) (s.live c t)
        (s.dropping c t) := by
      by_cases hc : c = client
      · rw [hc, conns_setConn]
        exact hgood t
      · rw [conns_setConn_of_ne hc]
        exact h.good c t
    exact hconn.mono (Nat.le_refl _) (fun hlive _ => ⟨hlive, rfl⟩) fun hnew =>
      .inr (hdropping c t hnew)
  · by_cases hc : c = client
    · subst hc
      exact (@conns_setConn s c conn).symm ▸ hnoted
    · exact (@conns_setConn_of_ne s client c conn hc).symm ▸ h.noted c

/-- What is sent for a terminal goes to one client, and the registry is let go. -/
theorem Inv.of_sent (h : Inv s) {conn : Conn} {lock : Lock}
    (hs : s' = { (s.setConn client conn).setLock terminal lock with sender := .free })
    (hheld : Held terminal lock (s.sessions terminal))
    (hothers : ∀ c, c ≠ client → s'.next c terminal = s.next c terminal ∧
      (s'.live c terminal → s.live c terminal))
    (hgood : ∀ t, t ≠ terminal →
      Good conn t (s.next client t) (s.live client t) (s.dropping client t))
    (hterminal : Good conn terminal (s'.next client terminal) (s'.live client terminal) False)
    (hnoted : Noted conn) : Inv s' := by
  have hsender : s'.sender = .free := by rw [hs]
  have hnot : ∀ c t, ¬ s'.dropping c t := fun c t => Apart.not_dropping (hsender ▸ apart_free)
  have hlock : s'.locks terminal = lock := by
    rw [hs]
    exact locks_setLock
  have hother : ∀ t, t ≠ terminal → s'.locks t = s.locks t ∧ s'.sessions t = s.sessions t := by
    intro t ht
    rw [hs]
    exact ⟨locks_setLock_of_ne ht, rfl⟩
  have hsession : s'.sessions terminal = s.sessions terminal := by rw [hs]; rfl
  have hconn : s'.conns client = conn := by
    rw [hs]
    exact conns_setConn
  have hconns : ∀ c, c ≠ client → s'.conns c = s.conns c := by
    intro c hc
    rw [hs]
    exact conns_setConn_of_ne hc
  clear hs
  refine ⟨fun t => ?_, ?_, fun c t => ?_, fun c => ?_⟩
  · by_cases ht : t = terminal
    · rw [ht, hlock, hsession]
      exact hheld
    · rw [(hother t ht).1, (hother t ht).2]
      exact h.held t
  · rw [Sending, hsender]
    trivial
  · by_cases hc : c = client
    · subst hc
      rw [hconn]
      by_cases ht : t = terminal
      · rw [ht]
        exact hterminal.mono (Nat.le_refl _) (fun hlive _ => ⟨hlive, rfl⟩) fun hdropping =>
          absurd hdropping (hnot c terminal)
      · obtain ⟨hnext, hlive⟩ := @other_terminal s s' t c (hother t ht).1 (hother t ht).2
        exact (hgood t ht).mono (Nat.le_of_eq hnext.symm)
          (fun hnew _ => ⟨hlive.1 hnew, hnext⟩) fun hdropping => absurd hdropping (hnot c t)
    · rw [hconns c hc]
      by_cases ht : t = terminal
      · subst ht
        obtain ⟨hnext, hlive⟩ := hothers c hc
        exact (h.good c t).mono (Nat.le_of_eq hnext.symm)
          (fun hnew _ => ⟨hlive hnew, hnext⟩) fun hdropping => absurd hdropping (hnot c t)
      · obtain ⟨hnext, hlive⟩ := @other_terminal s s' t c (hother t ht).1 (hother t ht).2
        exact (h.good c t).mono (Nat.le_of_eq hnext.symm)
          (fun hnew _ => ⟨hlive.1 hnew, hnext⟩) fun hdropping => absurd hdropping (hnot c t)
  · by_cases hc : c = client
    · rw [hc, hconn]
      exact hnoted
    · rw [hconns c hc]
      exact h.noted c

/-! ### Output -/

section

variable {offset : Nat} {chunk : Bytes} {left : List ClientId}

/-- The chunk of a terminal has gone to one more of its views. -/
theorem Inv.of_chunk (h : Inv s) (hlock : s.locks terminal = .pumping offset chunk (client :: left))
    {conn : Conn}
    (hs : s' = { (s.setConn client conn).setLock terminal (.pumping offset chunk left) with
      sender := .free })
    (hgood : ∀ t, t ≠ terminal →
      Good conn t (s.next client t) (s.live client t) (s.dropping client t))
    (hterminal : s.live client terminal → s.next client terminal = offset →
      Good conn terminal (offset + chunk.length) (s.live client terminal) False)
    (hnoted : Noted conn) : Inv s' := by
  obtain ⟨hoffset, hlen, hnodup, hviews⟩ := (h.held terminal).pumping _ _ _ hlock
  obtain ⟨hclient, hnodup⟩ := List.nodup_cons.1 hnodup
  have hlock' : s'.locks terminal = .pumping offset chunk left := by
    rw [hs]
    exact locks_setLock
  have hsession : s'.sessions terminal = s.sessions terminal := by rw [hs]; rfl
  have hlive : ∀ c, s'.live c terminal ↔ s.live c terminal := by
    intro c
    rw [live_of_pumping hlock', live_of_pumping hlock, hsession]
  refine h.of_sent hs ⟨(h.held terminal).id, ?_, nofun⟩ (fun c hc => ⟨?_, (hlive c).1⟩) hgood ?_
    hnoted
  · rintro _ _ _ ⟨⟩
    exact ⟨hoffset, hlen, hnodup, fun c hc => hviews c (List.mem_cons_of_mem _ hc)⟩
  · rw [next_of_pumping hlock', next_of_pumping hlock, hsession]
    exact if_congr (List.mem_cons.trans (or_iff_right hc)).symm rfl rfl
  · have hnext : s.next client terminal = offset := by
      rw [next_of_pumping hlock, if_pos List.mem_cons_self]
    have hviewed : s.live client terminal :=
      (live_of_pumping hlock).2 (hviews client List.mem_cons_self)
    rw [next_of_pumping hlock', if_neg hclient, hsession, hoffset]
    exact (hterminal hviewed hnext).mono (Nat.le_refl _)
      (fun hnew _ => ⟨(hlive client).1 hnew, rfl⟩) .inr

theorem Inv.owe (h : Inv s) (hlock : s.locks terminal = .pumping offset chunk (client :: left))
    (hsender : s.sender = .output terminal .owe) :
    Inv { (s.setConn client ((s.conns client).owe terminal)).setLock terminal
      (.pumping offset chunk left) with sender := .free } := by
  refine h.of_chunk hlock rfl (fun t ht => (h.good client t).owe_other ht)
    (fun hlive hnext => ?_) (h.noted client).owe
  refine (h.good client terminal).owe hlive ⟨.inr hsender, offset, chunk, left, hlock⟩ ?_
  rw [hnext]
  exact Nat.le_add_right _ _

theorem Inv.pushOutput (h : Inv s)
    (hlock : s.locks terminal = .pumping offset chunk (client :: left))
    (hsender : s.sender = .output terminal .push) :
    Inv { (s.setConn client ((s.conns client).push (.output terminal offset chunk))).setLock
      terminal (.pumping offset chunk left) with sender := .free } := by
  have hsending := h.sending
  rw [Sending, hsender] at hsending
  obtain ⟨_, _, c, _, hsame, hconn, howed⟩ := hsending
  rw [hlock, Lock.pumping.injEq, List.cons.injEq] at hsame
  obtain ⟨rfl, rfl, rfl, rfl⟩ := hsame
  refine h.of_chunk hlock rfl
    (fun t ht => (h.good client t).push (if_neg (Ne.symm ht)) (decide_eq_false (Ne.symm ht)))
    (fun hlive hnext => ?_) ((h.noted client).push _)
  have hgood := h.good client terminal
  rw [hnext] at hgood
  exact hgood.output hlive hconn (howed (.inr (.inr rfl)))

/-- The sender has found out whether a resync is owed. -/
theorem Inv.check (h : Inv s) (hsender : s.sender = .output terminal .check)
    (hlock : s.locks terminal = .pumping offset chunk (client :: left)) :
    Inv { s with
      sender := .output terminal (.load ((s.conns client).queue.resync.contains terminal)) } := by
  have hsending := h.sending
  rw [Sending, hsender] at hsending
  obtain ⟨_, _, c, _, hsame, hconn, -⟩ := hsending
  rw [hlock, Lock.pumping.injEq, List.cons.injEq] at hsame
  obtain ⟨rfl, rfl, rfl, rfl⟩ := hsame
  refine h.of_sender ⟨offset, chunk, client, left, hlock, hconn, ?_⟩ ?_
  · rintro (hstage | hstage | hstage)
    · rw [Stage.load.injEq] at hstage
      rw [← List.contains_iff_mem, hstage]
      exact Bool.false_ne_true
    · cases hstage
    · cases hstage
  · rintro c t ⟨hstage, offset', chunk', left', hlock'⟩
    rcases hstage with hstage | hstage
    · rw [Sender.output.injEq, Stage.load.injEq] at hstage
      obtain ⟨rfl, howed⟩ := hstage
      have hsame := hlock.symm.trans hlock'
      rw [Lock.pumping.injEq, List.cons.injEq] at hsame
      obtain ⟨-, -, rfl, -⟩ := hsame
      exact .inl (List.contains_iff_mem.1 howed)
    · cases hstage

/-- The sender has found out whether the output is to be dropped. -/
theorem Inv.load (h : Inv s) {pending : Bool}
    (hsender : s.sender = .output terminal (.load pending))
    (hlock : s.locks terminal = .pumping offset chunk (client :: left)) :
    (pending = true ∨ maxQueuedBytes < (s.conns client).queue.queued + chunk.length ∧
        (s.conns client).writer ≠ .draining → Inv { s with sender := .output terminal .owe }) ∧
      (pending = false → Inv { s with sender := .output terminal .count }) := by
  have hsending := h.sending
  rw [Sending, hsender] at hsending
  obtain ⟨_, _, c, _, hsame, hconn, howed⟩ := hsending
  rw [hlock, Lock.pumping.injEq, List.cons.injEq] at hsame
  obtain ⟨rfl, rfl, rfl, rfl⟩ := hsame
  have hnew : Sending { s with sender := .output terminal .owe } :=
    ⟨offset, chunk, client, left, hlock, hconn, by rintro (hs | hs | hs) <;> cases hs⟩
  refine ⟨?_, ?_⟩
  · rintro (rfl | ⟨hover, hcalm⟩)
    · refine h.of_sender hnew ?_
      rintro c t ⟨hstage | hstage, hlocks⟩
      · cases hstage
      · cases hstage
        exact .inr ⟨.inl hsender, hlocks⟩
    · refine h.of_conns rfl rfl hnew (fun c t => ?_) h.noted
      by_cases hc : c = client ∧ t = terminal
      · obtain ⟨rfl, rfl⟩ := hc
        exact (h.good c t).overflow ((h.held t).pumping _ _ _ hlock).2.1 hover hcalm
      · refine (h.good c t).mono (Nat.le_refl _) (fun hlive _ => ⟨hlive, rfl⟩) ?_
        rintro ⟨hstage | hstage, offset', chunk', left', hlock'⟩
        · cases hstage
        · cases hstage
          have hsame := hlock.symm.trans hlock'
          rw [Lock.pumping.injEq, List.cons.injEq] at hsame
          exact absurd ⟨hsame.2.2.1.symm, rfl⟩ hc
  · rintro rfl
    refine h.of_sender ⟨offset, chunk, client, left, hlock, hconn, fun _ => howed (.inl rfl)⟩ ?_
    rintro c t ⟨hstage | hstage, -⟩ <;> cases hstage

theorem Inv.countOutput (h : Inv s) (hsender : s.sender = .output terminal .count)
    (hlock : s.locks terminal = .pumping offset chunk (client :: left)) :
    Inv { s.setConn client ((s.conns client).count (.output terminal offset chunk)) with
      sender := .output terminal .push } := by
  have hsending := h.sending
  rw [Sending, hsender] at hsending
  obtain ⟨_, _, c, _, hsame, hconn, howed⟩ := hsending
  rw [hlock, Lock.pumping.injEq, List.cons.injEq] at hsame
  obtain ⟨rfl, rfl, rfl, rfl⟩ := hsame
  refine h.of_conn ⟨offset, chunk, client, left, hlock, ?_, fun _ => ?_⟩ ?_
    (fun t => (h.good client t).count _) ((h.noted client).count _)
  · dsimp only
    rw [conns_setConn]
    exact hconn
  · dsimp only
    rw [conns_setConn]
    exact howed (.inr (.inl rfl))
  · rintro c t ⟨hstage | hstage, -⟩ <;> cases hstage

end

/-! ### Snapshots and control messages -/

theorem Inv.countReply (h : Inv s) {message : ServerMsg}
    (hlock : s.locks terminal = .replying client message) :
    Inv { s.setConn client ((s.conns client).count message) with
      sender := .reply terminal true } := by
  refine h.of_conn ⟨client, message, hlock⟩ ?_ (fun t => (h.good client t).count _)
    ((h.noted client).count _)
  rintro c t ⟨hstage | hstage, -⟩ <;> cases hstage

theorem Inv.pushReply (h : Inv s) {message : ServerMsg}
    (hlock : s.locks terminal = .replying client message) :
    Inv { (s.setConn client ((s.conns client).push message)).setLock terminal .free with
      sender := .free } := by
  obtain ⟨hstop, hmessage⟩ := (h.held terminal).replying _ _ hlock
  generalize hs' : ({ Sys.setLock _ _ _ with sender := _ } : Sys) = s'
  have hlock' : s'.locks terminal = .free := by
    rw [← hs']
    exact locks_setLock
  have hsession : s'.sessions terminal = s.sessions terminal := by rw [← hs']; rfl
  have hnext : ∀ c, s'.next c terminal = s.next c terminal := by
    intro c
    rw [next_of_free hlock', next_of_replying hlock, hsession]
  refine h.of_sent hs'.symm ⟨(h.held terminal).id, nofun, nofun⟩ (fun c hc => ⟨hnext c, ?_⟩)
    (fun t ht => (h.good client t).push ((hmessage t).2 ht) (hmessage t).1) ?_
    ((h.noted client).push _)
  · rw [live_of_free hlock', live_of_replying hlock, hsession]
    exact fun hviews => ⟨hviews, Ne.symm hc⟩
  · rw [hnext]
    rw [← @next_of_replying s terminal client _ _ hlock] at hstop
    have hsnapshot : Good ((s.conns client).push message) terminal (s.next client terminal)
        (s'.live client terminal) (s.dropping client terminal) :=
      (h.good client terminal).snapshot hstop (hmessage terminal).1
    exact hsnapshot.mono (Nat.le_refl _) (fun hlive _ => ⟨hlive, rfl⟩) False.elim

theorem Inv.control (h : Inv s) {message : ServerMsg} (hmessage : isControl message = true) :
    (∀ counted, Inv { s with sender := .control client message counted }) ∧
      Inv { s.setConn client ((s.conns client).count message) with
        sender := .control client message true } ∧
      Inv { s.setConn client ((s.conns client).push message) with sender := .free } := by
  have hkeeps := fun t => @isControl_keeps t message hmessage
  refine ⟨fun counted => h.of_sender hmessage ?_, h.of_conn hmessage ?_
    (fun t => (h.good client t).count _) ((h.noted client).count _), h.of_conn trivial ?_
    (fun t => (h.good client t).push (hkeeps t).1 (hkeeps t).2) ((h.noted client).push _)⟩
  all_goals
    rintro c t ⟨hstage | hstage, -⟩ <;> cases hstage

/-- The registry's lock is taken to send to a client that is connected. -/
theorem Inv.next (h : Inv s) {offset : Nat} {chunk : Bytes} {left : List ClientId}
    (hlock : s.locks terminal = .pumping offset chunk (client :: left))
    (hconn : (s.conns client).connected = true) :
    Inv { s with sender := .output terminal .check } := by
  refine h.of_sender ⟨offset, chunk, client, left, hlock, hconn, ?_⟩ ?_
  · rintro (hstage | hstage | hstage) <;> cases hstage
  · rintro c t ⟨hstage | hstage, -⟩ <;> cases hstage

theorem Inv.reply (h : Inv s) {message : ServerMsg}
    (hlock : s.locks terminal = .replying client message) :
    Inv { s with sender := .reply terminal false } := by
  refine h.of_sender ⟨client, message, hlock⟩ ?_
  rintro c t ⟨hstage | hstage, -⟩ <;> cases hstage

/-! ### Steps on a connection alone -/

theorem Inv.remove (h : Inv s) (hsender : s.sender = .free) (client : ClientId) :
    Inv (s.setConn client { s.conns client with connected := false }) := by
  have hsending : Sending (s.setConn client { s.conns client with connected := false }) := by
    rw [Sending, sender_setConn, hsender]
    trivial
  exact h.of_conn hsending (fun _ _ hdropping => hdropping) (fun t => (h.good client t).remove)
    (h.noted client).remove

/-- The writer thread goes on, with what it keeps of the connection. -/
theorem Inv.of_writer (h : Inv s) {conn : Conn}
    (hconnected : conn.connected = (s.conns client).connected)
    (hresync : ∀ t ∈ conn.queue.resync, t ∈ (s.conns client).queue.resync)
    (hgood : ∀ t, Good conn t (s.next client t) (s.live client t) (s.dropping client t))
    (hnoted : Noted conn) : Inv (s.setConn client conn) := by
  have hsending : Sending (s.setConn client conn) := by
    refine h.sending.congr rfl (fun _ _ _ _ _ _ => rfl) (fun _ _ _ _ => rfl) (fun c hc => ?_)
      fun c t ht => ?_
    · by_cases heq : c = client
      · subst heq
        rw [conns_setConn, hconnected]
        exact hc
      · rw [conns_setConn_of_ne heq]
        exact hc
    · by_cases heq : c = client
      · subst heq
        rw [conns_setConn] at ht
        exact hresync t ht
      · rw [conns_setConn_of_ne heq] at ht
        exact ht
  exact h.of_conn hsending (fun _ _ hdropping => hdropping) hgood hnoted

theorem Inv.write (h : Inv s) {ok : Bool} {conn : Conn}
    (hwrite : (s.conns client).write ok = some conn) : Inv (s.setConn client conn) := by
  refine h.of_writer ?_ ?_ (fun t => (h.good client t).write hwrite) ((h.noted client).write hwrite)
  · rcases write_cases hwrite with rfl | hadvances
    · rfl
    · exact hadvances.connected
  · rcases write_cases hwrite with rfl | hadvances
    · exact fun t ht => ht
    · rw [hadvances.resync]
      exact fun t ht => ht

theorem Inv.drain (h : Inv s) {order : List TerminalId} {conn : Conn}
    (hdrain : (s.conns client).drain order = some conn) : Inv (s.setConn client conn) := by
  refine h.of_writer ?_ ?_ (fun t => (h.good client t).drain (h.noted client) hdrain)
    ((h.noted client).drain hdrain)
  · obtain ⟨-, -, rfl⟩ := frames_drain hdrain
    rfl
  · obtain ⟨-, -, rfl⟩ := frames_drain hdrain
    exact nofun

/-! ## Every step, and every run -/

theorem Inv.send (h : Inv s) (hcalm : Calm s .send) (hs : s.send = some s') : Inv s' := by
  have hsending := h.sending
  rw [Sending] at hsending
  rw [Sys.send] at hs
  cases hsender : s.sender with
  | free =>
      rw [hsender] at hs
      cases hs
  | output terminal stage =>
      rw [hsender] at hs hsending
      obtain ⟨offset, chunk, client, left, hlock, -, -⟩ := hsending
      dsimp only at hs
      rw [hlock] at hs
      cases stage with
      | check =>
          cases hs
          exact h.check hsender hlock
      | load pending =>
          dsimp only at hs
          split at hs
          · next hdrop =>
              cases hs
              rw [Bool.or_eq_true, decide_eq_true_eq] at hdrop
              refine (h.load hsender hlock).1 ?_
              cases pending with
              | true => exact .inl rfl
              | false =>
                  have hover := hdrop.resolve_left Bool.false_ne_true
                  exact .inr ⟨hover, hcalm _ _ _ _ _ hsender hlock hover⟩
          · next hkeep =>
              cases hs
              rw [Bool.or_eq_true, not_or] at hkeep
              exact (h.load hsender hlock).2 (Bool.eq_false_iff.2 hkeep.1)
      | owe =>
          cases hs
          exact h.owe hlock hsender
      | count =>
          cases hs
          exact h.countOutput hsender hlock
      | push =>
          cases hs
          exact h.pushOutput hlock hsender
  | reply terminal counted =>
      rw [hsender] at hs hsending
      obtain ⟨client, message, hlock⟩ := hsending
      dsimp only at hs
      rw [hlock] at hs
      dsimp only at hs
      split at hs
      · cases hs
        exact h.pushReply hlock
      · cases hs
        exact h.countReply hlock
  | control client message counted =>
      rw [hsender] at hs hsending
      dsimp only at hs hsending
      split at hs
      · cases hs
        exact (h.control hsending).2.2
      · cases hs
        exact (h.control hsending).2.1

theorem Inv.step {a : Act} (h : Inv s) (hcalm : Calm s a) (hs : step s a = some s') : Inv s' := by
  rw [Wire.step.eq_def] at hs
  cases a with
  | pump terminal chunk order =>
      dsimp only at hs
      split at hs
      · next hlock =>
          split at hs
          · next hchunk =>
              cases hs
              exact (h.pump hlock hchunk.2.1 hchunk.2.2).print terminal chunk
          · cases hs
      · cases hs
  | next terminal =>
      dsimp only at hs
      split at hs
      · next hsender hlock =>
          split at hs
          · next hconn =>
              cases hs
              exact h.next hlock hconn
          · next hconn =>
              cases hs
              exact h.skip hsender hlock (Bool.eq_false_iff.2 hconn)
      · cases hs
  | done terminal =>
      dsimp only at hs
      split at hs
      · next hlock =>
          cases hs
          exact h.done hlock
      · cases hs
  | attach terminal client replyId cols rows =>
      dsimp only at hs
      split at hs
      · next hlock =>
          cases hs
          exact h.attach hlock client replyId cols rows
      · cases hs
  | reply terminal =>
      dsimp only at hs
      split at hs
      · next hsender hlock =>
          split at hs
          · cases hs
            exact h.reply hlock
          · next hconn =>
              cases hs
              exact h.skipReply hsender hlock (Bool.eq_false_iff.2 hconn)
      · cases hs
  | detach terminal client =>
      dsimp only at hs
      split at hs
      · next hlock =>
          cases hs
          exact h.detach hlock client
      · cases hs
  | control client message =>
      dsimp only at hs
      split at hs
      · split at hs
        · next hcontrol =>
            cases hs
            exact (h.control hcontrol.1).1 false
        · cases hs
      · cases hs
  | send => exact h.send hcalm hs
  | remove client =>
      dsimp only at hs
      split at hs
      · next hsender =>
          cases hs
          exact h.remove hsender client
      · cases hs
  | write client ok =>
      obtain ⟨conn, hwrite, rfl⟩ := Option.map_eq_some_iff.1 hs
      exact h.write hwrite
  | drain client order =>
      obtain ⟨conn, hdrain, rfl⟩ := Option.map_eq_some_iff.1 hs
      exact h.drain hdrain

theorem good_fresh : Good fresh terminal 0 False False := by
  refine ⟨fun before offset data after hframes => ?_, nofun, nofun, nofun, nofun⟩
  exact absurd hframes.symm (List.append_ne_nil_of_right_ne_nil before nofun)

theorem inv_init {specs : TerminalId → SpawnSpec} {tailBytes : Nat} {elevated : Bool}
    (hs : (machine specs tailBytes elevated).init s) : Inv s := by
  obtain ⟨hid, rfl⟩ := hs
  refine ⟨fun t => ⟨hid t, nofun, nofun⟩, trivial, fun c t => ?_, fun c => ⟨nofun, nofun, nofun⟩⟩
  refine good_fresh.mono (Nat.zero_le _) (fun hlive _ => ?_) ?_
  · exact absurd hlive.1 Std.ExtTreeMap.not_mem_empty
  · rintro ⟨hstage | hstage, -⟩ <;> cases hstage

/-- What holds of the frames of a connection and of what was noted of it makes its wire lawful. -/
theorem Inv.lawful (h : Inv s) (client : ClientId) (terminal : TerminalId) :
    Lawful (s.conns client) terminal := by
  have hordered : Ordered (s.conns client).attaches terminal (s.conns client).wire :=
    (h.good client terminal).ordered.of_append
  refine ⟨fun before offset data after hwire => (hordered before offset data after hwire).1,
    fun before offset data after hwire => ?_, fun attach hattach hsame before offset data after
      hwire hqueued hnone => ?_, fun halive drop hdrop hsame => ?_⟩
  · obtain ⟨-, n, hlast, hexcused⟩ := hordered before offset data after hwire
    refine ⟨n, hlast, fun hne => ?_⟩
    obtain ⟨front, back, hbefore, hback, -⟩ := hexcused.resolve_left hne
    exact ⟨front, back, hbefore, hback⟩
  · obtain ⟨-, n, hlast, hexact | hexcused⟩ := hordered before offset data after hwire
    · rw [hlast, hexact]
    · obtain ⟨front, back, hbefore, -, hfront⟩ := hexcused
      have hwritten : attach.written ≤ front.length :=
        hfront attach (List.mem_filter.2 ⟨hattach, decide_eq_true hqueued⟩) hsame
      refine absurd rfl (hnone (.resync terminal) ?_)
      rw [hbefore, List.drop_append_of_le_length hwritten]
      exact List.mem_append_right _ List.mem_cons_self
  · rw [← hsame]
    exact (h.noted client).owed halive drop hdrop

theorem inv_of_calm {specs : TerminalId → SpawnSpec} {tailBytes : Nat} {elevated : Bool}
    (hs : (machine specs tailBytes elevated).Reach Calm s) : Inv s :=
  hs.invariant (fun _ => inv_init) fun _ _ _ h hcalm hstep => h.step hcalm hstep

/-- The wires are lawful as long as no output overflows a queue right between the writer thread's
look at it and its taking the resyncs. -/
theorem lawful_of_calm {specs : TerminalId → SpawnSpec} {tailBytes : Nat} {elevated : Bool}
    (hs : (machine specs tailBytes elevated).Reach Calm s) (client : ClientId)
    (terminal : TerminalId) : Lawful (s.conns client) terminal :=
  (inv_of_calm hs).lawful client terminal

/-- A shell behind every terminal. -/
def shells (terminal : TerminalId) : SpawnSpec :=
  ⟨terminal, ⟨2⟩, "shell", "sh", [], "/", [], 80, 24, none, false⟩

/-- A client attaches between two chunks, and the writer thread writes what was queued. -/
theorem lawful_of_calm_attach : ∃ s : Sys, (∀ client terminal, Lawful (s.conns client) terminal) ∧
    (s.conns 7).wire.map (stop ⟨1⟩) = [some 2, some 5] := by
  obtain ⟨s, hreach, hwire⟩ := (Machine.Reach.init ⟨fun _ => rfl, rfl⟩ :
      (machine shells 4096 false).Reach Calm
        ⟨fun t => Session.spawn (shells t) 4096 false, fun _ => .free, .free, fun _ => fresh,
          fun _ => []⟩).exists_of_exec
    [.pump ⟨1⟩ [104, 105] [], .done ⟨1⟩, .attach ⟨1⟩ 7 1 80 24, .reply ⟨1⟩, .send, .send,
      .write 7 true, .pump ⟨1⟩ [106, 107, 108] [7], .next ⟨1⟩, .send, .write 7 true, .write 7 true,
      .send, .send, .send, .write 7 true, .write 7 true, .write 7 true]
    (fun s => decide ((s.conns 7).wire.map (stop ⟨1⟩) = [some 2, some 5])) (by decide +kernel)
  exact ⟨s, lawful_of_calm hreach, of_decide_eq_true hwire⟩

end Throng.Daemon.Wire
