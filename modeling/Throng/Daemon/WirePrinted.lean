import Throng.Daemon.Retained
import Throng.Daemon.WireConn

/-!
# Every frame says what was printed

Whatever is written to a client or queued for it: an output holds what its terminal printed from the
offset on that it names, and a snapshot holds what had been printed last when it was taken.
-/

namespace Throng.Daemon.Wire

/-- The data stands in the stream at the offset. -/
def StandsAt (stream : Bytes) (offset : Nat) (data : Bytes) : Prop :=
  ∃ before after, stream = before ++ (data ++ after) ∧ before.length = offset

/-- What a message tells of a terminal's output agrees with what was printed. -/
def Says (printed : TerminalId → Bytes) : ServerMsg → Prop
  | .output terminal offset data => StandsAt (printed terminal) offset data
  | .reply _ (.ok (.snapshot s)) =>
      ∃ offset, StandsAt (printed s.terminal) offset s.tail ∧ offset + s.tail.length = s.endOffset
  | _ => True

def LockSays (printed : TerminalId → Bytes) (terminal : TerminalId) : Lock → Prop
  | .free => True
  | .pumping offset chunk _ => StandsAt (printed terminal) offset chunk
  | .replying _ message => Says printed message

def SenderSays : Sender → Prop
  | .control _ message _ => isControl message = true
  | _ => True

/-- What a session keeps of its output, and under which name. -/
def kept (session : Session) : TerminalId × Bytes × Nat :=
  (session.id, session.state.tail, session.state.endOffset)

structure Faithful (s : Sys) : Prop where
  id : ∀ terminal, (s.sessions terminal).id = terminal
  ends : ∀ terminal, (s.printed terminal).length = (s.sessions terminal).state.endOffset
  tail : ∀ terminal, (s.sessions terminal).state.tail <:+ s.printed terminal
  locks : ∀ terminal, LockSays s.printed terminal (s.locks terminal)
  sender : SenderSays s.sender
  frames : ∀ client, ∀ frame ∈ (s.conns client).frames, Says s.printed frame

variable {printed printed' : TerminalId → Bytes} {s s' : Sys} {terminal : TerminalId}
  {client : ClientId} {message : ServerMsg}

/-! ## Printing more -/

theorem StandsAt.grow {stream stream' data : Bytes} {offset : Nat} (h : StandsAt stream offset data)
    (hmore : stream <+: stream') : StandsAt stream' offset data := by
  obtain ⟨before, after, rfl, hoffset⟩ := h
  obtain ⟨more, rfl⟩ := hmore
  exact ⟨before, after ++ more, by simp only [List.append_assoc], hoffset⟩

theorem Says.grow (h : Says printed message) (hmore : ∀ t, printed t <+: printed' t) :
    Says printed' message := by
  cases message with
  | output t offset data => exact StandsAt.grow h (hmore t)
  | reply id result =>
      cases result with
      | error reason => trivial
      | ok reply =>
          cases reply with
          | snapshot snapshot =>
              obtain ⟨offset, hstands, hend⟩ := h
              exact ⟨offset, hstands.grow (hmore _), hend⟩
          | _ => trivial
  | _ => trivial

theorem LockSays.grow {lock : Lock} (h : LockSays printed terminal lock)
    (hmore : ∀ t, printed t <+: printed' t) : LockSays printed' terminal lock := by
  cases lock with
  | free => trivial
  | pumping offset chunk left => exact StandsAt.grow h (hmore terminal)
  | replying c m => exact Says.grow h hmore

theorem says_of_isControl (h : isControl message = true) : Says printed message := by
  cases message with
  | output t offset data => cases h
  | reply id result =>
      cases result with
      | error reason => trivial
      | ok reply =>
          cases reply with
          | snapshot snapshot => cases h
          | _ => trivial
  | _ => trivial

/-! ## Steps -/

/-- A step that prints nothing and leaves what the sessions keep of their output. -/
theorem Faithful.keep (h : Faithful s) (hprinted : s'.printed = s.printed)
    (hsessions : ∀ t, kept (s'.sessions t) = kept (s.sessions t))
    (hlocks : ∀ t, s'.locks t = s.locks t ∨ LockSays s.printed t (s'.locks t))
    (hsender : SenderSays s'.sender)
    (hframes : ∀ c, ∀ frame ∈ (s'.conns c).frames,
      frame ∈ (s.conns c).frames ∨ Says s.printed frame) : Faithful s' := by
  simp only [kept, Prod.mk.injEq] at hsessions
  refine ⟨fun t => ?_, fun t => ?_, fun t => ?_, fun t => ?_, hsender, fun c frame hframe => ?_⟩
  · rw [(hsessions t).1]
    exact h.id t
  · rw [hprinted, (hsessions t).2.2]
    exact h.ends t
  · rw [hprinted, (hsessions t).2.1]
    exact h.tail t
  · rw [hprinted]
    rcases hlocks t with hlock | hlock
    · rw [hlock]
      exact h.locks t
    · exact hlock
  · rw [hprinted]
    exact (hframes c frame hframe).elim (h.frames c frame) fun hsaid => hsaid

/-- A step on one connection and one lock. -/
theorem Faithful.keep_conn (h : Faithful s) {conn : Conn} (hsessions : s'.sessions = s.sessions)
    (hprinted : s'.printed = s.printed)
    (hlocks : ∀ t, s'.locks t = s.locks t ∨ LockSays s.printed t (s'.locks t))
    (hsender : SenderSays s'.sender) (hconns : s'.conns = Function.update s.conns client conn)
    (hframes : ∀ frame ∈ conn.frames, frame ∈ (s.conns client).frames ∨ Says s.printed frame) :
    Faithful s' := by
  refine h.keep hprinted (fun t => ?_) hlocks hsender fun c frame hframe => ?_
  · rw [hsessions]
  · rw [hconns] at hframe
    by_cases hc : c = client
    · subst hc
      rw [Function.update_self] at hframe
      exact hframes frame hframe
    · rw [Function.update_of_ne hc] at hframe
      exact .inl hframe

theorem mem_frames_push {conn : Conn} {frame : ServerMsg} (h : frame ∈ (conn.push message).frames) :
    frame ∈ conn.frames ∨ frame = message := by
  rcases @frames_push conn message with ⟨-, hframes⟩ | ⟨-, hframes⟩
  · rw [hframes] at h
    exact .inl h
  · rw [hframes] at h
    exact (List.mem_append.1 h).imp_right List.mem_singleton.1

theorem mem_frames_write {conn conn' : Conn} {ok : Bool} (hwrite : conn.write ok = some conn')
    {frame : ServerMsg} (h : frame ∈ conn'.frames) : frame ∈ conn.frames := by
  rcases write_cases hwrite with rfl | hadvances
  · rw [Conn.frames, Conn.upcoming, List.append_nil] at h
    exact List.mem_append_left _ h
  · rw [hadvances.frames] at h
    exact h

theorem mem_frames_drain {conn conn' : Conn} {order : List TerminalId}
    (hdrain : conn.drain order = some conn') {frame : ServerMsg} (h : frame ∈ conn'.frames) :
    frame ∈ conn.frames ∨ Says printed frame := by
  obtain ⟨hwriter, -, rfl⟩ := frames_drain hdrain
  rw [Conn.frames, Conn.upcoming, hwriter]
  rcases List.mem_append.1 h with hwire | hnext
  · exact .inl (List.mem_append_left _ hwire)
  · rcases List.mem_append.1 hnext with hresync | hrx
    · obtain ⟨t, -, rfl⟩ := List.mem_map.1 hresync
      exact .inr trivial
    · exact .inl (List.mem_append_right _ hrx)

/-- What a snapshot holds is what was printed last. -/
theorem Faithful.snapshot (h : Faithful s) (terminal : TerminalId) (replyId : Nat) :
    Says s.printed (.reply replyId (.ok (.snapshot (s.sessions terminal).snapshot))) := by
  obtain ⟨before, hbefore⟩ := h.tail terminal
  refine ⟨before.length, ⟨before, [], ?_, rfl⟩, ?_⟩
  · rw [List.append_nil]
    change s.printed (s.sessions terminal).id = _
    rw [h.id]
    exact hbefore.symm
  · rw [← List.length_append]
    change (before ++ (s.sessions terminal).state.tail).length = _
    rw [hbefore]
    exact h.ends terminal

theorem Faithful.pump (h : Faithful s) {chunk : Bytes} {left : List ClientId} :
    Faithful (((s.setSession terminal ((s.sessions terminal).pumpOutput chunk)).setLock terminal
      (.pumping (s.sessions terminal).state.endOffset chunk left)).print terminal chunk) := by
  have hmore : ∀ t, s.printed t <+:
      Function.update s.printed terminal (s.printed terminal ++ chunk) t := by
    intro t
    by_cases ht : t = terminal
    · subst ht
      rw [Function.update_self]
      exact List.prefix_append _ _
    · rw [Function.update_of_ne ht]
  refine ⟨fun t => ?_, fun t => ?_, fun t => ?_, fun t => ?_, h.sender, fun c frame hframe =>
    (h.frames c frame hframe).grow hmore⟩
  · by_cases ht : t = terminal
    · subst ht
      simp only [Sys.print, Sys.setLock, Sys.setSession, Function.update_self]
      exact h.id t
    · simp only [Sys.print, Sys.setLock, Sys.setSession, Function.update_of_ne ht]
      exact h.id t
  · by_cases ht : t = terminal
    · subst ht
      simp only [Sys.print, Sys.setLock, Sys.setSession, Function.update_self, List.length_append,
        h.ends]
      rfl
    · simp only [Sys.print, Sys.setLock, Sys.setSession, Function.update_of_ne ht]
      exact h.ends t
  · by_cases ht : t = terminal
    · subst ht
      simp only [Sys.print, Sys.setLock, Sys.setSession, Function.update_self]
      have htail : (s.sessions t).state.tail ++ chunk <:+ s.printed t ++ chunk := by
        obtain ⟨before, hbefore⟩ := h.tail t
        exact ⟨before, by rw [← List.append_assoc, hbefore]⟩
      rcases State.push_tail (s.sessions t).state chunk with ⟨hpush, -⟩ | ⟨hpush, -⟩
      · exact hpush ▸ htail
      · exact hpush ▸ (List.drop_suffix _ _).trans htail
    · simp only [Sys.print, Sys.setLock, Sys.setSession, Function.update_of_ne ht]
      exact h.tail t
  · by_cases ht : t = terminal
    · subst ht
      simp only [Sys.print, Sys.setLock, Sys.setSession, Function.update_self]
      refine ⟨s.printed t, [], ?_, h.ends t⟩
      rw [Function.update_self, List.append_nil]
    · simp only [Sys.print, Sys.setLock, Sys.setSession, Function.update_of_ne ht]
      exact (h.locks t).grow hmore

/-- One lock is let go, or goes on to the views that are left. -/
theorem locks_set {lock : Lock} (hlock : LockSays s.printed terminal lock) (t : TerminalId) :
    Function.update s.locks terminal lock t = s.locks t ∨
      LockSays s.printed t (Function.update s.locks terminal lock t) := by
  by_cases ht : t = terminal
  · subst ht
    rw [Function.update_self]
    exact .inr hlock
  · rw [Function.update_of_ne ht]
    exact .inl rfl

/-- A session that is attached to or detached from keeps what it has of its output. -/
theorem kept_attach (session : Session) (replyId cols rows : Nat) :
    kept (session.attach client replyId cols rows).1 = kept session := by
  have hbytes := @Life.bytes_act ⟨session, []⟩ (.attach client replyId cols rows) nofun
  simp only [Life.bytes, Life.act, Prod.mk.injEq] at hbytes
  rw [kept, kept, Session.attach_id, hbytes.1, hbytes.2.1]

theorem kept_detach (session : Session) : kept (session.detach client) = kept session := by
  have hbytes := @Life.bytes_act ⟨session, []⟩ (.detach client) nofun
  simp only [Life.bytes, Life.act, Prod.mk.injEq] at hbytes
  rw [kept, kept, Session.detach_id, hbytes.1, hbytes.2.1]

theorem Faithful.send (h : Faithful s) (hs : s.send = some s') : Faithful s' := by
  have hlocks := h.locks
  have hsender := h.sender
  have hpush : ∀ {m : ServerMsg} {c : ClientId}, Says s.printed m →
      ∀ frame ∈ ((s.conns c).push m).frames, frame ∈ (s.conns c).frames ∨ Says s.printed frame :=
    fun hsaid frame hframe => (mem_frames_push hframe).imp_right (by rintro rfl; exact hsaid)
  rw [Sys.send] at hs
  split at hs
  · cases hs
  · next t stage hstage =>
      split at hs
      · next offset chunk c left hlock =>
          have hchunk := hlocks t
          rw [hlock] at hchunk
          cases stage with
          | check =>
              cases hs
              exact h.keep rfl (fun _ => rfl) (fun _ => .inl rfl) trivial fun _ _ => .inl
          | load pending =>
              dsimp only at hs
              split at hs
              · cases hs
                exact h.keep rfl (fun _ => rfl) (fun _ => .inl rfl) trivial fun _ _ => .inl
              · cases hs
                exact h.keep rfl (fun _ => rfl) (fun _ => .inl rfl) trivial fun _ _ => .inl
          | owe =>
              cases hs
              exact h.keep_conn rfl rfl (locks_set hchunk) trivial rfl fun _ => .inl
          | count =>
              cases hs
              exact h.keep_conn rfl rfl (fun _ => .inl rfl) trivial rfl fun _ => .inl
          | push =>
              cases hs
              exact h.keep_conn rfl rfl (locks_set hchunk) trivial rfl (hpush hchunk)
      · cases hs
  · next t counted hstage =>
      split at hs
      · next c m hlock =>
          have hsaid := hlocks t
          rw [hlock] at hsaid
          dsimp only at hs
          split at hs
          · cases hs
            exact h.keep_conn rfl rfl (locks_set trivial) trivial rfl (hpush hsaid)
          · cases hs
            exact h.keep_conn rfl rfl (fun _ => .inl rfl) trivial rfl fun _ => .inl
      · cases hs
  · next c m counted hstage =>
      rw [hstage] at hsender
      dsimp only at hs
      split at hs
      · cases hs
        exact h.keep_conn rfl rfl (fun _ => .inl rfl) trivial rfl
          (hpush (says_of_isControl hsender))
      · cases hs
        exact h.keep_conn rfl rfl (fun _ => .inl rfl) hsender rfl fun _ => .inl

theorem Faithful.step {a : Act} (h : Faithful s) (hs : step s a = some s') : Faithful s' := by
  have hsession : ∀ {t : TerminalId} {session : Session}, kept session = kept (s.sessions t) →
      ∀ t', kept (Function.update s.sessions t session t') = kept (s.sessions t') := by
    intro t session hkept t'
    by_cases ht : t' = t
    · subst ht
      rw [Function.update_self]
      exact hkept
    · rw [Function.update_of_ne ht]
  rw [Wire.step.eq_def] at hs
  cases a with
  | pump terminal chunk order =>
      dsimp only at hs
      split at hs
      · split at hs
        · cases hs
          exact h.pump
        · cases hs
      · cases hs
  | next terminal =>
      dsimp only at hs
      split at hs
      · next hsender hlock =>
          have hchunk := h.locks terminal
          rw [hlock] at hchunk
          split at hs
          · cases hs
            exact h.keep rfl (fun _ => rfl) (fun _ => .inl rfl) trivial fun _ _ => .inl
          · cases hs
            exact h.keep rfl (fun _ => rfl) (locks_set hchunk) h.sender fun _ _ => .inl
      · cases hs
  | done terminal =>
      dsimp only at hs
      split at hs
      · cases hs
        exact h.keep rfl (fun _ => rfl) (locks_set trivial) h.sender fun _ _ => .inl
      · cases hs
  | attach terminal client replyId cols rows =>
      dsimp only at hs
      split at hs
      · cases hs
        refine h.keep rfl (hsession (kept_attach _ replyId cols rows))
          (locks_set (h.snapshot terminal replyId)) h.sender fun c frame hframe => .inl ?_
        simp only [Sys.setLock, Sys.setConn, Sys.setSession] at hframe
        by_cases hc : c = client
        · subst hc
          rw [Function.update_self] at hframe
          exact hframe
        · rw [Function.update_of_ne hc] at hframe
          exact hframe
      · cases hs
  | reply terminal =>
      dsimp only at hs
      split at hs
      · split at hs
        · cases hs
          exact h.keep rfl (fun _ => rfl) (fun _ => .inl rfl) trivial fun _ _ => .inl
        · cases hs
          exact h.keep rfl (fun _ => rfl) (locks_set trivial) h.sender fun _ _ => .inl
      · cases hs
  | detach terminal client =>
      dsimp only at hs
      split at hs
      · cases hs
        exact h.keep rfl (hsession (kept_detach _)) (fun _ => .inl rfl) h.sender fun _ _ => .inl
      · cases hs
  | control client message =>
      dsimp only at hs
      split at hs
      · split at hs
        · next hcontrol =>
            cases hs
            exact h.keep rfl (fun _ => rfl) (fun _ => .inl rfl) hcontrol.1 fun _ _ => .inl
        · cases hs
      · cases hs
  | send => exact h.send hs
  | remove client =>
      dsimp only at hs
      split at hs
      · cases hs
        exact h.keep_conn rfl rfl (fun _ => .inl rfl) h.sender rfl fun _ => .inl
      · cases hs
  | write client ok =>
      obtain ⟨conn, hwrite, rfl⟩ := Option.map_eq_some_iff.1 hs
      exact h.keep_conn rfl rfl (fun _ => .inl rfl) h.sender rfl fun frame hframe =>
        .inl (mem_frames_write hwrite hframe)
  | drain client order =>
      obtain ⟨conn, hdrain, rfl⟩ := Option.map_eq_some_iff.1 hs
      exact h.keep_conn rfl rfl (fun _ => .inl rfl) h.sender rfl fun frame hframe =>
        mem_frames_drain hdrain hframe

/-- In every run every frame says what was printed. -/
theorem faithful_of_reach {specs : TerminalId → SpawnSpec} {tailBytes : Nat} {elevated : Bool}
    {ok : Sys → Act → Prop} (hs : (machine specs tailBytes elevated).Reach ok s) : Faithful s := by
  refine hs.invariant (fun s hs => ?_) fun _ _ _ h _ hstep => h.step hstep
  obtain ⟨hid, rfl⟩ := hs
  exact ⟨hid, fun _ => rfl, fun _ => List.suffix_refl _, fun _ => trivial, trivial, fun _ => nofun⟩

end Throng.Daemon.Wire
