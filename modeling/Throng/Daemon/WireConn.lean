import Throng.Daemon.WireFrames

/-!
# One connection and one terminal

What a connection is to keep for a terminal while its writer thread goes on and while messages
are queued. The session has an end of its own for the connection: up to there its output has been
sent to the client or dropped.
-/

namespace Throng.Daemon.Wire

/-- What holds of a connection for a terminal. The terminal's output has been sent up to `next`; it
is `live` while it goes to the client, and an output is being dropped while it is `dropping`. -/
structure Good (conn : Conn) (terminal : TerminalId) (next : Nat)
    (live dropping : Prop) : Prop where
  ordered : Ordered conn.attaches terminal conn.frames
  bound : ∀ frame ∈ conn.frames, ∀ n, stop terminal frame = some n → n ≤ next
  shown : live → conn.connected = true → conn.writer ≠ .gone →
    ∃ n, last terminal conn.frames = some n ∧
      (n = next ∨ terminal ∈ conn.queue.resync ∨ Resynced conn.attaches terminal conn.frames)
  loading : conn.writer = .loading → terminal ∈ conn.queue.resync ∨ dropping →
    (∀ frame ∈ conn.queue.rx, isOutput terminal frame = false) ∨
      maxQueuedBytes / 2 < conn.queue.queued
  draining : conn.writer = .draining → terminal ∈ conn.queue.resync ∨ dropping →
    ∀ frame ∈ conn.queue.rx, isOutput terminal frame = false

/-- What was noted of a connection. -/
structure Noted (conn : Conn) : Prop where
  attaches : ∀ attach ∈ conn.attaches, attach.written ≤ conn.wire.length
  drops : ∀ drop ∈ conn.drops, drop.written ≤ conn.wire.length
  owed : conn.writer ≠ .gone → ∀ drop ∈ conn.drops, drop.terminal ∈ conn.queue.resync ∨
    ∃ front back, conn.wire ++ conn.taken = front ++ .resync drop.terminal :: back ∧
      drop.written ≤ front.length

variable {conn conn' : Conn} {terminal : TerminalId} {next next' : Nat}
  {live live' dropping dropping' : Prop}

/-! ## The writer thread -/

/-- The writer thread has neither a message nor resyncs in its hands. -/
def Writer.plain : Writer → Bool
  | .writing _ => false
  | .resyncing _ => false
  | .gone => false
  | _ => true

theorem frames_plain (h : conn.writer.plain = true) : conn.frames = conn.wire ++ conn.queue.rx := by
  rw [Conn.frames, Conn.upcoming]
  cases hwriter : conn.writer with
  | writing message =>
      rw [hwriter] at h
      cases h
  | resyncing left =>
      rw [hwriter] at h
      cases h
  | gone =>
      rw [hwriter] at h
      cases h
  | _ => rfl

theorem taken_plain (h : conn.writer.plain = true) : conn.taken = [] := by
  rw [Conn.taken]
  cases hwriter : conn.writer with
  | resyncing left =>
      rw [hwriter] at h
      cases h
  | _ => rfl

/-- A step of the writer thread that leaves the frames as they are. -/
structure Advances (conn conn' : Conn) : Prop where
  alive : conn.writer ≠ .gone
  frames : conn'.frames = conn.frames
  attaches : conn'.attaches = conn.attaches
  drops : conn'.drops = conn.drops
  connected : conn'.connected = conn.connected
  resync : conn'.queue.resync = conn.queue.resync
  wire : conn.wire <+: conn'.wire
  taken : conn.wire ++ conn.taken <+: conn'.wire ++ conn'.taken
  loading : conn'.writer = .loading → conn'.queue.rx = []
  draining : conn'.writer = .draining → conn.writer = .loading ∧
    conn'.queue.rx = conn.queue.rx ∧ conn.queue.queued ≤ maxQueuedBytes / 2

/-- A step from one plain place to another. -/
theorem advances_plain (h : conn.writer.plain = true) (h' : conn'.writer.plain = true)
    (hwire : conn'.wire = conn.wire) (hrx : conn'.queue.rx = conn.queue.rx)
    (hattaches : conn'.attaches = conn.attaches) (hdrops : conn'.drops = conn.drops)
    (hconnected : conn'.connected = conn.connected)
    (hresync : conn'.queue.resync = conn.queue.resync)
    (hloading : conn'.writer = .loading → conn'.queue.rx = [])
    (hdraining : conn'.writer = .draining → conn.writer = .loading ∧
      conn.queue.queued ≤ maxQueuedBytes / 2) : Advances conn conn' where
  alive hgone := by
    rw [hgone] at h
    cases h
  frames := by rw [frames_plain h, frames_plain h', hwire, hrx]
  attaches := hattaches
  drops := hdrops
  connected := hconnected
  resync := hresync
  wire := hwire ▸ List.prefix_refl _
  taken := by
    have htaken : conn.wire ++ conn.taken = conn'.wire ++ conn'.taken := by
      rw [taken_plain h, taken_plain h', hwire]
    exact htaken ▸ List.prefix_refl _
  loading := hloading
  draining hwriter := ⟨(hdraining hwriter).1, hrx, (hdraining hwriter).2⟩

theorem write_cases {ok : Bool} (hwrite : conn.write ok = some conn') :
    conn' = { conn with writer := .gone } ∨ Advances conn conn' := by
  cases hwriter : conn.writer with
  | receiving =>
      have hplain : conn.writer.plain = true := by rw [hwriter]; rfl
      rw [Conn.write, hwriter] at hwrite
      cases hrx : conn.queue.rx with
      | nil =>
          rw [hrx] at hwrite
          cases ok with
          | true =>
              cases hwrite
              exact .inr (advances_plain hplain rfl rfl rfl rfl rfl rfl rfl (fun _ => hrx) nofun)
          | false =>
              cases hwrite
              exact .inl rfl
      | cons message rx =>
          rw [hrx] at hwrite
          cases hwrite
          refine .inr ⟨by rw [hwriter]; nofun, ?_, rfl, rfl, rfl, rfl, List.prefix_refl _, ?_,
            nofun, nofun⟩
          · rw [frames_plain hplain, hrx]
            rfl
          · rw [taken_plain hplain]
            exact List.prefix_refl _
  | writing message =>
      rw [Conn.write, hwriter] at hwrite
      cases ok with
      | true =>
          cases hwrite
          refine .inr ⟨by rw [hwriter]; nofun, ?_, rfl, rfl, rfl, rfl, List.prefix_append _ _, ?_,
            nofun, nofun⟩
          · rw [Conn.frames, Conn.upcoming, Conn.frames, Conn.upcoming, hwriter]
            exact List.append_assoc _ _ _
          · rw [Conn.taken, Conn.taken, hwriter, List.append_nil, List.append_nil]
            exact List.prefix_append _ _
      | false =>
          cases hwrite
          exact .inl rfl
  | counting message =>
      rw [Conn.write, hwriter] at hwrite
      cases hwrite
      exact .inr (advances_plain (by rw [hwriter]; rfl) rfl rfl rfl rfl rfl rfl rfl nofun nofun)
  | checking =>
      have hplain : conn.writer.plain = true := by rw [hwriter]; rfl
      rw [Conn.write, hwriter] at hwrite
      by_cases hrx : conn.queue.rx = []
      · rw [if_pos hrx] at hwrite
        cases hwrite
        exact .inr (advances_plain hplain rfl rfl rfl rfl rfl rfl rfl (fun _ => hrx) nofun)
      · rw [if_neg hrx] at hwrite
        cases hwrite
        exact .inr (advances_plain hplain rfl rfl rfl rfl rfl rfl rfl nofun nofun)
  | loading =>
      have hplain : conn.writer.plain = true := by rw [hwriter]; rfl
      rw [Conn.write, hwriter] at hwrite
      by_cases hqueued : conn.queue.queued > maxQueuedBytes / 2
      · rw [if_pos hqueued] at hwrite
        cases hwrite
        exact .inr (advances_plain hplain rfl rfl rfl rfl rfl rfl rfl nofun nofun)
      · rw [if_neg hqueued] at hwrite
        cases hwrite
        exact .inr (advances_plain hplain rfl rfl rfl rfl rfl rfl rfl nofun
          fun _ => ⟨hwriter, Nat.not_lt.1 hqueued⟩)
  | draining =>
      rw [Conn.write, hwriter] at hwrite
      cases hwrite
  | resyncing left =>
      rw [Conn.write, hwriter] at hwrite
      cases left with
      | nil =>
          cases hwrite
          refine .inr ⟨by rw [hwriter]; nofun, ?_, rfl, rfl, rfl, rfl, List.prefix_refl _, ?_,
            nofun, nofun⟩
          · rw [Conn.frames, Conn.upcoming, Conn.frames, Conn.upcoming, hwriter]
            rfl
          · rw [Conn.taken, Conn.taken, hwriter]
            exact List.prefix_refl _
      | cons t left =>
          cases ok with
          | true =>
              cases hwrite
              refine .inr ⟨by rw [hwriter]; nofun, ?_, rfl, rfl, rfl, rfl,
                List.prefix_append _ _, ?_, nofun, nofun⟩
              · rw [Conn.frames, Conn.upcoming, Conn.frames, Conn.upcoming, hwriter]
                exact List.append_assoc _ _ _
              · rw [Conn.taken, Conn.taken, hwriter, List.append_assoc]
                exact List.prefix_refl _
          | false =>
              cases hwrite
              exact .inl rfl
  | gone =>
      rw [Conn.write, hwriter] at hwrite
      cases hwrite

/-- The connection is lost: what it has carried stays. -/
theorem Good.lost (h : Good conn terminal next live dropping) :
    Good { conn with writer := .gone } terminal next live dropping := by
  have hframes : ({ conn with writer := .gone } : Conn).frames = conn.wire := List.append_nil _
  refine ⟨?_, ?_, fun _ _ hne => absurd rfl hne, nofun, nofun⟩
  · rw [hframes]
    exact Ordered.of_append h.ordered
  · rw [hframes]
    exact fun frame hframe => h.bound frame (List.mem_append_left _ hframe)

theorem Good.write {ok : Bool} (h : Good conn terminal next live dropping)
    (hwrite : conn.write ok = some conn') : Good conn' terminal next live dropping := by
  rcases write_cases hwrite with rfl | hadvances
  · exact h.lost
  · refine ⟨?_, ?_, ?_, fun hwriter _ => ?_, fun hwriter hdrop => ?_⟩
    · rw [hadvances.frames, hadvances.attaches]
      exact h.ordered
    · rw [hadvances.frames]
      exact h.bound
    · rw [hadvances.frames, hadvances.attaches, hadvances.connected, hadvances.resync]
      exact fun hlive hconn _ => h.shown hlive hconn hadvances.alive
    · left
      rw [hadvances.loading hwriter]
      exact nofun
    · obtain ⟨hloading, hrx, hqueued⟩ := hadvances.draining hwriter
      rw [hadvances.resync] at hdrop
      rw [hrx]
      exact (h.loading hloading hdrop).resolve_right (Nat.not_lt.2 hqueued)

theorem Noted.write {ok : Bool} (h : Noted conn) (hwrite : conn.write ok = some conn') :
    Noted conn' := by
  rcases write_cases hwrite with rfl | hadvances
  · exact ⟨h.attaches, h.drops, fun hne => absurd rfl hne⟩
  · refine ⟨?_, ?_, ?_⟩
    · rw [hadvances.attaches]
      exact fun attach hattach =>
      Nat.le_trans (h.attaches attach hattach) hadvances.wire.length_le
    · rw [hadvances.drops]
      exact fun drop hdrop => Nat.le_trans (h.drops drop hdrop) hadvances.wire.length_le
    · rw [hadvances.drops, hadvances.resync]
      refine fun _ drop hdrop => (h.owed hadvances.alive drop hdrop).imp_right ?_
      rintro ⟨front, back, hframes, hwritten⟩
      obtain ⟨more, hmore⟩ := hadvances.taken
      refine ⟨front, back ++ more, ?_, hwritten⟩
      rw [← hmore, hframes, List.append_assoc, List.cons_append]

theorem frames_drain {order : List TerminalId} (hdrain : conn.drain order = some conn') :
    conn.writer = .draining ∧ order.Perm conn.queue.resync ∧
      conn' = { conn with
        queue := { conn.queue with resync := [] }, writer := .resyncing order } := by
  rw [Conn.drain] at hdrain
  split at hdrain
  · next hcond =>
      cases hdrain
      exact ⟨hcond.1, hcond.2, rfl⟩
  · cases hdrain

theorem Good.drain {order : List TerminalId} (h : Good conn terminal next live dropping)
    (hnoted : Noted conn) (hdrain : conn.drain order = some conn') :
    Good conn' terminal next live dropping := by
  obtain ⟨hwriter, hperm, rfl⟩ := frames_drain hdrain
  have hframes : conn.frames = conn.wire ++ conn.queue.rx := by
    rw [Conn.frames, Conn.upcoming, hwriter]
  have hordered := h.ordered
  have hbound := h.bound
  rw [hframes] at hordered hbound
  refine ⟨hordered.insert order hnoted.attaches, fun frame hframe n hn => ?_,
    fun hlive hconn _ => ?_, nofun, nofun⟩
  · rcases List.mem_append.1 hframe with hframe | hframe
    · exact hbound frame (List.mem_append_left _ hframe) n hn
    · rcases List.mem_append.1 hframe with hframe | hframe
      · rw [(stop_resync order frame hframe).1] at hn
        cases hn
      · exact hbound frame (List.mem_append_right _ hframe) n hn
  · obtain ⟨n, hlast, hnext⟩ := h.shown hlive hconn (by rw [hwriter]; nofun)
    rw [hframes] at hlast hnext
    refine ⟨n, (last_insert order).trans hlast, ?_⟩
    rcases hnext with hnext | howed | hresynced
    · exact .inl hnext
    · exact .inr (.inr (resynced_taken (hperm.mem_iff.2 howed)
        (h.draining hwriter (.inl howed)) hnoted.attaches))
    · exact .inr (.inr (hresynced.insert order hnoted.attaches))

theorem Noted.drain {order : List TerminalId} (h : Noted conn)
    (hdrain : conn.drain order = some conn') : Noted conn' := by
  obtain ⟨hwriter, hperm, rfl⟩ := frames_drain hdrain
  refine ⟨h.attaches, h.drops, fun _ drop hdrop => .inr ?_⟩
  rcases h.owed (by rw [hwriter]; nofun) drop hdrop with howed | ⟨front, back, hframes, hwritten⟩
  · obtain ⟨before, after, rfl⟩ := List.append_of_mem (hperm.mem_iff.2 howed)
    refine ⟨conn.wire ++ before.map .resync, after.map .resync, ?_, ?_⟩
    · show conn.wire ++ (before ++ drop.terminal :: after).map ServerMsg.resync = _
      rw [List.map_append, List.map_cons, List.append_assoc]
    · rw [List.length_append]
      exact Nat.le_add_right_of_le (h.drops drop hdrop)
  · rw [taken_plain (by rw [hwriter]; rfl), List.append_nil] at hframes
    refine ⟨front, back ++ order.map .resync, ?_, hwritten⟩
    show conn.wire ++ order.map ServerMsg.resync = _
    rw [hframes, List.append_assoc, List.cons_append]

/-! ## What is queued -/

/-- What a change of the session's end, of its views or of the sender comes to. -/
theorem Good.mono (h : Good conn terminal next live dropping) (hnext : next ≤ next')
    (hlive : live' → conn.connected = true → live ∧ next' = next)
    (hdropping : dropping' → terminal ∈ conn.queue.resync ∨ dropping) :
    Good conn terminal next' live' dropping' := by
  refine ⟨h.ordered, fun frame hframe n hn => Nat.le_trans (h.bound frame hframe n hn) hnext, ?_,
    ?_, ?_⟩
  · intro hnew hconn hne
    obtain ⟨hold, hsame⟩ := hlive hnew hconn
    rw [hsame]
    exact h.shown hold hconn hne
  · exact fun hwriter hdrop => h.loading hwriter (hdrop.elim .inl hdropping)
  · exact fun hwriter hdrop => h.draining hwriter (hdrop.elim .inl hdropping)

theorem Good.count (h : Good conn terminal next live dropping) (message : ServerMsg) :
    Good (conn.count message) terminal next live dropping :=
  ⟨h.ordered, h.bound, h.shown, fun hwriter hdrop => (h.loading hwriter hdrop).imp_right
    fun hlt => Nat.lt_add_right _ hlt, h.draining⟩

/-- Output is found too much for the client. -/
theorem Good.overflow {size : Nat} (h : Good conn terminal next live dropping)
    (hsize : size ≤ readBytes) (hover : maxQueuedBytes < conn.queue.queued + size)
    (hcalm : conn.writer ≠ .draining) : Good conn terminal next live dropping' := by
  refine ⟨h.ordered, h.bound, h.shown, fun _ _ => .inr ?_, fun hwriter => absurd hwriter hcalm⟩
  rw [readBytes] at hsize
  rw [maxQueuedBytes] at hover ⊢
  omega

theorem Good.remove (h : Good conn terminal next live dropping) :
    Good { conn with connected := false } terminal next live dropping :=
  ⟨h.ordered, h.bound, nofun, h.loading, h.draining⟩

theorem frames_push (message : ServerMsg) :
    conn.writer = .gone ∧ (conn.push message).frames = conn.frames ∨
      conn.writer ≠ .gone ∧ (conn.push message).frames = conn.frames ++ [message] := by
  rw [Conn.frames, Conn.upcoming, Conn.frames, Conn.upcoming]
  cases hwriter : conn.writer with
  | gone =>
      refine .inl ⟨rfl, ?_⟩
      rw [Conn.push, hwriter]
  | writing m =>
      refine .inr ⟨nofun, ?_⟩
      rw [Conn.push, hwriter]
      exact (List.append_assoc _ (_ :: _) _).symm
  | resyncing left =>
      refine .inr ⟨nofun, ?_⟩
      rw [Conn.push, hwriter]
      simp only [ClientQueue.push, List.append_assoc]
  | _ =>
      refine .inr ⟨nofun, ?_⟩
      rw [Conn.push, hwriter]
      exact (List.append_assoc _ _ _).symm

theorem rx_push {message : ServerMsg} (hmessage : isOutput terminal message = false)
    (h : ∀ frame ∈ conn.queue.rx, isOutput terminal frame = false) :
    ∀ frame ∈ (conn.push message).queue.rx, isOutput terminal frame = false := by
  intro frame hframe
  rcases List.mem_append.1 hframe with hframe | hframe
  · exact h frame hframe
  · rw [List.mem_singleton.1 hframe]
    exact hmessage

theorem mem_owe {queue : ClientQueue} {t : TerminalId} :
    t ∈ (queue.owe terminal).resync ↔ t ∈ queue.resync ∨ t = terminal := by
  rw [ClientQueue.owe]
  dsimp only
  split
  · next hmem => exact (or_iff_left_of_imp fun heq => heq ▸ hmem).symm
  · rw [List.mem_append, List.mem_singleton]

/-- A message that ends nothing of the terminal's. -/
theorem Good.push (h : Good conn terminal next live dropping) {message : ServerMsg}
    (hstop : stop terminal message = none) (hmessage : isOutput terminal message = false) :
    Good (conn.push message) terminal next live dropping := by
  have hloading := fun hwriter hdrop => (h.loading hwriter hdrop).imp_left (rx_push hmessage)
  have hdraining := fun hwriter hdrop => rx_push hmessage (h.draining hwriter hdrop)
  rcases @frames_push conn message with ⟨hgone, hframes⟩ | ⟨halive, hframes⟩
  · refine ⟨?_, ?_, fun _ _ hne => absurd hgone hne, hloading, hdraining⟩
    · rw [hframes]
      exact h.ordered
    · rw [hframes]
      exact h.bound
  · refine ⟨?_, ?_, fun hlive hconn _ => ?_, hloading, hdraining⟩
    · rw [hframes]
      exact h.ordered.append hmessage
    · rw [hframes]
      intro frame hframe n hn
      rcases List.mem_append.1 hframe with hframe | hframe
      · exact h.bound frame hframe n hn
      · rw [List.mem_singleton.1 hframe, hstop] at hn
        cases hn
    · rw [hframes, last_append_of_none hstop]
      obtain ⟨n, hlast, hnext⟩ := h.shown hlive hconn halive
      exact ⟨n, hlast, hnext.imp_right (Or.imp_right fun hr => hr.append hmessage)⟩

/-- Output of the terminal itself is queued where no resync is owed. -/
theorem Good.output {offset : Nat} {data : Bytes} (h : Good conn terminal offset live dropping)
    (hlive : live) (hconn : conn.connected = true) (howed : terminal ∉ conn.queue.resync) :
    Good (conn.push (.output terminal offset data)) terminal (offset + data.length) live False := by
  have hloading : ∀ {P : Prop}, terminal ∈ conn.queue.resync ∨ False → P :=
    fun hdrop => absurd (hdrop.resolve_right id) howed
  rcases @frames_push conn (.output terminal offset data) with ⟨hgone, hframes⟩ | ⟨halive, hframes⟩
  · refine ⟨?_, ?_, fun _ _ hne => absurd hgone hne, fun _ => hloading, fun _ => hloading⟩
    · rw [hframes]
      exact h.ordered
    · rw [hframes]
      exact fun frame hframe n hn => Nat.le_add_right_of_le (h.bound frame hframe n hn)
  · obtain ⟨n, hlast, hnext⟩ := h.shown hlive hconn halive
    refine ⟨?_, ?_, fun _ _ _ => ?_, fun _ => hloading, fun _ => hloading⟩
    · rw [hframes]
      exact h.ordered.output h.bound hlast
        (hnext.imp_right fun hr => (hr.resolve_left howed).excused)
    · rw [hframes]
      intro frame hframe m hm
      rcases List.mem_append.1 hframe with hframe | hframe
      · exact Nat.le_add_right_of_le (h.bound frame hframe m hm)
      · rw [List.mem_singleton.1 hframe, stop, if_pos rfl, Option.some.injEq] at hm
        exact Nat.le_of_eq hm.symm
    · rw [hframes]
      exact ⟨_, last_append_of_some (if_pos rfl), .inl rfl⟩

/-- A snapshot of the terminal is queued. -/
theorem Good.snapshot {message : ServerMsg} (h : Good conn terminal next live dropping)
    (hstop : stop terminal message = some next) (hmessage : isOutput terminal message = false) :
    Good (conn.push message) terminal next live' dropping := by
  have hloading := fun hwriter hdrop => (h.loading hwriter hdrop).imp_left (rx_push hmessage)
  have hdraining := fun hwriter hdrop => rx_push hmessage (h.draining hwriter hdrop)
  rcases @frames_push conn message with ⟨hgone, hframes⟩ | ⟨halive, hframes⟩
  · refine ⟨?_, ?_, fun _ _ hne => absurd hgone hne, hloading, hdraining⟩
    · rw [hframes]
      exact h.ordered
    · rw [hframes]
      exact h.bound
  · refine ⟨?_, ?_, fun _ _ _ => ?_, hloading, hdraining⟩
    · rw [hframes]
      exact h.ordered.append hmessage
    · rw [hframes]
      intro frame hframe n hn
      rcases List.mem_append.1 hframe with hframe | hframe
      · exact h.bound frame hframe n hn
      · rw [List.mem_singleton.1 hframe, hstop, Option.some.injEq] at hn
        exact Nat.le_of_eq hn.symm
    · rw [hframes]
      exact ⟨next, last_append_of_some hstop, .inl rfl⟩

/-- Output is dropped. -/
theorem Good.owe (h : Good conn terminal next live dropping) (hlive : live) (hdropping : dropping)
    (hnext : next ≤ next') : Good (conn.owe terminal) terminal next' live False := by
  refine ⟨h.ordered, fun frame hframe n hn => Nat.le_trans (h.bound frame hframe n hn) hnext,
    fun _ hconn hne => ?_, fun hwriter _ => h.loading hwriter (.inr hdropping),
    fun hwriter _ => h.draining hwriter (.inr hdropping)⟩
  obtain ⟨n, hlast, -⟩ := h.shown hlive hconn hne
  exact ⟨n, hlast, .inr (.inl (mem_owe.2 (.inr rfl)))⟩

theorem Good.owe_other {other : TerminalId} (h : Good conn terminal next live dropping)
    (hne : terminal ≠ other) : Good (conn.owe other) terminal next live dropping := by
  have howed : terminal ∈ (conn.queue.owe other).resync ↔ terminal ∈ conn.queue.resync :=
    mem_owe.trans (or_iff_left hne)
  refine ⟨h.ordered, h.bound, fun hlive hconn halive => ?_, fun hwriter hdrop => ?_,
    fun hwriter hdrop => ?_⟩
  · obtain ⟨n, hlast, hnext⟩ := h.shown hlive hconn halive
    exact ⟨n, hlast, hnext.imp_right (Or.imp_left howed.2)⟩
  · exact h.loading hwriter (hdrop.imp_left howed.1)
  · exact h.draining hwriter (hdrop.imp_left howed.1)

/-- An attach is handled: of its terminal nothing is live until the snapshot is queued. -/
theorem Good.attach (h : Good conn terminal next live dropping) (t : TerminalId)
    (hlive : live' → live ∧ t ≠ terminal) : Good (conn.attach t) terminal next live' dropping := by
  refine ⟨h.ordered.attach t conn.wire.length, h.bound, fun hnew hconn halive => ?_, h.loading,
    h.draining⟩
  obtain ⟨hold, hne⟩ := hlive hnew
  obtain ⟨n, hlast, hnext⟩ := h.shown hold hconn halive
  refine ⟨n, hlast, hnext.imp_right (Or.imp_right ?_)⟩
  rintro ⟨front, back, hframes, hback, hfront⟩
  refine ⟨front, back, hframes, hback, fun attach hattach hsame => ?_⟩
  rcases List.mem_append.1 hattach with hattach | hattach
  · exact hfront attach hattach hsame
  · rw [List.mem_singleton.1 hattach] at hsame
    exact absurd hsame hne

/-! ## What is noted -/

theorem Noted.owe (h : Noted conn) : Noted (conn.owe terminal) := by
  refine ⟨h.attaches, fun drop hdrop => ?_, fun halive drop hdrop => ?_⟩
  · rcases List.mem_append.1 hdrop with hdrop | hdrop
    · exact h.drops drop hdrop
    · rw [List.mem_singleton.1 hdrop]
      exact Nat.le_refl _
  · rcases List.mem_append.1 hdrop with hdrop | hdrop
    · exact (h.owed halive drop hdrop).imp_left fun howed => mem_owe.2 (.inl howed)
    · rw [List.mem_singleton.1 hdrop]
      exact .inl (mem_owe.2 (.inr rfl))

theorem Noted.attach (h : Noted conn) : Noted (conn.attach terminal) := by
  refine ⟨fun attach hattach => ?_, h.drops, h.owed⟩
  rcases List.mem_append.1 hattach with hattach | hattach
  · exact h.attaches attach hattach
  · rw [List.mem_singleton.1 hattach]
    exact Nat.le_refl _

theorem Noted.count (h : Noted conn) (message : ServerMsg) : Noted (conn.count message) :=
  ⟨h.attaches, h.drops, h.owed⟩

theorem Noted.push (h : Noted conn) (message : ServerMsg) : Noted (conn.push message) :=
  ⟨h.attaches, h.drops, h.owed⟩

theorem Noted.remove (h : Noted conn) : Noted { conn with connected := false } :=
  ⟨h.attaches, h.drops, h.owed⟩

end Throng.Daemon.Wire
