import Mathlib.Data.List.Infix
import Throng.Daemon.Session
import Throng.Lib.Utf8

/-!
# Retained output

A session keeps the end of what its program puts out for a view that attaches late. Over
its capacity the tail is cut after a line break, if there is one within reach, and a reader
of the tail then begins at the start of a line.
-/

namespace Throng.Daemon

/-! ## The cut -/

namespace State

variable {s : State} {tail chunk : Bytes} {excess : Nat}

/-- A line break just before the cut, or within the reach of its search. -/
def BreaksAt (tail : Bytes) (excess : Nat) : Prop :=
  ∃ i, excess ≤ i + 1 ∧ i < min tail.length (excess + trimWindow) ∧
    tail[i]? = some '\n'.toUInt8

theorem cutAt_cases (tail : Bytes) (excess : Nat) :
    (∃ i, excess ≤ i ∧ i < min tail.length (excess + trimWindow) ∧
      tail[i]? = some '\n'.toUInt8 ∧ cutAt tail excess = i + 1) ∨
    ((∀ i, excess ≤ i → i < min tail.length (excess + trimWindow) →
      tail[i]? ≠ some '\n'.toUInt8) ∧ cutAt tail excess = excess) := by
  rw [cutAt]
  split
  next i hfound =>
    left
    have hrange := List.mem_range'_1.mp (List.mem_of_find?_eq_some hfound)
    have hbreak := List.find?_some hfound
    rw [beq_iff_eq] at hbreak
    exact ⟨i, hrange.1, by omega, hbreak, rfl⟩
  next hnone =>
    right
    rw [List.find?_eq_none] at hnone
    refine ⟨fun i hle hlt hbreak => ?_, rfl⟩
    exact hnone i (List.mem_range'_1.mpr ⟨hle, by omega⟩) (beq_iff_eq.mpr hbreak)

theorem le_cutAt (tail : Bytes) (excess : Nat) : excess ≤ cutAt tail excess := by
  rcases cutAt_cases tail excess with ⟨i, hle, -, -, hcut⟩ | ⟨-, hcut⟩ <;> omega

theorem cutAt_le (h : excess ≤ tail.length) : cutAt tail excess ≤ tail.length := by
  rcases cutAt_cases tail excess with ⟨i, -, hlt, -, hcut⟩ | ⟨-, hcut⟩ <;> omega

/-- The tail is cut after a line break if and only if the search could come upon one. -/
theorem breaksAt_iff (hpos : 0 < excess) (hle : excess ≤ tail.length) :
    tail[cutAt tail excess - 1]? = some '\n'.toUInt8 ↔ BreaksAt tail excess := by
  rcases cutAt_cases tail excess with ⟨i, hle', hlt, hbreak, hcut⟩ | ⟨hnone, hcut⟩
  · rw [hcut, Nat.add_sub_cancel]
    exact iff_of_true hbreak ⟨i, by omega, hlt, hbreak⟩
  · rw [hcut]
    constructor
    · intro hbreak
      have hwindow : 0 < trimWindow := by decide
      exact ⟨excess - 1, by omega, by omega, hbreak⟩
    · rintro ⟨i, hle', hlt, hbreak⟩
      by_cases hi : excess ≤ i
      · exact absurd hbreak (hnone i hi hlt)
      · obtain rfl : i = excess - 1 := by omega
        exact hbreak

/-- What is retained of the tail and a chunk: everything, or what is after the cut. -/
theorem push_tail (s : State) (chunk : Bytes) :
    ((s.push chunk).tail = s.tail ++ chunk ∧ (s.tail ++ chunk).length ≤ s.capacity) ∨
    ((s.push chunk).tail = (s.tail ++ chunk).drop
        (cutAt (s.tail ++ chunk) ((s.tail ++ chunk).length - s.capacity)) ∧
      s.capacity < (s.tail ++ chunk).length) := by
  rw [push]
  dsimp only
  split_ifs with hover
  · exact .inr ⟨rfl, hover⟩
  · exact .inl ⟨rfl, Nat.le_of_not_lt hover⟩

end State

/-! ## Runs of a session -/

/-- A session with everything its program has put out. -/
structure Life where
  session : Session
  stream : Bytes

namespace Life

/-- What is done to a session. -/
inductive Action
  | output (chunk : Bytes)
  | attach (client : ClientId) (replyId cols rows : Nat)
  | detach (client : ClientId)
  | resize (client : ClientId) (cols rows : Nat)
  | finish (code : Option Int)
  | endViews
  | kill

def act (life : Life) : Action → Life
  | .output chunk => ⟨life.session.pumpOutput chunk, life.stream ++ chunk⟩
  | .attach client replyId cols rows =>
      { life with session := (life.session.attach client replyId cols rows).1 }
  | .detach client => { life with session := life.session.detach client }
  | .resize client cols rows => { life with session := life.session.resize client cols rows }
  | .finish code => { life with session := (life.session.finish code).1 }
  | .endViews => { life with session := life.session.endViews.1 }
  | .kill => { life with session := life.session.kill }

/-- A life up to the last of the actions. -/
def after (spec : SpawnSpec) (tailBytes : Nat) (elevated : Bool) (actions : List Action) : Life :=
  actions.foldl act ⟨Session.spawn spec tailBytes elevated, []⟩

/-- Where the retained tail begins in the stream. -/
def start (life : Life) : Nat :=
  life.session.snapshot.endOffset - life.session.snapshot.tail.length

variable {life : Life} {action : Action} {chunk : Bytes}

/-- The bytes of a snapshot and what they are part of. -/
structure Inv (life : Life) : Prop where
  endOffset : life.session.state.endOffset = life.stream.length
  suffix : life.session.state.tail <:+ life.stream
  length : life.session.state.tail.length ≤ life.session.state.capacity

/-- The tail is all of the stream, or begins after a line break. -/
def Begins (life : Life) : Prop :=
  life.start = 0 ∨ life.stream[life.start - 1]? = some '\n'.toUInt8

/-- If the action is output that makes the tail too long, there is a line break to cut at. -/
def Breaks (life : Life) : Action → Prop
  | .output chunk =>
      let tail := life.session.state.tail ++ chunk
      life.session.state.capacity < tail.length →
        State.BreaksAt tail (tail.length - life.session.state.capacity)
  | _ => True

/-! Only output changes what is retained. -/

/-- The part of a session's state that a snapshot's bytes are read from. -/
def bytes (life : Life) : Bytes × Nat × Nat × Bytes :=
  (life.session.state.tail, life.session.state.endOffset, life.session.state.capacity, life.stream)

theorem bytes_applySize (session : Session) (stream : Bytes) :
    bytes ⟨session.applySize, stream⟩ = bytes ⟨session, stream⟩ := by
  unfold Session.applySize
  split
  · rfl
  · split <;> rfl

theorem bytes_act (h : ∀ chunk, action ≠ .output chunk) : (life.act action).bytes = life.bytes := by
  cases action with
  | output chunk => exact absurd rfl (h chunk)
  | attach client replyId cols rows =>
      rw [act, Session.attach]
      dsimp only
      split
      · exact bytes_applySize _ _
      · rfl
  | detach client =>
      rw [act, Session.detach]
      split
      · exact bytes_applySize _ _
      · rfl
  | resize client cols rows =>
      rw [act, Session.resize]
      split
      · exact bytes_applySize _ _
      · rfl
  | finish code => rfl
  | endViews =>
      rw [act, Session.endViews]
      split <;> rfl
  | kill =>
      rw [act, Session.kill]
      split <;> rfl

theorem Inv.of_bytes {life' : Life} (hi : Inv life) (h : life'.bytes = life.bytes) : Inv life' := by
  simp only [bytes, Prod.mk.injEq] at h
  obtain ⟨htail, hend, hcapacity, hstream⟩ := h
  refine ⟨?_, ?_, ?_⟩
  · rw [hend, hstream]
    exact hi.endOffset
  · rw [htail, hstream]
    exact hi.suffix
  · rw [htail, hcapacity]
    exact hi.length

theorem begins_of_bytes {life' : Life} (h : life'.bytes = life.bytes) :
    Begins life' ↔ Begins life := by
  simp only [bytes, Prod.mk.injEq] at h
  obtain ⟨htail, hend, -, hstream⟩ := h
  simp only [Begins, start, Session.snapshot, htail, hend, hstream]

/-! ## Output -/

theorem inv_output (hi : Inv life) (chunk : Bytes) : Inv (life.act (.output chunk)) := by
  obtain ⟨dropped, hdropped⟩ := hi.suffix
  have hsuffix : life.session.state.tail ++ chunk <:+ life.stream ++ chunk :=
    ⟨dropped, by rw [← List.append_assoc, hdropped]⟩
  refine ⟨?_, ?_, ?_⟩
  · show (life.session.state.push chunk).endOffset = _
    rw [State.push_endOffset, hi.endOffset]
    exact List.length_append.symm
  · show (life.session.state.push chunk).tail <:+ life.stream ++ chunk
    rcases life.session.state.push_tail chunk with ⟨htail, -⟩ | ⟨htail, -⟩
    · rw [htail]
      exact hsuffix
    · rw [htail]
      exact (List.drop_suffix _ _).trans hsuffix
  · show (life.session.state.push chunk).tail.length ≤ life.session.state.capacity
    rcases life.session.state.push_tail chunk with ⟨htail, hle⟩ | ⟨htail, hlt⟩
    · rw [htail]
      exact hle
    · have hcut := State.le_cutAt (life.session.state.tail ++ chunk)
        ((life.session.state.tail ++ chunk).length - life.session.state.capacity)
      rw [htail, List.length_drop]
      omega

/-- The tail begins where what was dropped ends. -/
theorem Inv.start_eq (hi : Inv life) {dropped : Bytes}
    (h : dropped ++ life.session.state.tail = life.stream) : life.start = dropped.length := by
  have hlength : life.stream.length = dropped.length + life.session.state.tail.length := by
    rw [← h, List.length_append]
  show life.session.state.endOffset - life.session.state.tail.length = dropped.length
  rw [hi.endOffset]
  omega

/-- Output that fits leaves the tail's beginning where it is. -/
theorem begins_output_of_le (hi : Inv life)
    (hle : (life.session.state.tail ++ chunk).length ≤ life.session.state.capacity) :
    Begins (life.act (.output chunk)) ↔ Begins life := by
  obtain ⟨dropped, hdropped⟩ := hi.suffix
  have htail : (life.act (.output chunk)).session.state.tail =
      life.session.state.tail ++ chunk := by
    rcases life.session.state.push_tail chunk with ⟨htail, -⟩ | ⟨-, hlt⟩
    · exact htail
    · omega
  have hstart := hi.start_eq hdropped
  have hstart' : (life.act (.output chunk)).start = dropped.length := by
    refine (inv_output hi chunk).start_eq ?_
    rw [htail, ← List.append_assoc, hdropped]
    rfl
  rw [Begins, Begins, hstart', hstart]
  by_cases hzero : dropped.length = 0
  · exact iff_of_true (.inl hzero) (.inl hzero)
  · have hlt : dropped.length - 1 < life.stream.length := by
      rw [← hdropped, List.length_append]
      omega
    show _ ∨ (life.stream ++ chunk)[dropped.length - 1]? = _ ↔ _
    rw [List.getElem?_append_left hlt]

/-- Output that does not fit moves it to the cut. -/
theorem begins_output_of_lt (hi : Inv life)
    (hlt : life.session.state.capacity < (life.session.state.tail ++ chunk).length) :
    Begins (life.act (.output chunk)) ↔ Breaks life (.output chunk) := by
  obtain ⟨dropped, hdropped⟩ := hi.suffix
  have htail : (life.act (.output chunk)).session.state.tail =
      (life.session.state.tail ++ chunk).drop (State.cutAt (life.session.state.tail ++ chunk)
        ((life.session.state.tail ++ chunk).length - life.session.state.capacity)) := by
    rcases life.session.state.push_tail chunk with ⟨-, hle⟩ | ⟨htail, -⟩
    · omega
    · exact htail
  have hstream : (life.act (.output chunk)).stream =
      dropped ++ (life.session.state.tail ++ chunk) := by
    rw [← List.append_assoc, hdropped]
    rfl
  rw [Breaks]
  generalize life.session.state.tail ++ chunk = tail at htail hlt hstream ⊢
  have hle : tail.length - life.session.state.capacity ≤ tail.length := Nat.sub_le _ _
  have hcut := State.le_cutAt tail (tail.length - life.session.state.capacity)
  have hcut' := State.cutAt_le hle
  have hbreak := State.breaksAt_iff (by omega) hle
  generalize State.cutAt tail (tail.length - life.session.state.capacity) = cut
    at htail hcut hcut' hbreak
  have hstart : (life.act (.output chunk)).start = dropped.length + cut := by
    have hall : (dropped ++ tail.take cut) ++ (life.act (.output chunk)).session.state.tail =
        (life.act (.output chunk)).stream := by
      rw [htail, List.append_assoc, List.take_append_drop, hstream]
    rw [(inv_output hi chunk).start_eq hall, List.length_append, List.length_take,
      Nat.min_eq_left hcut']
  rw [Begins, hstart, hstream, forall_prop_of_true hlt, ← hbreak,
    List.getElem?_append_right (by omega)]
  have hindex : dropped.length + cut - 1 - dropped.length = cut - 1 := by omega
  rw [hindex]
  exact or_iff_right (by omega)

/-- What an action does to the beginning of the tail. -/
theorem begins_act (hi : Inv life) (h : Begins life) :
    Begins (life.act action) ↔ Breaks life action := by
  by_cases houtput : ∃ chunk, action = .output chunk
  · obtain ⟨chunk, rfl⟩ := houtput
    by_cases hle : (life.session.state.tail ++ chunk).length ≤ life.session.state.capacity
    · rw [begins_output_of_le hi hle]
      exact iff_of_true h fun hlt => absurd hle (Nat.not_le_of_lt hlt)
    · exact begins_output_of_lt hi (Nat.lt_of_not_le hle)
  · have hno : ∀ chunk, action ≠ .output chunk := fun chunk heq => houtput ⟨chunk, heq⟩
    rw [begins_of_bytes (bytes_act hno)]
    refine iff_of_true h ?_
    cases action with
    | output chunk => exact absurd rfl (hno chunk)
    | _ => trivial

theorem inv_act (hi : Inv life) (action : Action) : Inv (life.act action) := by
  by_cases houtput : ∃ chunk, action = .output chunk
  · obtain ⟨chunk, rfl⟩ := houtput
    exact inv_output hi chunk
  · exact hi.of_bytes (bytes_act fun chunk heq => houtput ⟨chunk, heq⟩)

/-! ## What a late attach is given -/

/-- No piece of the stream without a line break is cut in two. -/
def KeepsPieces (life : Life) : Prop :=
  ∀ before piece rest, life.stream = before ++ piece ++ rest → '\n'.toUInt8 ∉ piece →
    life.start ≤ before.length ∨ before.length + piece.length ≤ life.start

/-- The snapshot of a session: its bytes are the last ones of the stream, no more than the
capacity, from the start of the stream or of a line, so from no character's middle. -/
structure Retained (life : Life) : Prop where
  endOffset : life.session.snapshot.endOffset = life.stream.length
  suffix : life.session.snapshot.tail = life.stream.drop life.start
  length : life.session.snapshot.tail.length ≤ life.session.state.capacity
  begins : Begins life
  pieces : KeepsPieces life
  characters : ∀ before (c : Char) rest,
    life.stream = before ++ String.utf8EncodeChar c ++ rest →
      life.start ≤ before.length ∨
        before.length + (String.utf8EncodeChar c).length ≤ life.start

theorem keepsPieces_of_begins (h : Begins life) : KeepsPieces life := by
  intro before piece rest hstream hpiece
  by_contra hcut
  rw [not_or, Nat.not_le, Nat.not_le] at hcut
  rcases h with hzero | hbreak
  · omega
  · rw [hstream, List.getElem?_append_left (by rw [List.length_append]; omega),
      List.getElem?_append_right (by omega)] at hbreak
    exact hpiece (List.mem_of_getElem? hbreak)

/-- A line break is a character of its own. -/
theorem lineBreak_notMem_utf8EncodeChar {c : Char} (h : 1 < (String.utf8EncodeChar c).length) :
    '\n'.toUInt8 ∉ String.utf8EncodeChar c := by
  intro hmem
  rcases Utf8.mem_utf8EncodeChar hmem with heq | hle
  · have hc : c = '\n' := Char.toNat_inj.mp heq.symm
    rw [hc] at h
    exact absurd h (by decide)
  · exact absurd hle (by decide)

theorem retained_iff_begins (hi : Inv life) : Retained life ↔ Begins life := by
  refine ⟨Retained.begins, fun h => ⟨hi.endOffset, ?_, hi.length, h, keepsPieces_of_begins h, ?_⟩⟩
  · obtain ⟨dropped, hdropped⟩ := hi.suffix
    rw [hi.start_eq hdropped, ← hdropped, List.drop_left]
    rfl
  · intro before c rest hstream
    by_cases hlong : 1 < (String.utf8EncodeChar c).length
    · exact keepsPieces_of_begins h before _ rest hstream (lineBreak_notMem_utf8EncodeChar hlong)
    · omega

/-! ## Runs -/

variable {spec : SpawnSpec} {tailBytes : Nat} {elevated : Bool} {actions : List Action}

theorem after_snoc (done : List Action) (action : Action) :
    after spec tailBytes elevated (done ++ [action]) =
      (after spec tailBytes elevated done).act action := by
  rw [after, List.foldl_append]
  rfl

theorem inv_after : Inv (after spec tailBytes elevated actions) := by
  induction actions using List.reverseRecOn with
  | nil => exact ⟨rfl, List.suffix_refl _, Nat.zero_le _⟩
  | append_singleton done action ih =>
      rw [after_snoc]
      exact inv_act ih action

/-- Whatever is done to a session and in whatever pieces its output comes, all its snapshots
are what they should be if and only if there is a line break to cut at whenever the tail
gets too long. -/
theorem retained_iff (spec : SpawnSpec) (tailBytes : Nat) (elevated : Bool)
    (actions : List Action) :
    (∀ done, done <+: actions → Retained (after spec tailBytes elevated done)) ↔
      ∀ done action, done ++ [action] <+: actions →
        Breaks (after spec tailBytes elevated done) action := by
  constructor
  · intro h done action hprefix
    have hdone := h done ((List.prefix_append _ _).trans hprefix)
    have hnext := h _ hprefix
    rw [after_snoc] at hnext
    exact (begins_act inv_after hdone.begins).mp hnext.begins
  · intro h done hprefix
    rw [retained_iff_begins inv_after]
    induction done using List.reverseRecOn with
    | nil => exact .inl rfl
    | append_singleton done action ih =>
        rw [after_snoc]
        refine (begins_act inv_after (ih ((List.prefix_append _ _).trans hprefix))).mpr ?_
        exact h done action hprefix

/-- One long line: the tail is cut in its middle. -/
theorem not_retained :
    ¬ ∀ (spec : SpawnSpec) (tailBytes : Nat) (elevated : Bool) (actions : List Action),
      Retained (after spec tailBytes elevated actions) := by
  intro h
  obtain ⟨line, hlength, hline⟩ : ∃ line : Bytes, line.length = 4097 ∧ '\n'.toUInt8 ∉ line :=
    ⟨List.replicate 4097 'a'.toUInt8, List.length_replicate,
      fun hmem => absurd (List.eq_of_mem_replicate hmem) (by decide)⟩
  let spec : SpawnSpec := ⟨⟨0⟩, ⟨0⟩, "", "sh", [], "/", [], 80, 24, none, false⟩
  have hbegins := (h spec 0 false ([] ++ [.output line])).begins
  rw [after_snoc] at hbegins
  obtain ⟨i, -, -, hbreak⟩ := (begins_act inv_after (.inl rfl)).mp hbegins (by
    show max 0 4096 < ([] ++ line).length
    rw [List.nil_append, hlength]
    decide)
  exact hline (List.mem_of_getElem? hbreak)

end Life

end Throng.Daemon
