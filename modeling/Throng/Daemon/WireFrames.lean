import Throng.Daemon.Wire

/-!
# A terminal's output among the frames of a connection

The frames of a connection are those it has carried and those that are to come, in order. They
grow at their end by what is queued, and between the two parts by the resyncs that the writer
thread takes.
-/

namespace Throng.Daemon.Wire

variable {terminal : TerminalId} {frames front back : List ServerMsg} {frame : ServerMsg}
  {attaches : List Attach}

theorem append_eq_append_cons {α : Type} {a b c d : List α} {x : α} (h : a ++ b = c ++ x :: d) :
    (∃ rest, a = c ++ x :: rest ∧ d = rest ++ b) ∨ ∃ rest, c = a ++ rest ∧ b = rest ++ x :: d := by
  rcases List.append_eq_append_iff.1 h with ⟨rest, rfl, rfl⟩ | ⟨rest, rfl, hrest⟩
  · exact .inr ⟨rest, rfl, rfl⟩
  · cases rest with
    | nil => exact .inr ⟨[], by rw [List.append_nil, List.append_nil], hrest.symm⟩
    | cons y rest =>
        rw [List.cons_append, List.cons.injEq] at hrest
        obtain ⟨rfl, rfl⟩ := hrest
        exact .inl ⟨rest, rfl, rfl⟩

/-! ## Ends -/

theorem last_append_of_none (h : stop terminal frame = none) :
    last terminal (frames ++ [frame]) = last terminal frames := by
  rw [last, last, List.filterMap_append, List.filterMap_cons_none h, List.filterMap_nil,
    List.append_nil]

theorem last_append_of_some {n : Nat} (h : stop terminal frame = some n) :
    last terminal (frames ++ [frame]) = some n := by
  rw [last, List.filterMap_append, List.filterMap_cons_some h, List.filterMap_nil,
    List.getLast?_concat]

theorem stop_resync (order : List TerminalId) :
    ∀ frame ∈ order.map ServerMsg.resync, stop terminal frame = none ∧
      isOutput terminal frame = false ∧ isResync frame = true := by
  intro frame hframe
  obtain ⟨t, -, rfl⟩ := List.mem_map.1 hframe
  exact ⟨rfl, rfl, rfl⟩

theorem last_insert (order : List TerminalId) :
    last terminal (front ++ (order.map .resync ++ back)) = last terminal (front ++ back) := by
  have hnone : (order.map ServerMsg.resync).filterMap (stop terminal) = [] :=
    List.filterMap_eq_nil_iff.2 fun frame hframe => (stop_resync order frame hframe).1
  rw [last, last, List.filterMap_append, List.filterMap_append, hnone, List.nil_append,
    ← List.filterMap_append]

theorem messages_insert (order : List TerminalId) :
    messages (front ++ (order.map .resync ++ back)) = messages (front ++ back) := by
  have hnone : (order.map ServerMsg.resync).countP (fun frame => !isResync frame) = 0 := by
    refine List.countP_eq_zero.2 fun frame hframe hmessage => ?_
    rw [(@stop_resync ⟨0⟩ order frame hframe).2.2] at hmessage
    cases hmessage
  rw [messages, messages, List.countP_append, List.countP_append, hnone, Nat.zero_add,
    List.countP_append]

/-! ## Excuses -/

/-- A resync has been written since the last output and since every attach. -/
def Resynced (attaches : List Attach) (terminal : TerminalId) (frames : List ServerMsg) : Prop :=
  ∃ front back, frames = front ++ .resync terminal :: back ∧
    (∀ frame ∈ back, isOutput terminal frame = false) ∧
    ∀ attach ∈ attaches, attach.terminal = terminal → attach.written ≤ front.length

/-- A resync has been written since the last output and since the attaches that were handled
before all of this was queued. -/
def Excused (attaches : List Attach) (terminal : TerminalId) (frames : List ServerMsg) : Prop :=
  Resynced (attaches.filter fun attach => attach.queued ≤ messages frames) terminal frames

theorem Resynced.excused (h : Resynced attaches terminal frames) :
    Excused attaches terminal frames := by
  obtain ⟨front, back, hframes, hback, hfront⟩ := h
  exact ⟨front, back, hframes, hback,
    fun attach hattach => hfront attach (List.mem_filter.1 hattach).1⟩

theorem Resynced.append (h : Resynced attaches terminal frames)
    (hframe : isOutput terminal frame = false) :
      Resynced attaches terminal (frames ++ [frame]) := by
  obtain ⟨front, back, rfl, hback, hfront⟩ := h
  refine ⟨front, back ++ [frame], ?_, fun f hf => ?_, hfront⟩
  · rw [List.append_assoc, List.cons_append]
  · rcases List.mem_append.1 hf with hf | hf
    · exact hback f hf
    · rw [List.mem_singleton.1 hf]
      exact hframe

/-- What is taken is written behind the attaches so far, and in front of what is queued. -/
theorem resynced_taken {order : List TerminalId} (h : terminal ∈ order)
    (hback : ∀ frame ∈ back, isOutput terminal frame = false)
    (hattaches : ∀ attach ∈ attaches, attach.written ≤ front.length) :
    Resynced attaches terminal (front ++ (order.map .resync ++ back)) := by
  obtain ⟨before, after, rfl⟩ := List.append_of_mem h
  refine ⟨front ++ before.map .resync, after.map .resync ++ back, ?_, fun f hf => ?_,
    fun attach hattach _ => ?_⟩
  · rw [List.map_append, List.map_cons]
    simp only [List.append_assoc, List.cons_append]
  · rcases List.mem_append.1 hf with hf | hf
    · exact (stop_resync after f hf).2.1
    · exact hback f hf
  · rw [List.length_append]
    exact Nat.le_add_right_of_le (hattaches attach hattach)

section

variable (order : List TerminalId) (hattaches : ∀ attach ∈ attaches, attach.written ≤ front.length)
include hattaches

theorem Resynced.insert (h : Resynced attaches terminal (front ++ back)) :
    Resynced attaches terminal (front ++ (order.map .resync ++ back)) := by
  obtain ⟨before, after, hframes, hafter, hbefore⟩ := h
  rcases append_eq_append_cons hframes with ⟨rest, rfl, rfl⟩ | ⟨rest, rfl, rfl⟩
  · refine ⟨before, rest ++ (order.map .resync ++ back), ?_, fun f hf => ?_, hbefore⟩
    · rw [List.append_assoc, List.cons_append]
    · rcases List.mem_append.1 hf with hf | hf
      · exact hafter f (List.mem_append_left _ hf)
      · rcases List.mem_append.1 hf with hf | hf
        · exact (stop_resync order f hf).2.1
        · exact hafter f (List.mem_append_right _ hf)
  · refine ⟨front ++ (order.map .resync ++ rest), after, ?_, hafter, fun attach hattach _ => ?_⟩
    · simp only [List.append_assoc]
    · rw [List.length_append]
      exact Nat.le_add_right_of_le (hattaches attach hattach)

theorem Excused.insert (h : Excused attaches terminal (front ++ back)) :
    Excused attaches terminal (front ++ (order.map .resync ++ back)) := by
  rw [Excused, messages_insert]
  exact Resynced.insert order
    (fun attach hattach => hattaches attach (List.mem_filter.1 hattach).1) h

end

/-! ## The order of a terminal's frames -/

/-- An output starts where the frames before it end or later, and later only with an excuse. -/
def Ordered (attaches : List Attach) (terminal : TerminalId) (frames : List ServerMsg) : Prop :=
  ∀ before offset data after, frames = before ++ .output terminal offset data :: after →
    (∀ frame ∈ before, ∀ n, stop terminal frame = some n → n ≤ offset) ∧
      ∃ n, last terminal before = some n ∧ (n = offset ∨ Excused attaches terminal before)

theorem Ordered.of_append (h : Ordered attaches terminal (front ++ back)) :
    Ordered attaches terminal front := by
  rintro before offset data after rfl
  exact h before offset data (after ++ back) (by rw [List.append_assoc, List.cons_append])

theorem Ordered.append (h : Ordered attaches terminal frames)
    (hframe : isOutput terminal frame = false) : Ordered attaches terminal (frames ++ [frame]) := by
  intro before offset data after heq
  rcases append_eq_append_cons heq with ⟨rest, rfl, -⟩ | ⟨rest, rfl, hrest⟩
  · exact h before offset data rest rfl
  · cases rest with
    | nil =>
        rw [List.nil_append, List.cons.injEq] at hrest
        rw [hrest.1] at hframe
        exact absurd hframe (by simp [isOutput])
    | cons f rest =>
        rw [List.cons_append, List.cons.injEq] at hrest
        exact absurd hrest.2.symm (by simp)

theorem Ordered.output {offset n : Nat} {data : Bytes} (h : Ordered attaches terminal frames)
    (hbound : ∀ frame ∈ frames, ∀ n, stop terminal frame = some n → n ≤ offset)
    (hlast : last terminal frames = some n)
    (hexcused : n = offset ∨ Excused attaches terminal frames) :
    Ordered attaches terminal (frames ++ [.output terminal offset data]) := by
  intro before offset' data' after heq
  rcases append_eq_append_cons heq with ⟨rest, rfl, -⟩ | ⟨rest, rfl, hrest⟩
  · exact h before offset' data' rest rfl
  · cases rest with
    | nil =>
        rw [List.nil_append, List.cons.injEq, ServerMsg.output.injEq] at hrest
        obtain ⟨⟨-, rfl, rfl⟩, -⟩ := hrest
        rw [List.append_nil]
        exact ⟨hbound, n, hlast, hexcused⟩
    | cons f rest =>
        rw [List.cons_append, List.cons.injEq] at hrest
        exact absurd hrest.2.symm (by simp)

theorem Ordered.insert (h : Ordered attaches terminal (front ++ back)) (order : List TerminalId)
    (hattaches : ∀ attach ∈ attaches, attach.written ≤ front.length) :
    Ordered attaches terminal (front ++ (order.map .resync ++ back)) := by
  intro before offset data after heq
  rcases append_eq_append_cons heq with ⟨rest, rfl, -⟩ | ⟨rest, rfl, hrest⟩
  · exact h before offset data (rest ++ back) (by rw [List.append_assoc, List.cons_append])
  · rcases append_eq_append_cons hrest with ⟨rest', hresyncs, -⟩ | ⟨rest', rfl, rfl⟩
    · have hmem : ServerMsg.output terminal offset data ∈ order.map ServerMsg.resync := by
        rw [hresyncs]
        exact List.mem_append_right _ List.mem_cons_self
      obtain ⟨t, -, ht⟩ := List.mem_map.1 hmem
      cases ht
    · obtain ⟨hbound, n, hlast, hexcused⟩ := h (front ++ rest') offset data after
        (by rw [List.append_assoc])
      refine ⟨fun f hf m hm => ?_, n, ?_, hexcused.imp_right fun he => he.insert order hattaches⟩
      · rcases List.mem_append.1 hf with hf | hf
        · exact hbound f (List.mem_append_left _ hf) m hm
        · rcases List.mem_append.1 hf with hf | hf
          · rw [(stop_resync order f hf).1] at hm
            cases hm
          · exact hbound f (List.mem_append_right _ hf) m hm
      · rw [last_insert]
        exact hlast

/-- An attach that is handled now does not count for the outputs that are queued. -/
theorem Ordered.attach (h : Ordered attaches terminal frames) (t : TerminalId) (written : Nat) :
    Ordered (attaches ++ [⟨t, written, messages frames⟩]) terminal frames := by
  rintro before offset data after rfl
  obtain ⟨hbound, n, hlast, hexcused⟩ := h before offset data after rfl
  refine ⟨hbound, n, hlast, hexcused.imp_right ?_⟩
  have hmore : messages (before ++ .output terminal offset data :: after) =
      messages before + (messages after + 1) := by
    rw [messages, messages, messages, List.countP_append, List.countP_cons_of_pos rfl]
  rw [Excused, Excused, List.filter_append, List.filter_cons_of_neg, List.filter_nil,
    List.append_nil]
  · exact id
  · rw [decide_eq_true_eq]
    dsimp only
    omega

end Throng.Daemon.Wire
