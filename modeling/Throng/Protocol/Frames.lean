import Mathlib.Algebra.GroupWithZero.Nat
import Mathlib.Data.List.TakeWhile
import Throng.Lib.Framed
import Throng.Protocol.Messages

/-!
# Frames

A frame is a little-endian length and an encoded message behind it. A writer stops at the first
message that it cannot write, and a reader at the first frame that it cannot read. The encoding
itself is a parameter. A stream may end anywhere, or fail there.
-/

namespace Throng

/-- The largest frame either side accepts. -/
def maxFrame : Nat := 16 * 1024 * 1024

/-- Writes larger than this are split by the sender. -/
def writeChunk : Nat := 64 * 1024

/-- Client to daemon. -/
inductive ClientMsg
  | hello (protocol : Nat) (build : String) (pid : Nat)
  | request (id : Nat) (request : Request)
deriving DecidableEq, Repr

/-- A framing or decoding failure. -/
inductive FrameError
  | closed
  | tooLarge (size : Nat)
  | decode (reason : String)
  | io (reason : String)
deriving DecidableEq, Repr

/-- `postcard`, for one type of messages. -/
structure Codec (α : Type) where
  toStdvec : α → Except String Bytes
  fromBytes : Bytes → Except String α

/-- What is written reads back. -/
def Codec.Lawful {α : Type} (codec : Codec α) : Prop :=
  ∀ message payload, codec.toStdvec message = .ok payload → codec.fromBytes payload = .ok message

/-- `u32::to_le_bytes`. -/
def toLeBytes (n : Nat) : Bytes :=
  [.ofNat n, .ofNat (n / 2 ^ 8), .ofNat (n / 2 ^ 16), .ofNat (n / 2 ^ 24)]

/-- `u32::from_le_bytes`. -/
def fromLeBytes : Bytes → Nat
  | [] => 0
  | b :: bytes => b.toNat + 2 ^ 8 * fromLeBytes bytes

variable {α : Type} (codec : Codec α)

/-- The frame that holds a message. -/
def writeFrame (message : α) : Except FrameError Bytes :=
  match codec.toStdvec message with
  | .error reason => .error (.decode reason)
  | .ok payload =>
      if payload.length > maxFrame then .error (.tooLarge payload.length)
      else if payload.length ≥ 2 ^ 32 then .error (.tooLarge payload.length)
      else .ok (toLeBytes payload.length ++ payload)

/-- What the writer's loop writes. -/
def writeFrames : List α → Bytes
  | [] => []
  | message :: messages =>
      match writeFrame codec message with
      | .error _ => []
      | .ok frame => frame ++ writeFrames messages

/-- `Read::read_exact`, of a stream that ends or, with a reason, fails behind its bytes. -/
def readExact (failure : Option String) (n : Nat) (stream : Bytes) :
    Except FrameError (Bytes × Bytes) :=
  if n ≤ stream.length then .ok (stream.take n, stream.drop n)
  else
    match failure with
    | none => .error .closed
    | some reason => .error (.io reason)

/-- Read one frame and decode it. -/
def readFrame (failure : Option String) (stream : Bytes) : Except FrameError (α × Bytes) :=
  match readExact failure 4 stream with
  | .error reason => .error reason
  | .ok (header, stream) =>
      let len := fromLeBytes header
      if len > maxFrame then .error (.tooLarge len)
      else
        match readExact failure len stream with
        | .error reason => .error reason
        | .ok (payload, stream) =>
            match codec.fromBytes payload with
            | .error reason => .error (.decode reason)
            | .ok message => .ok (message, stream)

/-- What the reader's loop reads, and what ends it. No frame is shorter than its header, so that
there are no more of them than bytes. -/
def readFrames (failure : Option String) (stream : Bytes) : List α × Option FrameError :=
  Framed.readAll (readFrame codec failure) (stream.length + 1) stream

/-- `slice::chunks`, with no more chunks than bytes. -/
def chunks (size : Nat) : Nat → Bytes → List Bytes
  | 0, _ => []
  | fuel + 1, data =>
      if data.isEmpty then [] else data.take size :: chunks size fuel (data.drop size)

/-- Split `data` into writes of at most `writeChunk` bytes, in order. -/
def chunkedWrites (terminal : TerminalId) (data : Bytes) : List Request :=
  (chunks writeChunk data.length data).map fun chunk => .write terminal chunk

/-- `Client::write`: the messages that are posted for input. -/
def posted (terminal : TerminalId) (data : Bytes) : List ClientMsg :=
  (chunkedWrites terminal data).map (ClientMsg.request noReply)

/-! ## One frame -/

/-- What ends a stream that is cut. -/
def endOf : Option String → FrameError
  | none => .closed
  | some reason => .io reason

theorem readExact_append (failure : Option String) (bytes rest : Bytes) :
    readExact failure bytes.length (bytes ++ rest) = .ok (bytes, rest) := by
  rw [readExact.eq_def, if_pos, List.take_left, List.drop_left]
  rw [List.length_append]
  exact Nat.le_add_right _ _

theorem readExact_short {failure : Option String} {n : Nat} {stream : Bytes}
    (h : stream.length < n) : readExact failure n stream = .error (endOf failure) := by
  rw [readExact.eq_def, if_neg (Nat.not_le_of_lt h)]
  cases failure <;> rfl

theorem length_toLeBytes (n : Nat) : (toLeBytes n).length = 4 := rfl

theorem fromLeBytes_toLeBytes {n : Nat} (h : n < 2 ^ 32) : fromLeBytes (toLeBytes n) = n := by
  simp only [toLeBytes, fromLeBytes, UInt8.toNat_ofNat']
  omega

variable {codec} {message : α} {frame : Bytes} {failure : Option String}

theorem writeFrame_eq (h : writeFrame codec message = .ok frame) :
    ∃ payload, codec.toStdvec message = .ok payload ∧ payload.length ≤ maxFrame ∧
      frame = toLeBytes payload.length ++ payload := by
  rw [writeFrame] at h
  cases hpayload : codec.toStdvec message with
  | error reason =>
      rw [hpayload] at h
      cases h
  | ok payload =>
      rw [hpayload] at h
      dsimp only at h
      split_ifs at h with hlarge hwide
      · cases h
        exact ⟨payload, rfl, Nat.le_of_not_lt hlarge, rfl⟩

theorem maxFrame_lt : maxFrame < 2 ^ 32 := by decide

/-- A frame is read whole, or not at all. -/
theorem delimits_writeFrame (hcodec : codec.Lawful) (h : writeFrame codec message = .ok frame) :
    Framed.Delimits (readFrame codec failure) (endOf failure) message frame := by
  obtain ⟨payload, hpayload, hsize, rfl⟩ := writeFrame_eq h
  have hlen : fromLeBytes (toLeBytes payload.length) = payload.length :=
    fromLeBytes_toLeBytes (Nat.lt_of_le_of_lt hsize maxFrame_lt)
  have hheader : ∀ rest, readExact failure 4 (toLeBytes payload.length ++ rest) =
      .ok (toLeBytes payload.length, rest) := readExact_append failure (toLeBytes payload.length)
  refine ⟨fun rest => ?_, fun k hk => ?_⟩
  · rw [readFrame, List.append_assoc, hheader]
    dsimp only
    rw [hlen, if_neg (Nat.not_lt_of_le hsize), readExact_append]
    dsimp only
    rw [hcodec message payload hpayload]
  · rw [List.length_append, length_toLeBytes] at hk
    by_cases hk4 : k < 4
    · rw [readFrame, readExact_short]
      rw [List.length_take]
      omega
    · obtain ⟨n, rfl⟩ := Nat.exists_eq_add_of_le (Nat.le_of_not_lt hk4)
      have htake : (toLeBytes payload.length ++ payload).take (4 + n) =
          toLeBytes payload.length ++ payload.take n :=
        @List.take_length_add_append _ (toLeBytes payload.length) payload n
      rw [readFrame, htake, hheader]
      dsimp only
      rw [hlen, if_neg (Nat.not_lt_of_le hsize), readExact_short]
      rw [List.length_take]
      omega

/-! ## The stream -/

/-- The messages that the writer's loop comes to write. -/
def sent (codec : Codec α) (messages : List α) : List α :=
  messages.takeWhile fun message => (writeFrame codec message).toBool

/-- The frame of a message, if it has one. -/
def frameOf (codec : Codec α) (message : α) : Bytes :=
  match writeFrame codec message with
  | .error _ => []
  | .ok frame => frame

variable {messages : List α}

theorem writeFrame_of_mem_sent (h : message ∈ sent codec messages) :
    writeFrame codec message = .ok (frameOf codec message) := by
  have hok := List.mem_takeWhile_imp h
  rw [frameOf]
  cases hframe : writeFrame codec message with
  | error reason =>
      rw [hframe] at hok
      cases hok
  | ok frame => rfl

theorem writeFrames_eq (messages : List α) :
    writeFrames codec messages = ((sent codec messages).map (frameOf codec)).flatten := by
  induction messages with
  | nil => rfl
  | cons message messages ih =>
      rw [writeFrames, sent, List.takeWhile_cons]
      cases hframe : writeFrame codec message with
      | error reason => rfl
      | ok frame =>
          change frame ++ writeFrames codec messages =
            ((message :: sent codec messages).map (frameOf codec)).flatten
          rw [List.map_cons, List.flatten_cons, frameOf, hframe, ih]

theorem pos_frameOf (hmem : message ∈ sent codec messages) :
    0 < (frameOf codec message).length := by
  obtain ⟨payload, -, -, hframe⟩ := writeFrame_eq (writeFrame_of_mem_sent hmem)
  rw [hframe, List.length_append, length_toLeBytes]
  omega

/-- Of what the writer's loop writes, cut anywhere, the reader's loop gets the messages whose frames
came whole, as they were sent and in their order, and then the end of the stream. -/
theorem readFrames_of_cut (hcodec : codec.Lawful) (failure : Option String) (messages : List α)
    (k : Nat) :
    ∃ n, readFrames codec failure ((writeFrames codec messages).take k) =
        ((sent codec messages).take n, some (endOf failure)) ∧
      n ≤ (sent codec messages).length ∧
      (writeFrames codec ((sent codec messages).take n)).length ≤ k ∧
      (n < (sent codec messages).length →
        k < (writeFrames codec ((sent codec messages).take (n + 1))).length) := by
  have hframes : ∀ frame ∈ (sent codec messages).map (frameOf codec), 0 < frame.length := by
    intro frame hframe
    obtain ⟨message, hmem, rfl⟩ := List.mem_map.1 hframe
    exact pos_frameOf hmem
  have htake : ∀ n, writeFrames codec ((sent codec messages).take n) =
      (((sent codec messages).map (frameOf codec)).take n).flatten := by
    intro n
    have hall : sent codec ((sent codec messages).take n) = (sent codec messages).take n := by
      refine List.takeWhile_eq_self_iff.2 fun message hmem => ?_
      have hmem := List.mem_of_mem_take hmem
      rw [writeFrame_of_mem_sent hmem]
      rfl
    rw [writeFrames_eq, hall, List.map_take]
  refine ⟨Framed.whole ((sent codec messages).map (frameOf codec)) k, ?_, ?_, ?_, fun hlt => ?_⟩
  · rw [readFrames, writeFrames_eq]
    refine Framed.readAll_take (fun message hmem => ?_) ?_ k _ ?_
    · exact delimits_writeFrame hcodec (writeFrame_of_mem_sent hmem)
    · rw [readFrame, readExact_short (by decide)]
    · exact Nat.lt_succ_of_le (Framed.whole_le_length_take hframes k)
  · have hle := Framed.whole_le ((sent codec messages).map (frameOf codec)) k
    rwa [List.length_map] at hle
  · rw [htake]
    exact Framed.flatten_take_whole_le _ k
  · rw [htake]
    refine Framed.lt_flatten_take_succ_whole _ k ?_
    rwa [List.length_map]

/-! ## Long writes -/

/-- What `postcard` writes in front of a short write's data for the terminal whose id is 5. -/
def shortHeader : Bytes := [1, 0, 3, 16, 0, 0, 0, 0, 0, 0, 0, 0, 0, 0, 0, 0, 0, 0, 0, 5]

/-- `postcard`, on short writes for that terminal that ask for no answer. -/
def shortWrites : Codec ClientMsg where
  toStdvec
    | .request id (.write terminal data) =>
        if id = noReply ∧ terminal = ⟨5⟩ ∧ data.length < 128 then
          .ok (shortHeader ++ UInt8.ofNat data.length :: data)
        else .error "another message"
    | _ => .error "another message"
  fromBytes bytes :=
    if bytes.take 20 = shortHeader then
      match bytes.drop 20 with
      | n :: data => .ok (.request noReply (.write ⟨5⟩ (data.take n.toNat)))
      | [] => .error "another message"
    else .error "another message"

theorem shortWrites_lawful : shortWrites.Lawful := by
  intro message payload h
  rw [shortWrites] at h
  dsimp only at h
  split at h
  · next id terminal data =>
      split_ifs at h with hshort
      · obtain ⟨rfl, rfl, hlen⟩ := hshort
        cases h
        have hn : (UInt8.ofNat data.length).toNat = data.length := by
          rw [UInt8.toNat_ofNat']
          omega
        have htake : ∀ rest, (shortHeader ++ rest).take 20 = shortHeader := fun rest => rfl
        have hdrop : ∀ rest, (shortHeader ++ rest).drop 20 = rest := fun rest => rfl
        rw [shortWrites]
        dsimp only
        rw [if_pos (htake _), hdrop]
        dsimp only
        rw [hn, List.take_length]
  · cases h

/-- Two keys, typed one after the other. -/
def twoKeys : List ClientMsg := posted ⟨5⟩ [0x6c] ++ posted ⟨5⟩ [0x73]

theorem readFrames_of_cut_keys :
    ∃ n, readFrames shortWrites none ((writeFrames shortWrites twoKeys).take 30) =
        ((sent shortWrites twoKeys).take n, some (endOf none)) ∧
      n ≤ (sent shortWrites twoKeys).length ∧
      (writeFrames shortWrites ((sent shortWrites twoKeys).take n)).length ≤ 30 ∧
      (n < (sent shortWrites twoKeys).length →
        30 < (writeFrames shortWrites ((sent shortWrites twoKeys).take (n + 1))).length) :=
  readFrames_of_cut shortWrites_lawful none twoKeys 30

theorem flatten_chunks {size : Nat} (hsize : 0 < size) (fuel : Nat) {data : Bytes}
    (h : data.length ≤ fuel) : (chunks size fuel data).flatten = data := by
  induction fuel generalizing data with
  | zero =>
      obtain rfl := List.eq_nil_of_length_eq_zero (Nat.le_zero.1 h)
      rfl
  | succ fuel ih =>
      rw [chunks]
      split
      · next hempty => rw [List.isEmpty_iff.1 hempty, List.flatten_nil]
      · next hempty =>
          have hpos : 0 < data.length := by
            refine Nat.pos_of_ne_zero fun hzero => hempty ?_
            rw [List.eq_nil_of_length_eq_zero hzero]
            rfl
          have hrest : (data.drop size).length ≤ fuel := by
            rw [List.length_drop]
            omega
          rw [List.flatten_cons, ih hrest, List.take_append_drop]

/-- The input for a terminal that a message holds. -/
def inputOf (terminal : TerminalId) : ClientMsg → Bytes
  | .request _ (.write t data) => if t = terminal then data else []
  | _ => []

variable {terminal : TerminalId}

theorem inputOf_posted (data : Bytes) :
    (posted terminal data).flatMap (inputOf terminal) = data := by
  have hinput : (inputOf terminal ∘ ClientMsg.request noReply) ∘ (fun chunk =>
      Request.write terminal chunk) = id := funext fun chunk => if_pos rfl
  rw [posted, chunkedWrites, List.flatMap_def, List.map_map, List.map_map, hinput, List.map_id,
    flatten_chunks (by decide) _ (Nat.le_refl _)]

/-- Whatever comes through of input is the front of it. -/
theorem inputOf_readFrames {codec : Codec ClientMsg} (hcodec : codec.Lawful)
    (failure : Option String) (data : Bytes) (k : Nat) :
    (readFrames codec failure ((writeFrames codec (posted terminal data)).take k)).1.flatMap
      (inputOf terminal) <+: data := by
  obtain ⟨n, hread, -, -, -⟩ := readFrames_of_cut hcodec failure (posted terminal data) k
  have hfront : (sent codec (posted terminal data)).take n <+: posted terminal data :=
    (List.take_prefix n _).trans (List.takeWhile_prefix _)
  obtain ⟨rest, hrest⟩ := hfront
  refine ⟨rest.flatMap (inputOf terminal), ?_⟩
  rw [hread, ← List.flatMap_append, hrest, inputOf_posted]

end Throng
