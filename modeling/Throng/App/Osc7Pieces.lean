import Throng.App.Osc7

/-!
# Reports in pieces

Output is cut anywhere before it reaches the scanner. With no cut inside the start of a report,
the pieces hold the reports of the stream, in order; but a report that is no text hides an
earlier one only where both end in one piece.
-/

namespace Throng

namespace Osc7

/-! ## What a scan sees -/

/-- The scanner after some bytes, the reports that ended in them, and the offsets where reports
began. -/
structure Seen where
  scanner : Osc7
  reports : List Bytes
  begins : List Nat

/-- What is seen first, and what is seen from there on. -/
def Seen.followed (first rest : Seen) : Seen :=
  ⟨rest.scanner, first.reports ++ rest.reports, first.begins ++ rest.begins⟩

/-- The report that a byte ends, without the ESC of its terminator. -/
def ended (bytes : Bytes) (escape : Bool) (byte : UInt8) : List Bytes :=
  if byte = 0x07 ∨ (escape ∧ byte = '\\'.toUInt8) then
    [if escape then bytes.dropLast else bytes]
  else []

/-- What a scan sees from an offset on, the next `skip` bytes being the rest of a start. -/
def watch : Osc7 → Nat → Nat → Bytes → Seen
  | s, _, _, [] => ⟨s, [], []⟩
  | s, skip + 1, offset, _ :: rest => watch s skip (offset + 1) rest
  | s, 0, offset, byte :: rest =>
      match s.begun with
      | some bytes =>
          Seen.followed ⟨s, ended bytes s.escape byte, []⟩
            (watch (scanByte bytes s.escape none byte).1 0 (offset + 1) rest)
      | none =>
          if start.isPrefixOf (byte :: rest) then
            Seen.followed ⟨s, [], [offset]⟩
              (watch ⟨some [], false⟩ (start.length - 1) (offset + 1) rest)
          else watch s 0 (offset + 1) rest

/-- The reports that end in the data. -/
def reports (s : Osc7) (data : Bytes) : List Bytes := (watch s 0 0 data).reports

/-- The offsets where reports begin. -/
def begins (s : Osc7) (data : Bytes) : List Nat := (watch s 0 0 data).begins

variable {s : Osc7} {found : Option String} {skip offset : Nat} {data : Bytes}

theorem watch_begun {bytes : Bytes} (h : s.begun = some bytes) (byte : UInt8) (rest : Bytes) :
    watch s 0 offset (byte :: rest) = Seen.followed ⟨s, ended bytes s.escape byte, []⟩
      (watch (scanByte bytes s.escape none byte).1 0 (offset + 1) rest) := by
  rw [watch, h]

theorem watch_start {byte : UInt8} {rest : Bytes} (h : s.begun = none)
    (hstart : start.isPrefixOf (byte :: rest) = true) :
    watch s 0 offset (byte :: rest) = Seen.followed ⟨s, [], [offset]⟩
      (watch ⟨some [], false⟩ (start.length - 1) (offset + 1) rest) := by
  rw [watch, h]
  exact if_pos hstart

theorem watch_search {byte : UInt8} {rest : Bytes} (h : s.begun = none)
    (hstart : ¬start.isPrefixOf (byte :: rest) = true) :
    watch s 0 offset (byte :: rest) = watch s 0 (offset + 1) rest := by
  rw [watch, h]
  exact if_neg hstart

theorem scanByte_fst (bytes : Bytes) (escape : Bool) (found : Option String) (byte : UInt8) :
    (scanByte bytes escape found byte).1 = (scanByte bytes escape none byte).1 := by
  unfold scanByte
  split
  · rfl
  · split <;> rfl

theorem scanByte_snd (bytes : Bytes) (escape : Bool) (found : Option String) (byte : UInt8) :
    (scanByte bytes escape found byte).2 =
      (((ended bytes escape byte).getLast?.map fromUtf8).getD found) := by
  unfold scanByte ended
  split
  · rfl
  · split <;> rfl

/-- The scan gives the last of the reports it sees, or what was found before if there is none. -/
theorem scanFrom_eq (s : Osc7) (found : Option String) (skip offset : Nat) (data : Bytes) :
    (scanFrom s found skip data).1 = (watch s skip offset data).scanner ∧
      (scanFrom s found skip data).2 =
        ((watch s skip offset data).reports.getLast?.map fromUtf8).getD found := by
  fun_induction scanFrom s found skip data generalizing offset with
  | case1 => exact ⟨rfl, rfl⟩
  | case2 s found skip byte rest ih => exact ih (offset + 1)
  | case3 s found byte rest bytes hbegun s' found' hbyte ih =>
      have hfst : s' = (scanByte bytes s.escape none byte).1 := by
        rw [← scanByte_fst bytes s.escape found byte, hbyte]
      have hsnd : found' = ((ended bytes s.escape byte).getLast?.map fromUtf8).getD found := by
        rw [← scanByte_snd, hbyte]
      obtain ⟨hscanner, hfound⟩ := ih (offset + 1)
      rw [watch_begun hbegun, ← hfst]
      refine ⟨hscanner, ?_⟩
      rw [hfound, hsnd]
      change _ = ((ended bytes s.escape byte ++ _).getLast?.map fromUtf8).getD found
      rw [List.getLast?_append]
      cases (watch s' 0 (offset + 1) rest).reports.getLast? with
      | none => rfl
      | some last => rfl
  | case4 s found byte rest hbegun hstart ih =>
      rw [watch_start hbegun hstart]
      exact ih (offset + 1)
  | case5 s found byte rest hbegun hstart ih =>
      rw [watch_search hbegun hstart]
      exact ih (offset + 1)

theorem scan_fst (s : Osc7) (data : Bytes) : (scan s data).1 = (watch s 0 0 data).scanner :=
  (scanFrom_eq s none 0 0 data).1

/-- The text of the last of some reports. -/
def lastText (reports : List Bytes) : Option String := reports.getLast?.bind fromUtf8

theorem scan_snd (s : Osc7) (data : Bytes) : (scan s data).2 = lastText (reports s data) := by
  rw [scan, (scanFrom_eq s none 0 0 data).2, lastText, reports]
  cases (watch s 0 0 data).reports.getLast? with
  | none => rfl
  | some last => rfl

/-! ## Cutting a stream in two -/

/-- Where a scan starts does not matter to what it sees, but for the offsets. -/
theorem watch_offset (s : Osc7) (skip offset n : Nat) (data : Bytes) :
    watch s skip (offset + n) data = ⟨(watch s skip offset data).scanner,
      (watch s skip offset data).reports, (watch s skip offset data).begins.map (· + n)⟩ := by
  fun_induction watch s skip offset data with
  | case1 s skip offset => rw [watch]; rfl
  | case2 s skip offset byte rest ih => rw [watch, Nat.add_right_comm, ih]
  | case3 s offset byte rest bytes hbegun ih =>
      rw [watch_begun hbegun, Nat.add_right_comm, ih]
      rfl
  | case4 s offset byte rest hbegun hstart ih =>
      rw [watch_start hbegun hstart, Nat.add_right_comm, ih]
      rfl
  | case5 s offset byte rest hbegun hstart ih =>
      rw [watch_search hbegun hstart, Nat.add_right_comm, ih]

/-- A cut lies inside the start of a report that begins at `i`. -/
def Splits (cut i : Nat) : Prop := i < cut ∧ cut < i + start.length

instance (cut i : Nat) : Decidable (Splits cut i) := inferInstanceAs (Decidable (_ ∧ _))

theorem isPrefixOf_of_append {front back : Bytes} (h : start.isPrefixOf (front ++ back) = true)
    (hlength : start.length ≤ front.length) : start.isPrefixOf front = true := by
  rw [List.isPrefixOf_iff_prefix] at h ⊢
  exact List.prefix_of_prefix_length_le h (List.prefix_append front back) hlength

theorem isPrefixOf_append {front : Bytes} (h : start.isPrefixOf front = true) (back : Bytes) :
    start.isPrefixOf (front ++ back) = true := by
  rw [List.isPrefixOf_iff_prefix] at h ⊢
  exact h.trans (List.prefix_append front back)

theorem followed_assoc (a b c : Seen) : (a.followed b).followed c = a.followed (b.followed c) := by
  rw [Seen.followed, Seen.followed, Seen.followed, Seen.followed, List.append_assoc,
    List.append_assoc]

/-- With no cut inside the start of a report, the rest is seen from where the front ends. -/
theorem watch_append {front back : Bytes} (hskip : skip ≤ front.length)
    (hcut : ∀ i ∈ (watch s skip offset (front ++ back)).begins,
      ¬Splits (offset + front.length) i) :
    watch s skip offset (front ++ back) = (watch s skip offset front).followed
      (watch (watch s skip offset front).scanner 0 (offset + front.length) back) := by
  fun_induction watch s skip offset front with
  | case1 s skip offset =>
      obtain rfl : skip = 0 := Nat.le_zero.mp hskip
      rfl
  | case2 s skip offset byte front ih =>
      have hlength : offset + (byte :: front).length = offset + 1 + front.length := by
        rw [List.length_cons, Nat.add_right_comm, Nat.add_assoc]
      rw [List.cons_append, watch, hlength] at hcut
      rw [List.cons_append, watch, hlength]
      exact ih (Nat.le_of_succ_le_succ hskip) hcut
  | case3 s offset byte front bytes hbegun ih =>
      have hlength : offset + (byte :: front).length = offset + 1 + front.length := by
        rw [List.length_cons, Nat.add_right_comm, Nat.add_assoc]
      rw [List.cons_append, watch_begun hbegun, hlength] at hcut
      rw [List.cons_append, watch_begun hbegun, hlength, followed_assoc,
        ih (Nat.zero_le _) fun i hi => hcut i (List.mem_append_right _ hi)]
      rfl
  | case4 s offset byte front hbegun hstart ih =>
      have hlength : offset + (byte :: front).length = offset + 1 + front.length := by
        rw [List.length_cons, Nat.add_right_comm, Nat.add_assoc]
      have hlong : start.length ≤ (byte :: front).length :=
        (List.isPrefixOf_iff_prefix.mp hstart).length_le
      have hstart' := isPrefixOf_append hstart back
      rw [List.cons_append] at hstart'
      rw [List.cons_append, watch_start hbegun hstart', hlength] at hcut
      rw [List.cons_append, watch_start hbegun hstart', hlength, followed_assoc,
        ih (Nat.le_of_succ_le_succ hlong) fun i hi => hcut i (List.mem_append_right _ hi)]
      rfl
  | case5 s offset byte front hbegun hstart ih =>
      have hlength : offset + (byte :: front).length = offset + 1 + front.length := by
        rw [List.length_cons, Nat.add_right_comm, Nat.add_assoc]
      have hstart' : ¬start.isPrefixOf (byte :: (front ++ back)) = true := by
        -- a start seen only with what is behind the cut would be cut
        intro hwhole
        rw [List.cons_append, watch_start hbegun hwhole] at hcut
        have huncut := hcut offset (List.mem_append_left _ List.mem_cons_self)
        refine hstart (isPrefixOf_of_append hwhole ?_)
        by_contra hshort
        refine huncut ⟨?_, ?_⟩
        · rw [List.length_cons]
          omega
        · omega
      rw [List.cons_append, watch_search hbegun hstart', hlength] at hcut
      rw [List.cons_append, watch_search hbegun hstart', hlength]
      exact ih (Nat.zero_le _) hcut

/-! ## Pieces -/

/-- The scan of the pieces in order, and the last report obtained from them. -/
def scanPieces (s : Osc7) : List Bytes → Osc7 × Option String
  | [] => (s, none)
  | piece :: pieces =>
      let rest := scanPieces (scan s piece).1 pieces
      (rest.1, rest.2.or (scan s piece).2)

/-- The reports of the stream, by the piece they end in. -/
def endedIn (s : Osc7) : List Bytes → List (List Bytes)
  | [] => []
  | piece :: pieces => reports s piece :: endedIn (scan s piece).1 pieces

/-- No cut between two pieces lies inside the start of a report. -/
def Uncut (s : Osc7) (pieces : List Bytes) : Prop :=
  ∀ k, ∀ i ∈ begins s pieces.flatten, ¬Splits (pieces.take k).flatten.length i

variable {piece : Bytes} {pieces : List Bytes}

theorem Uncut.watch_cons (h : Uncut s (piece :: pieces)) :
    watch s 0 0 (piece :: pieces).flatten = (watch s 0 0 piece).followed
      (watch (scan s piece).1 0 (0 + piece.length) pieces.flatten) := by
  rw [scan_fst, List.flatten_cons]
  refine watch_append (Nat.zero_le _) fun i hi => ?_
  have hfirst := h 1 i hi
  rwa [List.take_succ_cons, List.take_zero, List.flatten_cons, List.flatten_nil,
    List.append_nil, ← Nat.zero_add piece.length] at hfirst

theorem Uncut.tail (h : Uncut s (piece :: pieces)) : Uncut (scan s piece).1 pieces := by
  intro k i hi
  have hwhole : i + piece.length ∈ begins s (piece :: pieces).flatten := by
    rw [begins, h.watch_cons, watch_offset]
    exact List.mem_append_right _ (List.mem_map_of_mem hi)
  have hcut := h (k + 1) _ hwhole
  rw [List.take_succ_cons, List.flatten_cons, List.length_append] at hcut
  intro ⟨hlow, hhigh⟩
  exact hcut ⟨by omega, by omega⟩

/-- The pieces hold the reports of the stream, and the scanner ends in one state. -/
theorem Uncut.watch_flatten (h : Uncut s pieces) :
    (watch s 0 0 pieces.flatten).scanner = (scanPieces s pieces).1 ∧
      reports s pieces.flatten = (endedIn s pieces).flatten := by
  induction pieces generalizing s with
  | nil => exact ⟨rfl, rfl⟩
  | cons piece pieces ih =>
      obtain ⟨hscanner, hreports⟩ := ih h.tail
      rw [reports, h.watch_cons, watch_offset]
      refine ⟨hscanner, ?_⟩
      rw [endedIn, List.flatten_cons, ← hreports]
      rfl

theorem scanPieces_snd (s : Osc7) (pieces : List Bytes) :
    (scanPieces s pieces).2 = ((endedIn s pieces).filterMap lastText).getLast? := by
  induction pieces generalizing s with
  | nil => rfl
  | cons piece pieces ih =>
      have hpiece := scan_snd s piece
      rw [scanPieces, endedIn, ih, hpiece]
      cases hlast : lastText (reports s piece) with
      | none => rw [List.filterMap_cons_none hlast, Option.or_none]
      | some text =>
          rw [List.filterMap_cons_some hlast, List.getLast?_cons]
          cases ((endedIn (scan s piece).1 pieces).filterMap lastText).getLast? with
          | none => rfl
          | some last => rfl

/-! ## The last report -/

/-- The last of some reports is text. -/
def LastIsText (reports : List Bytes) : Prop :=
  ∃ report, reports.getLast? = some report ∧ ∃ text, fromUtf8 report = some text

theorem lastIsText_iff (reports : List Bytes) :
    LastIsText reports ↔ ∃ text, lastText reports = some text := by
  constructor
  · rintro ⟨report, hlast, text, htext⟩
    exact ⟨text, by rw [lastText, hlast, Option.bind_some, htext]⟩
  · rintro ⟨text, htext⟩
    obtain ⟨report, hlast, htext⟩ := Option.bind_eq_some_iff.mp htext
    exact ⟨report, hlast, text, htext⟩

/-- A last report that is text is the last that any group ends with. -/
theorem getLast?_filterMap {groups : List (List Bytes)} {text : String}
    (h : lastText groups.flatten = some text) :
    (groups.filterMap lastText).getLast? = some text := by
  induction groups with
  | nil => cases h
  | cons group groups ih =>
      rw [lastText, List.flatten_cons, List.getLast?_append] at h
      cases hlast : groups.flatten.getLast? with
      | some report =>
          rw [hlast, Option.some_or] at h
          rw [lastText, hlast] at ih
          have hrest := ih h
          cases hgroup : lastText group with
          | none => rw [List.filterMap_cons_none hgroup, hrest]
          | some first => rw [List.filterMap_cons_some hgroup, List.getLast?_cons, hrest]; rfl
      | none =>
          rw [hlast, Option.none_or] at h
          have hempty : ∀ g ∈ groups, g = [] :=
            List.flatten_eq_nil_iff.mp (List.getLast?_eq_none_iff.mp hlast)
          have hrest : groups.filterMap lastText = [] := by
            rw [List.filterMap_eq_nil_iff]
            intro g hg
            rw [hempty g hg]
            rfl
          have hgroup : lastText group = some text := h
          rw [List.filterMap_cons_some hgroup, hrest]
          rfl

/-- The last report of the pieces is the stream's exactly when the stream's last report is text,
or no piece has a last report that is. -/
theorem scanPieces_iff (h : Uncut s pieces) :
    (scanPieces s pieces).2 = (scan s pieces.flatten).2 ↔
      LastIsText (reports s pieces.flatten) ∨ ∀ group ∈ endedIn s pieces, ¬LastIsText group := by
  have hreports := h.watch_flatten.2
  rw [scanPieces_snd, scan_snd, hreports, lastIsText_iff]
  constructor
  · intro heq
    cases hwhole : lastText (endedIn s pieces).flatten with
    | some text => exact .inl ⟨text, rfl⟩
    | none =>
        rw [hwhole, List.getLast?_eq_none_iff, List.filterMap_eq_nil_iff] at heq
        refine .inr fun group hgroup htext => ?_
        obtain ⟨text, htext⟩ := (lastIsText_iff group).mp htext
        rw [heq group hgroup] at htext
        cases htext
  · rintro (⟨text, htext⟩ | hnone)
    · rw [htext]
      exact getLast?_filterMap htext
    · have hempty : (endedIn s pieces).filterMap lastText = [] := by
        rw [List.filterMap_eq_nil_iff]
        intro group hgroup
        by_contra hsome
        obtain ⟨text, htext⟩ := Option.ne_none_iff_exists'.mp hsome
        exact hnone group hgroup ((lastIsText_iff group).mpr ⟨text, htext⟩)
      rw [hempty, List.getLast?_nil]
      cases hwhole : lastText (endedIn s pieces).flatten with
      | none => rfl
      | some text =>
          have hlast := getLast?_filterMap hwhole
          rw [hempty] at hlast
          cases hlast

/-- Cuts are looked for only between pieces. -/
theorem uncut_of_all
    (h : ((List.range (pieces.length + 1)).all fun k =>
      (begins s pieces.flatten).all fun i =>
        !decide (Splits (pieces.take k).flatten.length i)) = true) :
    Uncut s pieces := by
  intro k i hi
  rcases Nat.lt_or_ge k (pieces.length + 1) with hk | hk
  · have hall := List.all_eq_true.mp (List.all_eq_true.mp h k (List.mem_range.mpr hk)) i hi
    simpa using hall
  · have hall := List.all_eq_true.mp
      (List.all_eq_true.mp h pieces.length (List.mem_range.mpr (Nat.lt_succ_self _))) i hi
    rw [List.take_length] at hall
    rw [List.take_of_length_le (by omega)]
    simpa using hall

/-- A report in one piece with its end in the next: `ESC ] 7 ; fi` and `le:///a BEL`. -/
def halved : List Bytes :=
  [[0x1b, 0x5d, 0x37, 0x3b, 0x66, 0x69], [0x6c, 0x65, 0x3a, 0x2f, 0x2f, 0x2f, 0x61, 0x07]]

theorem scanPieces_halved : (scanPieces {} halved).2 = (scan {} halved.flatten).2 :=
  (scanPieces_iff (uncut_of_all (by decide))).mpr
    (.inl ⟨[0x66, 0x69, 0x6c, 0x65, 0x3a, 0x2f, 0x2f, 0x2f, 0x61], by decide, "file:///a",
      by decide⟩)

/-- A report that is text, `ESC ] 7 ; / BEL`, and one that is not. -/
def garbled : List Bytes :=
  [[0x1b, 0x5d, 0x37, 0x3b, 0x2f, 0x07], [0x1b, 0x5d, 0x37, 0x3b, 0xff, 0x07]]

/-- The second report hides the first where both are in one piece. -/
theorem not_scanPieces_garbled :
    Uncut {} garbled ∧ (scanPieces {} garbled).2 = some "/" ∧ (scan {} garbled.flatten).2 = none :=
  ⟨uncut_of_all (by decide), by decide, by decide⟩

end Osc7

end Throng
