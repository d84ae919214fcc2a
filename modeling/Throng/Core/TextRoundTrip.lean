import Throng.Core.Text

/-!
# Reading and writing text files

What `decode` reads `encode` writes back, and what `encode` writes `decode` reads
back as it was, except that a lone CR and the LF of an empty line after it are read
as one CRLF.
-/

namespace Throng.Text

/-! ## Encodings -/

theorem stripBytes_append (pfx bytes : Bytes) : stripBytes pfx (pfx ++ bytes) = some bytes := by
  rw [stripBytes, if_pos (List.prefix_append pfx bytes), List.drop_left]

theorem eq_of_stripBytes {pfx bytes rest : Bytes} (h : stripBytes pfx bytes = some rest) :
    bytes = pfx ++ rest := by
  unfold stripBytes at h
  split at h
  · next hpfx =>
      cases h
      exact (List.prefix_iff_eq_append.mp hpfx).symm
  · cases h

theorem utf8_eq_ok {bytes : Bytes} {base : Nat} {raw : List Char} :
    utf8 bytes base = .ok raw ↔ bytes = Utf8.encode raw := by
  unfold utf8
  constructor
  · intro h
    split at h
    · next text hdecode =>
        cases h
        exact (Utf8.encode_of_decode hdecode).symm
    · cases h
  · rintro rfl
    rw [Utf8.decode_encode]

theorem utf16_eq_ok {bytes : Bytes} {order : Utf16.Order} {raw : List Char} :
    utf16 bytes order = .ok raw ↔ bytes = Utf16.toBytes order (Utf16.encode raw) := by
  unfold utf16
  constructor
  · intro h
    split at h
    · next text hdecode =>
        cases h
        obtain ⟨us, hus, hdecode⟩ := Option.bind_eq_some_iff.mp hdecode
        obtain ⟨hbytes, hlt⟩ := Utf16.toBytes_of_ofBytes hus
        rw [Utf16.encode_of_decode hlt hdecode, hbytes]
    · cases h
  · rintro rfl
    rw [Utf16.ofBytes_toBytes order (Utf16.encode_lt raw), Option.bind_some, Utf16.decode_encode]

theorem map_eq_ok {ε α β : Type} {f : α → β} {x : Except ε α} {b : β} (h : x.map f = .ok b) :
    ∃ a, x = .ok a ∧ f a = b := by
  cases x with
  | error e => cases h
  | ok a => exact ⟨a, rfl, Except.ok.inj h⟩

/-- The bytes of a text that is read are the bytes that are written for it. -/
theorem encodeRaw_of_decodeRaw {bytes : Bytes} {encoding : Encoding} {raw : List Char}
    (h : decodeRaw bytes = .ok (encoding, raw)) : encodeRaw encoding raw = bytes := by
  unfold decodeRaw at h
  split at h
  · next rest hstrip =>
      obtain ⟨text, hutf8, heq⟩ := map_eq_ok h
      cases heq
      rw [eq_of_stripBytes hstrip, utf8_eq_ok.mp hutf8]
      rfl
  · split at h
    · next rest hstrip =>
        obtain ⟨text, hutf16, heq⟩ := map_eq_ok h
        cases heq
        rw [eq_of_stripBytes hstrip, utf16_eq_ok.mp hutf16]
        rfl
    · split at h
      · next rest hstrip =>
          obtain ⟨text, hutf16, heq⟩ := map_eq_ok h
          cases heq
          rw [eq_of_stripBytes hstrip, utf16_eq_ok.mp hutf16]
          rfl
      · split at h
        · cases h
        · obtain ⟨text, hutf8, heq⟩ := map_eq_ok h
          cases heq
          exact (utf8_eq_ok.mp hutf8).symm

theorem stripBytes_cons_ne {a b : UInt8} {pfx bytes : Bytes} (h : a ≠ b) :
    stripBytes (a :: pfx) (b :: bytes) = none := by
  rw [stripBytes, if_neg]
  intro hpfx
  exact h (List.cons_prefix_cons.mp hpfx).1

/-- A text's UTF-8 bytes begin with none of the marks, unless the text does. -/
theorem stripBytes_utf8 {raw : List Char} (hbom : raw.head? ≠ some '\uFEFF') :
    stripBytes utf8Bom (Utf8.encode raw) = none ∧
      stripBytes utf16LeBom (Utf8.encode raw) = none ∧
        stripBytes utf16BeBom (Utf8.encode raw) = none := by
  have hfirst : ∀ {b : UInt8} {rest : Bytes}, ¬ b.IsUTF8FirstByte →
      stripBytes (b :: rest) (Utf8.encode raw) = none := by
    intro b rest hb
    rw [stripBytes, if_neg]
    rintro ⟨more, hmore⟩
    refine hb (@Utf8.head_encode raw b ?_)
    rw [← hmore]
    rfl
  refine ⟨?_, hfirst (by decide), hfirst (by decide)⟩
  rw [stripBytes, if_neg]
  intro hpfx
  exact hbom (@Utf8.head_of_prefix raw '\uFEFF' hpfx)

theorem decodeRaw_encodeRaw {raw : List Char} (hbom : raw.head? ≠ some '\uFEFF')
    (hnul : '\x00' ∉ raw) (encoding : Encoding) :
    decodeRaw (encodeRaw encoding raw) = .ok (encoding, raw) := by
  unfold decodeRaw encodeRaw
  cases encoding with
  | utf8 bom =>
      cases bom with
      | true =>
          simp only [if_true, stripBytes_append, utf8_eq_ok.mpr rfl]
          rfl
      | false =>
          obtain ⟨hutf8, hle, hbe⟩ := stripBytes_utf8 hbom
          have hzero : (List.take binarySniffBytes (Utf8.encode raw)).contains 0 = false := by
            rw [Bool.eq_false_iff]
            intro hin
            exact Utf8.zero_notMem_encode hnul (List.mem_of_mem_take (List.contains_iff_mem.mp hin))
          simp only [Bool.false_eq_true, if_false, List.nil_append, hutf8, hle, hbe, hzero,
            utf8_eq_ok.mpr rfl]
          rfl
  | utf16Le =>
      have hutf8 : ∀ bytes, stripBytes utf8Bom (utf16LeBom ++ bytes) = none := fun bytes =>
        stripBytes_cons_ne (by decide)
      simp only [hutf8, stripBytes_append, utf16_eq_ok.mpr rfl]
      rfl
  | utf16Be =>
      have hutf8 : ∀ bytes, stripBytes utf8Bom (utf16BeBom ++ bytes) = none := fun bytes =>
        stripBytes_cons_ne (by decide)
      have hle : ∀ bytes, stripBytes utf16LeBom (utf16BeBom ++ bytes) = none := fun bytes =>
        stripBytes_cons_ne (by decide)
      simp only [hutf8, hle, stripBytes_append, utf16_eq_ok.mpr rfl]
      rfl

/-! ## Lines -/

/-- A line's content: no CR and no LF. -/
def Plain (content : List Char) : Prop := '\n' ∉ content ∧ '\r' ∉ content

/-- Lines as they come from a text: plain, and every one but a last that is not
empty has a terminator. -/
inductive Lines : List Line → Prop
  | nil : Lines []
  | last {content : List Char} (hplain : Plain content) (hne : content ≠ []) :
      Lines [(content, none)]
  | cons {content : List Char} {ending : LineEnding} {lines : List Line} (hplain : Plain content)
      (hlines : Lines lines) : Lines ((content, some ending) :: lines)

theorem splitLinesFrom_lf (line cs : List Char) :
    splitLinesFrom line ('\n' :: cs) = (line, some .lf) :: splitLinesFrom [] cs := by
  rw [splitLinesFrom.eq_def]
  rfl

theorem splitLinesFrom_crLf (line cs : List Char) :
    splitLinesFrom line ('\r' :: '\n' :: cs) = (line, some .crLf) :: splitLinesFrom [] cs := by
  rw [splitLinesFrom.eq_def]
  rfl

theorem splitLinesFrom_cr (line : List Char) {cs : List Char} (h : cs.head? ≠ some '\n') :
    splitLinesFrom line ('\r' :: cs) = (line, some .cr) :: splitLinesFrom [] cs := by
  rw [splitLinesFrom.eq_def]
  simp only [if_neg (by decide : ¬ '\r' = '\n'), if_true]
  split
  · exact absurd rfl h
  · rfl

theorem splitLinesFrom_plain {line content rest : List Char} (h : Plain content) :
    splitLinesFrom line (content ++ rest) = splitLinesFrom (line ++ content) rest := by
  induction content generalizing line with
  | nil => simp
  | cons c content ih =>
      have hlf : c ≠ '\n' := fun heq => h.1 (heq ▸ List.mem_cons_self)
      have hcr : c ≠ '\r' := fun heq => h.2 (heq ▸ List.mem_cons_self)
      have hrest : Plain content :=
        ⟨fun hin => h.1 (List.mem_cons_of_mem _ hin), fun hin => h.2 (List.mem_cons_of_mem _ hin)⟩
      rw [List.cons_append, splitLinesFrom.eq_def]
      simp only [if_neg hlf, if_neg hcr]
      rw [ih hrest, List.append_assoc, List.singleton_append]

theorem joined_cons (line : Line) (lines : List Line) :
    joined (line :: lines) = line.1 ++ (line.2.map LineEnding.asStr).getD [] ++ joined lines := by
  rw [joined, List.flatMap_cons]
  rfl

theorem textOf_cons (line : Line) (lines : List Line) :
    textOf (line :: lines) = line.1 ++ (if line.2.isSome then ['\n'] else []) ++ textOf lines := by
  rw [textOf, List.flatMap_cons]
  rfl

/-- Splitting a text gives lines that spell it. -/
theorem splitLinesFrom_spec {line : List Char} (hline : Plain line) (cs : List Char) :
    Lines (splitLinesFrom line cs) ∧ joined (splitLinesFrom line cs) = line ++ cs := by
  have hnil : Plain [] := ⟨List.not_mem_nil, List.not_mem_nil⟩
  fun_induction splitLinesFrom line cs with
  | case1 => exact ⟨.nil, rfl⟩
  | case2 line hne => exact ⟨.last hline hne, by simp [joined]⟩
  | case3 line cs ih =>
      obtain ⟨hlines, hjoined⟩ := ih hnil
      refine ⟨.cons hline hlines, ?_⟩
      rw [joined_cons, hjoined]
      simp [LineEnding.asStr]
  | case4 line rest _ ih =>
      obtain ⟨hlines, hjoined⟩ := ih hnil
      refine ⟨.cons hline hlines, ?_⟩
      rw [joined_cons, hjoined]
      simp [LineEnding.asStr]
  | case5 line rest _ _ ih =>
      obtain ⟨hlines, hjoined⟩ := ih hnil
      refine ⟨.cons hline hlines, ?_⟩
      rw [joined_cons, hjoined]
      simp [LineEnding.asStr]
  | case6 line c cs hlf hcr ih =>
      have hmore : Plain (line ++ [c]) := by
        refine ⟨fun hin => ?_, fun hin => ?_⟩
        · rcases List.mem_append.mp hin with hin | hin
          · exact hline.1 hin
          · exact hlf (List.mem_singleton.mp hin).symm
        · rcases List.mem_append.mp hin with hin | hin
          · exact hline.2 hin
          · exact hcr (List.mem_singleton.mp hin).symm
      obtain ⟨hlines, hjoined⟩ := ih hmore
      refine ⟨hlines, ?_⟩
      rw [hjoined, List.append_assoc, List.singleton_append]

theorem lines_splitLines (raw : List Char) : Lines (splitLines raw) :=
  (splitLinesFrom_spec ⟨List.not_mem_nil, List.not_mem_nil⟩ raw).1

theorem joined_splitLines (raw : List Char) : joined (splitLines raw) = raw :=
  (splitLinesFrom_spec ⟨List.not_mem_nil, List.not_mem_nil⟩ raw).2

theorem textOf_eq_joined {lines : List Line} (h : '\r' ∉ joined lines) :
    textOf lines = joined lines := by
  induction lines with
  | nil => rfl
  | cons line lines ih =>
      rw [joined_cons, List.mem_append, List.mem_append, not_or, not_or] at h
      obtain ⟨⟨-, hending⟩, hrest⟩ := h
      rw [joined_cons, textOf_cons, ih hrest]
      obtain ⟨content, ending⟩ := line
      rcases ending with - | - | - | -
      · rfl
      · rfl
      · exact absurd List.mem_cons_self hending
      · exact absurd List.mem_cons_self hending

/-- Where no CR stands, the lines end in LF, and the text is theirs. -/
theorem textOf_splitLines {text : List Char} (h : '\r' ∉ text) :
    textOf (splitLines text) = text := by
  have hjoined := joined_splitLines text
  rw [textOf_eq_joined (by rwa [hjoined]), hjoined]

/-! ## The lines of an LF text -/

/-- The last line, if there is one, is terminated. -/
def terminated (lines : List Line) : Bool := lines.getLast?.all fun line => line.2.isSome

theorem terminated_cons {content : List Char} {ending : LineEnding} {lines : List Line} :
    terminated ((content, some ending) :: lines) = terminated lines := by
  cases lines with
  | nil => rfl
  | cons line lines => rw [terminated, List.getLast?_cons_cons, terminated]

theorem textOf_eq_nil {lines : List Line} (h : Lines lines) : textOf lines = [] ↔ lines = [] := by
  cases h with
  | nil => simp [textOf]
  | last hplain hne => simp [textOf, hne]
  | cons hplain hlines => simp [textOf]

theorem endsWithNewline_textOf {lines : List Line} (h : Lines lines) :
    endsWithNewline (textOf lines) = (terminated lines && !lines.isEmpty) := by
  induction h with
  | nil => rfl
  | @last content hplain hne =>
      have hlast : content.getLast? ≠ some '\n' := fun heq => hplain.1 (List.mem_of_getLast? heq)
      simpa [endsWithNewline, textOf, terminated] using hlast
  | @cons content ending lines hplain hlines ih =>
      rw [terminated_cons, textOf_cons]
      by_cases hnil : lines = []
      · subst hnil
        simp [endsWithNewline, textOf, terminated]
      · have hne : textOf lines ≠ [] := fun heq => hnil ((textOf_eq_nil hlines).mp heq)
        rw [endsWithNewline, List.getLast?_append_of_ne_nil _ hne]
        have hempty : lines.isEmpty = false := by simpa using hnil
        rw [endsWithNewline, hempty] at ih
        rw [ih]
        rfl

/-- Splitting at the LFs gives the contents, and an empty piece after a last LF. -/
theorem splitOn_textOf {lines : List Line} (h : Lines lines) :
    (textOf lines).splitOn '\n' =
      lines.map Prod.fst ++ if terminated lines then [[]] else [] := by
  induction h with
  | nil => simp [textOf, terminated]
  | @last content hplain hne =>
      have hsingle : content.splitOn '\n' = [content] := List.splitOn_eq_singleton hplain.1
      simpa [textOf, terminated] using hsingle
  | @cons content ending lines hplain hlines ih =>
      rw [terminated_cons, textOf_cons]
      simp only [Option.isSome_some, if_true, List.append_assoc, List.singleton_append]
      rw [List.splitOn_append_cons_self_of_not_mem hplain.1, ih]
      rfl

/-- An LF text of lines splits into these lines' contents. -/
theorem newLines_textOf {lines : List Line} (h : Lines lines) :
    newLines (textOf lines) = lines.map Prod.fst := by
  have hends := endsWithNewline_textOf h
  have hsplit := splitOn_textOf h
  rw [newLines]
  by_cases hnil : lines = []
  · subst hnil
    rfl
  · have hempty : lines.isEmpty = false := by simpa using hnil
    rw [if_neg fun heq => hnil ((textOf_eq_nil h).mp heq)]
    rw [hempty, Bool.not_false, Bool.and_true] at hends
    cases hterminated : terminated lines with
    | true =>
        rw [hterminated] at hends hsplit
        rw [if_pos hends, hsplit]
        exact List.dropLast_concat
    | false =>
        rw [hterminated] at hends hsplit
        rw [if_neg (Bool.eq_false_iff.mp hends), hsplit]
        exact List.append_nil _

/-- A line of a text is terminated unless it is a last one the text does not end after. -/
theorem isSome_ending {lines : List Line} (h : Lines lines) {i : Nat} {line : Line}
    (hi : lines[i]? = some line) :
    line.2.isSome = true ↔ i + 1 ≠ lines.length ∨ endsWithNewline (textOf lines) = true := by
  have hne : lines.isEmpty = false := by
    cases lines with
    | nil => cases hi
    | cons line lines => rfl
  rw [endsWithNewline_textOf h, hne, Bool.not_false, Bool.and_true]
  clear hne
  induction h generalizing i with
  | nil => cases hi
  | last hplain hne =>
      obtain ⟨hlt, rfl⟩ := List.getElem?_eq_some_iff.mp hi
      obtain rfl : i = 0 := Nat.lt_one_iff.mp hlt
      simp [terminated]
  | @cons content ending lines hplain hlines ih =>
      rw [terminated_cons]
      cases i with
      | zero =>
          cases hi
          cases lines with
          | nil => simp [terminated]
          | cons next lines => simp
      | succ i =>
          refine (ih hi).trans ?_
          rw [List.length_cons]
          simp

/-! ## Reading what was written -/

/-- Lines as they are read once written: a lone CR takes in the LF of an empty line. -/
def merge : List Line → List Line
  | [] => []
  | [line] => [line]
  | line :: next :: lines =>
      if line.2 = some .cr ∧ next = ([], some .lf) then (line.1, some .crLf) :: merge lines
      else line :: merge (next :: lines)

theorem head_joined {content : List Char} {ending : Option LineEnding} {lines : List Line}
    (h : Lines ((content, ending) :: lines)) (hne : (content, ending) ≠ ([], some .lf)) :
    (joined ((content, ending) :: lines)).head? ≠ some '\n' := by
  intro hhead
  rw [joined_cons] at hhead
  cases content with
  | cons c content =>
      have hplain : Plain (c :: content) := by cases h <;> assumption
      cases hhead
      exact hplain.1 List.mem_cons_self
  | nil =>
      rcases ending with - | - | - | -
      · cases h
        contradiction
      · exact hne rfl
      · cases hhead
      · cases hhead

theorem splitLines_cons {content : List Char} (ending : LineEnding) {rest : List Char}
    (hplain : Plain content) (hrest : ending = .cr → rest.head? ≠ some '\n') :
    splitLines (content ++ ending.asStr ++ rest) = (content, some ending) :: splitLines rest := by
  rw [splitLines, List.append_assoc, splitLinesFrom_plain hplain, List.nil_append]
  cases ending with
  | lf => exact splitLinesFrom_lf content rest
  | crLf => exact splitLinesFrom_crLf content rest
  | cr => exact splitLinesFrom_cr content (hrest rfl)

theorem splitLines_joined {lines : List Line} (h : Lines lines) :
    splitLines (joined lines) = merge lines := by
  fun_induction merge lines with
  | case1 => rfl
  | case2 line =>
      cases h with
      | @last content hplain hne =>
          have hspell : joined [(content, none)] = content ++ [] := by simp [joined]
          rw [hspell, splitLines, splitLinesFrom_plain hplain, List.nil_append,
            splitLinesFrom.eq_def]
          exact if_neg hne
      | @cons content ending _ hplain _ =>
          rw [joined_cons]
          exact splitLines_cons ending hplain fun _ hhead => by cases hhead
  | case3 line next lines hclash ih =>
      obtain ⟨hcr, rfl⟩ := hclash
      cases h with
      | @cons content ending _ hplain hlines =>
          cases hcr
          cases hlines with
          | cons _ hlines =>
              rw [joined_cons, joined_cons]
              have hspell : content ++ ['\r'] ++ ([] ++ ['\n'] ++ joined lines) =
                  content ++ LineEnding.crLf.asStr ++ joined lines := by simp [LineEnding.asStr]
              change splitLines (content ++ ['\r'] ++ ([] ++ ['\n'] ++ joined lines)) = _
              rw [hspell, splitLines_cons .crLf hplain nofun, ih hlines]
  | case4 line next lines hkept ih =>
      cases h with
      | @cons content ending _ hplain hlines =>
          rw [joined_cons]
          refine (splitLines_cons ending hplain fun hcr => ?_).trans (by rw [ih hlines])
          refine head_joined hlines fun heq => hkept ⟨?_, heq⟩
          rw [hcr]

end Throng.Text
