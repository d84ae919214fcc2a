import Throng.App.Osc7

/-!
# Reported directories

A directory is reported as a `file:` address that spells its path. It is taken as it is
unless what is written ends in what a link reads as a position, or begins like a drive, or
is no text.
-/

namespace Throng

namespace Links

/-! ## Spelled paths -/

/-- The characters that the path of a URI may hold as they are. -/
def inUriPath (c : Char) : Bool :=
  c.isAlphanum || "-._~!$&'()*+,;=:@/".toList.contains c

/-- The characters spell the bytes, each by itself or as `%` and two digits to base 16. -/
inductive Spells : List Char → List UInt8 → Prop
  | nil : Spells [] []
  | raw {c : Char} {rest : List Char} {bytes : List UInt8} :
      inUriPath c = true → Spells rest bytes → Spells (c :: rest) (UInt8.ofNat c.toNat :: bytes)
  | encoded {high low : Char} {rest : List Char} {b : UInt8} {bytes : List UInt8} {h l : Nat} :
      hexDigit high = some h → hexDigit low = some l → b.toNat = 16 * h + l →
        Spells rest bytes → Spells ('%' :: high :: low :: rest) (b :: bytes)

/-- ASCII digits for a number that a `u32` holds. -/
def Numeral (digits : List Char) : Prop :=
  digits ≠ [] ∧ (∀ c ∈ digits, c.isDigit = true) ∧ Nat.ofDigitChars 10 digits 0 ≤ u32Max

/-- What is written ends in what reads as a position: a number behind a colon, or brackets
whose first part is a number. -/
def EndsInPosition (uri : List Char) : Prop :=
  (∃ front digits, uri = front ++ ':' :: digits ∧ Numeral digits) ∨
    ∃ front inner, uri = front ++ '(' :: (inner ++ [')']) ∧ '(' ∉ inner ∧
      Numeral (inner.takeWhile fun c => c ≠ ',')

/-- The path begins like one on a drive. -/
def DriveLike (path : List UInt8) : Prop :=
  ∃ d rest, path = '/'.toUInt8 :: d :: ':'.toUInt8 :: rest ∧ (Char.ofNat d.toNat).isAlpha = true

/-- No byte of the path is a control character, nor any character of its text. -/
structure NoControl (path : List UInt8) : Prop where
  bytes : ∀ b ∈ path, 0x20 ≤ b.toNat ∧ b.toNat ≠ 0x7F
  text : ∀ text, path = Utf8.encode text → ∀ c ∈ text, isControl c = false

/-! ## Decoding what is spelled -/

/-- What a path may hold is printable ASCII, and begins no escape. -/
theorem inUriPath_bounds {c : Char} (h : inUriPath c = true) :
    0x20 < c.toNat ∧ c.toNat < 0x7F ∧ c ≠ '%' := by
  rw [inUriPath, Bool.or_eq_true] at h
  rcases h with halnum | hmark
  · have hrange := toNat_of_isAlphanum halnum
    refine ⟨by omega, by omega, ?_⟩
    rintro rfl
    exact absurd hrange.1 (by decide)
  · have hall : ("-._~!$&'()*+,;=:@/".toList.all fun c =>
        0x20 < c.toNat ∧ c.toNat < 0x7F ∧ c ≠ '%') = true := by decide
    exact of_decide_eq_true (List.all_eq_true.mp hall c (List.contains_iff_mem.mp hmark))

theorem utf8EncodeChar_ascii {c : Char} (h : c.toNat < 0x80) :
    String.utf8EncodeChar c = [UInt8.ofNat c.toNat] := by
  have hsize : c.utf8Size = 1 := by
    rw [Char.utf8Size_eq_one_iff, UInt32.le_iff_toNat_le]
    exact Nat.le_of_lt_succ h
  rw [String.utf8EncodeChar_eq_singleton hsize]
  rfl

theorem percentBytes_raw {c : Char} (h : c ≠ '%') (rest : List Char) :
    percentBytes (c :: rest) = (percentBytes rest).map (String.utf8EncodeChar c ++ ·) := by
  match rest with
  | [] => simp [percentBytes, h]
  | [_] => simp [percentBytes, h]
  | _ :: _ :: _ => rw [percentBytes, if_neg h]

theorem hexDigit_plus : hexDigit '+' = none := by decide

theorem percentBytes_escape {high low : Char} {b : UInt8} {h l : Nat}
    (hhigh : hexDigit high = some h) (hlow : hexDigit low = some l) (hb : b.toNat = 16 * h + l)
    (hgood : 0x20 ≤ b.toNat ∧ b.toNat ≠ 0x7F)
    (rest : List Char) :
    percentBytes ('%' :: high :: low :: rest) = (percentBytes rest).map (b :: ·) := by
  have hplus : high ≠ '+' := by
    rintro rfl
    rw [hexDigit_plus] at hhigh
    cases hhigh
  have hbyte : UInt8.ofNat (16 * h + l) = b := by rw [← hb, UInt8.ofNat_toNat]
  have hkept : (!(b < 0x20 || b = 0x7F)) = true := by
    rw [Bool.not_eq_true', Bool.or_eq_false_iff, decide_eq_false_iff_not, decide_eq_false_iff_not,
      UInt8.lt_iff_toNat_lt, ← UInt8.toNat_inj]
    exact ⟨Nat.not_lt.mpr hgood.1, hgood.2⟩
  rw [percentBytes, if_pos rfl, escaped, hexByte, if_neg hplus, hhigh, hlow, Option.bind_some,
    Option.map_some, hbyte, Option.filter_some, if_pos hkept, Option.bind_some]

/-- What is spelled is decoded. -/
theorem percentBytes_of_spells {rest : List Char} {bytes : List UInt8} (h : Spells rest bytes)
    (hgood : ∀ b ∈ bytes, 0x20 ≤ b.toNat ∧ b.toNat ≠ 0x7F) : percentBytes rest = some bytes := by
  induction h with
  | nil => rfl
  | raw hc h ih =>
      obtain ⟨-, hlt, hne⟩ := inUriPath_bounds hc
      rw [percentBytes_raw hne, ih fun b hb => hgood b (List.mem_cons_of_mem _ hb),
        utf8EncodeChar_ascii (by omega)]
      rfl
  | encoded hhigh hlow hb h ih =>
      rw [percentBytes_escape hhigh hlow hb (hgood _ List.mem_cons_self),
        ih fun b hb => hgood b (List.mem_cons_of_mem _ hb)]
      rfl

/-- The front of what is spelled, if it is decoded, gives a front of the bytes. -/
theorem exists_of_spells_append {front back : List Char} {bytes found : List UInt8}
    (h : Spells (front ++ back) bytes) (hgood : ∀ b ∈ bytes, 0x20 ≤ b.toNat ∧ b.toNat ≠ 0x7F)
    (hfound : percentBytes front = some found) :
      ∃ others, bytes = found ++ others ∧ Spells back others := by
  generalize htext : front ++ back = text at h
  induction h generalizing front found with
  | nil =>
      obtain ⟨rfl, rfl⟩ := List.append_eq_nil_iff.mp htext
      rw [percentBytes, Option.some.injEq] at hfound
      exact ⟨[], by rw [← hfound]; rfl, .nil⟩
  | raw hc h ih =>
      cases front with
      | nil =>
          rw [percentBytes, Option.some.injEq] at hfound
          rw [List.nil_append] at htext
          refine ⟨_, by rw [← hfound]; rfl, ?_⟩
          rw [htext]
          exact .raw hc h
      | cons d front =>
          rw [List.cons_append, List.cons.injEq] at htext
          obtain ⟨rfl, htext⟩ := htext
          obtain ⟨-, hlt, hne⟩ := inUriPath_bounds hc
          rw [percentBytes_raw hne, utf8EncodeChar_ascii (by omega)] at hfound
          obtain ⟨found', hfront, rfl⟩ := Option.map_eq_some_iff.mp hfound
          obtain ⟨others, rfl, hothers⟩ :=
            ih (fun b hb => hgood b (List.mem_cons_of_mem _ hb)) hfront htext
          exact ⟨others, rfl, hothers⟩
  | encoded hhigh hlow hb h ih =>
      match front with
      | [] =>
          rw [percentBytes, Option.some.injEq] at hfound
          rw [List.nil_append] at htext
          refine ⟨_, by rw [← hfound]; rfl, ?_⟩
          rw [htext]
          exact .encoded hhigh hlow hb h
      | [d] =>
          rw [List.cons_append, List.cons.injEq] at htext
          obtain ⟨rfl, -⟩ := htext
          simp [percentBytes] at hfound
      | [d, d'] =>
          rw [List.cons_append, List.cons.injEq] at htext
          obtain ⟨rfl, -⟩ := htext
          simp [percentBytes] at hfound
      | d :: d' :: d'' :: front =>
          rw [List.cons_append, List.cons_append, List.cons_append, List.cons.injEq,
            List.cons.injEq, List.cons.injEq] at htext
          obtain ⟨rfl, rfl, rfl, htext⟩ := htext
          rw [percentBytes_escape hhigh hlow hb (hgood _ List.mem_cons_self)] at hfound
          obtain ⟨found', hfront, rfl⟩ := Option.map_eq_some_iff.mp hfound
          obtain ⟨others, rfl, hothers⟩ :=
            ih (fun b hb => hgood b (List.mem_cons_of_mem _ hb)) hfront htext
          exact ⟨others, rfl, hothers⟩

/-! ## Splitting off a position -/

theorem splitLast_eq_none {c : Char} {raw : List Char} : splitLast c raw = none ↔ c ∉ raw := by
  induction raw with
  | nil => simp [splitLast]
  | cons d rest ih =>
      rw [splitLast, Option.or_eq_none_iff, Option.map_eq_none_iff, ih, ite_eq_right_iff,
        List.mem_cons, not_or, and_comm]
      refine and_congr_left fun _ => ?_
      constructor
      · intro h heq
        cases h heq.symm
      · intro h heq
        exact absurd heq.symm h

theorem splitLast_eq_some {c : Char} {raw front back : List Char} :
    splitLast c raw = some (front, back) ↔ raw = front ++ c :: back ∧ c ∉ back := by
  induction raw generalizing front back with
  | nil => simp [splitLast]
  | cons d rest ih =>
      rw [splitLast]
      cases hsplit : splitLast c rest with
      | none =>
          have hnone := splitLast_eq_none.mp hsplit
          rw [Option.map_none, Option.none_or]
          constructor
          · intro h
            split at h
            · next heq =>
                rw [Option.some.injEq, Prod.mk.injEq] at h
                obtain ⟨rfl, rfl⟩ := h
                exact ⟨by rw [heq, List.nil_append], hnone⟩
            · cases h
          · rintro ⟨hraw, hback⟩
            cases front with
            | nil =>
                rw [List.nil_append, List.cons.injEq] at hraw
                rw [if_pos hraw.1, hraw.2]
            | cons e front =>
                rw [List.cons_append, List.cons.injEq] at hraw
                exact absurd (hraw.2 ▸ List.mem_append_right _ List.mem_cons_self) hnone
      | some split =>
          obtain ⟨front', back'⟩ := split
          obtain ⟨hrest, hback'⟩ := ih.mp hsplit
          rw [Option.map_some, Option.some_or, Option.some.injEq, Prod.mk.injEq]
          constructor
          · rintro ⟨rfl, rfl⟩
            exact ⟨by rw [hrest, List.cons_append], hback'⟩
          · rintro ⟨hraw, hback⟩
            cases front with
            | nil =>
                rw [List.nil_append, List.cons.injEq] at hraw
                rw [← hraw.2, hrest] at hback
                exact absurd (List.mem_append_right _ List.mem_cons_self) hback
            | cons e front =>
                rw [List.cons_append, List.cons.injEq] at hraw
                have hfound := ih.mpr ⟨hraw.2, hback⟩
                rw [hsplit, Option.some.injEq, Prod.mk.injEq] at hfound
                exact ⟨by rw [hraw.1, hfound.1], hfound.2⟩

theorem exists_number {digits : List Char} : (∃ n, number digits = some n) ↔ Numeral digits := by
  rw [number, Numeral, ← List.all_eq_true]
  split
  · next h => exact ⟨fun _ => h, fun _ => ⟨_, rfl⟩⟩
  · next h => exact ⟨nofun, fun hnumeral => absurd hnumeral h⟩

/-- What comes before the path of a local address, up to its first slash. -/
def scheme : List Char := "file:///".toList

theorem exists_of_scheme_append {c : Char} {rest front back : List Char}
    (h : scheme ++ rest = front ++ c :: back) (hc : c = '(' ∨ (c = ':' ∧ '/' ∉ back)) :
    ∃ front', front = scheme ++ front' ∧ rest = front' ++ c :: back := by
  rcases List.append_eq_append_iff.mp h with ⟨front', hfront, hrest⟩ | ⟨middle, hscheme, hback⟩
  · exact ⟨front', hfront, hrest⟩
  · -- the slash that ends the scheme would stand behind `c`
    cases middle with
    | nil =>
        rw [List.append_nil] at hscheme
        exact ⟨[], by rw [List.append_nil, hscheme], hback.symm⟩
    | cons d middle =>
        rw [List.cons_append, List.cons.injEq] at hback
        obtain ⟨rfl, rfl⟩ := hback
        have hlast : (front ++ c :: middle).getLast? = some '/' := by rw [← hscheme]; rfl
        have hmem : c ∈ scheme := by
          rw [hscheme]
          exact List.mem_append_right _ List.mem_cons_self
        rcases hc with rfl | ⟨rfl, hslash⟩
        · exact absurd hmem (by decide)
        · rw [List.getLast?_append_cons] at hlast
          cases middle with
          | nil => simp at hlast
          | cons e middle =>
              rw [List.getLast?_cons_cons] at hlast
              exact absurd (List.mem_append_left _ (List.mem_of_getLast? hlast)) hslash

theorem Numeral.notMem {digits : List Char} (h : Numeral digits) {c : Char}
    (hc : c.isDigit = false) : c ∉ digits := by
  intro hmem
  rw [h.2.1 c hmem] at hc
  cases hc

theorem exists_of_popNumber {rest path : List Char} {n : Nat}
    (h : popNumber (scheme ++ rest) = some (path, n)) :
    ∃ front digits, path = scheme ++ front ∧ rest = front ++ ':' :: digits ∧ Numeral digits := by
  obtain ⟨⟨front, digits⟩, hsplit, hnumber⟩ := Option.bind_eq_some_iff.mp h
  obtain ⟨m, hm, heq⟩ := Option.map_eq_some_iff.mp hnumber
  rw [Prod.mk.injEq] at heq
  obtain ⟨rfl, rfl⟩ := heq
  have hnumeral := exists_number.mp ⟨_, hm⟩
  obtain ⟨front', hfront, hrest⟩ := exists_of_scheme_append (splitLast_eq_some.mp hsplit).1
    (.inr ⟨rfl, hnumeral.notMem (by decide)⟩)
  exact ⟨front', digits, hfront, hrest, hnumeral⟩

theorem popNumber_eq_none {rest : List Char} (h : popNumber (scheme ++ rest) = none) :
    ¬ ∃ front digits, rest = front ++ ':' :: digits ∧ Numeral digits := by
  rintro ⟨front, digits, rfl, hnumeral⟩
  have hsplit : splitLast ':' (scheme ++ (front ++ ':' :: digits)) =
      some (scheme ++ front, digits) :=
    splitLast_eq_some.mpr ⟨by rw [List.append_assoc], hnumeral.notMem (by decide)⟩
  obtain ⟨n, hn⟩ := exists_number.mpr hnumeral
  rw [popNumber, hsplit, Option.bind_some, hn] at h
  cases h

theorem trimmed_eq {text : List Char} (h : ∀ c ∈ text, isWhitespace c = false) :
    trimmed text = text := by
  have hkept (l : List Char) (hl : ∀ c ∈ l, isWhitespace c = false) :
      l.dropWhile isWhitespace = l := by
    cases l with
    | nil => rfl
    | cons c l => rw [List.dropWhile_cons, if_neg (by simp [hl c List.mem_cons_self])]
  rw [trimmed, trim, String.toList_ofList, String.toList_ofList, hkept _ h,
    hkept _ fun c hc => h c (List.mem_reverse.mp hc), List.reverse_reverse]

section

variable {rest : List Char} (hblank : ∀ c ∈ rest, isWhitespace c = false)

include hblank

theorem trimmed_first {front inner : List Char} (hrest : rest = front ++ '(' :: (inner ++ [')'])) :
    trimmed (inner.takeWhile fun c => c ≠ ',') = inner.takeWhile fun c => c ≠ ',' := by
  refine trimmed_eq fun c hc => hblank c ?_
  have hinner := (List.takeWhile_prefix _).subset hc
  rw [hrest]
  exact List.mem_append_right _ (List.mem_cons_of_mem _ (List.mem_append_left _ hinner))

theorem exists_of_bracketed {positioned : Positioned}
    (h : bracketed (scheme ++ rest) = some positioned) :
    ∃ front inner, positioned.path = scheme ++ front ∧ rest = front ++ '(' :: (inner ++ [')']) ∧
      '(' ∉ inner ∧ Numeral (inner.takeWhile fun c => c ≠ ',') := by
  obtain ⟨⟨front, back⟩, hsplit, hback⟩ := Option.bind_eq_some_iff.mp h
  obtain ⟨hraw, hnot⟩ := splitLast_eq_some.mp hsplit
  obtain ⟨front', rfl, hrest⟩ := exists_of_scheme_append hraw (.inl rfl)
  dsimp only at hback
  split at hback
  · next hends =>
      obtain ⟨line, hline, rfl⟩ := Option.map_eq_some_iff.mp hback
      obtain ⟨inner, rfl⟩ := List.getLast?_eq_some_iff.mp hends.1
      rw [List.dropLast_concat, trimmed_first hblank hrest] at hline
      exact ⟨front', inner, rfl, hrest, fun hmem => hnot (List.mem_append_left _ hmem),
        exists_number.mp ⟨line, hline⟩⟩
  · cases hback

theorem bracketed_eq_none (h : bracketed (scheme ++ rest) = none) :
    ¬ ∃ front inner, rest = front ++ '(' :: (inner ++ [')']) ∧ '(' ∉ inner ∧
      Numeral (inner.takeWhile fun c => c ≠ ',') := by
  rintro ⟨front, inner, hrest, hnot, hnumeral⟩
  have hsplit : splitLast '(' (scheme ++ rest) = some (scheme ++ front, inner ++ [')']) := by
    refine splitLast_eq_some.mpr ⟨by rw [hrest, List.append_assoc], ?_⟩
    rw [List.mem_append, List.mem_singleton, not_or]
    exact ⟨hnot, by decide⟩
  obtain ⟨n, hn⟩ := exists_number.mpr hnumeral
  have hends : (inner ++ [')']).getLast? = some ')' ∧ scheme ++ front ≠ [] :=
    ⟨List.getLast?_concat, List.append_ne_nil_of_left_ne_nil (by decide) _⟩
  rw [bracketed, hsplit, Option.bind_some, if_pos hends] at h
  dsimp only at h
  rw [List.dropLast_concat, trimmed_first hblank hrest, hn] at h
  cases h

end

/-- What begins like a local address is no lone drive letter. -/
theorem not_drive (front : List Char) (numbers : List Nat) : ¬ (scheme ++ front = [] ∨
    ((Utf8.encode (scheme ++ front)).length = 1 ∧ numbers.length = 1)) := by
  have hlen : (Utf8.encode (scheme ++ front)).length = 8 + (Utf8.encode front).length := by
    rw [Utf8.encode, List.flatMap_append, List.length_append]
    rfl
  rintro (hnil | ⟨hone, -⟩)
  · exact absurd (List.append_eq_nil_iff.mp hnil).1 (by decide)
  · omega

/-- Numbers behind colons are cut off exactly when there are any. -/
theorem popNumbers_scheme (rest : List Char) :
    ((∃ front digits, rest = front ++ ':' :: digits ∧ Numeral digits) ∧
      ∃ front tail, tail ≠ [] ∧ rest = front ++ tail ∧
        (popNumbers (scheme ++ rest)).1 = scheme ++ front) ∨
    (¬ (∃ front digits, rest = front ++ ':' :: digits ∧ Numeral digits) ∧
      popNumbers (scheme ++ rest) = (scheme ++ rest, [])) := by
  rw [popNumbers]
  cases hlast : popNumber (scheme ++ rest) with
  | none => exact .inr ⟨popNumber_eq_none hlast, rfl⟩
  | some popped =>
      obtain ⟨path, last⟩ := popped
      obtain ⟨front, digits, rfl, rfl, hnumeral⟩ := exists_of_popNumber hlast
      refine .inl ⟨⟨front, digits, rfl, hnumeral⟩, ?_⟩
      dsimp only
      cases hfirst : popNumber (scheme ++ front) with
      | none => exact ⟨front, _, List.cons_ne_nil _ _, rfl, rfl⟩
      | some popped =>
          obtain ⟨path', first⟩ := popped
          obtain ⟨front', digits', rfl, rfl, -⟩ := exists_of_popNumber hfirst
          exact ⟨front', _, List.cons_ne_nil ':' (digits' ++ ':' :: digits),
            by rw [List.append_assoc, List.cons_append], rfl⟩

/-- What is written is cut exactly when it ends in a position. -/
theorem splitPosition_scheme {rest : List Char} (hblank : ∀ c ∈ rest, isWhitespace c = false) :
    (EndsInPosition rest ∧ ∃ front tail, tail ≠ [] ∧ rest = front ++ tail ∧
      (splitPosition (scheme ++ rest)).path = scheme ++ front) ∨
    (¬ EndsInPosition rest ∧ (splitPosition (scheme ++ rest)).path = scheme ++ rest) := by
  rw [splitPosition]
  cases hbracketed : bracketed (scheme ++ rest) with
  | some positioned =>
      obtain ⟨front, inner, hpath, hrest, hnot, hnumeral⟩ := exists_of_bracketed hblank hbracketed
      exact .inl ⟨.inr ⟨front, inner, hrest, hnot, hnumeral⟩, front, _, List.cons_ne_nil _ _, hrest,
        hpath⟩
  | none =>
      have hnone := bracketed_eq_none hblank hbracketed
      rcases popNumbers_scheme rest with
        ⟨hcolon, front, tail, htail, hrest, hpath⟩ | ⟨hcolon, hpath⟩
      · refine .inl ⟨.inl hcolon, front, tail, htail, hrest, ?_⟩
        dsimp only
        rw [hpath, if_neg (not_drive _ _)]
      · refine .inr ⟨fun hends => hends.elim hcolon hnone, ?_⟩
        dsimp only
        rw [hpath, if_neg (not_drive _ _)]

/-! ## The path of a local address -/

theorem toNat_ofNat_byte (b : UInt8) : (Char.ofNat b.toNat).toNat = b.toNat := by
  have hlt := b.toNat_lt
  have hvalid : b.toNat.isValidChar := .inl (by omega)
  rw [Char.ofNat, dif_pos hvalid]
  rfl

theorem utf8EncodeChar_byte {b : UInt8} (h : b.toNat < 0x80) :
    String.utf8EncodeChar (Char.ofNat b.toNat) = [b] := by
  have hchar := toNat_ofNat_byte b
  rw [utf8EncodeChar_ascii (by omega), hchar, UInt8.ofNat_toNat]

/-- A text whose bytes begin with ASCII begins with the character. -/
theorem exists_of_encode_eq_cons {text : List Char} {b : UInt8} {bytes : List UInt8}
    (h : Utf8.encode text = b :: bytes) (hb : b.toNat < 0x80) :
    ∃ others, text = Char.ofNat b.toNat :: others ∧ Utf8.encode others = bytes := by
  have hhead := @Utf8.head_of_prefix text (Char.ofNat b.toNat)
    (by rw [utf8EncodeChar_byte hb, h]; exact ⟨bytes, rfl⟩)
  obtain ⟨others, rfl⟩ := List.head?_eq_some_iff.mp hhead
  rw [Utf8.encode_cons, utf8EncodeChar_byte hb, List.singleton_append, List.cons.injEq] at h
  exact ⟨others, rfl, h.2⟩

theorem toOption_decode {bytes : List UInt8} {text : List Char} :
    (Utf8.decode bytes).toOption = some text ↔ bytes = Utf8.encode text := by
  constructor
  · intro h
    cases hdecode : Utf8.decode bytes with
    | error e =>
        rw [hdecode] at h
        cases h
    | ok found =>
        rw [hdecode, Except.toOption, Option.some.injEq] at h
        rw [← h, Utf8.encode_of_decode hdecode]
  · rintro rfl
    rw [Utf8.decode_encode]
    rfl

theorem percentBytes_slash (rest : List Char) :
    percentBytes ('/' :: rest) = (percentBytes rest).map ('/'.toUInt8 :: ·) :=
  percentBytes_raw (by decide) rest

theorem withoutHost_local (path : List Char) :
    withoutHost ('/' :: '/' :: '/' :: path) = '/' :: path := by
  simp [withoutHost]

/-- A path keeps its first slash unless a drive follows it. -/
theorem driveForm_spec (path : List Char) :
    (driveForm path = path ∧ ¬ ∃ d rest, path = '/' :: d :: ':' :: rest ∧ d.isAlpha = true) ∨
      ∃ d rest, path = '/' :: d :: ':' :: rest ∧ d.isAlpha = true ∧
        driveForm path = d :: ':' :: rest := by
  unfold driveForm
  split
  · next d rest =>
      by_cases hd : d.isAlpha = true
      · exact .inr ⟨d, rest, rfl, hd, if_pos hd⟩
      · refine .inl ⟨if_neg hd, ?_⟩
        rintro ⟨d', rest', heq, hd'⟩
        simp only [List.cons.injEq, true_and] at heq
        exact hd (heq.1 ▸ hd')
  · next hother =>
      refine .inl ⟨rfl, ?_⟩
      rintro ⟨d, rest, heq, -⟩
      exact hother d rest heq

theorem driveForm_ne_nil (d : Char) (text : List Char) : driveForm (d :: text) ≠ [] := by
  rcases driveForm_spec (d :: text) with ⟨hsame, -⟩ | ⟨_, _, -, -, hform⟩
  · rw [hsame]
    exact List.cons_ne_nil _ _
  · rw [hform]
    exact List.cons_ne_nil _ _

theorem decode_slashes {bytes : List UInt8} {text : List Char} :
    '/'.toUInt8 :: '/'.toUInt8 :: '/'.toUInt8 :: bytes = Utf8.encode text ↔
      ∃ rest, text = '/' :: '/' :: '/' :: rest ∧ bytes = Utf8.encode rest := by
  constructor
  · intro h
    obtain ⟨first, rfl, hfirst⟩ := exists_of_encode_eq_cons h.symm (by decide)
    obtain ⟨second, rfl, hsecond⟩ := exists_of_encode_eq_cons hfirst (by decide)
    obtain ⟨third, rfl, hthird⟩ := exists_of_encode_eq_cons hsecond (by decide)
    exact ⟨third, rfl, hthird.symm⟩
  · rintro ⟨rest, rfl, rfl⟩
    rfl

theorem fileUriPath_scheme {rest path : List Char} : fileUriPath (scheme ++ rest) = some path ↔
    ∃ text, percentBytes rest = some (Utf8.encode text) ∧ path = driveForm ('/' :: text) ∧
      ∀ c ∈ path, isControl c = false := by
  have hlen : ¬ (scheme ++ rest).length < 5 := by
    rw [List.length_append, show scheme.length = 8 from rfl]
    omega
  rw [fileUriPath, if_neg hlen, show (scheme ++ rest).drop 5 = '/' :: '/' :: '/' :: rest from rfl,
    percentDecode, percentBytes_slash, percentBytes_slash, percentBytes_slash,
    Option.bind_eq_some_iff]
  constructor
  · rintro ⟨decoded, hdecoded, hpath⟩
    obtain ⟨bytes, hbytes, htext⟩ := Option.bind_eq_some_iff.mp hdecoded
    simp only [Option.map_map] at hbytes
    obtain ⟨found, hfound, rfl⟩ := Option.map_eq_some_iff.mp hbytes
    obtain ⟨text, rfl, rfl⟩ := decode_slashes.mp (toOption_decode.mp htext)
    dsimp only at hpath
    rw [withoutHost_local] at hpath
    split at hpath
    · next hgood =>
        rw [Option.some.injEq] at hpath
        refine ⟨text, hfound, hpath.symm, fun c hc => ?_⟩
        rw [← hpath] at hc
        simpa using List.all_eq_true.mp hgood.2 c hc
    · cases hpath
  · rintro ⟨text, hfound, rfl, hcontrol⟩
    refine ⟨'/' :: '/' :: '/' :: text, ?_, ?_⟩
    · rw [hfound, Option.map_some, Option.map_some, Option.map_some, Option.bind_some,
        toOption_decode]
      exact decode_slashes.mpr ⟨text, rfl, rfl⟩
    · dsimp only
      have hall : (driveForm ('/' :: text)).all (fun c => !isControl c) = true :=
        List.all_eq_true.mpr fun c hc => by rw [hcontrol c hc, Bool.not_false]
      rw [withoutHost_local, if_pos ⟨driveForm_ne_nil _ _, hall⟩]

theorem driveLike_iff {text : List Char} : DriveLike ('/'.toUInt8 :: Utf8.encode text) ↔
    ∃ d rest, '/' :: text = '/' :: d :: ':' :: rest ∧ d.isAlpha = true := by
  constructor
  · rintro ⟨d, rest, hbytes, hd⟩
    rw [List.cons.injEq] at hbytes
    have hchar := toNat_ofNat_byte d
    have halpha := (toNat_of_isAlphanum (c := Char.ofNat d.toNat)
      (by rw [Char.isAlphanum, hd, Bool.true_or])).2
    have hlt : d.toNat < 0x80 := by omega
    obtain ⟨first, rfl, hfirst⟩ := exists_of_encode_eq_cons hbytes.2 hlt
    obtain ⟨second, rfl, -⟩ := exists_of_encode_eq_cons hfirst (by decide)
    exact ⟨_, second, rfl, hd⟩
  · rintro ⟨d, rest, htext, hd⟩
    rw [List.cons.injEq] at htext
    obtain ⟨-, rfl⟩ := htext
    have hlt := (toNat_of_isAlphanum (c := d) (by rw [Char.isAlphanum, hd]; rfl)).2
    refine ⟨UInt8.ofNat d.toNat, Utf8.encode rest, ?_, ?_⟩
    · rw [Utf8.encode_cons, Utf8.encode_cons, utf8EncodeChar_ascii (by omega)]
      rfl
    · rw [UInt8.toNat_ofNat', Nat.mod_eq_of_lt (by omega), Char.ofNat_toNat]
      exact hd

theorem length_driveForm_le (path : List Char) :
    (Utf8.encode (driveForm path)).length ≤ (Utf8.encode path).length := by
  rcases driveForm_spec path with ⟨hsame, -⟩ | ⟨_, _, rfl, -, hform⟩
  · exact Nat.le_of_eq (by rw [hsame])
  · rw [hform, Utf8.encode_cons '/', List.length_append]
    exact Nat.le_add_left _ _

/-! ## What is written in an address -/

theorem hexDigit_bounds {c : Char} {n : Nat} (h : hexDigit c = some n) :
    0x20 < c.toNat ∧ c.toNat < 0x7F := by
  simp only [hexDigit, Char.le_def, UInt32.le_iff_toNat_le] at h
  change (if 48 ≤ c.toNat ∧ c.toNat ≤ 57 then _ else if 97 ≤ c.toNat ∧ c.toNat ≤ 102 then _
    else if 65 ≤ c.toNat ∧ c.toNat ≤ 70 then _ else _) = _ at h
  split_ifs at h <;> omega

/-- What is written is printable ASCII. -/
theorem Spells.bounds {rest : List Char} {bytes : List UInt8} (h : Spells rest bytes) :
    ∀ c ∈ rest, 0x20 < c.toNat ∧ c.toNat < 0x7F := by
  induction h with
  | nil => exact nofun
  | raw hc h ih =>
      obtain ⟨hlow, hhigh, -⟩ := inUriPath_bounds hc
      intro d hd
      rcases List.mem_cons.mp hd with rfl | hd
      · exact ⟨hlow, hhigh⟩
      · exact ih d hd
  | encoded hhigh hlow hb h ih =>
      intro d hd
      rcases List.mem_cons.mp hd with rfl | hd
      · decide
      rcases List.mem_cons.mp hd with rfl | hd
      · exact hexDigit_bounds hhigh
      rcases List.mem_cons.mp hd with rfl | hd
      · exact hexDigit_bounds hlow
      · exact ih d hd

theorem Spells.ne_nil {rest : List Char} {bytes : List UInt8} (h : Spells rest bytes)
    (hne : rest ≠ []) : bytes ≠ [] := by
  cases h with
  | nil => exact absurd rfl hne
  | raw hc h => exact List.cons_ne_nil _ _
  | encoded hhigh hlow hb h => exact List.cons_ne_nil _ _

theorem printable {c : Char} (h : 0x20 < c.toNat ∧ c.toNat < 0x7F) :
    isWhitespace c = false ∧ isControl c = false := by
  simp only [isWhitespace, isControl, Bool.or_eq_false_iff, Bool.and_eq_false_iff,
    decide_eq_false_iff_not, beq_eq_false_iff_ne]
  omega

/-- An address of this machine is read as its path and a position. -/
theorem classify_scheme {rest : List Char} (h : ∀ c ∈ rest, 0x20 < c.toNat ∧ c.toNat < 0x7F) :
    classify (scheme ++ rest) = (fileUriPath (splitPosition (scheme ++ rest)).path).map fun path =>
      .file path (splitPosition (scheme ++ rest)).line (splitPosition (scheme ++ rest)).column := by
  have hall : ∀ c ∈ scheme ++ rest, 0x20 < c.toNat ∧ c.toNat < 0x7F := by
    intro c hc
    rcases List.mem_append.mp hc with hscheme | hrest
    · have hfront : (scheme.all fun c => 0x20 < c.toNat ∧ c.toNat < 0x7F) = true := by decide
      exact of_decide_eq_true (List.all_eq_true.mp hfront c hscheme)
    · exact h c hrest
  have hcontrol : (scheme ++ rest).any isControl = false :=
    List.any_eq_false.mpr fun c hc => by rw [(printable (hall c hc)).2]; exact Bool.false_ne_true
  have htrim : trimmed (scheme ++ rest) = scheme ++ rest :=
    trimmed_eq fun c hc => (printable (hall c hc)).1
  rw [classify]
  simp only [htrim, hcontrol]
  rfl

/-- What is split off a spelled path is missing from what is read. -/
theorem ne_of_cut {front tail path : List Char} {bytes : List UInt8} (htail : tail ≠ [])
    (hspells : Spells (front ++ tail) bytes)
    (hgood : ∀ b ∈ bytes, 0x20 ≤ b.toNat ∧ b.toNat ≠ 0x7F)
    (hpath : fileUriPath (scheme ++ front) = some path) :
    Utf8.encode path ≠ '/'.toUInt8 :: bytes := by
  obtain ⟨text, hfound, rfl, -⟩ := fileUriPath_scheme.mp hpath
  obtain ⟨others, rfl, hothers⟩ := exists_of_spells_append hspells hgood hfound
  intro heq
  have hpos := List.length_pos_iff.mpr (hothers.ne_nil htail)
  have hle := length_driveForm_le ('/' :: text)
  rw [heq, Utf8.encode_cons, utf8EncodeChar_ascii (by decide), List.length_append,
    List.length_cons, List.length_append, List.length_singleton] at hle
  omega

/-- The path read of a local address is the one spelled exactly when it is a text that does
not begin like a drive and what is written does not end in a position. -/
theorem fileUriPath_spells_iff {rest : List Char} {bytes : List UInt8} (hspells : Spells rest bytes)
    (hplain : NoControl ('/'.toUInt8 :: bytes)) :
    (∃ path, fileUriPath (splitPosition (scheme ++ rest)).path = some path ∧
      Utf8.encode path = '/'.toUInt8 :: bytes) ↔
    (∃ text, bytes = Utf8.encode text) ∧ ¬ DriveLike ('/'.toUInt8 :: bytes) ∧
      ¬ EndsInPosition rest := by
  have hgood : ∀ b ∈ bytes, 0x20 ≤ b.toNat ∧ b.toNat ≠ 0x7F := fun b hb =>
    hplain.bytes b (List.mem_cons_of_mem _ hb)
  rcases splitPosition_scheme fun c hc => (printable (hspells.bounds c hc)).1 with
    ⟨hends, front, tail, htail, rfl, hcut⟩ | ⟨hends, hcut⟩
  · rw [hcut]
    constructor
    · rintro ⟨path, hpath, heq⟩
      exact absurd heq (ne_of_cut htail hspells hgood hpath)
    · exact fun h => absurd hends h.2.2
  · rw [hcut]
    constructor
    · rintro ⟨path, hpath, heq⟩
      obtain ⟨text, hfound, rfl, -⟩ := fileUriPath_scheme.mp hpath
      rw [percentBytes_of_spells hspells hgood, Option.some.injEq] at hfound
      subst hfound
      refine ⟨⟨text, rfl⟩, fun hdrive => ?_, hends⟩
      rcases driveForm_spec ('/' :: text) with ⟨-, hnone⟩ | ⟨d, others, htext, -, hform⟩
      · exact hnone (driveLike_iff.mp hdrive)
      · rw [List.cons.injEq] at htext
        rw [hform, ← htext.2] at heq
        have hlen := congrArg List.length heq
        rw [List.length_cons] at hlen
        omega
    · rintro ⟨⟨text, rfl⟩, hdrive, -⟩
      have hsame : driveForm ('/' :: text) = '/' :: text := by
        rcases driveForm_spec ('/' :: text) with ⟨hsame, -⟩ | ⟨d, others, htext, hd, -⟩
        · exact hsame
        · exact absurd (driveLike_iff.mpr ⟨d, others, htext, hd⟩) hdrive
      refine ⟨'/' :: text, fileUriPath_scheme.mpr ⟨text, percentBytes_of_spells hspells hgood,
        hsame.symm, hplain.text _ rfl⟩, rfl⟩

end Links

namespace Osc7

open Links

/-- The host that a report names is this machine. -/
def ThisMachine (host : List Char) (hostname : Option (List Char)) : Prop :=
  host = [] ∨ eqIgnoreAsciiCase host "localhost".toList = true ∨
    ∃ name, hostname = some name ∧ eqIgnoreAsciiCase host name = true

theorem localDirectory_eq {host rest : List Char} {hostname : Option (List Char)}
    (hslash : '/' ∉ host) (hlocal : ThisMachine host hostname)
    (hrest : ∀ c ∈ rest, 0x20 < c.toNat ∧ c.toNat < 0x7F) :
    localDirectory ("file://".toList ++ (host ++ '/' :: rest)) hostname =
      fileUriPath (splitPosition (scheme ++ rest)).path := by
  have hkept : ∀ c ∈ host, (decide (c ≠ '/')) = true := fun c hc =>
    decide_eq_true fun h => hslash (h ▸ hc)
  have hhost : isLocal host hostname = true := by
    rw [isLocal, Bool.or_eq_true, Bool.or_eq_true, decide_eq_true_eq, Option.any_eq_true]
    rcases hlocal with hnil | hname | ⟨name, hname, hsame⟩
    · exact .inl (.inl hnil)
    · exact .inl (.inr hname)
    · exact .inr ⟨name, hname, hsame⟩
  have htake : (host ++ '/' :: rest).takeWhile (fun c => c ≠ '/') = host := by
    rw [List.takeWhile_append_of_pos hkept, List.takeWhile_cons_of_neg (by simp), List.append_nil]
  have hdrop : (host ++ '/' :: rest).dropWhile (fun c => c ≠ '/') = '/' :: rest := by
    rw [List.dropWhile_append_of_pos hkept, List.dropWhile_cons_of_neg (by simp)]
  rw [localDirectory, stripPrefix_append, Option.bind_some]
  dsimp only
  rw [htake, hdrop, if_neg (by simp [hhost]), show "file://".toList ++ '/' :: rest = scheme ++ rest
    from rfl, classify_scheme hrest]
  cases fileUriPath (splitPosition (scheme ++ rest)).path with
  | none => rfl
  | some path => rfl

/-- A report of this machine that spells a path is taken as it is exactly when the path is a
text and does not begin like a drive, and what is written does not end in a position. -/
theorem localDirectory_iff {host rest : List Char} {hostname : Option (List Char)}
    {bytes : List UInt8} (hslash : '/' ∉ host) (hlocal : ThisMachine host hostname)
    (hspells : Spells rest bytes) (hplain : NoControl ('/'.toUInt8 :: bytes)) :
    (∃ path, localDirectory ("file://".toList ++ (host ++ '/' :: rest)) hostname = some path ∧
      Utf8.encode path = '/'.toUInt8 :: bytes) ↔
    (∃ text, bytes = Utf8.encode text) ∧ ¬ DriveLike ('/'.toUInt8 :: bytes) ∧
      ¬ EndsInPosition rest := by
  rw [localDirectory_eq hslash hlocal hspells.bounds]
  exact fileUriPath_spells_iff hspells hplain

theorem encode_injective {text text' : List Char} (h : Utf8.encode text = Utf8.encode text') :
    text = text' := by
  have hdecode := Utf8.decode_encode text
  rw [h, Utf8.decode_encode, Except.ok.injEq] at hdecode
  exact hdecode.symm

theorem noControl_of_text {text : List Char}
    (hbytes : ((Utf8.encode text).all fun b => 0x20 ≤ b.toNat ∧ b.toNat ≠ 0x7F) = true)
    (htext : (text.all fun c => !isControl c) = true) : NoControl (Utf8.encode text) where
  bytes := fun b hb => of_decide_eq_true (List.all_eq_true.mp hbytes b hb)
  text := by
    rintro text' h c hc
    rw [← encode_injective h] at hc
    simpa using List.all_eq_true.mp htext c hc

theorem spells_text {text : List Char} (h : text.all inUriPath = true) :
    Spells text (Utf8.encode text) := by
  induction text with
  | nil => exact .nil
  | cons c text ih =>
      rw [List.all_cons, Bool.and_eq_true] at h
      obtain ⟨-, hlt, -⟩ := inUriPath_bounds h.1
      rw [Utf8.encode_cons, utf8EncodeChar_ascii (by omega)]
      exact .raw h.1 (ih h.2)

/-- A blank spelled as `%20`, on a host named in capitals. -/
theorem localDirectory_iff_blank :
    (∃ path, localDirectory ("file://".toList ++ ("BOX".toList ++ '/' :: "a%20b".toList))
        (some "box".toList) = some path ∧
          Utf8.encode path = '/'.toUInt8 :: Utf8.encode "a b".toList) ↔
      (∃ text, Utf8.encode "a b".toList = Utf8.encode text) ∧
        ¬ DriveLike ('/'.toUInt8 :: Utf8.encode "a b".toList) ∧ ¬ EndsInPosition "a%20b".toList :=
  localDirectory_iff (by decide) (.inr (.inr ⟨_, rfl, by decide⟩))
    (.raw (by decide) (.encoded (h := 2) (l := 0) (by decide) (by decide) (by decide)
      (.raw (by decide) .nil)))
    (@noControl_of_text "/a b".toList (by decide) (by decide))

/-- The end of a name is taken for a line. -/
theorem localDirectory_line :
    Spells "tmp/a:12".toList (Utf8.encode "tmp/a:12".toList) ∧
      NoControl ('/'.toUInt8 :: Utf8.encode "tmp/a:12".toList) ∧ ThisMachine [] none ∧
      localDirectory ("file://".toList ++ ([] ++ '/' :: "tmp/a:12".toList)) none =
        some "/tmp/a".toList ∧
      ¬ ∃ path, localDirectory ("file://".toList ++ ([] ++ '/' :: "tmp/a:12".toList)) none =
        some path ∧ Utf8.encode path = '/'.toUInt8 :: Utf8.encode "tmp/a:12".toList := by
  have hanswer : localDirectory ("file://".toList ++ ([] ++ '/' :: "tmp/a:12".toList)) none =
      some "/tmp/a".toList := by decide
  refine ⟨spells_text (by decide), @noControl_of_text "/tmp/a:12".toList (by decide) (by decide),
    .inl rfl, hanswer, ?_⟩
  rintro ⟨path, hpath, hsame⟩
  rw [hanswer, Option.some.injEq] at hpath
  subst hpath
  exact absurd hsame (by decide)

end Osc7

end Throng
