import Mathlib.Data.List.Basic

/-!
# UTF-8

Decoding a byte string into characters, or the offset of the first byte that is
not part of one. A character's own bytes are the core library's; here they are put
together over a whole text, and decoding is shown to be the inverse of encoding.
-/

namespace Utf8

/-- The bytes of a text. -/
def encode (cs : List Char) : List UInt8 := cs.flatMap String.utf8EncodeChar

/-- The character a byte string begins with. -/
def decodeChar? (bs : List UInt8) : Option Char := ByteArray.utf8DecodeChar? bs.toByteArray 0

/-- Decode `bs`, which stands at `offset`; no text has more characters than bytes. -/
def decodeFrom : Nat → Nat → List UInt8 → Except Nat (List Char)
  | _, _, [] => .ok []
  | 0, offset, _ :: _ => .error offset
  | fuel + 1, offset, b :: bs =>
      match decodeChar? (b :: bs) with
      | none => .error offset
      | some c => (decodeFrom fuel (offset + c.utf8Size) ((b :: bs).drop c.utf8Size)).map (c :: ·)

/-- The text of a byte string, or the offset up to which it is valid. -/
def decode (bs : List UInt8) : Except Nat (List Char) := decodeFrom bs.length 0 bs

@[simp] theorem encode_nil : encode [] = [] := rfl

@[simp] theorem encode_cons (c : Char) (cs : List Char) :
    encode (c :: cs) = String.utf8EncodeChar c ++ encode cs := rfl

theorem utf8EncodeChar_ne_nil (c : Char) : String.utf8EncodeChar c ≠ [] := by
  intro h
  have hsize := c.utf8Size_pos
  rw [← String.length_utf8EncodeChar, h] at hsize
  cases hsize

@[simp] theorem decodeChar?_encode (c : Char) (bs : List UInt8) :
    decodeChar? (String.utf8EncodeChar c ++ bs) = some c := by
  rw [decodeChar?, List.toByteArray_append]
  exact ByteArray.utf8DecodeChar?_utf8EncodeChar_append

/-- The character that is decoded is spelled by the first bytes. -/
theorem eq_of_decodeChar? {bs : List UInt8} {c : Char} (h : decodeChar? bs = some c) :
    bs = String.utf8EncodeChar c ++ bs.drop c.utf8Size := by
  obtain ⟨rest, hrest⟩ := ByteArray.exists_of_utf8DecodeChar?_eq_some h
  have hbytes : bs = String.utf8EncodeChar c ++ rest.data.toList := by
    have hdata := congrArg (fun b => b.data.toList) hrest
    simpa using hdata
  rw [hbytes, List.drop_left' (String.length_utf8EncodeChar c)]

theorem decodeFrom_encode (cs : List Char) (fuel offset : Nat)
    (hfuel : (encode cs).length ≤ fuel) : decodeFrom fuel offset (encode cs) = .ok cs := by
  induction cs generalizing fuel offset with
  | nil => cases fuel <;> rfl
  | cons c cs ih =>
      obtain ⟨b, bs, hbytes⟩ := List.exists_cons_of_ne_nil (utf8EncodeChar_ne_nil c)
      rw [encode_cons] at hfuel ⊢
      have hlength : (String.utf8EncodeChar c).length = c.utf8Size := String.length_utf8EncodeChar c
      have hpos := c.utf8Size_pos
      rw [List.length_append, hlength] at hfuel
      obtain ⟨fuel, rfl⟩ : ∃ n, fuel = n + 1 := ⟨fuel - 1, by omega⟩
      have hchar := decodeChar?_encode c (encode cs)
      have hdrop : (String.utf8EncodeChar c ++ encode cs).drop c.utf8Size = encode cs :=
        List.drop_left' hlength
      rw [hbytes, List.cons_append] at hchar hdrop ⊢
      rw [decodeFrom, hchar]
      simp only [hdrop]
      rw [ih fuel _ (by omega)]
      rfl

theorem decode_encode (cs : List Char) : decode (encode cs) = .ok cs :=
  decodeFrom_encode cs _ 0 (Nat.le_refl _)

theorem encode_of_decodeFrom {fuel offset : Nat} {bs : List UInt8} {cs : List Char}
    (h : decodeFrom fuel offset bs = .ok cs) : encode cs = bs := by
  induction fuel generalizing offset bs cs with
  | zero =>
      cases bs with
      | nil =>
          cases h
          rfl
      | cons b bs => cases h
  | succ fuel ih =>
      cases bs with
      | nil =>
          cases h
          rfl
      | cons b bs =>
          rw [decodeFrom] at h
          split at h
          · cases h
          · next c hchar =>
              cases hrest : decodeFrom fuel (offset + c.utf8Size) ((b :: bs).drop c.utf8Size) with
              | error e =>
                  rw [hrest] at h
                  cases h
              | ok rest =>
                  rw [hrest] at h
                  cases h
                  rw [encode_cons, ih hrest, ← eq_of_decodeChar? hchar]

theorem encode_of_decode {bs : List UInt8} {cs : List Char} (h : decode bs = .ok cs) :
    encode cs = bs :=
  encode_of_decodeFrom h

/-! ## Bytes that do not occur -/

/-- A character's byte is the character itself, or not an ASCII one. -/
theorem mem_utf8EncodeChar {c : Char} {b : UInt8} (h : b ∈ String.utf8EncodeChar c) :
    b.toNat = c.toNat ∨ 128 ≤ b.toNat := by
  have hbyte : ∀ n : Nat, n < 256 → (UInt8.ofNat n).toNat = n := fun n hn =>
    UInt8.toNat_ofNat_of_lt' hn
  unfold String.utf8EncodeChar at h
  simp only at h
  split at h
  · left
    rw [List.mem_singleton.mp h, hbyte _ (by omega)]
    rfl
  · right
    split at h
    · simp only [List.mem_cons, List.not_mem_nil, or_false] at h
      rcases h with rfl | rfl <;> rw [hbyte _ (by omega)] <;> omega
    · split at h
      · simp only [List.mem_cons, List.not_mem_nil, or_false] at h
        rcases h with rfl | rfl | rfl <;> rw [hbyte _ (by omega)] <;> omega
      · simp only [List.mem_cons, List.not_mem_nil, or_false] at h
        rcases h with rfl | rfl | rfl | rfl <;> rw [hbyte _ (by omega)] <;> omega

/-- No character but NUL has a zero among its bytes. -/
theorem zero_notMem_utf8EncodeChar {c : Char} (hc : c ≠ '\x00') :
    (0 : UInt8) ∉ String.utf8EncodeChar c := by
  intro h
  rcases mem_utf8EncodeChar h with heq | hle
  · exact hc (Char.toNat_inj.mp heq.symm)
  · exact absurd hle (by decide)

theorem zero_notMem_encode {cs : List Char} (h : '\x00' ∉ cs) : (0 : UInt8) ∉ encode cs := by
  intro hin
  obtain ⟨c, hc, hbyte⟩ := List.mem_flatMap.mp hin
  exact zero_notMem_utf8EncodeChar (fun heq => h (heq ▸ hc)) hbyte

/-- A text's first byte begins a character. -/
theorem head_encode {cs : List Char} {b : UInt8} (h : (encode cs).head? = some b) :
    b.IsUTF8FirstByte := by
  cases cs with
  | nil => cases h
  | cons c cs =>
      rw [encode_cons, List.head?_append_of_ne_nil _ (utf8EncodeChar_ne_nil c)] at h
      have hfirst := @UInt8.isUTF8FirstByte_getElem_zero_utf8EncodeChar c
      rw [List.head?_eq_getElem?, List.getElem?_eq_getElem (by simp [c.utf8Size_pos]),
        Option.some.injEq] at h
      rwa [h] at hfirst

/-- What a text's bytes begin with is what the text begins with. -/
theorem head_of_prefix {cs : List Char} {c : Char} (h : String.utf8EncodeChar c <+: encode cs) :
    cs.head? = some c := by
  cases cs with
  | nil => exact absurd (List.prefix_nil.mp h) (utf8EncodeChar_ne_nil c)
  | cons d cs =>
      obtain ⟨rest, hrest⟩ := h
      have hd := decodeChar?_encode d (encode cs)
      rw [← encode_cons, ← hrest, decodeChar?_encode] at hd
      exact hd.symm

end Utf8
