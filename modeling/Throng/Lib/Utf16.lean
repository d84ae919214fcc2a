import Mathlib.Data.List.Basic

/-!
# UTF-16

A text as code units, numbers below `2 ^ 16`, and as the bytes of the units in
either order. Decoding refuses a surrogate that is not half of a pair, and is the
inverse of encoding.
-/

namespace Utf16

/-- Which byte of a unit comes first. -/
inductive Order
  | little
  | big
deriving DecidableEq

/-- The units of one character. -/
def encodeChar (c : Char) : List Nat :=
  if c.toNat < 0x10000 then [c.toNat]
  else [0xD800 + (c.toNat - 0x10000) / 0x400, 0xDC00 + (c.toNat - 0x10000) % 0x400]

def encode (cs : List Char) : List Nat := cs.flatMap encodeChar

/-- The characters of a list of units; `none` for a surrogate that stands alone. -/
def decode : List Nat → Option (List Char)
  | [] => some []
  | u :: us =>
      if u < 0xD800 ∨ 0xDFFF < u then (decode us).map (Char.ofNat u :: ·)
      else
        match us with
        | [] => none
        | v :: vs =>
            if u < 0xDC00 ∧ 0xDC00 ≤ v ∧ v < 0xE000 then
              (decode vs).map (Char.ofNat (0x10000 + (u - 0xD800) * 0x400 + (v - 0xDC00)) :: ·)
            else none

/-- A unit's two bytes. -/
def unitBytes (order : Order) (u : Nat) : List UInt8 :=
  match order with
  | .little => [UInt8.ofNat (u % 256), UInt8.ofNat (u / 256)]
  | .big => [UInt8.ofNat (u / 256), UInt8.ofNat (u % 256)]

def toBytes (order : Order) (us : List Nat) : List UInt8 := us.flatMap (unitBytes order)

/-- The units of a byte string; `none` when its length is odd. -/
def ofBytes (order : Order) : List UInt8 → Option (List Nat)
  | [] => some []
  | [_] => none
  | a :: b :: bs =>
      let u := match order with
        | .little => a.toNat + 256 * b.toNat
        | .big => 256 * a.toNat + b.toNat
      (ofBytes order bs).map (u :: ·)

/-! ## Units and characters -/

theorem toNat_lt (c : Char) : c.toNat < 0x110000 := by
  rcases c.valid with h | h
  · exact Nat.lt_trans h (by decide)
  · exact h.2

theorem toNat_not_surrogate (c : Char) : c.toNat < 0xD800 ∨ 0xDFFF < c.toNat := by
  rcases c.valid with h | h
  · exact .inl h
  · exact .inr h.1

theorem toNat_ofNat {n : Nat} (h : n < 0xD800 ∨ (0xDFFF < n ∧ n < 0x110000)) :
    (Char.ofNat n).toNat = n := by
  have hvalid : n.isValidChar := h
  rw [Char.ofNat, dif_pos hvalid]
  rfl

theorem ofNat_toNat (c : Char) : Char.ofNat c.toNat = c := Char.ofNat_toNat c

@[simp] theorem encode_cons (c : Char) (cs : List Char) :
    encode (c :: cs) = encodeChar c ++ encode cs := rfl

theorem decode_cons {u : Nat} (us : List Nat) (hu : u < 0xD800 ∨ 0xDFFF < u) :
    decode (u :: us) = (decode us).map (Char.ofNat u :: ·) := by
  rw [decode.eq_def]
  exact if_pos hu

theorem decode_pair {u v : Nat} (vs : List Nat) (hu : ¬ (u < 0xD800 ∨ 0xDFFF < u))
    (hv : u < 0xDC00 ∧ 0xDC00 ≤ v ∧ v < 0xE000) :
    decode (u :: v :: vs) =
      (decode vs).map (Char.ofNat (0x10000 + (u - 0xD800) * 0x400 + (v - 0xDC00)) :: ·) := by
  rw [decode.eq_def]
  exact (if_neg hu).trans (if_pos hv)

theorem decode_encode (cs : List Char) : decode (encode cs) = some cs := by
  induction cs with
  | nil => rfl
  | cons c cs ih =>
      have hlt := toNat_lt c
      have hsurrogate := toNat_not_surrogate c
      rw [encode_cons, encodeChar]
      split
      · rw [List.singleton_append, decode_cons _ hsurrogate, ih, Option.map_some, ofNat_toNat]
      · next hbig =>
          have hhigh : ¬ (0xD800 + (c.toNat - 0x10000) / 0x400 < 0xD800 ∨
              0xDFFF < 0xD800 + (c.toNat - 0x10000) / 0x400) := by omega
          have hlow : 0xD800 + (c.toNat - 0x10000) / 0x400 < 0xDC00 ∧
              0xDC00 ≤ 0xDC00 + (c.toNat - 0x10000) % 0x400 ∧
              0xDC00 + (c.toNat - 0x10000) % 0x400 < 0xE000 := by omega
          have hback : 0x10000 + (0xD800 + (c.toNat - 0x10000) / 0x400 - 0xD800) * 0x400 +
              (0xDC00 + (c.toNat - 0x10000) % 0x400 - 0xDC00) = c.toNat := by omega
          rw [List.cons_append, List.singleton_append, decode_pair _ hhigh hlow, ih,
            Option.map_some, hback, ofNat_toNat]

theorem encode_of_decode {us : List Nat} {cs : List Char} (hus : ∀ u ∈ us, u < 0x10000)
    (h : decode us = some cs) : encode cs = us := by
  induction us using decode.induct generalizing cs with
  | case1 =>
      cases h
      rfl
  | case2 u us hu ih =>
      rw [decode_cons _ hu] at h
      obtain ⟨rest, hrest, rfl⟩ := Option.map_eq_some_iff.mp h
      have hlt : u < 0x10000 := hus u List.mem_cons_self
      have hn : (Char.ofNat u).toNat = u := toNat_ofNat (by omega)
      rw [encode_cons, encodeChar, hn, if_pos hlt,
        ih (fun v hv => hus v (List.mem_cons_of_mem _ hv)) hrest]
      rfl
  | case3 u hu =>
      rw [decode.eq_def] at h
      simp only [if_neg hu] at h
      cases h
  | case4 u hu v vs hv ih =>
      rw [decode_pair _ hu hv] at h
      obtain ⟨rest, hrest, rfl⟩ := Option.map_eq_some_iff.mp h
      have hrest' :=
          ih (fun w hw => hus w (List.mem_cons_of_mem _ (List.mem_cons_of_mem _ hw))) hrest
      have hn : (Char.ofNat (0x10000 + (u - 0xD800) * 0x400 + (v - 0xDC00))).toNat =
          0x10000 + (u - 0xD800) * 0x400 + (v - 0xDC00) := toNat_ofNat (by omega)
      have hhigh : 0xD800 +
          (0x10000 + (u - 0xD800) * 0x400 + (v - 0xDC00) - 0x10000) / 0x400 = u := by
        omega
      have hlow : 0xDC00 +
          (0x10000 + (u - 0xD800) * 0x400 + (v - 0xDC00) - 0x10000) % 0x400 = v := by
        omega
      rw [encode_cons, encodeChar, hn, if_neg (by omega), hhigh, hlow, hrest']
      rfl
  | case5 u hu v vs hv =>
      rw [decode.eq_def] at h
      simp only [if_neg hu, if_neg hv] at h
      cases h

theorem encode_lt (cs : List Char) : ∀ u ∈ encode cs, u < 0x10000 := by
  intro u hu
  obtain ⟨c, -, hin⟩ := List.mem_flatMap.mp hu
  have hlt := toNat_lt c
  unfold encodeChar at hin
  split at hin
  · rw [List.mem_singleton.mp hin]
    assumption
  · simp only [List.mem_cons, List.not_mem_nil, or_false] at hin
    omega

/-! ## Units and bytes -/

theorem toNat_ofNat_byte {n : Nat} (h : n < 256) : (UInt8.ofNat n).toNat = n :=
  UInt8.toNat_ofNat_of_lt' h

theorem ofBytes_toBytes (order : Order) {us : List Nat} (h : ∀ u ∈ us, u < 0x10000) :
    ofBytes order (toBytes order us) = some us := by
  induction us with
  | nil => rfl
  | cons u us ih =>
      have hu : u < 0x10000 := h u List.mem_cons_self
      have hrest := ih fun v hv => h v (List.mem_cons_of_mem _ hv)
      have hlow : (UInt8.ofNat (u % 256)).toNat = u % 256 := toNat_ofNat_byte (by omega)
      have hhigh : (UInt8.ofNat (u / 256)).toNat = u / 256 := toNat_ofNat_byte (by omega)
      unfold toBytes at hrest ⊢
      rw [List.flatMap_cons]
      cases order with
      | little =>
          simp only [unitBytes, List.cons_append, List.nil_append, ofBytes, hrest, hlow, hhigh,
            Option.map_some]
          congr 2
          omega
      | big =>
          simp only [unitBytes, List.cons_append, List.nil_append, ofBytes, hrest, hlow, hhigh,
            Option.map_some]
          congr 2
          omega

theorem toBytes_of_ofBytes {order : Order} {bs : List UInt8} {us : List Nat}
    (h : ofBytes order bs = some us) : toBytes order us = bs ∧ ∀ u ∈ us, u < 0x10000 := by
  induction bs using (ofBytes.induct order) generalizing us with
  | case1 =>
      cases h
      exact ⟨rfl, by simp⟩
  | case2 b => cases h
  | case3 a b bs ih =>
      simp only [ofBytes] at h
      obtain ⟨rest, hrest, rfl⟩ := Option.map_eq_some_iff.mp h
      obtain ⟨hbytes, hlt⟩ := ih hrest
      have ha := a.toNat_lt
      have hb := b.toNat_lt
      cases order with
      | little =>
          have hlow : UInt8.ofNat ((a.toNat + 256 * b.toNat) % 256) = a := by
            rw [show (a.toNat + 256 * b.toNat) % 256 = a.toNat by omega, UInt8.ofNat_toNat]
          have hhigh : UInt8.ofNat ((a.toNat + 256 * b.toNat) / 256) = b := by
            rw [show (a.toNat + 256 * b.toNat) / 256 = b.toNat by omega, UInt8.ofNat_toNat]
          refine ⟨?_, List.forall_mem_cons.mpr ⟨by simp only; omega, hlt⟩⟩
          unfold toBytes at hbytes ⊢
          rw [List.flatMap_cons, hbytes, unitBytes, hlow, hhigh]
          rfl
      | big =>
          have hlow : UInt8.ofNat ((256 * a.toNat + b.toNat) % 256) = b := by
            rw [show (256 * a.toNat + b.toNat) % 256 = b.toNat by omega, UInt8.ofNat_toNat]
          have hhigh : UInt8.ofNat ((256 * a.toNat + b.toNat) / 256) = a := by
            rw [show (256 * a.toNat + b.toNat) / 256 = a.toNat by omega, UInt8.ofNat_toNat]
          refine ⟨?_, List.forall_mem_cons.mpr ⟨by simp only; omega, hlt⟩⟩
          unfold toBytes at hbytes ⊢
          rw [List.flatMap_cons, hbytes, unitBytes, hlow, hhigh]
          rfl

end Utf16
