import Mathlib.Data.List.Basic

/-!
# White space and trimming

`str::trim` of the source removes the characters with the Unicode property
`White_Space` from both ends, which is more than the ASCII blanks.
-/

namespace Throng

/-- `char::is_whitespace`: the Unicode property `White_Space`. -/
def isWhitespace (c : Char) : Bool :=
  let n := c.toNat
  (9 ≤ n && n ≤ 13) || n == 0x20 || n == 0x85 || n == 0xA0 || n == 0x1680 ||
    (0x2000 ≤ n && n ≤ 0x200A) || n == 0x2028 || n == 0x2029 || n == 0x202F ||
    n == 0x205F || n == 0x3000

/-- `str::trim`. -/
def trim (s : String) : String :=
  .ofList (((s.toList.dropWhile isWhitespace).reverse.dropWhile isWhitespace).reverse)

example : trim "  build\u3000" = "build" := by decide

theorem toNat_of_isAlphanum {c : Char} (h : c.isAlphanum = true) :
    48 ≤ c.toNat ∧ c.toNat < 123 := by
  change (((decide (c.val ≥ 65 ∧ c.val ≤ 90)) ||
    (decide (c.val ≥ 97) && decide (c.val ≤ 122))) ||
      (decide (c.val ≥ 48) && decide (c.val ≤ 57))) = true at h
  simp only [Bool.or_eq_true, Bool.and_eq_true, decide_eq_true_eq, ge_iff_le,
    UInt32.le_iff_toNat_le] at h
  change ((65 ≤ c.toNat ∧ c.toNat ≤ 90) ∨ 97 ≤ c.toNat ∧ c.toNat ≤ 122) ∨
    48 ≤ c.toNat ∧ c.toNat ≤ 57 at h
  omega

end Throng
