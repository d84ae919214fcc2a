import Mathlib.Algebra.GroupWithZero.Nat
import Mathlib.Data.List.Basic
import Throng.Lib.Utf16

/-!
# The order of a listing

Names are compared without regard to case, with runs of digits compared by value. The order is
the lexicographic one of a name's keys: a run of digits has its value for a key, and another
character what it is in lower case.
-/

namespace Throng

open Std (TransCmp OrientedCmp ReflCmp)

/-- `char::to_lowercase`: a digit is its own lower case, and nothing else begins with one
there. -/
structure Lowercase where
  lower : Char → List Char
  digit : ∀ c, c.isDigit = true → lower c = [c]
  notDigit : ∀ c, c.isDigit = false → ∀ d rest, lower c = d :: rest → d.isDigit = false

namespace NaturalOrder

/-- Two runs of digits, without the zeros in front: the longer is the greater. -/
def compareRuns (na nb : List Char) : Ordering :=
  let a := na.dropWhile (· = '0')
  let b := nb.dropWhile (· = '0')
  (compare a.length b.length).then (compare a b)

/-- Case-insensitive, with runs of digits compared by value. -/
def naturalCmp (case : Lowercase) : List Char → List Char → Ordering
  | [], [] => .eq
  | [], _ :: _ => .lt
  | _ :: _, [] => .gt
  | x :: a, y :: b =>
      if x.isDigit && y.isDigit then
        (compareRuns ((x :: a).takeWhile Char.isDigit) ((y :: b).takeWhile Char.isDigit)).then
          (naturalCmp case (a.dropWhile Char.isDigit) (b.dropWhile Char.isDigit))
      else (compare (case.lower x) (case.lower y)).then (naturalCmp case a b)
termination_by a => a.length
decreasing_by
  · exact Nat.lt_succ_of_le (List.dropWhile_suffix Char.isDigit).length_le
  · exact Nat.lt_succ_self _

/-- What is listed of a folder. -/
structure Entry where
  name : String
  isDir : Bool

/-- Folders first, then by name. -/
def entryCmp (case : Lowercase) (a b : Entry) : Ordering :=
  (compare b.isDir a.isDir).then (naturalCmp case a.name.toList b.name.toList)

/-- The entries of a folder in order. -/
def listing (case : Lowercase) (entries : List Entry) : List Entry :=
  entries.mergeSort fun a b => (entryCmp case a b).isLE

/-! ## Runs of digits -/

/-- The number a run of digits spells. -/
def value (digits : List Char) : Nat := Nat.ofDigitChars 10 digits 0

theorem value_cons (c : Char) (digits : List Char) :
    value (c :: digits) = 10 ^ digits.length * (c.toNat - 48) + value digits := by
  rw [value, Nat.ofDigitChars_cons, Nat.ofDigitChars_eq_ofDigitChars_zero, value, Nat.mul_zero,
    Nat.zero_add]
  rfl

theorem toNat_of_isDigit {c : Char} (h : c.isDigit = true) : 48 ≤ c.toNat ∧ c.toNat ≤ 57 :=
  Char.isDigit_iff_toNat.mp h

theorem toNat_ne_of_ne {c d : Char} (h : c ≠ d) : c.toNat ≠ d.toNat :=
  fun heq => h (Char.toNat_inj.mp heq)

theorem value_lt {digits : List Char} (h : ∀ c ∈ digits, c.isDigit = true) :
    value digits < 10 ^ digits.length := by
  induction digits with
  | nil => exact Nat.one_pos
  | cons c digits ih =>
      have hc := toNat_of_isDigit (h c List.mem_cons_self)
      have hrest := ih fun d hd => h d (List.mem_cons_of_mem c hd)
      have hle : 10 ^ digits.length * (c.toNat - 48) ≤ 10 ^ digits.length * 9 :=
        Nat.mul_le_mul_left _ (by omega)
      rw [value_cons, List.length_cons, Nat.pow_succ]
      omega

/-- Without a zero in front, a run's value has as many digits as the run. -/
theorem le_value {c : Char} {digits : List Char} (hc : c.isDigit = true) (hzero : c ≠ '0') :
    10 ^ digits.length ≤ value (c :: digits) := by
  have hrange := toNat_of_isDigit hc
  have hne : c.toNat ≠ 48 := toNat_ne_of_ne hzero
  have hle : 10 ^ digits.length * 1 ≤ 10 ^ digits.length * (c.toNat - 48) :=
    Nat.mul_le_mul_left _ (by omega)
  rw [value_cons]
  omega

theorem value_dropWhile (digits : List Char) :
    value (digits.dropWhile (· = '0')) = value digits := by
  induction digits with
  | nil => rfl
  | cons c digits ih =>
      by_cases hc : c = '0'
      · have hzero : value (c :: digits) = value digits := by
          rw [value_cons, hc]
          exact (congrArg (· + _) (Nat.mul_zero _)).trans (Nat.zero_add _)
        have hdrop : (c :: digits).dropWhile (· = '0') = digits.dropWhile (· = '0') :=
          List.dropWhile_cons_of_pos (decide_eq_true hc)
        rw [hdrop, ih, hzero]
      · rw [List.dropWhile_cons_of_neg (by rw [decide_eq_true_eq]; exact hc)]

theorem compare_char (c d : Char) : compare c d = compare c.toNat d.toNat := by
  have hlt : c < d ↔ c.toNat < d.toNat := Iff.rfl
  change (if c < d then Ordering.lt else if c = d then .eq else .gt) = _
  rcases Nat.lt_trichotomy c.toNat d.toNat with hless | heq | hmore
  · rw [if_pos (hlt.mpr hless), Nat.compare_eq_lt.mpr hless]
  · rw [if_neg fun h => Nat.ne_of_lt (hlt.mp h) heq, if_pos (Char.toNat_inj.mp heq), heq,
      Std.ReflOrd.compare_self]
  · rw [if_neg fun h => Nat.lt_asymm (hlt.mp h) hmore,
      if_neg fun h => Nat.ne_of_lt hmore (congrArg Char.toNat h.symm),
      Nat.compare_eq_gt.mpr hmore]

theorem compare_scaled {m x y v w : Nat} (hv : v < m) (hw : w < m) :
    (compare x y).then (compare v w) = compare (m * x + v) (m * y + w) := by
  rcases Nat.lt_trichotomy x y with hlt | rfl | hgt
  · have hle : m * (x + 1) ≤ m * y := Nat.mul_le_mul_left m hlt
    have hsum : m * x + v < m * y + w := by
      rw [Nat.mul_succ] at hle
      omega
    rw [Nat.compare_eq_lt.mpr hlt, Nat.compare_eq_lt.mpr hsum]
    rfl
  · have hsum : compare (m * x + v) (m * x + w) = compare v w := by
      rcases Nat.lt_trichotomy v w with hlt | rfl | hgt
      · have hsum : m * x + v < m * x + w := by omega
        rw [Nat.compare_eq_lt.mpr hlt, Nat.compare_eq_lt.mpr hsum]
      · rw [Std.ReflOrd.compare_self, Std.ReflOrd.compare_self]
      · have hsum : m * x + w < m * x + v := by omega
        rw [Nat.compare_eq_gt.mpr hgt, Nat.compare_eq_gt.mpr hsum]
    rw [Std.ReflOrd.compare_self, hsum]
    rfl
  · have hle : m * (y + 1) ≤ m * x := Nat.mul_le_mul_left m hgt
    have hsum : m * y + w < m * x + v := by
      rw [Nat.mul_succ] at hle
      omega
    rw [Nat.compare_eq_gt.mpr hgt, Nat.compare_eq_gt.mpr hsum]
    rfl

/-- Runs of one length are in the order of their values. -/
theorem compare_eq_of_length_eq {a b : List Char} (hlength : a.length = b.length)
    (ha : ∀ c ∈ a, c.isDigit = true) (hb : ∀ c ∈ b, c.isDigit = true) :
    compare a b = compare (value a) (value b) := by
  induction a generalizing b with
  | nil =>
      rw [List.eq_nil_of_length_eq_zero hlength.symm]
      rfl
  | cons x a ih =>
      cases b with
      | nil => exact absurd hlength (Nat.succ_ne_zero _)
      | cons y b =>
          have hsame : a.length = b.length := Nat.succ.inj hlength
          have hx := toNat_of_isDigit (ha x List.mem_cons_self)
          have hy := toNat_of_isDigit (hb y List.mem_cons_self)
          have harest := fun c hc => ha c (List.mem_cons_of_mem x hc)
          have hbrest := fun c hc => hb c (List.mem_cons_of_mem y hc)
          have hheads : compare x.toNat y.toNat = compare (x.toNat - 48) (y.toNat - 48) := by
            rcases Nat.lt_trichotomy x.toNat y.toNat with hlt | heq | hgt
            · have hsub : x.toNat - 48 < y.toNat - 48 := by omega
              rw [Nat.compare_eq_lt.mpr hlt, Nat.compare_eq_lt.mpr hsub]
            · rw [heq, Std.ReflOrd.compare_self, Std.ReflOrd.compare_self]
            · have hsub : y.toNat - 48 < x.toNat - 48 := by omega
              rw [Nat.compare_eq_gt.mpr hgt, Nat.compare_eq_gt.mpr hsub]
          have hscaled := @compare_scaled (10 ^ a.length) (x.toNat - 48) (y.toNat - 48) _ _
            (value_lt harest) (hsame ▸ value_lt hbrest)
          rw [List.compare_cons_cons, compare_char, hheads, ih hsame harest hbrest, hscaled,
            value_cons, value_cons, hsame]

/-- The longer of two runs without zeros in front has the greater value. -/
theorem value_lt_of_length_lt {a b : List Char} (hlength : a.length < b.length)
    (ha : ∀ c ∈ a, c.isDigit = true) (hb : ∀ c ∈ b, c.isDigit = true)
    (hzero : b.head? ≠ some '0') : value a < value b := by
  cases b with
  | nil => exact absurd hlength (Nat.not_lt_zero _)
  | cons y b =>
      have hy : y ≠ '0' := fun hy => hzero (congrArg some hy)
      have hpow : 10 ^ a.length ≤ 10 ^ b.length :=
        Nat.pow_le_pow_right (by decide) (Nat.le_of_lt_succ hlength)
      exact Nat.lt_of_lt_of_le (value_lt ha)
        (Nat.le_trans hpow (le_value (hb y List.mem_cons_self) hy))

theorem head?_dropWhile_ne (digits : List Char) :
    (digits.dropWhile (· = '0')).head? ≠ some '0' := by
  intro h
  have hnot := List.head?_dropWhile_not (fun c : Char => decide (c = '0')) digits
  rw [h] at hnot
  simp at hnot

/-- Runs of digits are compared by the numbers they spell. -/
theorem compareRuns_eq {na nb : List Char} (ha : ∀ c ∈ na, c.isDigit = true)
    (hb : ∀ c ∈ nb, c.isDigit = true) : compareRuns na nb = compare (value na) (value nb) := by
  have ha' : ∀ c ∈ na.dropWhile (· = '0'), c.isDigit = true :=
    fun c hc => ha c ((List.dropWhile_suffix _).subset hc)
  have hb' : ∀ c ∈ nb.dropWhile (· = '0'), c.isDigit = true :=
    fun c hc => hb c ((List.dropWhile_suffix _).subset hc)
  rw [← value_dropWhile na, ← value_dropWhile nb, compareRuns]
  change (compare (na.dropWhile (· = '0')).length (nb.dropWhile (· = '0')).length).then
    (compare (na.dropWhile (· = '0')) (nb.dropWhile (· = '0'))) = _
  rcases Nat.lt_trichotomy (na.dropWhile (· = '0')).length (nb.dropWhile (· = '0')).length with
    hlt | heq | hgt
  · have hvalue := value_lt_of_length_lt hlt ha' hb' (head?_dropWhile_ne nb)
    rw [Nat.compare_eq_lt.mpr hlt, Nat.compare_eq_lt.mpr hvalue]
    rfl
  · rw [heq, Std.ReflOrd.compare_self, compare_eq_of_length_eq heq ha' hb']
    rfl
  · have hvalue := value_lt_of_length_lt hgt hb' ha' (head?_dropWhile_ne na)
    rw [Nat.compare_eq_gt.mpr hgt, Nat.compare_eq_gt.mpr hvalue]
    rfl

/-! ## The keys of a name -/

/-- What a name is ordered by. A run of digits stands with the digits, whichever of them comes
first in it. -/
def keys (case : Lowercase) : List Char → List (List Char × Nat)
  | [] => []
  | c :: text =>
      if c.isDigit then
        (['0'], value ((c :: text).takeWhile Char.isDigit)) ::
          keys case (text.dropWhile Char.isDigit)
      else (case.lower c, 0) :: keys case text
termination_by text => text.length
decreasing_by
  · exact Nat.lt_succ_of_le (List.dropWhile_suffix Char.isDigit).length_le
  · exact Nat.lt_succ_self _

def keyCmp (k l : List Char × Nat) : Ordering := (compare k.1 l.1).then (compare k.2 l.2)

instance : TransCmp keyCmp :=
  inferInstanceAs (TransCmp (compareLex (compareOn Prod.fst) (compareOn Prod.snd)))

variable {case : Lowercase}

theorem keys_digit {c : Char} (h : c.isDigit = true) (text : List Char) :
    keys case (c :: text) = (['0'], value ((c :: text).takeWhile Char.isDigit)) ::
      keys case (text.dropWhile Char.isDigit) := by
  rw [keys, if_pos h]

theorem keys_letter {c : Char} (h : c.isDigit = false) (text : List Char) :
    keys case (c :: text) = (case.lower c, 0) :: keys case text := by
  rw [keys, if_neg (by rw [h]; exact Bool.false_ne_true)]

theorem then_of_ne {o : Ordering} (h : o ≠ .eq) (o' : Ordering) : o.then o' = o := by
  cases o with
  | lt => rfl
  | eq => exact absurd rfl h
  | gt => rfl

/-- A digit is before or after another character's lower case whichever digit it is. -/
theorem compare_digit {c d e : Char} (hc : c.isDigit = true) (hd : d.isDigit = true)
    (he : e.isDigit = false) :
    compare [c] (case.lower e) = compare [d] (case.lower e) ∧
      compare [c] (case.lower e) ≠ .eq := by
  cases hlower : case.lower e with
  | nil => exact ⟨rfl, Ordering.noConfusion⟩
  | cons f rest =>
      have hf : ¬(48 ≤ f.toNat ∧ f.toNat ≤ 57) := by
        intro h
        have hdigit := Char.isDigit_iff_toNat.mpr h
        rw [case.notDigit e he f rest hlower] at hdigit
        exact Bool.false_ne_true hdigit
      have hcr := toNat_of_isDigit hc
      have hdr := toNat_of_isDigit hd
      rw [List.compare_cons_cons, List.compare_cons_cons, compare_char, compare_char]
      rcases Nat.lt_or_ge f.toNat 48 with hlow | hhigh
      · have hcf : f.toNat < c.toNat := by omega
        have hdf : f.toNat < d.toNat := by omega
        rw [Nat.compare_eq_gt.mpr hcf, Nat.compare_eq_gt.mpr hdf]
        exact ⟨rfl, Ordering.noConfusion⟩
      · have hcf : c.toNat < f.toNat := by omega
        have hdf : d.toNat < f.toNat := by omega
        rw [Nat.compare_eq_lt.mpr hcf, Nat.compare_eq_lt.mpr hdf]
        exact ⟨rfl, Ordering.noConfusion⟩

theorem isDigit_of_mem_takeWhile (text : List Char) :
    ∀ c ∈ text.takeWhile Char.isDigit, c.isDigit = true :=
  List.all_eq_true.mp List.all_takeWhile

/-- Natural order is the lexicographic order of the keys. -/
theorem naturalCmp_eq (case : Lowercase) (a b : List Char) :
    naturalCmp case a b = List.compareLex keyCmp (keys case a) (keys case b) := by
  induction a, b using naturalCmp.induct with
  | case1 =>
      rw [naturalCmp, keys]
      rfl
  | case2 y b =>
      rw [naturalCmp]
      cases hy : y.isDigit with
      | true =>
          rw [keys_digit hy, keys]
          rfl
      | false =>
          rw [keys_letter hy, keys]
          rfl
  | case3 x a =>
      rw [naturalCmp]
      cases hx : x.isDigit with
      | true =>
          rw [keys_digit hx, keys]
          rfl
      | false =>
          rw [keys_letter hx, keys]
          rfl
  | case4 x a y b h ih =>
      obtain ⟨hx, hy⟩ := Bool.and_eq_true_iff.mp h
      have hruns := compareRuns_eq (isDigit_of_mem_takeWhile (x :: a))
        (isDigit_of_mem_takeWhile (y :: b))
      rw [naturalCmp, if_pos h, ih, hruns, keys_digit hx, keys_digit hy, List.compareLex_cons_cons]
      rfl
  | case5 x a y b h ih =>
      rw [naturalCmp, if_neg h, ih]
      cases hx : x.isDigit with
      | true =>
          cases hy : y.isDigit with
          | true => exact absurd (by rw [hx, hy]; rfl) h
          | false =>
              obtain ⟨hsame, hne⟩ := @compare_digit case x '0' y hx rfl hy
              rw [keys_digit hx, keys_letter hy, List.compareLex_cons_cons, keyCmp, case.digit x hx,
                then_of_ne hne, ← hsame, then_of_ne hne, then_of_ne hne]
      | false =>
          cases hy : y.isDigit with
          | true =>
              obtain ⟨hsame, hne⟩ := @compare_digit case y '0' x hy rfl hx
              have hne' : compare (case.lower x) [y] ≠ .eq := fun h =>
                hne (Std.OrientedCmp.eq_symm h)
              have hsame' : compare (case.lower x) [y] = compare (case.lower x) ['0'] := by
                rw [@OrientedCmp.eq_swap _ compare, hsame, ← OrientedCmp.eq_swap]
              rw [keys_letter hx, keys_digit hy, List.compareLex_cons_cons, keyCmp, case.digit y hy,
                then_of_ne hne', ← hsame', then_of_ne hne', then_of_ne hne']
          | false =>
              rw [keys_letter hx, keys_letter hy, List.compareLex_cons_cons, keyCmp]
              cases compare (case.lower x) (case.lower y) with
              | lt => rfl
              | eq => rfl
              | gt => rfl

instance : TransCmp (naturalCmp case) where
  eq_swap := by
    intro a b
    rw [naturalCmp_eq, naturalCmp_eq]
    exact OrientedCmp.eq_swap
  isLE_trans := by
    intro a b c
    rw [naturalCmp_eq, naturalCmp_eq, naturalCmp_eq]
    exact TransCmp.isLE_trans

/-! ## Runs in their places -/

/-- A run of digits stands whole between what is before it and what is behind. -/
structure Run (front digits back : List Char) : Prop where
  ne_nil : digits ≠ []
  digits : ∀ c ∈ digits, c.isDigit = true
  front : front.getLast?.any Char.isDigit = false
  back : back.head?.any Char.isDigit = false

theorem takeWhile_run {digits back : List Char} (hdigits : ∀ c ∈ digits, c.isDigit = true)
    (hback : back.head?.any Char.isDigit = false) :
    (digits ++ back).takeWhile Char.isDigit = digits ∧
      (digits ++ back).dropWhile Char.isDigit = back := by
  have hstop : back.takeWhile Char.isDigit = [] ∧ back.dropWhile Char.isDigit = back := by
    cases back with
    | nil => exact ⟨rfl, rfl⟩
    | cons c back =>
        have hc : c.isDigit = false := hback
        rw [List.takeWhile_cons, List.dropWhile_cons, hc]
        exact ⟨rfl, rfl⟩
  rw [List.takeWhile_append_of_pos hdigits, List.dropWhile_append_of_pos hdigits, hstop.1, hstop.2]
  exact ⟨List.append_nil _, rfl⟩

/-- The keys of a run with its surroundings. -/
theorem keys_run {digits back : List Char} (hne : digits ≠ [])
    (hdigits : ∀ c ∈ digits, c.isDigit = true) (hback : back.head?.any Char.isDigit = false) :
    keys case (digits ++ back) = (['0'], value digits) :: keys case back := by
  obtain ⟨c, rest, rfl⟩ := List.exists_cons_of_ne_nil hne
  have hwhole := takeWhile_run hdigits hback
  have hrest := takeWhile_run (fun d hd => hdigits d (List.mem_cons_of_mem c hd)) hback
  rw [List.cons_append, keys_digit (hdigits c List.mem_cons_self), ← List.cons_append, hwhole.1,
    hrest.2]

/-- Keys are taken apart where no run of digits is cut. -/
theorem keys_append {front : List Char} (text : List Char)
    (h : front.getLast?.any Char.isDigit = false) :
    keys case (front ++ text) = keys case front ++ keys case text := by
  induction front using keys.induct with
  | case1 => rw [keys, List.nil_append, List.nil_append]
  | case2 c rest hc ih =>
      have hsplit : rest.takeWhile Char.isDigit ++ rest.dropWhile Char.isDigit = rest :=
        List.takeWhile_append_dropWhile
      have hdigits : ∀ d ∈ c :: rest.takeWhile Char.isDigit, d.isDigit = true := by
        intro d hd
        rcases List.mem_cons.mp hd with rfl | hd
        · exact hc
        · exact isDigit_of_mem_takeWhile rest d hd
      generalize hrun : rest.takeWhile Char.isDigit = run at hsplit hdigits
      have hback := List.head?_dropWhile_not Char.isDigit rest
      generalize rest.dropWhile Char.isDigit = back at hsplit ih hback
      subst hsplit
      have hne : back ≠ [] := by
        -- the whole text would be digits, and its last one
        rintro rfl
        rw [List.append_nil, List.getLast?_eq_some_getLast (List.cons_ne_nil c run),
          Option.any_some, hdigits _ (List.getLast_mem _)] at h
        exact Bool.false_ne_true h.symm
      have hlast : back.getLast?.any Char.isDigit = false := by
        rwa [← List.cons_append, List.getLast?_append_of_ne_nil _ hne] at h
      obtain ⟨d, back, rfl⟩ := List.exists_cons_of_ne_nil hne
      have hd : (d :: back).head?.any Char.isDigit = false := by simpa using hback
      have hfront := @keys_run case (c :: run) (d :: back) (List.cons_ne_nil c run) hdigits hd
      have hall := @keys_run case (c :: run) (d :: back ++ text) (List.cons_ne_nil c run) hdigits hd
      rw [← List.cons_append, hfront, List.append_assoc, hall, ih hlast, List.cons_append]
  | case3 c rest hc ih =>
      have hc' : c.isDigit = false := Bool.not_eq_true _ ▸ hc
      have hlast : rest.getLast?.any Char.isDigit = false := by
        cases rest with
        | nil => rfl
        | cons d rest => rwa [List.getLast?_cons_cons] at h
      rw [List.cons_append, keys_letter hc', keys_letter hc', ih hlast, List.cons_append]

theorem compareLex_append {α : Type} {cmp : α → α → Ordering} {as bs : List α}
    (h : List.compareLex cmp as bs = .eq) (as' bs' : List α) :
    List.compareLex cmp (as ++ as') (bs ++ bs') = List.compareLex cmp as' bs' := by
  induction as generalizing bs with
  | nil =>
      cases bs with
      | nil => rfl
      | cons b bs => exact absurd h Ordering.noConfusion
  | cons a as ih =>
      cases bs with
      | nil => exact absurd h Ordering.noConfusion
      | cons b bs =>
          rw [List.compareLex_cons_cons, Ordering.then_eq_eq] at h
          rw [List.cons_append, List.cons_append, List.compareLex_cons_cons, h.1, ih h.2]
          rfl

/-- Where two names agree before them, runs of digits are compared by the numbers they spell. -/
theorem naturalCmp_run {p q r s a b : List Char} (h : naturalCmp case p q = .eq)
    (hr : Run p r a) (hs : Run q s b) :
    naturalCmp case (p ++ (r ++ a)) (q ++ (s ++ b)) =
      (compare (value r) (value s)).then (naturalCmp case a b) := by
  rw [naturalCmp_eq] at h
  rw [naturalCmp_eq, keys_append _ hr.front, keys_append _ hs.front, compareLex_append h,
    keys_run hr.ne_nil hr.digits hr.back, keys_run hs.ne_nil hs.digits hs.back,
    List.compareLex_cons_cons, naturalCmp_eq]
  rfl

/-- Natural order is a total preorder, and compares runs of digits by the numbers they spell
wherever the names agree before them. -/
theorem natural_order (case : Lowercase) :
    (∀ a, naturalCmp case a a = .eq) ∧
      (∀ a b, naturalCmp case b a = (naturalCmp case a b).swap) ∧
      (∀ a b c, (naturalCmp case a b).isLE = true → (naturalCmp case b c).isLE = true →
        (naturalCmp case a c).isLE = true) ∧
      ∀ p q r s a b, naturalCmp case p q = .eq → Run p r a → Run q s b →
        naturalCmp case (p ++ (r ++ a)) (q ++ (s ++ b)) =
          (compare (value r) (value s)).then (naturalCmp case a b) :=
  ⟨fun _ => ReflCmp.compare_self, fun _ _ => OrientedCmp.eq_swap,
    fun _ _ _ => TransCmp.isLE_trans, fun _ _ _ _ _ _ => naturalCmp_run⟩

/-- The case of ASCII letters alone. -/
def asciiCase : Lowercase where
  lower c := if 65 ≤ c.toNat ∧ c.toNat ≤ 90 then [Char.ofNat (c.toNat + 32)] else [c]
  digit c h := by
    have hrange := toNat_of_isDigit h
    rw [if_neg (by omega)]
  notDigit c h d rest heq := by
    rw [← Bool.not_eq_true, Char.isDigit_iff_toNat] at h ⊢
    split at heq
    · next hupper =>
      obtain ⟨rfl, -⟩ := List.cons.inj heq
      have hlower : (Char.ofNat (c.toNat + 32)).toNat = c.toNat + 32 :=
        Utf16.toNat_ofNat (.inl (by omega))
      rw [hlower]
      intro hdigit
      have hle : c.toNat + 32 ≤ 57 := hdigit.2
      omega
    · obtain ⟨rfl, -⟩ := List.cons.inj heq
      exact h

theorem natural_order_files :
    naturalCmp asciiCase "file2".toList "File10".toList = .lt := by
  have hagree : naturalCmp asciiCase "file".toList "File".toList = .eq := by
    simp [naturalCmp, asciiCase]
  exact (natural_order asciiCase).2.2.2 "file".toList "File".toList ['2'] ['1', '0'] [] [] hagree
    ⟨List.cons_ne_nil _ _, List.all_eq_true.mp rfl, rfl, rfl⟩
    ⟨List.cons_ne_nil _ _, List.all_eq_true.mp rfl, rfl, rfl⟩

/-! ## Listings -/

instance : TransCmp fun a b : Entry => compare b.isDir a.isDir :=
  inferInstanceAs (TransCmp fun a b : Entry => compareOn Entry.isDir b a)

instance : TransCmp fun a b : Entry => naturalCmp case a.name.toList b.name.toList where
  eq_swap := OrientedCmp.eq_swap
  isLE_trans := TransCmp.isLE_trans

instance : TransCmp (entryCmp case) :=
  inferInstanceAs (TransCmp (compareLex (fun a b : Entry => compare b.isDir a.isDir)
    (fun a b : Entry => naturalCmp case a.name.toList b.name.toList)))

/-- A listing is in order, and holds what it was made of. -/
theorem sorted_listing (case : Lowercase) (entries : List Entry) :
    ((listing case entries).Pairwise fun a b => (entryCmp case a b).isLE = true) ∧
      (listing case entries).Perm entries := by
  refine ⟨List.pairwise_mergeSort (fun a b c => TransCmp.isLE_trans) (fun a b => ?_) entries,
    List.mergeSort_perm entries _⟩
  rw [@OrientedCmp.eq_swap _ (entryCmp case) _ b a]
  cases entryCmp case a b <;> rfl

end NaturalOrder

end Throng
