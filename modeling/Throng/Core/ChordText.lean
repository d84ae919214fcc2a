import Mathlib.Data.List.DropRight
import Throng.Core.KeymapRun

/-!
# A chord's text is read back

A key that was read from an ASCII token is written in one form: trimmed, with no plus in it
unless it is the plus key, no modifier's name, and read as itself. A text made of such a key
behind the names of modifiers is split where it was put together.
-/

namespace Throng

/-! ## Trimmed texts -/

/-- No blank stands at either end. -/
def Trimmed (text : List Char) : Prop :=
  (∀ c ∈ text.head?, isWhitespace c = false) ∧ ∀ c ∈ text.getLast?, isWhitespace c = false

-- named, for a search for them goes through all characters instead
instance (text : List Char) : Decidable (Trimmed text) :=
  @instDecidableAnd _ _ (Option.decidableForallMem text.head?)
    (Option.decidableForallMem text.getLast?)

theorem dropWhile_of_head? {p : Char → Bool} {text : List Char}
    (h : ∀ c ∈ text.head?, p c = false) : text.dropWhile p = text := by
  cases text with
  | nil => rfl
  | cons c text => exact List.dropWhile_cons_of_neg (Bool.eq_false_iff.1 (h c rfl))

theorem trim_of_trimmed {text : List Char} (h : Trimmed text) :
    trim (.ofList text) = .ofList text := by
  rw [trim, String.toList_ofList, dropWhile_of_head? h.1,
    dropWhile_of_head? (by rw [List.head?_reverse]; exact h.2), List.reverse_reverse]

theorem trimmed_trim (text : String) : Trimmed (trim text).toList := by
  have hend : ∀ {p : Char → Bool} {l : List Char}, ∀ c ∈ (l.dropWhile p).head?, p c = false := by
    intro p l c hc
    have hnot := List.head?_dropWhile_not p l
    rw [Option.mem_def.1 hc] at hnot
    exact hnot
  rw [trim, String.toList_ofList]
  refine ⟨fun c hc => ?_, fun c hc => ?_⟩
  · refine hend (l := text.toList) c ?_
    have hprefix : ((text.toList.dropWhile isWhitespace).reverse.dropWhile isWhitespace).reverse <+:
        text.toList.dropWhile isWhitespace := List.rdropWhile_prefix _ _
    obtain ⟨rest, hrest⟩ := hprefix
    rw [← hrest, List.head?_append, Option.mem_def.1 hc]
    rfl
  · rw [List.getLast?_reverse] at hc
    exact hend c hc

/-! ## ASCII letters -/

theorem toUpper_ascii {c : Char} (h : c.toNat < 128) :
    c.toUpper.toNat < 128 ∧ c.toUpper.toUpper = c.toUpper ∧ c.toUpper.toLower = c.toLower ∧
      (isWhitespace c.toUpper = true → isWhitespace c = true) ∧ (c.toUpper = '+' → c = '+') := by
  have hall : ∀ n < 128, (Char.ofNat n).toUpper.toNat < 128 ∧
      (Char.ofNat n).toUpper.toUpper = (Char.ofNat n).toUpper ∧
      (Char.ofNat n).toUpper.toLower = (Char.ofNat n).toLower ∧
      (isWhitespace (Char.ofNat n).toUpper = true → isWhitespace (Char.ofNat n) = true) ∧
      ((Char.ofNat n).toUpper = '+' → Char.ofNat n = '+') := by decide +kernel
  have hc := hall c.toNat h
  rwa [Char.ofNat_toNat] at hc

namespace Chord

/-- A key as it is written. -/
structure KeyForm (key : String) : Prop where
  ne_empty : key ≠ ""
  trimmed : Trimmed key.toList
  plus : '+' ∈ key.toList → key = "+"
  modifier : (modifierNames.map asciiLowercase).contains (asciiLowercase key) = false
  same : ∀ upper, normaliseKey upper key = key

variable {upper : Char → List Char}

theorem normaliseKey_single {key : String} {c : Char} (h : key.toList = [c]) :
    normaliseKey upper key = .ofList (uppercase upper c) := by
  rw [normaliseKey, h]

theorem normaliseKey_long {key : String} {first second : Char} {rest : List Char}
    (h : key.toList = first :: second :: rest) : normaliseKey upper key =
      (keyAlias (asciiLowercase key)).getD (.ofList (uppercase upper first ++ second :: rest)) := by
  rw [normaliseKey, h]
  dsimp only
  cases keyAlias (asciiLowercase key) <;> rfl

theorem uppercase_ascii {c : Char} (h : c.toNat < 128) : uppercase upper c = [c.toUpper] :=
  if_pos h

/-- A name that normalising leaves as it is, its first letter being ASCII. -/
def Settled (full : String) : Prop :=
  ∃ first ∈ full.toList.head?, first.toNat < 128 ∧ full.toList.tail ≠ [] ∧
    (keyAlias (asciiLowercase full)).getD (.ofList (first.toUpper :: full.toList.tail)) = full

instance (full : String) : Decidable (Settled full) :=
  Option.decidableExistsMem full.toList.head?

theorem Settled.same {full : String} (h : Settled full) (upper : Char → List Char) :
    normaliseKey upper full = full := by
  obtain ⟨first, hfirst, hascii, htail, hfull⟩ := h
  obtain ⟨second, rest, hrest⟩ := List.exists_cons_of_ne_nil htail
  have hchars : full.toList = first :: second :: rest := by
    rw [← hrest]
    exact List.eq_cons_of_mem_head? hfirst
  rw [normaliseKey_long hchars, uppercase_ascii hascii, List.singleton_append, ← hrest]
  exact hfull

theorem keyForm_full {key full : String} (h : keyAlias key = some full) : KeyForm full := by
  have hfull : full ∈ ["Escape", "Enter", "Delete", "ArrowUp", "ArrowDown", "ArrowLeft",
      "ArrowRight", "PageUp", "PageDown", "Space"] := by
    rw [keyAlias.eq_def] at h
    split at h <;> first | (cases h; decide) | cases h
  have hforms : ∀ full ∈ ["Escape", "Enter", "Delete", "ArrowUp", "ArrowDown", "ArrowLeft",
      "ArrowRight", "PageUp", "PageDown", "Space"], full ≠ "" ∧ Trimmed full.toList ∧
        ('+' ∈ full.toList → full = "+") ∧
          (modifierNames.map asciiLowercase).contains (asciiLowercase full) = false ∧
            Settled full := by
    decide +kernel
  obtain ⟨hne, htrimmed, hplus, hmodifier, hsettled⟩ := hforms full hfull
  exact ⟨hne, htrimmed, hplus, hmodifier, hsettled.same⟩

theorem asciiLowercase_ofList (text : List Char) :
    asciiLowercase (.ofList text) = .ofList (text.map Char.toLower) := by
  rw [asciiLowercase, String.toList_ofList]

theorem isWhitespace_toUpper {c : Char} (h : c.toNat < 128) (hblank : isWhitespace c = false) :
    isWhitespace c.toUpper = false := by
  obtain ⟨-, -, -, hspace, -⟩ := toUpper_ascii h
  by_contra htrue
  rw [Bool.not_eq_false] at htrue
  rw [hspace htrue] at hblank
  cases hblank

theorem keyForm_letter {c : Char} (h : c.toNat < 128) (hblank : isWhitespace c = false) :
    KeyForm (.ofList [c.toUpper]) := by
  obtain ⟨hascii, hagain, -⟩ := toUpper_ascii h
  have hnot := isWhitespace_toUpper h hblank
  refine ⟨?_, ?_, ?_, ?_, fun upper => ?_⟩
  · intro hempty
    have hlist := congrArg String.toList hempty
    rw [String.toList_ofList] at hlist
    cases hlist
  · rw [String.toList_ofList]
    exact ⟨fun d hd => by rwa [← Option.some.inj hd], fun d hd => by rwa [← Option.some.inj hd]⟩
  · rw [String.toList_ofList, List.mem_singleton]
    rintro heq
    rw [← heq]
  · have hlengths : ∀ name ∈ modifierNames.map asciiLowercase, 1 < name.toList.length := by
      decide +kernel
    rw [Bool.eq_false_iff, ne_eq, List.contains_iff_mem]
    intro hmem
    have hlt := hlengths _ hmem
    rw [asciiLowercase_ofList, String.toList_ofList] at hlt
    simp at hlt
  · rw [normaliseKey_single (String.toList_ofList), uppercase_ascii hascii, hagain]

theorem keyForm_name {first second : Char} {rest : List Char} (h : first.toNat < 128)
    (htrimmed : Trimmed (first :: second :: rest)) (hplus : '+' ∉ first :: second :: rest)
    (hmodifier : (modifierNames.map asciiLowercase).contains
      (asciiLowercase (.ofList (first :: second :: rest))) = false)
    (halias : keyAlias (asciiLowercase (.ofList (first :: second :: rest))) = none) :
    KeyForm (.ofList (first.toUpper :: second :: rest)) := by
  obtain ⟨hascii, hagain, hlower, -, hsign⟩ := toUpper_ascii h
  have hlowercase : asciiLowercase (.ofList (first.toUpper :: second :: rest)) =
      asciiLowercase (.ofList (first :: second :: rest)) := by
    rw [asciiLowercase_ofList, asciiLowercase_ofList, List.map_cons, List.map_cons, hlower]
    rfl
  refine ⟨?_, ?_, ?_, by rwa [hlowercase], fun upper => ?_⟩
  · intro hempty
    have hlist := congrArg String.toList hempty
    rw [String.toList_ofList] at hlist
    cases hlist
  · rw [String.toList_ofList]
    refine ⟨fun c hc => ?_, fun c hc => htrimmed.2 c (by simpa using hc)⟩
    rw [← Option.some.inj hc]
    exact isWhitespace_toUpper h (htrimmed.1 first rfl)
  · intro hmem
    rw [String.toList_ofList] at hmem
    rcases List.mem_cons.1 hmem with heq | hmem
    · exact absurd (List.mem_cons.2 (.inl (hsign heq.symm).symm)) hplus
    · exact absurd (List.mem_cons_of_mem _ hmem) hplus
  · rw [normaliseKey_long String.toList_ofList, hlowercase, halias, uppercase_ascii hascii, hagain]
    rfl

/-- The key that is read from an ASCII text is in the form it is written in. -/
theorem keyForm_normaliseKey {key : String} (hascii : ∀ c ∈ key.toList, c.toNat < 128)
    (hne : key ≠ "") (htrimmed : Trimmed key.toList) (hplus : '+' ∈ key.toList → key = "+")
    (hmodifier : (modifierNames.map asciiLowercase).contains (asciiLowercase key) = false) :
    KeyForm (normaliseKey upper key) := by
  have hkey : key = .ofList key.toList := String.ofList_toList.symm
  match hlist : key.toList with
  | [] => exact absurd (hkey.trans (by rw [hlist])) hne
  | [c] =>
      have hc := hascii c (by rw [hlist]; exact List.mem_cons_self)
      rw [normaliseKey_single hlist, uppercase_ascii hc]
      exact keyForm_letter hc (htrimmed.1 c (by rw [hlist]; rfl))
  | first :: second :: rest =>
      rw [normaliseKey_long hlist]
      cases halias : keyAlias (asciiLowercase key) with
      | some full => exact keyForm_full halias
      | none =>
          have hfirst := hascii first (by rw [hlist]; exact List.mem_cons_self)
          rw [Option.getD_none, uppercase_ascii hfirst]
          rw [hlist] at htrimmed
          rw [hkey, hlist] at hmodifier halias
          refine keyForm_name hfirst htrimmed (fun hmem => ?_) hmodifier halias
          have hsingle := congrArg String.toList (hplus (by rwa [hlist]))
          rw [hlist] at hsingle
          cases hsingle

/-- The key part of a token has a plus in it only when it is one. -/
theorem plus_of_mem_splitToken {token : List Char} (h : '+' ∈ (splitToken token).2) :
    (splitToken token).2 = ['+'] := by
  rw [splitToken] at h ⊢
  split_ifs at h ⊢
  · rfl
  · rfl
  · rw [rsplitPlus, List.mem_reverse] at h
    have hnot := List.mem_takeWhile_imp h
    simp at hnot

/-- What is read from an ASCII token. -/
theorem keyForm_of_parse {token : String} {chord : Chord}
    (hascii : ∀ c ∈ token.toList, c.toNat < 128) (h : parse upper token = some chord) :
    KeyForm chord.key := by
  obtain ⟨key, hkey⟩ : ∃ key, key = trim (.ofList (splitToken (trim token).toList).2) := ⟨_, rfl⟩
  rw [parse] at h
  dsimp only at h
  rw [← hkey] at h
  split at h
  · cases h
  · split at h
    · cases h
    · next hnot =>
        rw [Bool.or_eq_true, not_or, decide_eq_true_eq, Bool.not_eq_true] at hnot
        rw [← Option.some.inj h]
        refine keyForm_normaliseKey (fun c hc => ?_) hnot.1 ?_ (fun hplus => ?_) hnot.2
        · rw [hkey] at hc
          have hsplit := mem_of_mem_trim hc
          rw [String.toList_ofList] at hsplit
          exact ascii_of_mem_splitToken (fun c hc => hascii c (mem_of_mem_trim hc)) hsplit
        · rw [hkey]
          exact trimmed_trim _
        · rw [hkey] at hplus ⊢
          have hmem := mem_of_mem_trim hplus
          rw [String.toList_ofList] at hmem
          rw [plus_of_mem_splitToken hmem]
          decide

/-! ## The text of a chord -/

/-- The names of the modifiers that are down, with a plus between them. -/
def modifiers (ctrl shift alt : Bool) : List Char :=
  ['+'].intercalate ((if ctrl then ["Ctrl".toList] else []) ++
    (if shift then ["Shift".toList] else []) ++ if alt then ["Alt".toList] else [])

/-- What stands before a key that comes after modifiers. -/
def lead (modifiers : List Char) : List Char := if modifiers = [] then [] else modifiers ++ ['+']

theorem toList_text (chord : Chord) : chord.text.toList =
    lead (modifiers chord.ctrl chord.shift chord.alt) ++ chord.key.toList := by
  obtain ⟨ctrl, shift, alt, key⟩ := chord
  cases ctrl <;> cases shift <;> cases alt <;>
    simp [text, modifiers, lead, String.toList_append, List.intercalate]

theorem lead_trimmed (ctrl shift alt : Bool) (c : Char)
    (h : c ∈ (lead (modifiers ctrl shift alt)).head?) : isWhitespace c = false := by
  have hall : ∀ ctrl shift alt,
      ((lead (modifiers ctrl shift alt)).head?.all fun c => !isWhitespace c) = true := by
    decide
  have hc := hall ctrl shift alt
  rw [Option.mem_def.1 h, Option.all_some, Bool.not_eq_true'] at hc
  exact hc

theorem readModifiers_modifiers : ∀ ctrl shift alt,
    readModifiers ⟨false, false, false, ""⟩ ((((modifiers ctrl shift alt).splitOn '+').map
      fun part => trim (.ofList part)).filter fun part => part ≠ "") =
        some ⟨ctrl, shift, alt, ""⟩ := by
  decide +kernel

theorem splitToken_plus (modifiers : List Char) :
    splitToken (lead modifiers ++ ['+']) = (modifiers, ['+']) := by
  rw [splitToken, lead]
  by_cases hnil : modifiers = []
  · subst hnil
    rfl
  · rw [if_neg hnil, List.append_assoc]
    have hsuffix : ['+', '+'].isSuffixOf (modifiers ++ (['+'] ++ ['+'])) = true :=
      List.isSuffixOf_iff_suffix.2 (List.suffix_append _ _)
    rw [if_pos hsuffix, List.length_append]
    exact congrArg (·, ['+']) (List.take_left' rfl)

theorem splitToken_name {key : List Char} (hne : key ≠ []) (hplus : '+' ∉ key)
    (modifiers : List Char) : splitToken (lead modifiers ++ key) = (modifiers, key) := by
  have hlast : ∀ {text : List Char}, text ++ ['+'] ≠ lead modifiers ++ key := by
    intro text heq
    obtain ⟨c, hc⟩ : ∃ c, key.getLast? = some c := ⟨_, List.getLast?_eq_some_getLast hne⟩
    have hlast := congrArg List.getLast? heq
    rw [List.getLast?_concat, List.getLast?_append, hc, Option.some_or, Option.some.injEq] at hlast
    exact hplus (hlast ▸ List.mem_of_getLast? hc)
  have hsuffix : ¬ ['+', '+'].isSuffixOf (lead modifiers ++ key) = true := by
    rw [List.isSuffixOf_iff_suffix]
    rintro ⟨text, htext⟩
    rw [List.append_cons] at htext
    exact hlast htext
  have hsign : lead modifiers ++ key ≠ ['+'] := fun heq => @hlast [] heq.symm
  have hkey : ((lead modifiers ++ key).reverse.takeWhile fun c => c ≠ '+').reverse = key := by
    have hall : ∀ c ∈ key.reverse, (fun c => decide (c ≠ '+')) c = true := by
      intro c hc
      rw [decide_eq_true_eq]
      rintro rfl
      exact hplus (List.mem_reverse.1 hc)
    rw [List.reverse_append, List.takeWhile_append_of_pos hall, lead]
    split
    · rw [List.reverse_nil, List.takeWhile_nil, List.append_nil, List.reverse_reverse]
    · rw [List.reverse_concat, List.takeWhile_cons_of_neg (by simp), List.append_nil,
        List.reverse_reverse]
  rw [splitToken, if_neg hsuffix, if_neg hsign, rsplitPlus, hkey, List.length_append,
    Nat.add_sub_cancel, lead]
  split
  · next hnil => rw [hnil]; rfl
  · rw [List.length_append, List.length_singleton, Nat.add_sub_cancel, List.append_assoc,
      List.take_left]

/-- The text of a chord with a key in form is read as that chord. -/
theorem parse_text {chord : Chord} (h : KeyForm chord.key) :
    parse upper chord.text = some chord := by
  obtain ⟨mods, hmods⟩ : ∃ mods, mods = modifiers chord.ctrl chord.shift chord.alt := ⟨_, rfl⟩
  have hne : chord.key.toList ≠ [] := fun hnil => h.ne_empty (by
    rw [← String.ofList_toList (s := chord.key), hnil])
  have htext : chord.text = .ofList (lead mods ++ chord.key.toList) := by
    rw [hmods, ← toList_text, String.ofList_toList]
  have htrimmed : Trimmed (lead mods ++ chord.key.toList) := by
    refine ⟨fun c hc => ?_, fun c hc => ?_⟩
    · rw [List.head?_append] at hc
      cases hhead : (lead mods).head? with
      | none => exact h.trimmed.1 c (by rwa [hhead, Option.none_or] at hc)
      | some d =>
          rw [hhead, Option.some_or, Option.mem_some_iff] at hc
          exact lead_trimmed _ _ _ c (by rw [← hmods, hhead, hc]; rfl)
    · rw [List.getLast?_append, List.getLast?_eq_some_getLast hne, Option.some_or] at hc
      exact h.trimmed.2 c (by rwa [List.getLast?_eq_some_getLast hne])
  have hsplit : splitToken (lead mods ++ chord.key.toList) = (mods, chord.key.toList) := by
    by_cases hplus : '+' ∈ chord.key.toList
    · rw [h.plus hplus]
      exact splitToken_plus mods
    · exact splitToken_name hne hplus mods
  rw [parse, htext, trim_of_trimmed htrimmed, String.toList_ofList, hsplit]
  dsimp only
  rw [hmods, readModifiers_modifiers]
  dsimp only
  rw [trim_of_trimmed h.trimmed, String.ofList_toList, h.modifier, h.same,
    decide_eq_false h.ne_empty]
  rfl

end Chord

end Throng
