import Throng.Core.ChordText
import Throng.Core.LinkSpans

/-!
# Links that are safe to follow

The links of a line are in order and apart. A path holds no control character, wherever it was
found; an address holds what its word does, and a word ends at a control character below a
blank, but not at `DEL` or one of those above it.
-/

namespace Throng

namespace Links

variable {letters : Letters} {text : List Char} {word : Nat × List Char} {link : Link}

/-! ## Placement -/

/-- Links in order, not empty, within the text, and apart. -/
structure Placed (text : List Char) (links : List Link) : Prop where
  inside : ∀ link ∈ links, link.start < link.stop ∧ link.stop ≤ text.length
  ordered : links.Pairwise fun a b => a.stop ≤ b.start

/-- Two links have no character in common. -/
def Apart (a b : Link) : Prop := a.stop ≤ b.start ∨ b.stop ≤ a.start

theorem Apart.symm {a b : Link} (h : Apart a b) : Apart b a := Or.symm h

/-- The links in quotes, and the words outside them. -/
def outside (letters : Letters) (text : List Char) : List (Nat × List Char) :=
  words (quoted letters 0 0 text) 0 0 text

theorem find_perm (letters : Letters) (text : List Char) :
    (find letters text).Perm
      (quoted letters 0 0 text ++ (outside letters text).filterMap (linkOf letters)) := by
  have htokens := @tokens_eq letters (quoted letters 0 0 text) 0 0 text [] fun link h =>
    absurd h List.not_mem_nil
  rw [List.append_nil, List.nil_append] at htokens
  rw [find, htokens]
  exact List.mergeSort_perm _ _

theorem mem_find : link ∈ find letters text ↔
    link ∈ quoted letters 0 0 text ∨
      ∃ word ∈ outside letters text, linkOf letters word = some link := by
  rw [(find_perm letters text).mem_iff, List.mem_append, List.mem_filterMap]

theorem isBreak_of_isQuote {q : Char} (h : isQuote q = true) : isBreak q = true := by
  simp only [isQuote, Bool.or_eq_true, decide_eq_true_eq] at h
  rcases h with (rfl | rfl) | rfl <;> decide

/-- A character of a word, at its place in the text. -/
theorem Lies.getElem? {taken : List Link} (h : Lies taken 0 text word) {k : Nat}
    (hk : k < word.2.length) : text[word.1 + k]? = some word.2[k] := by
  obtain ⟨behind, htext⟩ := h.text
  rw [Nat.sub_zero] at htext
  rw [← List.getElem?_drop, htext, List.getElem?_append_left hk, List.getElem?_eq_getElem hk]

/-- A link in quotes and what a word outside gives have no character in common. -/
theorem apart_of_lies {taken : List Link} {found : Link} (hlink : link ∈ taken)
    (hbehind : Behind 0 text link) (hlies : Lies taken 0 text word)
    (hfound : linkOf letters word = some found) : Apart link found := by
  obtain ⟨hfirst, hnonempty, hlast⟩ := token_within hfound
  have hfree : ¬(link.start ≤ word.1 ∧ word.1 < link.stop) := by
    intro hcovers
    have hnone := List.any_eq_false.mp hlies.free link hlink
    rw [Link.covers, Bool.and_eq_true, decide_eq_true_eq, decide_eq_true_eq] at hnone
    exact hnone hcovers
  rcases Nat.lt_or_ge word.1 link.start with hbefore | hafter
  · refine .inr (Nat.le_of_not_lt fun hmeet => ?_)
    -- the quote in front of the link would be in the word
    obtain ⟨q, hq, hquote⟩ := hbehind.quote
    have hk : link.start - 1 - word.1 < word.2.length := by omega
    have hplace : word.1 + (link.start - 1 - word.1) = link.start - 1 - 0 := by omega
    have hchar := hlies.getElem? hk
    rw [hplace, hq, Option.some.injEq] at hchar
    have hunbroken := hlies.unbroken _ (List.getElem_mem hk)
    rw [← hchar, isBreak_of_isQuote hquote] at hunbroken
    exact absurd hunbroken (Bool.noConfusion)
  · exact .inl (by omega)

theorem apart_find (letters : Letters) (text : List Char) :
    (find letters text).Pairwise Apart := by
  obtain ⟨hquoted, hquotedPairs⟩ := quoted_spec letters 0 0 text
  obtain ⟨hwords, hwordsPairs⟩ := words_spec (quoted letters 0 0 text) 0 0 text
  rw [(find_perm letters text).pairwise_iff Apart.symm, List.pairwise_append]
  refine ⟨hquotedPairs.imp fun h => .inl (Nat.le_of_lt h), ?_, fun link hlink found hfound => ?_⟩
  · refine hwordsPairs.filterMap _ fun a b hab found hfound other hother => ?_
    have hlast := (token_within hfound).2.2
    have hfirst := (token_within hother).1
    exact .inl (Nat.le_trans hlast (Nat.le_trans hab hfirst))
  · obtain ⟨word, hword, hfound⟩ := List.mem_filterMap.mp hfound
    exact apart_of_lies hlink (hquoted link hlink).2 (hwords word hword).2 hfound

theorem placed_find (letters : Letters) (text : List Char) : Placed text (find letters text) := by
  have hinside : ∀ link ∈ find letters text, link.start < link.stop ∧ link.stop ≤ text.length := by
    intro link hlink
    rcases mem_find.mp hlink with hquoted | ⟨word, hword, hfound⟩
    · have hbehind := ((quoted_spec letters 0 0 text).1 link hquoted).2
      have hlast := hbehind.last
      exact ⟨hbehind.nonempty, by omega⟩
    · have hlies := ((words_spec (quoted letters 0 0 text) 0 0 text).1 word hword).2
      have hlast := hlies.last
      obtain ⟨-, hnonempty, hstop⟩ := token_within hfound
      exact ⟨hnonempty, by omega⟩
  refine ⟨hinside, ?_⟩
  have hsorted : (find letters text).Pairwise fun a b => a.start ≤ b.start := by
    have hsort := @List.pairwise_mergeSort _ (fun a b : Link => decide (a.start ≤ b.start))
      (fun a b c hab hbc => by simp only [decide_eq_true_eq] at *; omega)
      (fun a b => by simp only [Bool.or_eq_true, decide_eq_true_eq]; omega)
      (tokens letters (quoted letters 0 0 text) 0 0 text)
    exact hsort.imp fun h => of_decide_eq_true h
  refine (hsorted.and (apart_find letters text)).imp_of_mem ?_
  rintro a b ha hb ⟨hle, hbefore | hafter⟩
  · exact hbefore
  · have hnonempty := (hinside b hb).1
    omega

/-! ## Letter case -/

theorem toLower_cases (c : Char) :
    c.toLower = c ∨ 65 ≤ c.toNat ∧ c.toNat ≤ 90 ∧ c.toLower.toNat = c.toNat + 32 := by
  by_cases hupper : c.val ≥ 65 ∧ c.val ≤ 90
  · right
    have hval : c.toLower.val = c.val + 32 := by
      change (if h : c.val ≥ 65 ∧ c.val ≤ 90 then (⟨c.val + 32, _⟩ : Char) else c).val = _
      rw [dif_pos hupper]
    simp only [ge_iff_le, UInt32.le_iff_toNat_le] at hupper
    change 65 ≤ c.val.toNat ∧ c.val.toNat ≤ 90 at hupper
    have hsum : (c.val + 32).toNat = c.val.toNat + 32 := by
      rw [UInt32.toNat_add, show (32 : UInt32).toNat = 32 from rfl]
      omega
    have hnat : c.toLower.toNat = c.val.toNat + 32 := by
      change c.toLower.val.toNat = c.val.toNat + 32
      rw [hval, hsum]
    exact ⟨hupper.1, hupper.2, hnat⟩
  · exact .inl (dif_neg hupper)

theorem ascii_of_toLower {c : Char} (h : c.toLower.toNat < 0x80) : c.toNat < 0x80 := by
  rcases toLower_cases c with heq | ⟨-, hle, -⟩
  · rwa [heq] at h
  · omega

/-- A control character is its own lower case. -/
theorem isControl_toLower {c : Char} (h : isControl c = true) : isControl c.toLower = true := by
  rcases toLower_cases c with heq | ⟨hlow, hhigh, -⟩
  · rwa [heq]
  · simp only [isControl, Bool.or_eq_true, Bool.and_eq_true, decide_eq_true_eq] at h
    omega

/-- ASCII text that a word begins with, in any letter case, begins the word in lower case. -/
theorem prefix_lowercase {front body : List Char} (hascii : ∀ c ∈ front, c.toNat < 0x80)
    (h : front <+: body.map Char.toLower) : front <+: letters.lowercase body := by
  obtain ⟨behind, hbehind⟩ := h
  obtain ⟨written, rest, rfl, hwritten, hrest⟩ := List.append_eq_map_iff.mp hbehind
  have hfront : ∀ c ∈ written, c.toNat < 0x80 := by
    intro c hc
    refine ascii_of_toLower (hascii _ ?_)
    rw [← hwritten]
    exact List.mem_map_of_mem hc
  obtain ⟨rest', hlower⟩ := letters.ascii written rest hfront
  rw [hlower, hwritten]
  exact List.prefix_append front rest'

theorem beginnings_ascii : ∀ scheme ∈ beginnings, ∀ c ∈ scheme, c.toNat < 0x80 ∧
    isControl c = false := by
  have hall : (beginnings.all fun scheme => scheme.all fun c =>
      decide (c.toNat < 0x80) && !isControl c) = true := by decide
  intro scheme hscheme c hc
  have hgood := List.all_eq_true.mp (List.all_eq_true.mp hall scheme hscheme) c hc
  simpa using hgood

/-! ## Addresses -/

/-- The beginnings of what is followed, or handed to the system. -/
def addresses : List (List Char) :=
  ["http://".toList, "https://".toList, "mailto:".toList, "tel:".toList]

theorem mem_beginnings {scheme : List Char} (h : scheme ∈ addresses) : scheme ∈ beginnings := by
  simp only [addresses, beginnings, List.mem_cons, List.not_mem_nil, or_false] at h ⊢
  tauto

/-- A word that is an address, behind its brackets and in any letter case. -/
def Addressed (word : List Char) : Prop :=
  ∃ scheme ∈ addresses, scheme <+: (body word).map Char.toLower

/-- No control character is taken from the front of a word. -/
theorem mem_body {word : List Char} {c : Char} (hc : c ∈ word) (hcontrol : isControl c = true) :
    c ∈ body word := by
  have hmark : ∀ d, isLeading d = true → isControl d = false := by
    have hall : (['(', '[', '\x7b', ',', ';'].all fun d => !isControl d) = true := by decide
    intro d hd
    simpa using List.all_eq_true.mp hall d (List.contains_iff_mem.mp hd)
  induction word with
  | nil => exact hc
  | cons d word ih =>
      rw [body, List.dropWhile_cons]
      split
      · next hleading =>
        rcases List.mem_cons.mp hc with rfl | hc
        · rw [hmark c hleading] at hcontrol
          exact absurd hcontrol Bool.false_ne_true
        · exact ih hc
      · exact hc

/-- The part of a word that is left begins like the word. -/
theorem prefix_of_longer {scheme shown body : List Char} (hshown : shown <+: body)
    (hscheme : scheme <+: body.map Char.toLower) (hlong : scheme.length ≤ shown.length) :
    scheme <+: shown.map Char.toLower := by
  refine List.prefix_of_prefix_length_le hscheme (hshown.map Char.toLower) ?_
  rw [List.length_map]
  exact hlong

/-- An address with a control character in it is longer than its beginning, and is left with
the character in it. -/
theorem control_trimEnd {scheme body : List Char} {c : Char} (url : Bool)
    (hscheme : scheme ∈ beginnings) (hbegins : scheme <+: body.map Char.toLower) (hc : c ∈ body)
    (hcontrol : isControl c = true) :
    c ∈ trimEnd url body ∧ scheme.length < (trimEnd url body).length := by
  have hkept : isTrailing c = false := by
    by_contra hmark
    have hall : (['.', ',', ';', '!', '?', ':', ')', ']', '\x7d', '*', '_'].all fun d =>
        !isControl d) = true := by decide
    have hgood := List.all_eq_true.mp hall c
      (List.contains_iff_mem.mp (Bool.not_eq_false _ ▸ hmark))
    rw [hcontrol] at hgood
    exact absurd hgood (Bool.noConfusion)
  have hmem := @mem_trimEnd url body c hc hkept
  refine ⟨hmem, Nat.lt_of_not_le fun hshort => ?_⟩
  have hwithin : (trimEnd url body).map Char.toLower <+: scheme := by
    refine List.prefix_of_prefix_length_le ((trimEnd_front url body).map _) hbegins ?_
    rw [List.length_map]
    exact hshort
  have hfree := (beginnings_ascii scheme hscheme _ (hwithin.subset (List.mem_map_of_mem hmem))).2
  rw [isControl_toLower hcontrol] at hfree
  exact absurd hfree (Bool.noConfusion)

theorem head?_front {front text : List Char} {c : Char} (h : front <+: text)
    (hc : front.head? = some c) : text.head? = some c := by
  obtain ⟨behind, rfl⟩ := h
  rw [List.head?_append, hc, Option.some_or]

/-- Texts with different first characters do not both begin a text. -/
theorem not_isPrefixOf {front other text : List Char} {c d : Char} (hfront : front <+: text)
    (hc : front.head? = some c) (hd : other.head? = some d) (hne : c ≠ d) :
    ¬other.isPrefixOf text = true := by
  intro hother
  have hfirst := head?_front hfront hc
  rw [head?_front (List.isPrefixOf_iff_prefix.mp hother) hd, Option.some.injEq] at hfirst
  exact hne hfirst.symm

theorem bodyLink_web {start : Nat} {body scheme : List Char}
    (hscheme : scheme = "http://".toList ∨ scheme = "https://".toList)
    (hbegins : scheme <+: letters.lowercase body)
    (hlong : scheme.length < (trimEnd true body).length) :
    bodyLink letters start body =
      some ⟨start, start + (trimEnd true body).length, .web (trimEnd true body)⟩ := by
  rw [← List.isPrefixOf_iff_prefix] at hbegins
  unfold bodyLink
  dsimp only
  split
  · have hseven : 7 < (trimEnd true body).length := by
      rcases hscheme with rfl | rfl
      · exact hlong
      · exact Nat.lt_trans (by decide) hlong
    exact if_pos hseven
  · next hother =>
    rcases hscheme with rfl | rfl
    · exact absurd hbegins hother
    · rw [if_pos hbegins]
      exact if_pos hlong

theorem bodyLink_scheme {start : Nat} {body scheme : List Char} (hscheme : scheme ∈ allowedSchemes)
    (hbegins : scheme <+: letters.lowercase body)
    (hlong : scheme.length < (trimEnd false body).length) :
    bodyLink letters start body =
      some ⟨start, start + (trimEnd false body).length, .scheme (trimEnd false body)⟩ := by
  have hpos := List.isPrefixOf_iff_prefix.mpr hbegins
  have hfind : (allowedSchemes.find? fun scheme => scheme.isPrefixOf (letters.lowercase body)) =
      some scheme := by
    rcases List.mem_cons.mp hscheme with rfl | htel
    · rw [allowedSchemes, List.find?_cons, hpos]
    · obtain rfl := List.mem_singleton.mp htel
      have hmail : "mailto:".toList.isPrefixOf (letters.lowercase body) = false :=
        Bool.not_eq_true _ ▸ not_isPrefixOf hbegins rfl rfl (by decide)
      rw [allowedSchemes, List.find?_cons, hmail, List.find?_cons, hpos]
  have hhead : scheme.head? = some 'm' ∨ scheme.head? = some 't' := by
    rcases List.mem_cons.mp hscheme with rfl | htel
    · exact .inl rfl
    · obtain rfl := List.mem_singleton.mp htel
      exact .inr rfl
  have hother : ∀ other : List Char, other.head? = some 'h' ∨ other.head? = some 'f' →
      ¬other.isPrefixOf (letters.lowercase body) = true := by
    rintro other (hd | hd) <;> rcases hhead with hc | hc <;>
      exact not_isPrefixOf hbegins hc hd (by decide)
  unfold bodyLink
  dsimp only
  rw [if_neg (hother "http://".toList (.inl rfl)), if_neg (hother "https://".toList (.inl rfl)),
    if_neg (hother "file:".toList (.inr rfl)), hfind]
  exact if_pos hlong

/-- An address with a control character in it is a link with the character in it. -/
theorem token_of_addressed {i : Nat} {word : List Char} {c : Char} (h : Addressed word)
    (hc : c ∈ body word) (hcontrol : isControl c = true) :
    ∃ link, token letters i word = some link ∧ ∃ address,
      (link.target = .web address ∨ link.target = .scheme address) ∧ c ∈ address := by
  obtain ⟨scheme, hscheme, hbegins⟩ := h
  have hascii := fun d hd => (beginnings_ascii scheme (mem_beginnings hscheme) d hd).1
  have hlower := @prefix_lowercase letters scheme (body word) hascii hbegins
  have htrim := fun url => control_trimEnd url (mem_beginnings hscheme) hbegins hc hcontrol
  simp only [addresses, List.mem_cons, List.not_mem_nil, or_false] at hscheme
  rcases hscheme with hweb | hweb | hsystem | hsystem
  · exact ⟨_, bodyLink_web (.inl hweb) hlower (htrim true).2, _, .inl rfl, (htrim true).1⟩
  · exact ⟨_, bodyLink_web (.inr hweb) hlower (htrim true).2, _, .inl rfl, (htrim true).1⟩
  · have hallowed : scheme ∈ allowedSchemes := hsystem ▸ List.mem_cons_self
    exact ⟨_, bodyLink_scheme hallowed hlower (htrim false).2, _, .inr rfl, (htrim false).1⟩
  · have hallowed : scheme ∈ allowedSchemes :=
      hsystem ▸ List.mem_cons_of_mem _ List.mem_cons_self
    exact ⟨_, bodyLink_scheme hallowed hlower (htrim false).2, _, .inr rfl, (htrim false).1⟩

/-! ## Soundness -/

/-- What a target says. -/
def Target.chars : Target → List Char
  | .web address => address
  | .scheme address => address
  | .file path _ _ => path

/-- A link that is safe to follow. -/
structure Safe (text : List Char) (link : Link) : Prop where
  control : ∀ c ∈ link.target.chars, isControl c = false
  web : ∀ address, link.target = .web address →
    "http://".toList <+: address.map Char.toLower ∨ "https://".toList <+: address.map Char.toLower
  scheme : ∀ address, link.target = .scheme address →
    ∃ scheme ∈ allowedSchemes, scheme <+: address.map Char.toLower
  file : ∀ path line column, link.target = .file path line column →
    "file:".toList <+: (written 0 text link.start link.stop).map Char.toLower ∨
      isForeign ((written 0 text link.start link.stop).map Char.toLower) = false
  classified : ∀ address, link.target = .web address ∨ link.target = .scheme address →
    classify address = some link.target

/-! ## What is accepted as an address -/

theorem trimmed_of_unblank {address : List Char} (h : ∀ c ∈ address, isWhitespace c = false) :
    trimmed address = address := by
  have htrim := @trim_of_trimmed address
    ⟨fun c hc => h c (List.mem_of_mem_head? hc), fun c hc => h c (List.mem_of_mem_getLast? hc)⟩
  rw [trimmed, htrim, String.toList_ofList]

theorem classify_web {address scheme : List Char}
    (hblank : ∀ c ∈ address, isWhitespace c = false)
    (hcontrol : ∀ c ∈ address, isControl c = false)
    (hscheme : scheme = "http://".toList ∨ scheme = "https://".toList)
    (hbegins : scheme <+: address.map Char.toLower) (hlong : scheme.length < address.length) :
    classify address = some (.web address) := by
  have hnone : address.any isControl = false := by
    rw [List.any_eq_false]
    intro c hc
    rw [hcontrol c hc]
    exact Bool.false_ne_true
  unfold classify
  rw [trimmed_of_unblank hblank]
  dsimp only
  rw [hnone, if_neg Bool.false_ne_true]
  rw [← List.isPrefixOf_iff_prefix] at hbegins
  split
  · have hseven : 7 < address.length := by
      rcases hscheme with rfl | rfl
      · exact hlong
      · exact Nat.lt_trans (by decide) hlong
    exact if_pos hseven
  · next hother =>
    rcases hscheme with rfl | rfl
    · exact absurd hbegins hother
    · rw [if_pos hbegins]
      exact if_pos hlong

theorem classify_system {address scheme : List Char}
    (hblank : ∀ c ∈ address, isWhitespace c = false)
    (hcontrol : ∀ c ∈ address, isControl c = false) (hscheme : scheme ∈ allowedSchemes)
    (hbegins : scheme <+: address.map Char.toLower) :
    classify address = some (.scheme address) := by
  have hnone : address.any isControl = false := by
    rw [List.any_eq_false]
    intro c hc
    rw [hcontrol c hc]
    exact Bool.false_ne_true
  have hhead : scheme.head? = some 'm' ∨ scheme.head? = some 't' := by
    rcases List.mem_cons.mp hscheme with rfl | htel
    · exact .inl rfl
    · obtain rfl := List.mem_singleton.mp htel
      exact .inr rfl
  have hother : ∀ other : List Char, other.head? = some 'h' ∨ other.head? = some 'f' →
      ¬other.isPrefixOf (address.map Char.toLower) = true := by
    rintro other (hd | hd) <;> rcases hhead with hc | hc <;>
      exact not_isPrefixOf hbegins hc hd (by decide)
  have hany : (allowedSchemes.any fun scheme =>
      scheme.isPrefixOf (address.map Char.toLower)) = true :=
    List.any_eq_true.mpr ⟨scheme, hscheme, List.isPrefixOf_iff_prefix.mpr hbegins⟩
  unfold classify
  rw [trimmed_of_unblank hblank]
  dsimp only
  rw [hnone, if_neg Bool.false_ne_true, if_neg (hother "http://".toList (.inl rfl)),
    if_neg (hother "https://".toList (.inl rfl)), if_neg (hother "file:".toList (.inr rfl)),
    if_pos hany]

/-! ## Foreign schemes -/

/-- A character of a scheme. -/
def isSchemeChar (c : Char) : Bool := c.isAlphanum || c = '+' || c = '-' || c = '.'

theorem isForeign_of_append {scheme : List Char} (hall : scheme.all isSchemeChar = true)
    (hlong : 1 < scheme.length) (rest : List Char) :
    isForeign (scheme ++ ("://".toList ++ rest)) = true := by
  have hcolon : ∀ c ∈ scheme, decide (c ≠ ':') = true := by
    intro c hc
    have hmark := List.all_eq_true.mp hall c hc
    rw [decide_eq_true_eq]
    rintro rfl
    exact absurd hmark (by decide)
  have htake : (scheme ++ ("://".toList ++ rest)).takeWhile (fun c => c ≠ ':') = scheme := by
    rw [List.takeWhile_append_of_pos hcolon]
    exact List.append_nil scheme
  have hdrop : (scheme ++ ("://".toList ++ rest)).dropWhile (fun c => c ≠ ':') =
      "://".toList ++ rest := by
    rw [List.dropWhile_append_of_pos hcolon]
    rfl
  rw [isForeign, hdrop, htake, Bool.and_eq_true, Bool.and_eq_true, decide_eq_true_eq,
    List.isPrefixOf_iff_prefix]
  exact ⟨⟨hall, hlong⟩, List.prefix_append _ rest⟩

theorem eq_of_toLower {c d : Char} (h : c.toLower = d) (hd : d.toNat < 97) : c = d := by
  rcases toLower_cases c with heq | ⟨hlow, -, hnat⟩
  · rwa [heq] at h
  · rw [h] at hnat
    omega

theorem eq_of_map_toLower {text lower : List Char} (h : text.map Char.toLower = lower)
    (hlow : (lower.all fun c => decide (c.toNat < 97)) = true) : text = lower := by
  induction text generalizing lower with
  | nil => exact h
  | cons c text ih =>
      subst h
      rw [List.map_cons, List.all_cons, Bool.and_eq_true, decide_eq_true_eq] at hlow
      rw [List.map_cons, ← ih rfl hlow.2, ← eq_of_toLower rfl hlow.1]

theorem ascii_of_isSchemeChar {c : Char} (h : isSchemeChar c = true) : c.toNat < 0x80 := by
  simp only [isSchemeChar, Bool.or_eq_true, decide_eq_true_eq] at h
  rcases h with ((halnum | rfl) | rfl) | rfl
  · have hrange := toNat_of_isAlphanum halnum
    omega
  · decide
  · decide
  · decide

/-- Text that begins with a foreign scheme in any letter case. -/
theorem exists_of_isForeign {shown : List Char}
    (h : isForeign (shown.map Char.toLower) = true) :
    ∃ scheme rest, shown = scheme ++ ("://".toList ++ rest) ∧ (∀ c ∈ scheme, c.toNat < 0x80) ∧
      (scheme.map Char.toLower).all isSchemeChar = true ∧ 1 < scheme.length := by
  rw [isForeign, Bool.and_eq_true, Bool.and_eq_true, decide_eq_true_eq,
    List.isPrefixOf_iff_prefix] at h
  obtain ⟨⟨hall, hlong⟩, rest, hrest⟩ := h
  have hsplit := @List.takeWhile_append_dropWhile _ (fun c : Char => decide (c ≠ ':'))
    (shown.map Char.toLower)
  rw [← hrest] at hsplit
  generalize (shown.map Char.toLower).takeWhile (fun c => decide (c ≠ ':')) = lower at *
  obtain ⟨scheme, behind, rfl, rfl, hbehind⟩ := List.append_eq_map_iff.mp hsplit
  obtain ⟨mark, rest', rfl, hmark, -⟩ := List.append_eq_map_iff.mp hbehind.symm
  have hcolon : mark = "://".toList := eq_of_map_toLower hmark (by decide)
  refine ⟨scheme, rest', by rw [hcolon], fun c hc => ?_, hall, ?_⟩
  · have hmem := List.all_eq_true.mp hall _ (List.mem_map_of_mem hc)
    exact ascii_of_toLower (ascii_of_isSchemeChar hmem)
  · rwa [List.length_map] at hlong

theorem contains_append (needle front rest : List Char) :
    contains needle (front ++ (needle ++ rest)) = true := by
  induction front with
  | nil =>
      rw [List.nil_append]
      cases hwhole : needle ++ rest with
      | nil =>
          rw [contains, decide_eq_true_eq]
          exact (List.append_eq_nil_iff.mp hwhole).1
      | cons c text =>
          rw [contains, ← hwhole, List.isPrefixOf_iff_prefix.mpr (List.prefix_append needle rest),
            Bool.true_or]
  | cons c front ih => rw [List.cons_append, contains, ih, Bool.or_true]

/-- A text without `://` in it begins with no foreign scheme. -/
theorem not_isForeign_of_plain {shown : List Char} (h : contains "://".toList shown = false) :
    isForeign (shown.map Char.toLower) = false := by
  rw [← Bool.not_eq_true]
  intro hforeign
  obtain ⟨scheme, rest, rfl, -, -, -⟩ := exists_of_isForeign hforeign
  rw [contains_append] at h
  exact absurd h (Bool.noConfusion)

/-- A foreign scheme at the front of what is left of a word begins the word. -/
theorem not_isForeign_of_front {shown body : List Char} (hshown : shown <+: body)
    (h : isForeign (letters.lowercase body) = false) :
    isForeign (shown.map Char.toLower) = false := by
  rw [← Bool.not_eq_true]
  intro hforeign
  obtain ⟨scheme, rest, rfl, hascii, hall, hlong⟩ := exists_of_isForeign hforeign
  obtain ⟨behind, rfl⟩ := hshown
  have hfront : ∀ c ∈ scheme ++ "://".toList, c.toNat < 0x80 := by
    intro c hc
    rcases List.mem_append.mp hc with hc | hc
    · exact hascii c hc
    · have hmark : ("://".toList.all fun c => decide (c.toNat < 0x80)) = true := by decide
      exact of_decide_eq_true (List.all_eq_true.mp hmark c hc)
  obtain ⟨rest', hlower⟩ := letters.ascii (scheme ++ "://".toList) (rest ++ behind) hfront
  have hwhole : scheme ++ ("://".toList ++ rest) ++ behind =
      scheme ++ "://".toList ++ (rest ++ behind) := by
    rw [List.append_assoc, List.append_assoc, List.append_assoc]
  have hmark : "://".toList.map Char.toLower = "://".toList := by decide
  rw [hwhole, hlower, List.map_append, hmark, List.append_assoc,
    isForeign_of_append hall (by rwa [List.length_map])] at h
  exact absurd h (Bool.noConfusion)

/-! ## Links -/

theorem unblank_of_unbroken {c : Char} (h : isBreak c = false) : isWhitespace c = false := by
  rw [isBreak, Bool.or_eq_false_iff, Bool.or_eq_false_iff] at h
  exact h.1.1

/-- What is left of a word is written where its link is. -/
theorem written_of_lies {taken : List Link} (h : Lies taken 0 text word) {shown : List Char}
    (hshown : shown <+: body word.2) (start : Nat)
    (hstart : start = word.1 + (word.2.length - (body word.2).length)) :
    written 0 text start (start + shown.length) = shown := by
  obtain ⟨behind, htext⟩ := h.text
  obtain ⟨lead, hlead⟩ := body_suffix word.2
  obtain ⟨rest, hrest⟩ := hshown
  have hlength : word.2.length - (body word.2).length = lead.length := by
    rw [← hlead, List.length_append, hlead]
    exact Nat.add_sub_cancel _ _
  have hplace : start - 0 = word.1 + lead.length := by
    rw [hstart, hlength, Nat.sub_zero]
  rw [Nat.sub_zero] at htext
  rw [written, hplace, Nat.add_sub_cancel_left, ← List.drop_drop, htext, ← hlead,
    List.append_assoc, List.drop_left, ← hrest, List.append_assoc, List.take_left]

theorem Safe.of_web {address : List Char} (h : link.target = .web address)
    (hcontrol : ∀ c ∈ address, isControl c = false)
    (hbegins : "http://".toList <+: address.map Char.toLower ∨
      "https://".toList <+: address.map Char.toLower)
    (hclassify : classify address = some (.web address)) : Safe text link where
  control := by rwa [h]
  web other hother := by
    rw [h, Target.web.injEq] at hother
    exact hother ▸ hbegins
  scheme other hother := by
    rw [h] at hother
    cases hother
  file path line column hother := by
    rw [h] at hother
    cases hother
  classified other hother := by
    rw [h] at hother ⊢
    rcases hother with hother | hother
    · rw [Target.web.injEq] at hother
      exact hother ▸ hclassify
    · cases hother

theorem Safe.of_scheme {address scheme : List Char} (h : link.target = .scheme address)
    (hcontrol : ∀ c ∈ address, isControl c = false) (hscheme : scheme ∈ allowedSchemes)
    (hbegins : scheme <+: address.map Char.toLower)
    (hclassify : classify address = some (.scheme address)) : Safe text link where
  control := by rwa [h]
  web other hother := by
    rw [h] at hother
    cases hother
  scheme other hother := by
    rw [h, Target.scheme.injEq] at hother
    exact ⟨scheme, hscheme, hother ▸ hbegins⟩
  file path line column hother := by
    rw [h] at hother
    cases hother
  classified other hother := by
    rw [h] at hother ⊢
    rcases hother with hother | hother
    · cases hother
    · rw [Target.scheme.injEq] at hother
      exact hother ▸ hclassify

theorem Safe.of_file {path : List Char} {line column : Option Nat}
    (h : link.target = .file path line column) (hcontrol : ∀ c ∈ path, isControl c = false)
    (hwritten : "file:".toList <+: (written 0 text link.start link.stop).map Char.toLower ∨
      isForeign ((written 0 text link.start link.stop).map Char.toLower) = false) :
    Safe text link where
  control := by rwa [h]
  web other hother := by
    rw [h] at hother
    cases hother
  scheme other hother := by
    rw [h] at hother
    cases hother
  file _ _ _ _ := hwritten
  classified other hother := by
    rw [h] at hother
    rcases hother with hother | hother
    · cases hother
    · cases hother

/-- A link of a word is safe if the word holds no control character where it is an address. -/
theorem safe_of_linkOf {taken : List Link} (hlies : Lies taken 0 text word)
    (hlink : linkOf letters word = some link)
    (hclean : Addressed word.2 → ∀ c ∈ word.2, isControl c = false) : Safe text link := by
  have hbody : ∀ {shown : List Char}, shown <+: body word.2 → ∀ c ∈ shown, c ∈ word.2 :=
    fun hshown c hc => (body_suffix word.2).subset (hshown.subset hc)
  have hunblank : ∀ {shown : List Char}, shown <+: body word.2 → ∀ c ∈ shown,
      isWhitespace c = false :=
    fun hshown c hc => unblank_of_unbroken (hlies.unbroken c (hbody hshown c hc))
  have hgives := gives_of_token hlink
  generalize hstart : word.1 + (word.2.length - (body word.2).length) = start at hgives
  cases hgives with
  | web scheme hscheme hlower hlong =>
      have hmem : scheme ∈ addresses := by
        rcases hscheme with rfl | rfl
        · exact List.mem_cons_self
        · exact List.mem_cons_of_mem _ List.mem_cons_self
      have hfront := trimEnd_front true (body word.2)
      have hbegins := letters.spelled _ scheme (mem_beginnings hmem) hlower
      have hcontrol : ∀ c ∈ trimEnd true (body word.2), isControl c = false :=
        fun c hc => hclean ⟨scheme, hmem, hbegins⟩ c (hbody hfront c hc)
      have hshown := prefix_of_longer hfront hbegins (Nat.le_of_lt hlong)
      have hclassify := classify_web (hunblank hfront) hcontrol hscheme hshown hlong
      refine .of_web rfl hcontrol ?_ hclassify
      rcases hscheme with rfl | rfl
      · exact .inl hshown
      · exact .inr hshown
  | scheme scheme hscheme hlower hlong =>
      have hmem : scheme ∈ addresses := by
        rcases List.mem_cons.mp hscheme with rfl | htel
        · exact List.mem_cons_of_mem _ (List.mem_cons_of_mem _ List.mem_cons_self)
        · obtain rfl := List.mem_singleton.mp htel
          exact List.mem_cons_of_mem _ (List.mem_cons_of_mem _
            (List.mem_cons_of_mem _ List.mem_cons_self))
      have hfront := trimEnd_front false (body word.2)
      have hbegins := letters.spelled _ scheme (mem_beginnings hmem) hlower
      have hcontrol : ∀ c ∈ trimEnd false (body word.2), isControl c = false :=
        fun c hc => hclean ⟨scheme, hmem, hbegins⟩ c (hbody hfront c hc)
      have hshown := prefix_of_longer hfront hbegins (Nat.le_of_lt hlong)
      exact .of_scheme rfl hcontrol hscheme hshown
        (classify_system (hunblank hfront) hcontrol hscheme hshown)
  | fileUri path line column hlower hlong hcontrol =>
      have hfront := trimEnd_front true (body word.2)
      have hmem : "file:".toList ∈ beginnings := by decide
      have hshown := prefix_of_longer hfront (letters.spelled _ _ hmem hlower) hlong
      have hwritten := written_of_lies hlies hfront start hstart.symm
      refine .of_file rfl hcontrol (.inl ?_)
      change _ <+: (written 0 text start (start + (trimEnd true (body word.2)).length)).map _
      rw [hwritten]
      exact hshown
  | mail hne hcontrol =>
      have hmail : ∀ c ∈ "mailto:".toList, isWhitespace c = false ∧ isControl c = false := by
        have hall : ("mailto:".toList.all fun c => !isWhitespace c && !isControl c) = true := by
          decide
        intro c hc
        simpa using List.all_eq_true.mp hall c hc
      have hblank : ∀ c ∈ "mailto:".toList ++ trimEnd false (body word.2),
          isWhitespace c = false := by
        intro c hc
        rcases List.mem_append.mp hc with hc | hc
        · exact (hmail c hc).1
        · exact hunblank (trimEnd_front false (body word.2)) c hc
      have hclear : ∀ c ∈ "mailto:".toList ++ trimEnd false (body word.2),
          isControl c = false := by
        intro c hc
        rcases List.mem_append.mp hc with hc | hc
        · exact (hmail c hc).2
        · exact hcontrol c hc
      have hbegins : "mailto:".toList <+:
          ("mailto:".toList ++ trimEnd false (body word.2)).map Char.toLower := by
        have hlower : "mailto:".toList.map Char.toLower = "mailto:".toList := by decide
        rw [List.map_append, hlower]
        exact List.prefix_append _ _
      exact .of_scheme rfl hclear List.mem_cons_self hbegins
        (classify_system hblank hclear List.mem_cons_self hbegins)
  | path path line column hforeign hne hcontrol =>
      have hfront := trimEnd_front false (body word.2)
      have hwritten := written_of_lies hlies hfront start hstart.symm
      refine .of_file rfl hcontrol (.inr ?_)
      change isForeign ((written 0 text start
        (start + (trimEnd false (body word.2)).length)).map Char.toLower) = false
      rw [hwritten]
      exact not_isForeign_of_front hfront hforeign

/-- A link in quotes is safe. -/
theorem safe_of_behind (h : Behind 0 text link) : Safe text link := by
  obtain ⟨path, line, column, htarget, hcontrol⟩ := h.target
  exact .of_file htarget hcontrol (.inr (not_isForeign_of_plain h.plain))

/-- The links of a line are in order and apart, and safe exactly when no word that is an address
of the web, of mail or of a telephone holds a control character. -/
theorem find_safe_iff (letters : Letters) (text : List Char) :
    (Placed text (find letters text) ∧ ∀ link ∈ find letters text, Safe text link) ↔
      ∀ word ∈ outside letters text, Addressed word.2 → ∀ c ∈ word.2, isControl c = false := by
  constructor
  · rintro ⟨-, hsafe⟩ word hword haddressed c hc
    by_contra hcontrol
    rw [Bool.not_eq_false] at hcontrol
    have hbody := mem_body hc hcontrol
    obtain ⟨link, hlink, address, htarget, hmem⟩ :=
      @token_of_addressed letters word.1 word.2 c haddressed hbody hcontrol
    have hgood := (hsafe link (mem_find.mpr (.inr ⟨word, hword, hlink⟩))).control
    rcases htarget with htarget | htarget
    · rw [htarget] at hgood
      rw [hgood c hmem] at hcontrol
      exact Bool.false_ne_true hcontrol
    · rw [htarget] at hgood
      rw [hgood c hmem] at hcontrol
      exact Bool.false_ne_true hcontrol
  · intro hclean
    refine ⟨placed_find letters text, fun link hlink => ?_⟩
    rcases mem_find.mp hlink with hquoted | ⟨word, hword, hfound⟩
    · exact safe_of_behind ((quoted_spec letters 0 0 text).1 link hquoted).2
    · exact safe_of_linkOf ((words_spec (quoted letters 0 0 text) 0 0 text).1 word hword).2 hfound
        (hclean word hword)

/-- The letters of ASCII alone. -/
def asciiLetters : Letters where
  lowercase := List.map Char.toLower
  isAlphanumeric := Char.isAlphanum
  isAlphabetic := Char.isAlpha
  ascii front rest _ := ⟨rest.map Char.toLower, List.map_append⟩
  spelled _ _ _ h := h
  notControl c h := by
    have hrange := toNat_of_isAlphanum h
    rw [isControl, Bool.or_eq_false_iff, Bool.and_eq_false_iff, decide_eq_false_iff_not,
      decide_eq_false_iff_not]
    exact ⟨by omega, .inl (by omega)⟩

/-- An address of the web with a `DEL` in it, which an explicit link may not have. -/
theorem not_find_safe :
    ¬(Placed "see http://a\x7fb now".toList (find asciiLetters "see http://a\x7fb now".toList) ∧
      ∀ link ∈ find asciiLetters "see http://a\x7fb now".toList,
        Safe "see http://a\x7fb now".toList link) := by
  rintro ⟨-, hsafe⟩
  have hfound : ⟨4, 14, .web "http://a\x7fb".toList⟩ ∈
      find asciiLetters "see http://a\x7fb now".toList :=
    mem_find.mpr (.inr ⟨(4, "http://a\x7fb".toList), by decide, by decide⟩)
  have hclear := (hsafe _ hfound).control '\x7f' (by decide)
  exact absurd hclear (by decide)

end Links

end Throng
