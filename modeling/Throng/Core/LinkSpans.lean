import Mathlib.Data.List.Pairwise
import Throng.Core.LinkFind

/-!
# Where links are found

A link in quotes stands between two of them, and a word outside ends at the first quote or
blank, so the two searches never meet. What a word gives is a part of the word.
-/

namespace Throng

namespace Links

variable {letters : Letters} {url : Bool} {word : List Char} {link : Link}

/-! ## Trimming -/

/-- What trimming may take from the end of a word. -/
def isTrailing (c : Char) : Bool :=
  ['.', ',', ';', '!', '?', ':', ')', ']', '\x7d', '*', '_'].contains c

theorem isTrailing_of_drops {last : Char} (h : drops url last word = true) :
    isTrailing last = true := by
  rw [isTrailing, List.contains_iff_mem]
  simp only [drops] at h
  split at h
  · next hmark =>
    exact List.mem_append_left [')', ']', '\x7d', '*', '_'] (List.contains_iff_mem.mp hmark)
  · split at h
    · next heq => simp [heq]
    · split at h
      · next heq => simp [heq]
      · split at h
        · next heq => simp [heq]
        · simp only [Bool.and_eq_true, Bool.or_eq_true, decide_eq_true_eq] at h
          rcases h.1 with heq | heq <;> simp [heq]

theorem trimBack_suffix (url : Bool) (word : List Char) : trimBack url word <:+ word := by
  induction word with
  | nil => exact List.suffix_refl _
  | cons last front ih =>
      rw [trimBack]
      split
      · exact ih.trans (List.suffix_cons last front)
      · exact List.suffix_refl _

theorem mem_trimBack {c : Char} (h : c ∈ word) (hc : isTrailing c = false) :
    c ∈ trimBack url word := by
  induction word with
  | nil => exact h
  | cons last front ih =>
      rw [trimBack]
      split
      · next hdrops =>
        rcases List.mem_cons.mp h with rfl | h
        · rw [isTrailing_of_drops hdrops] at hc
          exact absurd hc (Bool.noConfusion)
        · exact ih h
      · exact h

theorem trimEnd_front (url : Bool) (word : List Char) : trimEnd url word <+: word := by
  have hsuffix := trimBack_suffix url word.reverse
  rw [← List.reverse_prefix, List.reverse_reverse] at hsuffix
  exact hsuffix

theorem mem_trimEnd {c : Char} (h : c ∈ word) (hc : isTrailing c = false) :
    c ∈ trimEnd url word :=
  List.mem_reverse.mpr (mem_trimBack (List.mem_reverse.mpr h) hc)

/-! ## Positions -/

theorem length_of_splitLast {c : Char} {raw : List Char} {split : List Char × List Char}
    (h : splitLast c raw = some split) : split.1.length + 1 + split.2.length = raw.length := by
  induction raw generalizing split with
  | nil => cases h
  | cons d rest ih =>
      rw [splitLast, Option.or_eq_some_iff] at h
      rcases h with h | ⟨-, h⟩
      · obtain ⟨inner, hinner, rfl⟩ := Option.map_eq_some_iff.mp h
        have hlength := ih hinner
        change inner.1.length + 1 + 1 + inner.2.length = rest.length + 1
        omega
      · obtain ⟨-, h⟩ := Option.ite_none_right_eq_some.mp h
        obtain rfl := Option.some.inj h
        change 0 + 1 + rest.length = rest.length + 1
        omega

theorem length_popNumber {raw path : List Char} {n : Nat} (h : popNumber raw = some (path, n)) :
    path.length < raw.length := by
  obtain ⟨split, hsplit, hnumber⟩ := Option.bind_eq_some_iff.mp h
  obtain ⟨m, -, hpair⟩ := Option.map_eq_some_iff.mp hnumber
  have hlength := length_of_splitLast hsplit
  obtain rfl : split.1 = path := congrArg Prod.fst hpair
  omega

theorem length_popNumbers (raw : List Char) : (popNumbers raw).1.length ≤ raw.length := by
  rw [popNumbers]
  split
  · exact Nat.le_refl _
  · next path last hlast =>
    have hle := length_popNumber hlast
    split
    · exact Nat.le_of_lt hle
    · next front first hfirst =>
      have hless := length_popNumber hfirst
      exact Nat.le_of_lt (Nat.lt_trans hless hle)

/-- A path is no longer than what its position is split off. -/
theorem length_splitPosition (raw : List Char) : (splitPosition raw).path.length ≤ raw.length := by
  rw [splitPosition]
  split
  · next positioned hbracketed =>
    obtain ⟨split, hsplit, hinner⟩ := Option.bind_eq_some_iff.mp hbracketed
    have hlength := length_of_splitLast hsplit
    obtain ⟨-, hline⟩ := Option.ite_none_right_eq_some.mp hinner
    obtain ⟨line, -, rfl⟩ := Option.map_eq_some_iff.mp hline
    change split.1.length ≤ raw.length
    omega
  · have hpop := length_popNumbers raw
    generalize popNumbers raw = popped at hpop
    obtain ⟨path, numbers⟩ := popped
    dsimp only
    split
    · exact Nat.le_refl _
    · exact hpop

/-! ## What a word gives -/

theorem body_suffix (word : List Char) : body word <:+ word := List.dropWhile_suffix isLeading

theorem pathLink_some {start : Nat} {raw : List Char} (h : pathLink letters start raw = some link) :
    raw ≠ [] ∧ ∃ path line column, link = ⟨start, start + raw.length, .file path line column⟩ ∧
      ∀ c ∈ path, isControl c = false := by
  simp only [pathLink, Option.ite_none_right_eq_some, Option.some.injEq] at h
  obtain ⟨hlooks, rfl⟩ := h
  rw [looksLikePath] at hlooks
  split at hlooks
  · exact absurd hlooks Bool.false_ne_true
  · next hgood =>
    obtain ⟨hne, hcontrol⟩ := not_or.mp hgood
    refine ⟨?_, _, _, _, rfl, fun c hc => ?_⟩
    · rintro rfl
      exact hne rfl
    · by_contra hbad
      exact hcontrol (List.any_eq_true.mpr ⟨c, hc, Bool.not_eq_false _ ▸ hbad⟩)

/-- What a word gives: an address that is followed, an address for the system's handler, a
`file:` address, a mail address, or a path. -/
inductive Gives (letters : Letters) (start : Nat) (body : List Char) : Link → Prop
  | web (scheme : List Char) (hscheme : scheme = "http://".toList ∨ scheme = "https://".toList)
      (hlower : scheme <+: letters.lowercase body)
      (hlong : scheme.length < (trimEnd true body).length) :
      Gives letters start body
        ⟨start, start + (trimEnd true body).length, .web (trimEnd true body)⟩
  | scheme (scheme : List Char) (hscheme : scheme ∈ allowedSchemes)
      (hlower : scheme <+: letters.lowercase body)
      (hlong : scheme.length < (trimEnd false body).length) :
      Gives letters start body
        ⟨start, start + (trimEnd false body).length, .scheme (trimEnd false body)⟩
  | fileUri (path : List Char) (line column : Option Nat)
      (hlower : "file:".toList <+: letters.lowercase body)
      (hlong : 5 ≤ (trimEnd true body).length) (hcontrol : ∀ c ∈ path, isControl c = false) :
      Gives letters start body
        ⟨start, start + (trimEnd true body).length, .file path line column⟩
  | mail (hne : trimEnd false body ≠ [])
      (hcontrol : ∀ c ∈ trimEnd false body, isControl c = false) :
      Gives letters start body
        ⟨start, start + (trimEnd false body).length,
          .scheme ("mailto:".toList ++ trimEnd false body)⟩
  | path (path : List Char) (line column : Option Nat)
      (hforeign : isForeign (letters.lowercase body) = false)
      (hne : trimEnd false body ≠ []) (hcontrol : ∀ c ∈ path, isControl c = false) :
      Gives letters start body
        ⟨start, start + (trimEnd false body).length, .file path line column⟩

theorem email_some {start : Nat} {body : List Char} (h : email letters start body = some link) :
    Gives letters start body link := by
  simp only [email, Option.ite_none_right_eq_some, Option.some.injEq] at h
  obtain ⟨⟨hat, huser, huserAll, -, -, -, hdomainAll⟩, rfl⟩ := h
  refine .mail (fun hnil => ?_) fun c hc => ?_
  · rw [hnil] at hat
    exact absurd hat List.not_mem_nil
  · have hsplit := List.takeWhile_append_dropWhile
      (p := fun c : Char => decide (c ≠ '@')) (l := trimEnd false body)
    rw [← hsplit] at hc
    have hmark : ∀ d ∈ "._%+-".toList, isControl d = false := by
      have hall : ("._%+-".toList.all fun d => !isControl d) = true := by decide
      intro d hd
      simpa using List.all_eq_true.mp hall d hd
    rcases List.mem_append.mp hc with hc | hc
    · have hall := List.all_eq_true.mp huserAll c hc
      rcases Bool.or_eq_true_iff.mp hall with halnum | hother
      · exact letters.notControl c halnum
      · exact hmark c (List.contains_iff_mem.mp hother)
    · obtain ⟨d, rest, hdrop⟩ := List.exists_cons_of_ne_nil (List.ne_nil_of_mem hc)
      have hd : d = '@' := by
        have hhead := List.head?_dropWhile_not (fun c : Char => decide (c ≠ '@'))
          (trimEnd false body)
        rw [hdrop] at hhead
        simpa using hhead
      rw [hdrop, List.drop_one, List.tail_cons] at hdomainAll
      rw [hdrop] at hc
      rcases List.mem_cons.mp hc with rfl | hc
      · rw [hd]
        decide
      · have hall := List.all_eq_true.mp hdomainAll c hc
        simp only [Bool.or_eq_true, decide_eq_true_eq] at hall
        rcases hall with (halnum | rfl) | rfl
        · exact letters.notControl c halnum
        · decide
        · decide

theorem gives_of_bodyLink {start : Nat} {body : List Char}
    (h : bodyLink letters start body = some link) : Gives letters start body link := by
  unfold bodyLink at h
  dsimp only at h
  split at h
  · next hhttp =>
    simp only [Option.ite_none_right_eq_some, Option.some.injEq] at h
    obtain ⟨hlong, rfl⟩ := h
    exact .web _ (.inl rfl) (List.isPrefixOf_iff_prefix.mp hhttp) hlong
  · split at h
    · next hhttps =>
      simp only [Option.ite_none_right_eq_some, Option.some.injEq] at h
      obtain ⟨hlong, rfl⟩ := h
      exact .web _ (.inr rfl) (List.isPrefixOf_iff_prefix.mp hhttps) hlong
    · split at h
      · next hfile =>
        obtain ⟨path, hpath, rfl⟩ := Option.map_eq_some_iff.mp h
        refine .fileUri path _ _ (List.isPrefixOf_iff_prefix.mp hfile) ?_ ?_
        · rw [fileUriPath] at hpath
          split at hpath
          · cases hpath
          · next hlong =>
            exact Nat.le_trans (Nat.le_of_not_lt hlong) (length_splitPosition (trimEnd true body))
        · rw [fileUriPath] at hpath
          split at hpath
          · cases hpath
          · obtain ⟨decoded, -, hgood⟩ := Option.bind_eq_some_iff.mp hpath
            simp only [Option.ite_none_right_eq_some, Option.some.injEq] at hgood
            obtain ⟨⟨-, hall⟩, rfl⟩ := hgood
            intro c hc
            simpa using List.all_eq_true.mp hall c hc
      · split at h
        · next scheme hfind =>
          simp only [Option.ite_none_right_eq_some, Option.some.injEq] at h
          obtain ⟨hlong, rfl⟩ := h
          have hbegins := List.find?_some hfind
          exact .scheme scheme (List.mem_of_find?_eq_some hfind)
            (List.isPrefixOf_iff_prefix.mp hbegins) hlong
        · split at h
          · cases h
          · next hforeign =>
            rcases Option.or_eq_some_iff.mp h with hmail | ⟨-, hpath⟩
            · exact email_some hmail
            · obtain ⟨hne, path, line, column, rfl, hcontrol⟩ := pathLink_some hpath
              exact .path path line column (Bool.not_eq_true _ ▸ hforeign) hne hcontrol

theorem gives_of_token {i : Nat} (h : token letters i word = some link) :
    Gives letters (i + (word.length - (body word).length)) (body word) link :=
  gives_of_bodyLink h

/-- What a link's text is cut down to. -/
theorem Gives.span {start : Nat} {body : List Char} (h : Gives letters start body link) :
    link.start = start ∧
      ∃ shown, shown ≠ [] ∧ shown <+: body ∧ link.stop = start + shown.length := by
  cases h with
  | web scheme hscheme hlower hlong =>
      exact ⟨rfl, _, List.ne_nil_of_length_pos (Nat.zero_lt_of_lt hlong), trimEnd_front true body,
        rfl⟩
  | scheme scheme hscheme hlower hlong =>
      exact ⟨rfl, _, List.ne_nil_of_length_pos (Nat.zero_lt_of_lt hlong), trimEnd_front false body,
        rfl⟩
  | fileUri path line column hlower hlong hcontrol =>
      have hpos := Nat.lt_of_lt_of_le (by decide : 0 < 5) hlong
      exact ⟨rfl, _, List.ne_nil_of_length_pos hpos, trimEnd_front true body, rfl⟩
  | mail hne hcontrol => exact ⟨rfl, _, hne, trimEnd_front false body, rfl⟩
  | path path line column hforeign hne hcontrol =>
      exact ⟨rfl, _, hne, trimEnd_front false body, rfl⟩

theorem token_within {i : Nat} (h : token letters i word = some link) :
    i ≤ link.start ∧ link.start < link.stop ∧ link.stop ≤ i + word.length := by
  obtain ⟨hstart, shown, hne, hbegins, hstop⟩ := (gives_of_token h).span
  have hpos := List.length_pos_of_ne_nil hne
  have hshown := hbegins.length_le
  have hbody := (body_suffix word).length_le
  omega

/-! ## Quotes -/

/-- What stands between two offsets, the text being given from offset `i` on. -/
def written (i : Nat) (text : List Char) (start stop : Nat) : List Char :=
  (text.drop (start - i)).take (stop - start)

theorem written_cons {i start : Nat} (h : i < start) (c : Char) (text : List Char) (stop : Nat) :
    written i (c :: text) start stop = written (i + 1) text start stop := by
  have hindex : start - i = start - (i + 1) + 1 := by omega
  rw [written, hindex, List.drop_succ_cons, written]

/-- A link to a path lies in the text from offset `i` on, behind a quote. -/
structure Behind (i : Nat) (text : List Char) (link : Link) : Prop where
  first : i < link.start
  nonempty : link.start < link.stop
  last : link.stop ≤ i + text.length
  quote : ∃ q, text[link.start - 1 - i]? = some q ∧ isQuote q = true
  plain : contains "://".toList (written i text link.start link.stop) = false
  target : ∃ path line column, link.target = .file path line column ∧
    ∀ c ∈ path, isControl c = false

theorem Behind.cons {i : Nat} {c : Char} {text : List Char} (h : Behind (i + 1) text link) :
    Behind i (c :: text) link := by
  obtain ⟨hfirst, hnonempty, hlast, ⟨q, hq, hquote⟩, hplain, htarget⟩ := h
  have hindex : link.start - 1 - i = link.start - 1 - (i + 1) + 1 := by omega
  refine ⟨by omega, hnonempty, ?_, ⟨q, ?_, hquote⟩, ?_, htarget⟩
  · rw [List.length_cons]
    omega
  · rw [hindex, List.getElem?_cons_succ]
    exact hq
  · rw [written_cons (by omega)]
    exact hplain

theorem quotedLink_some {start : Nat} {inner : List Char}
    (h : quotedLink letters start inner = some link) :
    inner ≠ [] ∧ link.start = start ∧ link.stop = start + inner.length ∧
      contains "://".toList inner = false ∧
        ∃ path line column, link.target = .file path line column ∧
          ∀ c ∈ path, isControl c = false := by
  rw [quotedLink, Option.ite_none_right_eq_some, Bool.and_eq_true, Bool.not_eq_true'] at h
  obtain ⟨⟨-, hplain⟩, hpath⟩ := h
  obtain ⟨hne, path, line, column, rfl, hcontrol⟩ := pathLink_some hpath
  exact ⟨hne, rfl, rfl, hplain, path, line, column, rfl, hcontrol⟩

/-- A path between quotes is found behind the first of them. -/
theorem quoted_spec (letters : Letters) (i skip : Nat) (text : List Char) :
    (∀ link ∈ quoted letters i skip text, i + skip < link.start ∧ Behind i text link) ∧
      (quoted letters i skip text).Pairwise fun a b => a.stop < b.start := by
  induction text generalizing i skip with
  | nil =>
      rw [quoted]
      exact ⟨fun link h => absurd h List.not_mem_nil, .nil⟩
  | cons q rest ih =>
      cases skip with
      | succ skip =>
          obtain ⟨hall, hpairs⟩ := ih (i + 1) skip
          rw [quoted]
          refine ⟨fun link h => ⟨?_, (hall link h).2.cons⟩, hpairs⟩
          have hlt := (hall link h).1
          omega
      | zero =>
          have hnext := ih (i + 1) 0
          have hkeep : ∀ link ∈ quoted letters (i + 1) 0 rest,
              i + 0 < link.start ∧ Behind i (q :: rest) link := by
            intro link h
            have hlt := (hnext.1 link h).1
            exact ⟨by omega, (hnext.1 link h).2.cons⟩
          rw [quoted]
          split
          · next hquote =>
            split
            · exact ⟨hkeep, hnext.2⟩
            · next n hclose =>
              obtain ⟨hn, -, -⟩ := List.findIdx?_eq_some_iff_getElem.mp hclose
              have hlength : (rest.take n).length = n := List.length_take_of_le (Nat.le_of_lt hn)
              obtain ⟨hall, hpairs⟩ := ih (i + 1) (n + 1)
              have hlater : ∀ link ∈ quoted letters (i + 1) (n + 1) rest,
                  i + 0 < link.start ∧ Behind i (q :: rest) link := by
                intro link h
                have hlt := (hall link h).1
                exact ⟨by omega, (hall link h).2.cons⟩
              cases hlink : quotedLink letters (i + 1) (rest.take n) with
              | none => exact ⟨hlater, hpairs⟩
              | some found =>
                  obtain ⟨hne, hstart, hstop, hplain, htarget⟩ := quotedLink_some hlink
                  have hpos := List.length_pos_of_ne_nil hne
                  have hzero : found.start - 1 - i = 0 := by omega
                  have hwritten : written i (q :: rest) found.start found.stop = rest.take n := by
                    have hcount : found.stop - found.start = n := by omega
                    rw [written_cons (by omega), written, hcount, hstart, Nat.sub_self,
                      List.drop_zero]
                  have hbehind : Behind i (q :: rest) found := by
                    refine ⟨by omega, by omega, ?_, ⟨q, by rw [hzero]; rfl, hquote⟩, ?_, htarget⟩
                    · rw [List.length_cons]
                      omega
                    · rw [hwritten]
                      exact hplain
                  refine ⟨fun link h => ?_, ?_⟩
                  · rcases List.mem_cons.mp h with rfl | h
                    · exact ⟨by omega, hbehind⟩
                    · exact hlater link h
                  · refine List.pairwise_cons.mpr ⟨fun link h => ?_, hpairs⟩
                    have hlt := (hall link h).1
                    omega
          · exact ⟨hkeep, hnext.2⟩

/-! ## Words -/

/-- The words from offset `i` on that are outside the links taken, each with its offset. -/
def words (taken : List Link) : Nat → Nat → List Char → List (Nat × List Char)
  | _, _, [] => []
  | i, skip + 1, _ :: rest => words taken (i + 1) skip rest
  | i, 0, c :: rest =>
      if isBreak c || taken.any (·.covers i) then words taken (i + 1) 0 rest
      else
        let word := (c :: rest).takeWhile fun c => !isBreak c
        (i, word) :: words taken (i + 1) (word.length - 1) rest

variable {taken earlier : List Link}

theorem length_word {c : Char} {rest : List Char} (h : isBreak c = false) :
    ((c :: rest).takeWhile fun c => !isBreak c).length =
      (rest.takeWhile fun c => !isBreak c).length + 1 := by
  rw [List.takeWhile_cons, h]
  rfl

/-- The link of a word. -/
def linkOf (letters : Letters) (word : Nat × List Char) : Option Link :=
  token letters word.1 word.2

/-- Earlier words do not matter to later ones. -/
theorem tokens_eq (letters : Letters) (taken : List Link) (i skip : Nat) (text : List Char)
    {earlier : List Link} (h : ∀ link ∈ earlier, link.stop ≤ i + skip) :
    tokens letters (taken ++ earlier) i skip text =
      taken ++ (earlier ++ (words taken i skip text).filterMap (linkOf letters)) := by
  induction text generalizing i skip earlier with
  | nil => rw [tokens, words, List.filterMap_nil, List.append_nil]
  | cons c rest ih =>
      cases skip with
      | succ skip =>
          rw [tokens, words]
          exact ih (i + 1) skip fun link hlink => Nat.le_trans (h link hlink) (by omega)
      | zero =>
          have hcovers : (taken ++ earlier).any (·.covers i) = taken.any (·.covers i) := by
            have hnone : earlier.any (·.covers i) = false := by
              rw [List.any_eq_false]
              intro link hlink
              have hstop := h link hlink
              simp only [Link.covers, Bool.and_eq_true, decide_eq_true_eq]
              omega
            rw [List.any_append, hnone, Bool.or_false]
          rw [tokens, words, hcovers]
          split
          · exact ih (i + 1) 0 fun link hlink => Nat.le_trans (h link hlink) (by omega)
          · next hword =>
            have hc : isBreak c = false := by
              rw [Bool.or_eq_true, not_or] at hword
              exact Bool.not_eq_true _ ▸ hword.1
            have hlength := @length_word c rest hc
            generalize (c :: rest).takeWhile (fun c => !isBreak c) = word at hlength
            have hstops : ∀ link ∈ earlier ++ (token letters i word).toList,
                link.stop ≤ i + 1 + (word.length - 1) := by
              intro link hlink
              rcases List.mem_append.mp hlink with hlink | hlink
              · exact Nat.le_trans (h link hlink) (by omega)
              · have hwithin := (token_within (Option.mem_toList.mp hlink)).2.2
                omega
            have hrest := ih (i + 1) (word.length - 1) hstops
            rw [← List.append_assoc] at hrest
            change tokens letters (taken ++ earlier ++ (token letters i word).toList) (i + 1)
              (word.length - 1) rest = taken ++ (earlier ++
                ((i, word) :: words taken (i + 1) (word.length - 1) rest).filterMap
                  (linkOf letters))
            rw [hrest]
            cases hlink : linkOf letters (i, word) with
            | none =>
                have htoken : token letters i word = none := hlink
                rw [List.filterMap_cons_none hlink, htoken, Option.toList_none, List.append_nil]
            | some link =>
                have htoken : token letters i word = some link := hlink
                rw [List.filterMap_cons_some hlink, htoken, Option.toList_some, List.append_assoc,
                  List.singleton_append]

/-- A word lies in the text from offset `i` on, and no link taken lies at its beginning. -/
structure Lies (taken : List Link) (i : Nat) (text : List Char) (word : Nat × List Char) :
    Prop where
  first : i ≤ word.1
  nonempty : word.2 ≠ []
  last : word.1 + word.2.length ≤ i + text.length
  text : ∃ behind, text.drop (word.1 - i) = word.2 ++ behind
  unbroken : ∀ c ∈ word.2, isBreak c = false
  free : taken.any (·.covers word.1) = false

theorem Lies.cons {i : Nat} {c : Char} {text : List Char} {word : Nat × List Char}
    (h : Lies taken (i + 1) text word) : Lies taken i (c :: text) word := by
  obtain ⟨hfirst, hnonempty, hlast, ⟨behind, htext⟩, hunbroken, hfree⟩ := h
  have hindex : word.1 - i = word.1 - (i + 1) + 1 := by omega
  refine ⟨by omega, hnonempty, ?_, ⟨behind, ?_⟩, hunbroken, hfree⟩
  · rw [List.length_cons]
    omega
  · rw [hindex, List.drop_succ_cons]
    exact htext

theorem words_spec (taken : List Link) (i skip : Nat) (text : List Char) :
    (∀ word ∈ words taken i skip text, i + skip ≤ word.1 ∧ Lies taken i text word) ∧
      (words taken i skip text).Pairwise fun a b => a.1 + a.2.length ≤ b.1 := by
  induction text generalizing i skip with
  | nil =>
      rw [words]
      exact ⟨fun word h => absurd h List.not_mem_nil, .nil⟩
  | cons c rest ih =>
      cases skip with
      | succ skip =>
          obtain ⟨hall, hpairs⟩ := ih (i + 1) skip
          rw [words]
          refine ⟨fun word h => ⟨?_, (hall word h).2.cons⟩, hpairs⟩
          have hle := (hall word h).1
          omega
      | zero =>
          rw [words]
          split
          · obtain ⟨hall, hpairs⟩ := ih (i + 1) 0
            refine ⟨fun word h => ⟨?_, (hall word h).2.cons⟩, hpairs⟩
            have hle := (hall word h).1
            omega
          · next hword =>
            rw [Bool.or_eq_true, not_or, Bool.not_eq_true, Bool.not_eq_true] at hword
            have hlength := @length_word c rest hword.1
            have hunbroken : ∀ d ∈ (c :: rest).takeWhile (fun c => !isBreak c),
                isBreak d = false := by
              intro d hd
              simpa using List.all_eq_true.mp List.all_takeWhile d hd
            have hsplit := @List.takeWhile_append_dropWhile _ (fun c => !isBreak c) (c :: rest)
            generalize (c :: rest).takeWhile (fun c => !isBreak c) = word at *
            generalize (c :: rest).dropWhile (fun c => !isBreak c) = behind at hsplit
            obtain ⟨hall, hpairs⟩ := ih (i + 1) (word.length - 1)
            have hlies : Lies taken i (c :: rest) (i, word) := by
              refine ⟨Nat.le_refl i, ?_, ?_, ⟨behind, ?_⟩, hunbroken, hword.2⟩
              · rintro rfl
                exact absurd hlength (Nat.zero_ne_add_one _)
              · change i + word.length ≤ i + (c :: rest).length
                rw [← hsplit, List.length_append]
                omega
              · change (c :: rest).drop (i - i) = word ++ behind
                rw [Nat.sub_self, List.drop_zero]
                exact hsplit.symm
            refine ⟨fun other h => ?_, List.pairwise_cons.mpr ⟨fun other h => ?_, hpairs⟩⟩
            · rcases List.mem_cons.mp h with rfl | h
              · exact ⟨Nat.le_refl _, hlies⟩
              · have hle := (hall other h).1
                exact ⟨by omega, (hall other h).2.cons⟩
            · have hle := (hall other h).1
              change i + word.length ≤ other.1
              omega

end Links

end Throng
