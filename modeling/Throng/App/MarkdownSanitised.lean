import Throng.App.MarkdownHtml
import Throng.Core.LinkSafety

/-!
# Markup kept out of a document

Raw HTML is made of texts, tags, comments and the like and what scripts and styles hold, and the
parser hands it over in whatever pieces it likes. What is to be kept of it are the texts, and the
effect of the few tags that are drawn. The sanitiser keeps just that where each piece is made of
whole parts, no `>` stands inside a tag or a comment, no script or style is closed, and no tag's
name goes on behind one that the sanitiser looks for.
-/

namespace Throng

namespace Markdown

variable {letters : Links.Letters} {opened opened' : List Opened} {b : Builder} {r : Reading}

/-! ## Names -/

/-- The name of a tag in HTML: up to white space, a slash or the end. -/
def htmlName (source : List Char) : List Char :=
  ((if source.head? = some '/' then source.drop 1 else source).takeWhile fun c =>
    !(isAsciiWhitespace c || c = '/' || c = '>')).map Char.toLower

/-- The end tag before which all is content, behind a start tag of that name. -/
def htmlSkip (source : List Char) : Option (List Char) :=
  if source.head? = some '/' then none
  else if htmlName source = "script".toList ∨ htmlName source = "style".toList then
    some ('<' :: '/' :: htmlName source)
  else none

/-- What a tag does that is drawn, by its name in HTML. -/
def Builder.draw (b : Builder) (source : List Char) : Builder :=
  let name := htmlName source
  if name = "br".toList then b.pushInline .lineBreak
  else if source.head? = some '/' then
    if name = "kbd".toList ∨ name = "sub".toList ∨ name = "sup".toList then b.popStyle
    else if name = "summary".toList then b.popStyle.pushInline .lineBreak
    else b
  else if name = "script".toList ∨ name = "style".toList then
    { b with skipUntil := htmlSkip source }
  else if name = "kbd".toList then b.pushStyle fun s => { s with kbd := true }
  else if name = "sub".toList then b.pushStyle fun s => { s with sub := true }
  else if name = "sup".toList then b.pushStyle fun s => { s with sup := true }
  else if name = "summary".toList then b.pushStyle fun s => { s with strong := true }
  else if name = "img".toList then
    b.pushInline (.image ((attributeOf source "alt".toList).getD [])
      ((attributeOf source "src".toList).getD []) ((attributeOf source "title".toList).getD [])
      b.links.head?)
  else b

/-- The names that the sanitiser looks for. -/
def soughtNames : List (List Char) :=
  ["script", "style", "br", "kbd", "sub", "sup", "summary", "img"].map String.toList

/-- The sanitiser finds a name it looks for that the tag's name only begins with. -/
def misnamed (source : List Char) : Bool :=
  soughtNames.contains (tagName source) && tagName source ≠ htmlName source

/-! ## The parts of raw HTML -/

/-- A part of raw HTML. A text may be given in several parts. -/
inductive Part
  | text (text : List Char)
  | tag (source : List Char)
  | comment (source : List Char)
  /-- a comment that is over where it begins, `<!-->` or `<!--->` -/
  | shortComment (dashed : Bool)
  /-- `<!DOCTYPE html>` and whatever else begins like one -/
  | declaration (source : List Char)
  /-- what begins like an end tag and has no name, as `</>` -/
  | unnamed (source : List Char)
  | instruction (source : List Char)
  | cdata (source : List Char)
  /-- what a script or a style holds -/
  | content (source : List Char)
deriving DecidableEq, Repr

def Part.source : Part → List Char
  | .text source => source
  | .tag source => '<' :: source ++ ['>']
  | .comment source => "<!--".toList ++ source ++ "-->".toList
  | .shortComment dashed => if dashed then "<!--->".toList else "<!-->".toList
  | .declaration source => "<!".toList ++ source ++ ">".toList
  | .unnamed source => "</".toList ++ source ++ ">".toList
  | .instruction source => "<?".toList ++ source ++ "?>".toList
  | .cdata source => "<![CDATA[".toList ++ source ++ "]]>".toList
  | .content source => source

/-- What stands between the brackets of a part of which nothing is kept. -/
def Part.markup : Part → Option (List Char)
  | .comment source => some ("!--".toList ++ source ++ "--".toList)
  | .shortComment dashed => some (if dashed then "!---".toList else "!--".toList)
  | .declaration source => some ('!' :: source)
  | .unnamed source => some ('/' :: source)
  | .instruction source => some ('?' :: source ++ ['?'])
  | .cdata source => some ("![CDATA[".toList ++ source ++ "]]".toList)
  | _ => none

def printed (parts : List Part) : List Char := parts.flatMap Part.source

/-- The end tag before which all is content, behind a part. -/
def Part.inside (skip : Option (List Char)) : Part → Option (List Char)
  | .tag source => if skip.isSome then none else htmlSkip source
  | _ => skip

/-- A tag begins with its name, an end tag with a slash and its name. -/
def beginsTag : List Char → Bool
  | '/' :: c :: _ => c.isAlpha
  | c :: _ => c.isAlpha
  | [] => false

/-- Quotes are closed, and no `>` stands outside them. -/
def quotesEnd : Option Char → List Char → Bool
  | quote, [] => quote.isNone
  | none, c :: rest => c ≠ '>' && quotesEnd (if c = '"' ∨ c = '\'' then some c else none) rest
  | some quote, c :: rest => quotesEnd (if c = quote then none else some quote) rest

/-- No tag, comment or declaration begins in a text. -/
def beginsNothing : List Char → Bool
  | '<' :: c :: rest =>
      !(c.isAlpha || c = '/' || c = '!' || c = '?') && beginsNothing (c :: rest)
  | _ :: rest => beginsNothing rest
  | [] => true

/-- An end tag stands in the content of a script or a style. -/
def holdsEnd (endTag : List Char) : List Char → Bool
  | [] => false
  | c :: rest =>
      (endTag.isPrefixOf ((c :: rest).map Char.toLower) &&
        ((c :: rest).drop endTag.length).head?.any fun d =>
          isAsciiWhitespace d || d = '/' || d = '>') || holdsEnd endTag rest

/-- A part as HTML has it, in what a script or a style holds or outside. -/
def Part.WellFormed (skip : Option (List Char)) : Part → Prop
  | .text source => skip = none ∧ source ≠ [] ∧ beginsNothing source = true
  | .tag source => beginsTag source = true ∧ quotesEnd none source = true ∧
      ∀ endTag ∈ skip, source.head? = some '/' ∧ endTag = '<' :: '/' :: htmlName source
  | .comment source => skip = none ∧ ¬">".toList <+: source ∧ ¬"->".toList <+: source ∧
      ¬"-->".toList <:+: source
  | .shortComment _ => skip = none
  | .declaration source => skip = none ∧ ¬"--".toList <+: source ∧
      ¬"[CDATA[".toList <+: source ∧ '>' ∉ source
  | .unnamed source => skip = none ∧ source.head?.any Char.isAlpha = false ∧ '>' ∉ source
  | .instruction source => skip = none ∧ ¬"?>".toList <:+: source
  | .cdata source => skip = none ∧ ¬"]]>".toList <:+: source
  | .content source => (skip.any fun endTag => !holdsEnd endTag source) = true

instance (skip : Option (List Char)) : ∀ part : Part, Decidable (part.WellFormed skip)
  | .text _ => inferInstanceAs (Decidable (_ ∧ _ ∧ _))
  | .tag _ => inferInstanceAs (Decidable (_ ∧ _ ∧ _))
  | .comment _ => inferInstanceAs (Decidable (_ ∧ _ ∧ _ ∧ _))
  | .shortComment _ => inferInstanceAs (Decidable (_ = _))
  | .declaration _ => inferInstanceAs (Decidable (_ ∧ _ ∧ _ ∧ _))
  | .unnamed _ => inferInstanceAs (Decidable (_ ∧ _ ∧ _))
  | .instruction _ => inferInstanceAs (Decidable (_ ∧ _))
  | .cdata _ => inferInstanceAs (Decidable (_ ∧ _))
  | .content _ => inferInstanceAs (Decidable (_ = _))

def WellFormedFrom : Option (List Char) → List Part → Prop
  | _, [] => True
  | skip, part :: parts => part.WellFormed skip ∧ WellFormedFrom (part.inside skip) parts

instance decidableWellFormedFrom : ∀ (skip : Option (List Char)) (parts : List Part),
    Decidable (WellFormedFrom skip parts)
  | _, [] => isTrue trivial
  | skip, part :: parts =>
      have := decidableWellFormedFrom (part.inside skip) parts
      inferInstanceAs (Decidable (_ ∧ _))

/-- What is kept of a part: a text, and what a tag does that is drawn. -/
def Builder.part (b : Builder) : Part → Builder
  | .text source => b.addText (decodeEntities source)
  | .tag source => if b.skipUntil.isSome then { b with skipUntil := none } else b.draw source
  | _ => b

/-! ## Documents of parts -/

def Event.source : Event → List Char
  | .html source => source
  | .inlineHtml source => source
  | _ => []

/-- An event of a document, or a stretch of raw HTML in the pieces in which it arrives. -/
inductive Chunk
  | event (event : Event × Nat)
  | raw (parts : List Part) (pieces : List (Event × Nat))

def Chunk.parts : Chunk → List Part
  | .event _ => []
  | .raw held _ => held

def Chunk.events : Chunk → List (Event × Nat)
  | .event read => [read]
  | .raw _ pieces => pieces

/-- The pieces of raw HTML make up its parts. -/
def Chunk.Arrives : Chunk → Prop
  | .event read => read.1.isRaw = false
  | .raw held pieces => (∀ piece ∈ pieces, piece.1.isRaw = true) ∧
      pieces.flatMap (fun piece => piece.1.source) = printed held

instance : ∀ chunk : Chunk, Decidable chunk.Arrives
  | .event _ => inferInstanceAs (Decidable (_ = _))
  | .raw _ _ => inferInstanceAs (Decidable (_ ∧ _))

/-- A document as the parser hands it over. -/
structure Arrived (chunks : List Chunk) : Prop where
  nested : WellNested (chunks.flatMap Chunk.events)
  arrives : ∀ chunk ∈ chunks, chunk.Arrives
  wellFormed : WellFormedFrom none (chunks.flatMap Chunk.parts)

/-- Read a document, raw HTML part by part. -/
def readChunk (letters : Links.Letters) (r : Reading) : Chunk → Reading
  | .event read => readEvent letters r read
  | .raw held _ => { r with builder := held.foldl Builder.part r.builder }

def parseParts (letters : Links.Letters) (text : List Char) (chunks : List Chunk) :
    Option Document :=
  document letters text ((chunks.foldl (readChunk letters) ⟨.start, 0⟩).builder.flush letters)

/-! ## What the scan gets right -/

def Part.isContent : Part → Bool
  | .content _ => true
  | _ => false

/-- A piece of whole parts that the scan finds: no `>` in a tag or other markup, no name that is
looked for where there is none or one that only begins like it, a `<` that is text with no `>`
behind it, no text cut in two, and no end of a script or a style. -/
def Plain : Option (List Char) → List Part → Prop
  | some endTag, parts =>
      (∀ part ∈ parts, part.isContent = true) ∧ afterFirst endTag (printed parts) = none
  | none, [] => True
  | none, part :: parts =>
      match part with
      | .text source =>
          (source.head? = some '<' ∧ '>' ∉ source ∧ parts = []) ∨
            ('<' ∉ source ∧ (parts = [] ∨ (printed parts).head? = some '<') ∧ Plain none parts)
      | .tag source => '>' ∉ source ∧ misnamed source = false ∧ Plain (htmlSkip source) parts
      | .content _ => False
      | part =>
          (∀ source ∈ part.markup, '>' ∉ source ∧ tagName source ∉ soughtNames) ∧ Plain none parts

instance decidablePlain : ∀ (skip : Option (List Char)) (parts : List Part),
    Decidable (Plain skip parts)
  | some _, [] => inferInstanceAs (Decidable (_ ∧ _))
  | some _, _ :: _ => inferInstanceAs (Decidable (_ ∧ _))
  | none, [] => isTrue trivial
  | none, part :: parts =>
      have := decidablePlain none parts
      match part with
      | .text _ => inferInstanceAs (Decidable (_ ∨ _))
      | .tag source =>
          have := decidablePlain (htmlSkip source) parts
          inferInstanceAs (Decidable (_ ∧ _ ∧ _))
      | .content _ => isFalse id
      | .comment _ => inferInstanceAs (Decidable (_ ∧ _))
      | .shortComment _ => inferInstanceAs (Decidable (_ ∧ _))
      | .declaration _ => inferInstanceAs (Decidable (_ ∧ _))
      | .unnamed _ => inferInstanceAs (Decidable (_ ∧ _))
      | .instruction _ => inferInstanceAs (Decidable (_ ∧ _))
      | .cdata _ => inferInstanceAs (Decidable (_ ∧ _))

/-- Each piece is made of whole parts. -/
def PlainGroups : Option (List Char) → List (List Part) → Prop
  | _, [] => True
  | skip, group :: groups => Plain skip group ∧ PlainGroups (group.foldl Part.inside skip) groups

/-- All raw HTML of a document arrives in plain pieces. -/
def Whole : Option (List Char) → List Chunk → Prop
  | _, [] => True
  | skip, .event _ :: chunks => Whole skip chunks
  | skip, .raw held pieces :: chunks =>
      (∃ groups, groups.flatten = held ∧
        groups.map printed = pieces.map (fun piece => piece.1.source) ∧ PlainGroups skip groups) ∧
      Whole (held.foldl Part.inside skip) chunks

/-! ## One tag -/

theorem isAlphanum_of_toLower {c : Char} (h : c.toLower.isAlphanum = true) :
    c.isAlphanum = true := by
  rcases Links.toLower_cases c with heq | ⟨hlow, hhigh, -⟩
  · rwa [heq] at h
  · change ((decide (c.val ≥ 65 ∧ c.val ≤ 90) || _) || _) = true
    rw [decide_eq_true, Bool.true_or, Bool.true_or]
    exact ⟨UInt32.le_iff_toNat_le.2 hlow, UInt32.le_iff_toNat_le.2 hhigh⟩

/-- What stops where the letters and digits are over stops no earlier. -/
theorem takeWhile_isAlphanum {p : Char → Bool} (hp : ∀ c, c.isAlphanum = true → p c = true)
    {text : List Char} (h : ∀ c ∈ text.takeWhile p, c.isAlphanum = true) :
    text.takeWhile Char.isAlphanum = text.takeWhile p := by
  induction text with
  | nil => rfl
  | cons c text ih =>
      cases hc : c.isAlphanum with
      | true =>
          rw [List.takeWhile_cons_of_pos (hp c hc)] at h ⊢
          rw [List.takeWhile_cons_of_pos hc, ih fun d hd => h d (List.mem_cons_of_mem _ hd)]
      | false =>
          have hnot : ¬p c = true := fun hpc => by
            rw [List.takeWhile_cons_of_pos hpc] at h
            cases hc.symm.trans (h c List.mem_cons_self)
          rw [List.takeWhile_cons_of_neg hnot,
            List.takeWhile_cons_of_neg (Bool.eq_false_iff.1 hc)]

theorem not_stop_of_isAlphanum (c : Char) (h : c.isAlphanum = true) :
    (!(isAsciiWhitespace c || c = '/' || c = '>')) = true := by
  rw [Bool.not_eq_true', Bool.or_eq_false_iff, Bool.or_eq_false_iff]
  refine ⟨⟨Bool.eq_false_iff.2 fun hspace => ?_, decide_eq_false ?_⟩, decide_eq_false ?_⟩
  · have hmem : c ∈ [' ', '\t', '\n', '\x0c', '\r'] := List.contains_iff_mem.1 hspace
    simp only [List.mem_cons, List.not_mem_nil, or_false] at hmem
    rcases hmem with rfl | rfl | rfl | rfl | rfl <;> cases h
  · rintro rfl
    cases h
  · rintro rfl
    cases h

theorem ne_slash_of_isAlpha {c : Char} (h : c.isAlpha = true) : c ≠ '/' := by
  rintro rfl
  cases h

/-- Behind a slash or not, both readings of a tag begin at the same letter. -/
theorem exists_named {source : List Char} (h : beginsTag source = true) :
    ∃ named : List Char, tagName source = (named.takeWhile Char.isAlphanum).map Char.toLower ∧
      htmlName source = (named.takeWhile fun c =>
        !(isAsciiWhitespace c || c = '/' || c = '>')).map Char.toLower := by
  have hnamed {c : Char} (hc : c.isAlpha = true) (rest : List Char) :
      (c :: rest).dropWhile (fun c => c = '/') = c :: rest :=
    List.dropWhile_cons_of_neg (by simpa using ne_slash_of_isAlpha hc)
  cases source with
  | nil => cases h
  | cons c rest =>
      by_cases hslash : c = '/'
      · subst hslash
        cases rest with
        | nil => cases h
        | cons c rest =>
            refine ⟨c :: rest, ?_, rfl⟩
            rw [tagName, List.dropWhile_cons_of_pos (by decide), hnamed h]
      · have hc : c.isAlpha = true := by
          rw [beginsTag] at h
          · exact h
          · intro d rest' heq
            exact absurd heq hslash
        refine ⟨c :: rest, by rw [tagName, hnamed hc], ?_⟩
        rw [htmlName, if_neg]
        simpa using hslash

/-- A name that is looked for is read as it is. -/
theorem tagName_of_sought {source : List Char} (hbegins : beginsTag source = true)
    (h : htmlName source ∈ soughtNames) : tagName source = htmlName source := by
  obtain ⟨named, htag, hhtml⟩ := exists_named hbegins
  have hletters : soughtNames.all (fun name => name.all Char.isAlphanum) = true := by rfl
  rw [htag, hhtml, takeWhile_isAlphanum not_stop_of_isAlphanum]
  intro c hc
  refine isAlphanum_of_toLower (List.all_eq_true.1 (List.all_eq_true.1 hletters _ h) _ ?_)
  rw [hhtml]
  exact List.mem_map_of_mem hc

theorem tag_of_not_sought {source : List Char} (h : tagName source ∉ soughtNames) :
    b.tag source = b := by
  simp only [soughtNames, List.map_cons, List.map_nil, List.mem_cons, List.not_mem_nil, or_false,
    not_or] at h
  obtain ⟨hscript, hstyle, hbr, hkbd, hsub, hsup, hsummary, himg⟩ := h
  rw [Builder.tag, if_neg fun h => hscript h.1, if_neg fun h => hstyle h.1, if_neg hbr,
    if_neg fun h => hkbd h.1, if_neg fun h => hsub h.1, if_neg fun h => hsup h.1,
    if_neg fun h => hsummary h.1, if_neg, if_neg fun h => hsummary h.1, if_neg fun h => himg h.1]
  rintro ⟨h | h | h, -⟩
  · exact hkbd h
  · exact hsub h
  · exact hsup h

theorem draw_of_not_sought {source : List Char} (h : htmlName source ∉ soughtNames) :
    b.draw source = b := by
  simp only [soughtNames, List.map_cons, List.map_nil, List.mem_cons, List.not_mem_nil, or_false,
    not_or] at h
  obtain ⟨hscript, hstyle, hbr, hkbd, hsub, hsup, hsummary, himg⟩ := h
  have hstyles : ¬(htmlName source = "kbd".toList ∨ htmlName source = "sub".toList ∨
      htmlName source = "sup".toList) := by
    rintro (h | h | h)
    · exact hkbd h
    · exact hsub h
    · exact hsup h
  rw [Builder.draw, if_neg hbr, if_neg hstyles, if_neg hsummary,
    if_neg (not_or_intro hscript hstyle),
    if_neg hkbd, if_neg hsub, if_neg hsup, if_neg hsummary, if_neg himg, ite_self]

/-- A tag that is named as it is read does what is drawn of it. -/
theorem tag_eq_draw {source : List Char} (hbegins : beginsTag source = true)
    (hnamed : misnamed source = false) : b.tag source = b.draw source := by
  by_cases hsame : tagName source = htmlName source
  · rw [Builder.tag, Builder.draw, htmlSkip, hsame]
    by_cases hclosing : source.head? = some '/'
    · simp only [hclosing, not_true_eq_false, and_false, if_false, and_true, if_true]
    · simp only [hclosing, not_false_eq_true, and_true, if_false, and_false]
      by_cases hscript : htmlName source = "script".toList
      · rw [hscript, if_pos rfl, if_neg (by decide), if_pos (.inl rfl), if_pos (.inl rfl)]
        rfl
      by_cases hstyle : htmlName source = "style".toList
      · rw [hstyle, if_neg (by decide), if_pos rfl, if_neg (by decide), if_pos (.inr rfl),
          if_pos (.inr rfl)]
        rfl
      · rw [if_neg hscript, if_neg hstyle, if_neg (not_or_intro hscript hstyle)]
  · have htag : tagName source ∉ soughtNames := by
      intro hmem
      rw [misnamed, List.contains_iff_mem.2 hmem, Bool.true_and, decide_eq_false_iff_not] at hnamed
      exact hnamed hsame
    have hhtml : htmlName source ∉ soughtNames := fun hmem =>
      hsame (tagName_of_sought hbegins hmem)
    rw [tag_of_not_sought htag, draw_of_not_sought hhtml]

theorem skipUntil_draw (hskip : b.skipUntil = none) (source : List Char) :
    (b.draw source).skipUntil = htmlSkip source := by
  by_cases hclosing : source.head? = some '/'
  · have hstyles : (b.draw source).skipUntil = none := by
      rw [Builder.draw, if_pos hclosing]
      split
      · exact hskip
      split
      · exact hskip
      split
      · exact hskip
      · exact hskip
    rw [hstyles, htmlSkip, if_pos hclosing]
  by_cases hskips : htmlName source = "script".toList ∨ htmlName source = "style".toList
  · rw [Builder.draw, if_neg, if_neg hclosing, if_pos hskips]
    rcases hskips with hname | hname <;> rw [hname] <;> decide
  · have hkept : (b.draw source).skipUntil = none := by
      rw [Builder.draw, if_neg hclosing, if_neg hskips]
      split
      · exact hskip
      split
      · exact hskip
      split
      · exact hskip
      split
      · exact hskip
      split
      · exact hskip
      split
      · exact hskip
      · exact hskip
    rw [hkept, htmlSkip, if_neg hclosing, if_neg hskips]

/-! ## One piece -/

theorem skipUntil_part (b : Builder) (part : Part) :
    (b.part part).skipUntil = part.inside b.skipUntil := by
  cases part with
  | text source => exact skipUntil_addText b _
  | tag source =>
      rw [Builder.part, Part.inside]
      cases hskip : b.skipUntil with
      | some endTag => rfl
      | none => exact skipUntil_draw hskip source
  | _ => rfl

theorem skipUntil_parts (b : Builder) (parts : List Part) :
    (parts.foldl Builder.part b).skipUntil = parts.foldl Part.inside b.skipUntil := by
  induction parts generalizing b with
  | nil => rfl
  | cons part parts ih => rw [List.foldl_cons, ih, skipUntil_part, List.foldl_cons]

theorem source_markup {part : Part} {source : List Char} (h : part.markup = some source)
    (rest : List Char) : part.source ++ rest = '<' :: source ++ '>' :: rest := by
  have hend (first last last' source : List Char) (hlast : last' = last ++ ['>']) :
      '<' :: first ++ source ++ last' ++ rest =
        '<' :: (first ++ source ++ last) ++ '>' :: rest := by
    rw [hlast]
    simp only [List.append_assoc, List.cons_append, List.nil_append]
  cases part with
  | shortComment dashed => cases dashed <;> (cases h; rfl)
  | text source => cases h
  | tag source => cases h
  | content source => cases h
  | comment source =>
      rw [Part.markup] at h
      obtain rfl := Option.some.inj h
      exact hend "!--".toList "--".toList "-->".toList source (by decide)
  | declaration source =>
      rw [Part.markup] at h
      obtain rfl := Option.some.inj h
      exact (hend ['!'] [] ['>'] source rfl).trans (by rw [List.append_nil]; rfl)
  | unnamed source =>
      rw [Part.markup] at h
      obtain rfl := Option.some.inj h
      exact (hend ['/'] [] ['>'] source rfl).trans (by rw [List.append_nil]; rfl)
  | instruction source =>
      rw [Part.markup] at h
      obtain rfl := Option.some.inj h
      exact hend ['?'] ['?'] "?>".toList source (by decide)
  | cdata source =>
      rw [Part.markup] at h
      obtain rfl := Option.some.inj h
      exact hend "![CDATA[".toList "]]".toList "]]>".toList source (by decide)

/-- What stands up to the first `<` or `>`. -/
theorem takeWhile_append_cons {source : List Char} {c : Char} (h : c ∉ source)
    (rest : List Char) :
    (source ++ c :: rest).takeWhile (fun d => d ≠ c) = source ∧
      (source ++ c :: rest).dropWhile (fun d => d ≠ c) = c :: rest := by
  induction source with
  | nil =>
      rw [List.nil_append, List.takeWhile_cons_of_neg (by simp),
        List.dropWhile_cons_of_neg (by simp)]
      exact ⟨rfl, rfl⟩
  | cons d source ih =>
      have hne : d ≠ c := fun heq => h (heq ▸ List.mem_cons_self)
      obtain ⟨htake, hdrop⟩ := ih fun hmem => h (List.mem_cons_of_mem _ hmem)
      rw [List.cons_append, List.takeWhile_cons_of_pos (by simpa using hne),
        List.dropWhile_cons_of_pos (by simpa using hne), htake, hdrop]
      exact ⟨rfl, rfl⟩

/-- A bracket that is closed is read as a tag. -/
theorem htmlFrom_tag (hskip : b.skipUntil = none) {source : List Char} (hclosed : '>' ∉ source)
    (fuel : Nat) (rest : List Char) :
    b.htmlFrom (fuel + 1) ('<' :: source ++ '>' :: rest) = (b.tag source).htmlFrom fuel rest := by
  obtain ⟨htake, hdrop⟩ := takeWhile_append_cons hclosed rest
  rw [Builder.htmlFrom, if_neg (by simp), hskip]
  dsimp only
  rw [List.cons_append, List.takeWhile_cons_of_neg (by simp),
    List.dropWhile_cons_of_neg (by simp), if_neg (List.cons_ne_nil _ _), if_pos rfl,
    if_neg (by simp), List.dropWhile_cons_of_pos (by simp), hdrop, List.drop_succ_cons,
    List.drop_zero, htake]
  rfl

/-- A text in front of a bracket, or at the end of a piece. -/
theorem htmlFrom_text (hskip : b.skipUntil = none) {source : List Char} (hsource : source ≠ [])
    (hopen : '<' ∉ source) (fuel : Nat) {rest : List Char}
    (hrest : rest = [] ∨ rest.head? = some '<') :
    b.htmlFrom (fuel + 1) (source ++ rest) =
      (b.addText (decodeEntities source)).htmlFrom (fuel + 1) rest := by
  have hskip' := (skipUntil_addText b (decodeEntities source)).trans hskip
  rcases hrest with rfl | hhead
  · have hnone : source.dropWhile (fun c => c ≠ '<') = [] := by
      rw [List.dropWhile_eq_nil_iff]
      intro c hmem
      exact decide_eq_true fun heq => hopen (heq ▸ hmem)
    rw [List.append_nil, Builder.htmlFrom, if_neg hsource, hskip]
    dsimp only
    rw [hnone, if_pos rfl, Builder.htmlFrom, if_pos rfl]
  · obtain ⟨tagged, rfl⟩ := List.head?_eq_some_iff.1 hhead
    obtain ⟨htake, hdrop⟩ := takeWhile_append_cons hopen tagged
    obtain ⟨htake', hdrop'⟩ := takeWhile_append_cons (@List.not_mem_nil _ '<') tagged
    rw [List.nil_append] at htake' hdrop'
    rw [Builder.htmlFrom, if_neg (by simp), hskip]
    dsimp only
    rw [htake, hdrop, if_neg (List.cons_ne_nil _ _), if_neg hsource]
    rw [Builder.htmlFrom, if_neg (List.cons_ne_nil _ _), hskip']
    dsimp only
    rw [htake', hdrop', if_neg (List.cons_ne_nil _ _), if_pos rfl]

/-- A `<` that is never closed. -/
theorem htmlFrom_lone (hskip : b.skipUntil = none) {source : List Char}
    (hopen : source.head? = some '<') (hclosed : '>' ∉ source) (fuel : Nat) :
    b.htmlFrom (fuel + 1) source = b.addText (decodeEntities source) := by
  obtain ⟨rest, rfl⟩ := List.head?_eq_some_iff.1 hopen
  rw [Builder.htmlFrom, if_neg (List.cons_ne_nil _ _), hskip]
  dsimp only
  rw [List.takeWhile_cons_of_neg (by simp), List.dropWhile_cons_of_neg (by simp),
    if_neg (List.cons_ne_nil _ _), if_pos rfl, if_pos hclosed]

/-- What is inside a script or a style is dropped up to the end of the piece. -/
theorem htmlFrom_content {endTag : List Char} (hskip : b.skipUntil = some endTag)
    {rest : List Char} (hrest : afterFirst endTag rest = none) (fuel : Nat) :
    b.htmlFrom fuel rest = b := by
  cases fuel with
  | zero => rfl
  | succ fuel =>
      rw [Builder.htmlFrom, hskip]
      dsimp only
      rw [hrest]
      split <;> rfl

theorem foldl_content {parts : List Part} (h : ∀ part ∈ parts, part.isContent = true)
    (b : Builder) : parts.foldl Builder.part b = b := by
  induction parts with
  | nil => rfl
  | cons part parts ih =>
      have hcontent := h part List.mem_cons_self
      cases part with
      | content source => exact ih fun part hmem => h part (List.mem_cons_of_mem _ hmem)
      | _ => cases hcontent

/-- A part that is read as a tag. -/
theorem htmlFrom_bracket {part : Part} {parts : List Part} {source : List Char} {fuel : Nat}
    (hskip : b.skipUntil = none) (hclosed : '>' ∉ source) (hpart : b.tag source = b.part part)
    (hsource : part.source ++ printed parts = '<' :: source ++ '>' :: printed parts)
    (hfuel : (printed (part :: parts)).length ≤ fuel)
    (ih : ∀ fuel, (printed parts).length ≤ fuel → (b.part part).htmlFrom fuel (printed parts) =
      parts.foldl Builder.part (b.part part)) :
    b.htmlFrom fuel (printed (part :: parts)) = (part :: parts).foldl Builder.part b := by
  have hcons : printed (part :: parts) = '<' :: source ++ '>' :: printed parts := hsource
  rw [hcons] at hfuel ⊢
  simp only [List.cons_append, List.length_cons, List.length_append] at hfuel
  obtain ⟨fuel, rfl⟩ : ∃ n, fuel = n + 1 :=
    Nat.exists_eq_succ_of_ne_zero fun hzero => by omega
  rw [htmlFrom_tag hskip hclosed, hpart, List.foldl_cons]
  exact ih fuel (by omega)

/-- A text in front of a bracket, or at the end of a piece. -/
theorem htmlFrom_textPart {parts : List Part} {source : List Char} {fuel : Nat}
    (hskip : b.skipUntil = none) (hsource : source ≠ []) (hopen : '<' ∉ source)
    (hnext : parts = [] ∨ (printed parts).head? = some '<')
    (hfuel : (printed (.text source :: parts)).length ≤ fuel)
    (ih : ∀ fuel, (printed parts).length ≤ fuel →
      (b.part (.text source)).htmlFrom fuel (printed parts) =
        parts.foldl Builder.part (b.part (.text source))) :
    b.htmlFrom fuel (printed (.text source :: parts)) =
      (.text source :: parts).foldl Builder.part b := by
  have hcons : printed (.text source :: parts) = source ++ printed parts := rfl
  have hpos := List.length_pos_iff.2 hsource
  rw [hcons] at hfuel ⊢
  rw [List.length_append] at hfuel
  obtain ⟨fuel, rfl⟩ : ∃ n, fuel = n + 1 :=
    Nat.exists_eq_succ_of_ne_zero fun hzero => by omega
  have hprinted : printed parts = [] ∨ (printed parts).head? = some '<' := by
    rcases hnext with rfl | hhead
    · exact .inl rfl
    · exact .inr hhead
  rw [htmlFrom_text hskip hsource hopen fuel hprinted, List.foldl_cons]
  exact ih (fuel + 1) (by omega)

/-- Sanitising a piece of whole parts keeps what there is to be kept of them. -/
theorem htmlFrom_plain {parts : List Part} {skip : Option (List Char)}
    (hplain : Plain skip parts) (hformed : WellFormedFrom skip parts) (hskip : b.skipUntil = skip)
    {fuel : Nat} (hfuel : (printed parts).length ≤ fuel) :
    b.htmlFrom fuel (printed parts) = parts.foldl Builder.part b := by
  induction parts generalizing b skip fuel with
  | nil =>
      cases fuel with
      | zero => rfl
      | succ fuel =>
          change b.htmlFrom (fuel + 1) [] = b
          rw [Builder.htmlFrom, if_pos rfl]
  | cons part parts ih =>
      cases skip with
      | some endTag =>
          rw [Plain] at hplain
          rw [foldl_content hplain.1, htmlFrom_content hskip hplain.2]
      | none =>
          obtain ⟨hpart, hrest⟩ := hformed
          have hmarkup {source : List Char} (hsource : part.markup = some source)
              (hkept : b.part part = b)
              (hplain : (∀ source ∈ part.markup, '>' ∉ source ∧ tagName source ∉ soughtNames) ∧
                Plain none parts) (hrest : WellFormedFrom none parts) :
              b.htmlFrom fuel (printed (part :: parts)) = (part :: parts).foldl Builder.part b := by
            obtain ⟨hclosed, hname⟩ := hplain.1 source hsource
            refine htmlFrom_bracket hskip hclosed ((tag_of_not_sought hname).trans hkept.symm)
              (source_markup hsource _) hfuel fun fuel hfuel => ih hplain.2 hrest ?_ hfuel
            rw [hkept, hskip]
          cases part with
          | text source =>
              obtain ⟨-, hsource, -⟩ := hpart
              rw [Plain] at hplain
              rcases hplain with ⟨hopen, hclosed, rfl⟩ | ⟨hopen, hnext, hplain⟩
              · have hpos := List.length_pos_iff.2 hsource
                change b.htmlFrom fuel (source ++ []) = _
                change (source ++ []).length ≤ fuel at hfuel
                rw [List.append_nil] at hfuel ⊢
                obtain ⟨fuel, rfl⟩ : ∃ n, fuel = n + 1 :=
                  Nat.exists_eq_succ_of_ne_zero fun hzero => by omega
                exact htmlFrom_lone hskip hopen hclosed fuel
              · exact htmlFrom_textPart hskip hsource hopen hnext hfuel fun fuel hfuel =>
                  ih hplain hrest ((skipUntil_addText b _).trans hskip) hfuel
          | tag source =>
              obtain ⟨hclosed, hnamed, hplain⟩ := hplain
              have hdraw : b.tag source = b.part (.tag source) := by
                rw [tag_eq_draw hpart.1 hnamed, Builder.part, hskip]
                rfl
              refine htmlFrom_bracket hskip hclosed hdraw (List.append_assoc _ _ _) hfuel
                fun fuel hfuel => ih hplain hrest ?_ hfuel
              rw [skipUntil_part, hskip]
              rfl
          | content source => exact absurd hplain id
          | comment source => exact hmarkup rfl rfl hplain hrest
          | shortComment dashed => exact hmarkup rfl rfl hplain hrest
          | declaration source => exact hmarkup rfl rfl hplain hrest
          | unnamed source => exact hmarkup rfl rfl hplain hrest
          | instruction source => exact hmarkup rfl rfl hplain hrest
          | cdata source => exact hmarkup rfl rfl hplain hrest

/-! ## Piece after piece -/

theorem wellFormedFrom_append {skip : Option (List Char)} {parts parts' : List Part}
    (h : WellFormedFrom skip (parts ++ parts')) : WellFormedFrom skip parts ∧
      WellFormedFrom (parts.foldl Part.inside skip) parts' := by
  induction parts generalizing skip with
  | nil => exact ⟨trivial, h⟩
  | cons part parts ih => exact ⟨⟨h.1, (ih h.2).1⟩, (ih h.2).2⟩

theorem foldl_html {groups : List (List Part)} {skip : Option (List Char)}
    (hplain : PlainGroups skip groups) (hformed : WellFormedFrom skip groups.flatten)
    (hskip : b.skipUntil = skip) :
    (groups.map printed).foldl Builder.html b = groups.flatten.foldl Builder.part b := by
  induction groups generalizing b skip with
  | nil => rfl
  | cons group groups ih =>
      rw [List.flatten_cons] at hformed
      obtain ⟨hgroup, hrest⟩ := wellFormedFrom_append hformed
      have hhtml : b.html (printed group) = group.foldl Builder.part b :=
        htmlFrom_plain hplain.1 hgroup hskip (Nat.le_refl _)
      rw [List.map_cons, List.foldl_cons, List.flatten_cons, List.foldl_append, hhtml]
      exact ih hplain.2 hrest (by rw [skipUntil_parts, hskip])

/-- Raw HTML inside an element, piece by piece. -/
theorem foldl_raw {pieces : List (Event × Nat)} (hraw : ∀ piece ∈ pieces, piece.1.isRaw = true)
    (hdepth : r.depth = opened.length) (hnest : pieces.foldlM nest opened = some opened') :
    opened' = opened ∧ pieces.foldl (readEvent letters) r =
      { r with builder :=
          (pieces.map fun piece => piece.1.source).foldl Builder.html r.builder } := by
  induction pieces generalizing r with
  | nil => exact ⟨(Option.some.inj hnest).symm, rfl⟩
  | cons piece pieces ih =>
      rw [List.foldlM_cons] at hnest
      obtain ⟨between, hbetween, hrest⟩ := Option.bind_eq_some_iff.1 hnest
      have hpiece := hraw piece List.mem_cons_self
      obtain ⟨rfl, element, rest, rfl⟩ := exists_opened_of_raw hpiece hbetween
      have hread : readEvent letters r piece =
          { r with builder := r.builder.html piece.1.source } := by
        have hnone : (r.depth = 0 && piece.1.begins) = false := by
          rw [hdepth]
          simp
        obtain ⟨event, i⟩ := piece
        rw [readEvent_eq, begun, hnone]
        cases event with
        | html source => rfl
        | inlineHtml source => rfl
        | _ => cases hpiece
      rw [List.foldl_cons, List.map_cons, List.foldl_cons, hread]
      exact @ih { r with builder := r.builder.html piece.1.source }
        (fun piece hmem => hraw piece (List.mem_cons_of_mem _ hmem)) hdepth hrest

/-- As many elements are open as the depth says. -/
theorem deepens_nest {event : Event × Nat} (hnest : nest opened event = some opened') :
    event.1.deepens opened.length = opened'.length := by
  obtain ⟨event, i⟩ := event
  rcases nest_cases hnest with ⟨tag, rfl, hadmits, rfl⟩ | ⟨element, rest, rfl, rfl, rfl⟩ |
    ⟨hleaf, hadmits, rfl⟩
  · rfl
  · rw [length_closing]
    rfl
  · cases event with
    | start tag => exact absurd rfl (hleaf tag)
    | finish tag => cases hplace : placeOf opened' <;> rw [hplace] at hadmits <;> cases hadmits
    | _ => rfl

/-- A document in plain pieces is read as its parts are. -/
theorem foldl_chunks {chunks : List Chunk} {skip : Option (List Char)}
    (hdepth : r.depth = opened.length)
    (hnest : (chunks.flatMap Chunk.events).foldlM nest opened = some opened')
    (harrives : ∀ chunk ∈ chunks, chunk.Arrives)
    (hformed : WellFormedFrom skip (chunks.flatMap Chunk.parts)) (hwhole : Whole skip chunks)
    (hskip : r.builder.skipUntil = skip) :
    (chunks.flatMap Chunk.events).foldl (readEvent letters) r =
      chunks.foldl (readChunk letters) r := by
  induction chunks generalizing opened r skip with
  | nil => rfl
  | cons chunk chunks ih =>
      have harrives' : ∀ chunk ∈ chunks, chunk.Arrives :=
        fun chunk hmem => harrives chunk (List.mem_cons_of_mem _ hmem)
      have hfirst := harrives chunk List.mem_cons_self
      rw [List.flatMap_cons, List.foldlM_append] at hnest
      obtain ⟨between, hbetween, hrest⟩ := Option.bind_eq_some_iff.1 hnest
      rw [List.flatMap_cons, List.foldl_append, List.foldl_cons]
      rw [List.flatMap_cons] at hformed
      obtain ⟨hformed, hformed'⟩ := wellFormedFrom_append hformed
      cases chunk with
      | event read =>
          have hread : nest opened read = some between := by
            rw [Chunk.events, List.foldlM_cons] at hbetween
            obtain ⟨_, heq, hnil⟩ := Option.bind_eq_some_iff.1 hbetween
            rw [heq]
            exact hnil
          have hdepth' : (readEvent letters r read).depth = between.length := by
            rw [← deepens_nest hread, ← hdepth]
            rfl
          refine ih hdepth' hrest harrives' hformed' hwhole ?_
          change (readEvent letters r read).builder.skipUntil = _
          rw [readEvent_eq, (event_restyled _ _ hfirst).1, begun_skipUntil]
          exact hskip
      | raw held pieces =>
          obtain ⟨⟨groups, rfl, hpieces, hplain⟩, hlater⟩ := hwhole
          obtain ⟨rfl, hread⟩ := @foldl_raw letters _ _ _ _ hfirst.1 hdepth hbetween
          have hparts : pieces.foldl (readEvent letters) r =
              readChunk letters r (.raw groups.flatten pieces) := by
            rw [hread, ← hpieces, foldl_html hplain hformed hskip]
            rfl
          change (chunks.flatMap Chunk.events).foldl (readEvent letters)
            (pieces.foldl (readEvent letters) r) = _
          rw [hparts]
          refine ih hdepth hrest harrives' hformed' hlater ?_
          change (groups.flatten.foldl Builder.part r.builder).skipUntil = _
          rw [skipUntil_parts, hskip]
          rfl

/-- A key and markup of which nothing is kept among texts. -/
def keyChunks : List Chunk :=
  [.event (.start .htmlBlock, 0),
    .raw [.tag "p".toList, .tag "kbd".toList, .text "a".toList, .tag "/kbd".toList,
        .comment " b ".toList, .instruction "c".toList, .unnamed [], .text " &gt; 1 ".toList,
        .text "< 2\n".toList]
      [(.html "<p><kbd>a</kbd><!-- b --><?c?></> &gt; 1 < 2\n".toList, 0)],
    .event (.finish .htmlBlock, 0)]

/-- A script in a raw HTML block. -/
def scriptChunks : List Chunk :=
  [.event (.start .htmlBlock, 0),
    .raw [.tag "script".toList, .content "x".toList, .tag "/script".toList, .text "\n".toList]
      [(.html "<script>x</script>\n".toList, 0)],
    .event (.finish .htmlBlock, 0)]

end Markdown

end Throng
