import Throng.App.MarkdownDocument
import Throng.Core.LinkSafety
import Throng.Lib.Numbered

/-!
# Heading anchors

A heading's anchor is the slug of its text, and from the second heading with that slug on the
slug, a hyphen and how many there were before. Two anchors are one when a heading's own slug
is such a numbered form.
-/

namespace Throng

namespace Markdown

variable {letters : Links.Letters} {opened opened' : List Opened} {b : Builder} {r : Reading}

/-! ## Numbered slugs -/

/-- The anchor of the heading that comes after so many others with its slug. -/
def anchorOf (entry : List Char × Nat) : List Char := Builder.numbered entry.1 entry.2

theorem append_hyphen_inj {s t m n : List Char} (hm : '-' ∉ m) (hn : '-' ∉ n)
    (h : s ++ '-' :: m = t ++ '-' :: n) : s = t ∧ m = n := by
  induction s generalizing t with
  | nil =>
      cases t with
      | nil => exact ⟨rfl, (List.cons.inj h).2⟩
      | cons c t =>
          rw [List.nil_append, List.cons_append] at h
          exact absurd ((List.cons.inj h).2 ▸ List.mem_append_right t List.mem_cons_self) hm
  | cons c s ih =>
      cases t with
      | nil =>
          rw [List.nil_append, List.cons_append] at h
          exact absurd ((List.cons.inj h).2.symm ▸ List.mem_append_right s List.mem_cons_self) hn
      | cons d t =>
          obtain ⟨hc, hrest⟩ := List.cons.inj h
          obtain ⟨hst, hmn⟩ := ih hrest
          exact ⟨by rw [hc, hst], hmn⟩

theorem hyphen_notMem_toDigits (n : Nat) : '-' ∉ Nat.toDigits 10 n := fun h =>
  absurd (Nat.isDigit_of_mem_toDigits (by decide) (by decide) h) (by decide)

/-- Two anchors are one when their slugs and numbers are, or when the slug of one is the numbered
form of the other. -/
theorem numbered_inj {s t : List Char} {m n : Nat}
    (h : Builder.numbered s m = Builder.numbered t n) :
    (s = t ∧ m = n) ∨ (m = 0 ∧ 0 < n ∧ s = Builder.numbered t n) ∨
      (n = 0 ∧ 0 < m ∧ t = Builder.numbered s m) := by
  rcases Nat.eq_zero_or_pos m with rfl | hm
  · rcases Nat.eq_zero_or_pos n with rfl | hn
    · exact .inl ⟨h, rfl⟩
    · exact .inr (.inl ⟨rfl, hn, h⟩)
  · rcases Nat.eq_zero_or_pos n with rfl | hn
    · exact .inr (.inr ⟨rfl, hm, h.symm⟩)
    · rw [Builder.numbered, Builder.numbered, if_neg (Nat.ne_of_gt hm),
        if_neg (Nat.ne_of_gt hn)] at h
      obtain ⟨hst, hdigits⟩ :=
        append_hyphen_inj (hyphen_notMem_toDigits m) (hyphen_notMem_toDigits n) h
      have hvalue := congrArg (fun digits => Nat.ofDigitChars 10 digits 0) hdigits
      rw [Nat.ofDigitChars_ten_toDigits, Nat.ofDigitChars_ten_toDigits] at hvalue
      exact .inl ⟨hst, hvalue⟩

/-- No slug is the numbered form of one that occurs so often. -/
def Apart (slugs : List (List Char)) : Prop :=
  ∀ s ∈ slugs, ∀ t ∈ slugs, ∀ k, 0 < k → k < slugs.count t → s ≠ t ++ '-' :: Nat.toDigits 10 k

theorem nodup_anchors_iff (slugs : List (List Char)) :
    ((Numbered.indexed (fun _ => 0) slugs).map anchorOf).Nodup ↔ Apart slugs := by
  rw [Numbered.nodup_map_indexed]
  constructor
  · intro h s hs t _ k hpos hlt heq
    have hsame : anchorOf (s, 0) = anchorOf (t, k) := by
      rw [anchorOf, anchorOf, Builder.numbered, Builder.numbered, if_pos rfl,
        if_neg (Nat.ne_of_gt hpos)]
      exact heq
    exact absurd (h s t 0 k (List.count_pos_iff.2 hs) hlt hsame).2 (Nat.ne_of_lt hpos)
  · intro h s t m n hm hn heq
    have hnumbered (u : List Char) {k : Nat} (hpos : 0 < k) :
        Builder.numbered u k = u ++ '-' :: Nat.toDigits 10 k := if_neg (Nat.ne_of_gt hpos)
    have hmem (u : List Char) {k : Nat} (hk : k < slugs.count u) : u ∈ slugs :=
      List.count_pos_iff.1 (Nat.zero_lt_of_lt hk)
    rcases numbered_inj heq with hsame | ⟨-, hpos, hs⟩ | ⟨-, hpos, ht⟩
    · exact hsame
    · rw [hnumbered t hpos] at hs
      exact absurd hs (h s (hmem s hm) t (hmem t hn) n hpos hn)
    · rw [hnumbered s hpos] at ht
      exact absurd ht (h t (hmem t hn) s (hmem s hm) m hpos hm)

/-! ## Anchors of a run -/

def Leaf.anchor? : Leaf → Option (List Char)
  | .heading _ _ anchor => some anchor
  | _ => none

/-- The anchors of a document's headings. -/
def Document.anchors (document : Document) : List (List Char) :=
  (leavesOfBlocks document.blocks).filterMap Leaf.anchor?

/-- The slug of the heading that is being read. -/
def readSlug (letters : Links.Letters) (b : Builder) : List (List Char) :=
  match b.inline with
  | some (.heading _, inlines) => [slug letters (inlineText inlines)]
  | _ => []

/-- The slug of a heading that an event ends. -/
def endedSlug (letters : Links.Letters) (b : Builder) : Event → List (List Char)
  | .finish (.heading _) => readSlug letters b
  | _ => []

/-- The slugs of the headings that events end, each from the text read when it does. -/
def headingSlugs (letters : Links.Letters) : Reading → List (Event × Nat) → List (List Char)
  | _, [] => []
  | r, event :: events =>
      endedSlug letters r.builder event.1 ++
        headingSlugs letters (readEvent letters r event) events

theorem flush_anchors (b : Builder) :
    (b.flush letters).anchors = (readSlug letters b).foldl Numbered.count b.anchors := by
  rw [Builder.flush, readSlug]
  cases hinline : b.inline with
  | none => rfl
  | some gathered =>
      obtain ⟨gathered, inlines⟩ := gathered
      cases gathered with
      | paragraph =>
          dsimp only
          split <;> rfl
      | heading level => rfl
      | cell =>
          dsimp only
          split <;> rfl

theorem pending_anchors (b : Builder) : (pending letters b).filterMap Leaf.anchor? =
    (Numbered.indexed b.anchors (readSlug letters b)).map anchorOf := by
  rw [pending, readSlug]
  cases hinline : b.inline with
  | none => rfl
  | some gathered =>
      obtain ⟨gathered, inlines⟩ := gathered
      cases gathered with
      | paragraph =>
          dsimp only
          split <;> rfl
      | heading level => rfl
      | cell => rfl

def Event.flushes : Event → Bool
  | .start tag => tag.flushesAtStart
  | .finish tag => tag.flushesAtEnd
  | .rule => true
  | _ => false

theorem startTag_anchors (b : Builder) (i : Nat) (tag : Tag) :
    (b.startTag letters i tag).anchors =
      if tag.flushesAtStart then (b.flush letters).anchors else b.anchors := by
  cases tag with
  | metadataBlock yaml => cases yaml <;> rfl
  | _ => rfl

theorem endTag_anchors (b : Builder) (tag : Tag) :
    (b.endTag letters tag).anchors =
      if tag.flushesAtEnd then (b.flush letters).anchors else b.anchors := by
  cases tag with
  | blockQuote =>
      rw [Builder.endTag, Builder.endQuote]
      dsimp only
      split <;> rfl
  | codeBlock fenced =>
      rw [Builder.endTag, Builder.endCode]
      split <;> rfl
  | list number =>
      rw [Builder.endTag, Builder.endList]
      dsimp only
      split <;> rfl
  | item =>
      rw [Builder.endTag, Builder.endItem]
      dsimp only
      split <;> rfl
  | table =>
      rw [Builder.endTag, Builder.endTable]
      dsimp only
      split <;> rfl
  | tableHead =>
      rw [Builder.endTag, Builder.endHead]
      split <;> rfl
  | tableRow =>
      rw [Builder.endTag, Builder.endRow]
      split <;> rfl
  | image destUrl title => exact (inlined_endImage b).anchors
  | metadataBlock yaml =>
      rw [Builder.endTag, Builder.endMetadata]
      split
      · rw [Builder.addMetadata]
        split <;> rfl
      · rfl
  | _ => rfl

/-- Only flushing counts headings. -/
theorem event_anchors (b : Builder) (i : Nat) (event : Event) :
    (b.event letters i event).anchors =
      if event.flushes then (b.flush letters).anchors else b.anchors := by
  cases event with
  | start tag => exact startTag_anchors b i tag
  | finish tag => exact endTag_anchors b tag
  | rule => rfl
  | taskListMarker done =>
      change (b.taskMarker done).anchors = b.anchors
      rw [Builder.taskMarker]
      split <;> rfl
  | text text => exact (inlined_textEvent b text).anchors
  | code text => exact (inlined_addText (b.pushStyle _) text).anchors
  | inlineMath text => exact (inlined_addText b _).anchors
  | displayMath text => exact (inlined_addText b _).anchors
  | html source => exact (inlined_html b source).anchors
  | inlineHtml source => exact (inlined_html b source).anchors
  | softBreak => exact (inlined_addText b _).anchors
  | hardBreak => rfl
  | footnoteReference name => exact (inlined_addText b _).anchors

theorem added_anchors (b : Builder) (event : Event) :
    (added letters b event).filterMap Leaf.anchor? =
      if event.flushes then (pending letters b).filterMap Leaf.anchor? else [] := by
  cases event with
  | start tag =>
      rw [added, Event.flushes]
      cases tag.flushesAtStart <;> rfl
  | finish tag =>
      cases tag with
      | codeBlock fenced =>
          rw [added]
          cases b.code <;> rfl
      | metadataBlock yaml =>
          rw [added]
          cases b.metadata with
          | none => rfl
          | some source =>
              rw [Option.elim_some]
              cases frontMatter source <;> rfl
      | _ => rfl
  | rule =>
      rw [added, List.filterMap_append]
      exact List.append_nil _
  | _ => rfl

theorem Tracked.readSlug_nil (h : Tracked opened b)
    (hhome : ∀ level, homeTag opened ≠ some (.heading level)) : readSlug letters b = [] := by
  have hgathers := h.gathers
  rw [readSlug]
  split
  · next level inlines hinline =>
      rw [hinline] at hgathers
      cases htag : homeTag opened with
      | none =>
          rw [htag] at hgathers
          cases hgathers
      | some tag =>
          rw [htag] at hgathers hhome
          cases tag with
          | heading level => exact absurd rfl (hhome level)
          | item => rcases hgathers with hnone | ⟨_, heq⟩ <;> [cases hnone; cases heq]
          | htmlBlock => rcases hgathers with hnone | ⟨_, heq⟩ <;> [cases hnone; cases heq]
          | paragraph =>
              obtain ⟨_, heq⟩ := hgathers
              cases heq
          | tableCell =>
              obtain ⟨_, heq⟩ := hgathers
              cases heq
          | _ => cases hgathers
  · rfl

/-- Where the inlines being read are flushed, a heading has ended. -/
theorem Tracked.readSlug_eq (h : Tracked opened b) {event : Event} {i : Nat}
    (hnest : nest opened (event, i) = some opened') (hflushes : event.flushes = true) :
    readSlug letters b = endedSlug letters b event := by
  have hquiet (hquiet : Quiet (homeTag opened)) : readSlug letters b = [] :=
    h.readSlug_nil fun level htag => by
      rw [htag] at hquiet
      cases hquiet
  rcases nest_cases hnest with ⟨tag, rfl, hadmits, rfl⟩ | ⟨element, rest, rfl, rfl, rfl⟩ |
    ⟨hstart, hadmits, rfl⟩
  · refine hquiet (h.shaped.quiet_of_admits hadmits ?_)
    cases tag <;> first | rfl | exact absurd hflushes Bool.false_ne_true
  · obtain ⟨tag, start, headed⟩ := element
    cases tag with
    | heading level => rfl
    | paragraph => exact h.readSlug_nil nofun
    | htmlBlock => exact h.readSlug_nil nofun
    | blockQuote => exact h.readSlug_nil nofun
    | list number => exact h.readSlug_nil nofun
    | item => exact h.readSlug_nil nofun
    | tableCell => exact h.readSlug_nil nofun
    | _ => cases hflushes
  · cases event with
    | start tag => exact absurd rfl (hstart tag)
    | finish tag => cases hplace : placeOf opened' <;> rw [hplace] at hadmits <;> cases hadmits
    | rule =>
        refine hquiet (h.shaped.quiet (.inl ?_))
        cases hplace : placeOf opened' <;> rw [hplace] at hadmits <;> first | rfl | cases hadmits
    | _ => cases hflushes

/-- What an event adds to the anchors and their counts. -/
theorem step_anchors (h : Follows opened r) {event : Event × Nat}
    (hnest : nest opened event = some opened') :
    (added letters (begun r event) event.1).filterMap Leaf.anchor? =
        (Numbered.indexed r.builder.anchors (endedSlug letters r.builder event.1)).map anchorOf ∧
      (readEvent letters r event).builder.anchors =
        (endedSlug letters r.builder event.1).foldl Numbered.count r.builder.anchors := by
  obtain ⟨event, i⟩ := event
  obtain ⟨topStart, hbegun⟩ := exists_begun r (event, i)
  have hslug :
      endedSlug letters (begun r (event, i)) event = endedSlug letters r.builder event := by
    rw [hbegun]
    cases event with
    | finish tag => cases tag <;> rfl
    | _ => rfl
  have hanchors : (begun r (event, i)).anchors = r.builder.anchors := by rw [hbegun]
  rw [readEvent_eq, event_anchors, added_anchors, ← hslug, ← hanchors]
  cases hflushes : event.flushes with
  | true =>
      rw [← (h.begun (event, i)).readSlug_eq hnest hflushes]
      exact ⟨pending_anchors _, flush_anchors _⟩
  | false =>
      have hnil : endedSlug letters (begun r (event, i)) event = [] := by
        cases event with
        | finish tag => cases tag <;> first | rfl | cases hflushes
        | _ => rfl
      rw [hnil]
      exact ⟨rfl, rfl⟩

/-- The anchors that a run of a well-nested stream writes. -/
theorem run_anchors (h : Follows opened r) {events : List (Event × Nat)}
    (hnest : events.foldlM nest opened = some opened') :
    (written letters r events).filterMap Leaf.anchor? =
      (Numbered.indexed r.builder.anchors (headingSlugs letters r events)).map anchorOf := by
  induction events generalizing opened r with
  | nil => rfl
  | cons event events ih =>
      rw [List.foldlM_cons] at hnest
      obtain ⟨between, hbetween, hrest⟩ := Option.bind_eq_some_iff.1 hnest
      obtain ⟨hadded, hcounts⟩ := @step_anchors letters _ _ _ h _ hbetween
      rw [written, headingSlugs, List.filterMap_append, hadded, ih (h.read hbetween) hrest, hcounts,
        Numbered.indexed_append, List.map_append]

/-- The headings of a document have anchors of their own if and only if no heading's slug is
that of another with a hyphen and a number behind it that the other's slug gets. -/
theorem anchors_nodup_iff (letters : Links.Letters) (text : List Char)
    (events : List (Event × Nat)) (hnested : WellNested events) :
    ∃ document, parse letters text events = some document ∧
      (document.anchors.Nodup ↔ Apart (headingSlugs letters ⟨.start, 0⟩ events)) := by
  obtain ⟨held, hparse, hleaves, -⟩ := parse_wellNested letters text hnested
  have hanchor : ∀ leaf : Leaf, (leaf.autolinked letters).anchor? = leaf.anchor? := by
    intro leaf
    cases leaf <;> rfl
  refine ⟨_, hparse, ?_⟩
  have hanchors : Document.anchors ⟨autolinkBlocks letters held,
      (gained letters ⟨.start, 0⟩ events).map (lineAt text)⟩ =
      (Numbered.indexed (fun _ => 0) (headingSlugs letters ⟨.start, 0⟩ events)).map anchorOf := by
    have hrun : (written letters ⟨.start, 0⟩ events).filterMap Leaf.anchor? =
        (Numbered.indexed (fun _ => 0) (headingSlugs letters ⟨.start, 0⟩ events)).map anchorOf :=
      run_anchors Follows.start hnested
    rw [Document.anchors, leavesOfBlocks_autolinked, List.filterMap_map, hleaves, ← hrun]
    exact List.filterMap_congr fun leaf _ => hanchor leaf
  rw [hanchors, nodup_anchors_iff]

/-- Three headings `a`, `a` and `a-1`. -/
def threeHeadings : List (Event × Nat) :=
  [(.start (.heading 1), 0), (.text "a".toList, 2), (.finish (.heading 1), 0),
    (.start (.heading 1), 5), (.text "a".toList, 7), (.finish (.heading 1), 5),
    (.start (.heading 1), 10), (.text "a-1".toList, 12), (.finish (.heading 1), 10)]

theorem anchors_nodup_three : ∃ document,
    parse Links.asciiLetters "# a\n\n# a\n\n# a-1\n".toList threeHeadings = some document ∧
      (document.anchors.Nodup ↔
        Apart (headingSlugs Links.asciiLetters ⟨.start, 0⟩ threeHeadings)) :=
  anchors_nodup_iff Links.asciiLetters _ threeHeadings (by decide)

/-- The second heading `a` and the heading `a-1` have one anchor. -/
theorem not_anchors_nodup : WellNested threeHeadings ∧
    ¬∃ document, parse Links.asciiLetters "# a\n\n# a\n\n# a-1\n".toList threeHeadings =
      some document ∧ document.anchors.Nodup := by
  refine ⟨by decide, ?_⟩
  rintro ⟨document, hparse, hnodup⟩
  have hanchors : (parse Links.asciiLetters "# a\n\n# a\n\n# a-1\n".toList threeHeadings).map
      Document.anchors = some ["a".toList, "a-1".toList, "a-1".toList] := by decide
  rw [hparse, Option.map_some, Option.some.injEq] at hanchors
  rw [hanchors] at hnodup
  exact absurd hnodup (by decide)

end Markdown

end Throng
