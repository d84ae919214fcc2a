import Throng.App.MarkdownRun

/-!
# Steps of the builder

What each event does while the elements are well nested: which leaves it writes, where a block
that it adds to the document itself starts, and that the frames go on as the open elements do.
-/

namespace Throng

namespace Markdown

variable {letters : Links.Letters} {opened : List Opened} {b b' b'' : Builder}

/-! ## Inlines -/

/-- Only what is inside a paragraph, a heading, a cell or a text changes. -/
structure Inlined (b b' : Builder) : Prop where
  frames : b'.frames = b.frames
  starts : b'.starts = b.starts
  anchors : b'.anchors = b.anchors
  topStart : b'.topStart = b.topStart
  inlineStart : b'.inlineStart = b.inlineStart
  code : b'.code.isSome = b.code.isSome
  metadata : b'.metadata.isSome = b.metadata.isSome
  inline : b'.inline = b.inline ∨
    ∃ inlines, b'.inline = some ((b.inline.getD (.paragraph, [])).1, inlines)

theorem Inlined.refl (b : Builder) : Inlined b b := ⟨rfl, rfl, rfl, rfl, rfl, rfl, rfl, .inl rfl⟩

theorem Inlined.trans (h : Inlined b b') (h' : Inlined b' b'') : Inlined b b'' where
  frames := h'.frames.trans h.frames
  starts := h'.starts.trans h.starts
  anchors := h'.anchors.trans h.anchors
  topStart := h'.topStart.trans h.topStart
  inlineStart := h'.inlineStart.trans h.inlineStart
  code := h'.code.trans h.code
  metadata := h'.metadata.trans h.metadata
  inline := by
    rcases h.inline with heq | ⟨inlines, heq⟩
    · rw [← heq]
      exact h'.inline
    · rcases h'.inline with heq' | ⟨inlines', heq'⟩
      · exact .inr ⟨inlines, heq'.trans heq⟩
      · refine .inr ⟨inlines', ?_⟩
        rw [heq', heq]
        rfl

theorem inlined_addText (b : Builder) (text : List Char) : Inlined b (b.addText text) := by
  rw [Builder.addText]
  split
  · exact .refl b
  · split
    · exact ⟨rfl, rfl, rfl, rfl, rfl, rfl, rfl, .inl rfl⟩
    · exact ⟨rfl, rfl, rfl, rfl, rfl, rfl, rfl, .inr ⟨_, rfl⟩⟩

theorem inlined_pushInline (b : Builder) (inline : Inline) : Inlined b (b.pushInline inline) :=
  ⟨rfl, rfl, rfl, rfl, rfl, rfl, rfl, .inr ⟨_, rfl⟩⟩

theorem inlined_pushStyle (b : Builder) (change : Style → Style) : Inlined b (b.pushStyle change) :=
  ⟨rfl, rfl, rfl, rfl, rfl, rfl, rfl, .inl rfl⟩

theorem inlined_popStyle (b : Builder) : Inlined b b.popStyle :=
  ⟨rfl, rfl, rfl, rfl, rfl, rfl, rfl, .inl rfl⟩

theorem inlined_skipUntil (b : Builder) (skip : Option (List Char)) :
    Inlined b { b with skipUntil := skip } :=
  ⟨rfl, rfl, rfl, rfl, rfl, rfl, rfl, .inl rfl⟩

theorem inlined_tag (b : Builder) (tag : List Char) : Inlined b (b.tag tag) := by
  rw [Builder.tag]
  split
  · exact inlined_skipUntil b _
  split
  · exact inlined_skipUntil b _
  split
  · exact inlined_pushInline b _
  split
  · exact inlined_pushStyle b _
  split
  · exact inlined_pushStyle b _
  split
  · exact inlined_pushStyle b _
  split
  · exact inlined_pushStyle b _
  split
  · exact inlined_popStyle b
  split
  · exact (inlined_popStyle b).trans (inlined_pushInline _ _)
  split
  · exact inlined_pushInline b _
  · exact .refl b

theorem inlined_htmlFrom (b : Builder) (fuel : Nat) (rest : List Char) :
    Inlined b (b.htmlFrom fuel rest) := by
  induction fuel generalizing b rest with
  | zero => exact .refl b
  | succ fuel ih =>
      rw [Builder.htmlFrom]
      split
      · exact .refl b
      split
      · split
        · exact (inlined_skipUntil b none).trans (ih _ _)
        · exact .refl b
      · dsimp only
        split
        · exact inlined_addText b _
        have hfront : Inlined b (if (rest.takeWhile fun c => c ≠ '<') = [] then b
            else b.addText (decodeEntities (rest.takeWhile fun c => c ≠ '<'))) := by
          split
          · exact .refl b
          · exact inlined_addText b _
        split
        · exact hfront.trans (inlined_addText _ _)
        · exact hfront.trans ((inlined_tag _ _).trans (ih _ _))

theorem inlined_html (b : Builder) (source : List Char) : Inlined b (b.html source) :=
  inlined_htmlFrom b _ _

/-- Text goes to the code or the metadata that is open, and else to the inlines. -/
theorem inlined_textEvent (b : Builder) (text : List Char) : Inlined b (b.textEvent text) := by
  rw [Builder.textEvent]
  split
  · next hcode => exact ⟨rfl, rfl, rfl, rfl, rfl, by rw [hcode]; rfl, rfl, .inl rfl⟩
  · next hmetadata => exact ⟨rfl, rfl, rfl, rfl, rfl, rfl, by rw [hmetadata]; rfl, .inl rfl⟩
  · exact inlined_addText b text

theorem inlined_endImage (b : Builder) : Inlined b b.endImage := by
  rw [Builder.endImage]
  split
  · exact ⟨rfl, rfl, rfl, rfl, rfl, rfl, rfl, .inr ⟨_, rfl⟩⟩
  · exact .refl b

theorem inlined_startTag (b : Builder) (start : Nat) {tag : Tag} (h : tag.isInline = true) :
    Inlined b (b.startTag letters start tag) := by
  cases tag with
  | emphasis => exact ⟨rfl, rfl, rfl, rfl, rfl, rfl, rfl, .inl rfl⟩
  | strong => exact ⟨rfl, rfl, rfl, rfl, rfl, rfl, rfl, .inl rfl⟩
  | strikethrough => exact ⟨rfl, rfl, rfl, rfl, rfl, rfl, rfl, .inl rfl⟩
  | superscript => exact ⟨rfl, rfl, rfl, rfl, rfl, rfl, rfl, .inl rfl⟩
  | subscript => exact ⟨rfl, rfl, rfl, rfl, rfl, rfl, rfl, .inl rfl⟩
  | link destUrl => exact ⟨rfl, rfl, rfl, rfl, rfl, rfl, rfl, .inl rfl⟩
  | image destUrl title => exact ⟨rfl, rfl, rfl, rfl, rfl, rfl, rfl, .inl rfl⟩
  | _ => cases h

theorem inlined_endTag (b : Builder) {tag : Tag} (h : tag.isInline = true) :
    Inlined b (b.endTag letters tag) := by
  cases tag with
  | emphasis => exact inlined_popStyle b
  | strong => exact inlined_popStyle b
  | strikethrough => exact inlined_popStyle b
  | superscript => exact inlined_popStyle b
  | subscript => exact inlined_popStyle b
  | link destUrl => exact ⟨rfl, rfl, rfl, rfl, rfl, rfl, rfl, .inl rfl⟩
  | image destUrl title => exact inlined_endImage b
  | _ => cases h

/-- What is read inside what holds inlines. -/
theorem Gathers.of_inlined {tag : Tag} (h : Gathers (some tag) b.inline)
    (hinlines : tag.holdsInlines = true) (hinlined : Inlined b b') :
    Gathers (some tag) b'.inline := by
  rcases hinlined.inline with heq | ⟨inlines, heq⟩
  · rwa [heq]
  · rw [heq]
    cases tag with
    | paragraph =>
        obtain ⟨_, hinline⟩ := h
        rw [hinline]
        exact ⟨_, rfl⟩
    | heading level =>
        obtain ⟨_, hinline⟩ := h
        rw [hinline]
        exact ⟨_, rfl⟩
    | tableCell =>
        obtain ⟨_, hinline⟩ := h
        rw [hinline]
        exact ⟨_, rfl⟩
    | item =>
        rcases h with hinline | ⟨_, hinline⟩ <;> rw [hinline] <;> exact .inr ⟨_, rfl⟩
    | htmlBlock =>
        rcases h with hinline | ⟨_, hinline⟩ <;> rw [hinline] <;> exact .inr ⟨_, rfl⟩
    | _ => cases hinlines

theorem Tracked.of_inlined (h : Tracked opened b) (hinlined : Inlined b b')
    (hhome : (∃ tag, homeTag opened = some tag ∧ tag.holdsInlines = true) ∨
      b'.inline = b.inline) : Tracked opened b' where
  shaped := by
    rw [hinlined.frames]
    exact h.shaped
  rows headed hplace := by
    rw [hinlined.frames]
    exact h.rows headed hplace
  gathers := by
    rcases hhome with ⟨tag, htag, hinlines⟩ | heq
    · have hgathers := h.gathers
      rw [htag] at hgathers ⊢
      exact hgathers.of_inlined hinlines hinlined
    · rw [heq]
      exact h.gathers
  code := by
    rw [hinlined.code]
    exact h.code
  metadata := by
    rw [hinlined.metadata]
    exact h.metadata

theorem Inlined.wrote (h : Inlined b b') : Wrote b b' [] [] := .same h.frames h.starts

/-! ## Frames -/

theorem pushBlock_frames {top : Frame} {rest : List Frame} (htop : b.frames = top :: rest)
    (htakes : top.takes = true) (block : Block) (start : Nat) :
    (b.pushBlock block start).frames = top.push block :: rest := by
  rw [Builder.pushBlock, htop]
  exact if_pos htakes

/-- Flushing leaves the frames as they are, or adds a block or a cell to the innermost. -/
theorem flush_frames (hclosable : Closable b) :
    (b.flush letters).frames = b.frames ∨
    (∃ top rest block, b.frames = top :: rest ∧ top.takes = true ∧
      (b.flush letters).frames = top.push block :: rest) ∨
    (∃ head rows row rest cell, b.frames = .table head rows row :: rest ∧
      (b.flush letters).frames = .table head rows (row ++ [cell]) :: rest) := by
  cases hinline : b.inline with
  | none =>
      rw [flush_of_none hinline]
      exact .inl rfl
  | some gathered =>
      obtain ⟨gathered, inlines⟩ := gathered
      obtain ⟨htakes, htable⟩ := hclosable gathered inlines hinline
      cases gathered with
      | paragraph =>
          obtain ⟨top, rest, htop, htop'⟩ := htakes (by decide)
          rw [Builder.flush, hinline]
          dsimp only
          split
          · exact .inl rfl
          · exact .inr (.inl ⟨top, rest, _, htop, htop',
              pushBlock_frames htop htop' _ b.inlineStart⟩)
      | heading level =>
          obtain ⟨top, rest, htop, htop'⟩ := htakes fun heq => by cases heq
          rw [Builder.flush, hinline]
          exact .inr (.inl ⟨top, rest, _, htop, htop', pushBlock_frames htop htop' _ b.inlineStart⟩)
      | cell =>
          obtain ⟨head, rows, row, rest, htop⟩ := htable rfl
          refine .inr (.inr ⟨head, rows, row, rest, inlines, htop, ?_⟩)
          rw [Builder.flush, hinline]
          dsimp only
          rw [htop]

theorem Tracked.shaped_flush (h : Tracked opened b) : Shaped opened (b.flush letters).frames := by
  have hshaped := h.shaped
  rcases @flush_frames letters b h.closable with
    heq | ⟨top, rest, block, htop, htakes, heq⟩ | ⟨head, rows, row, rest, cell, htop, heq⟩
  · rwa [heq]
  · rw [htop] at hshaped
    rw [heq]
    exact hshaped.push htakes block
  · rw [htop] at hshaped
    rw [heq]
    exact hshaped.row _

/-- The elements in which nothing is being read when one inside them begins or ends. -/
def Quiet : Option Tag → Prop
  | none => True
  | some .blockQuote => True
  | some (.list _) => True
  | some .item => True
  | some .table => True
  | some .tableHead => True
  | some .tableRow => True
  | some .htmlBlock => True
  | _ => False

theorem Quiet.gathers {tag : Option Tag} (h : Quiet tag) : Gathers tag none := by
  rcases tag with _ | tag
  · exact rfl
  · cases tag with
    | item => exact .inl rfl
    | htmlBlock => exact .inl rfl
    | blockQuote => exact rfl
    | list _ => exact rfl
    | table => exact rfl
    | tableHead => exact rfl
    | tableRow => exact rfl
    | _ => cases h

/-- What is tracked while no code and no metadata are read. -/
theorem tracked_reading (hshaped : Shaped opened b.frames)
    (hrows : ∀ headed, placeOf opened = .rows headed →
      ∃ head rows rest, b.frames = .table head rows [] :: rest)
    (hgathers : Gathers (homeTag opened) b.inline) (hcode : b.code = none)
    (hmetadata : b.metadata = none)
    (hhome : ∀ language, homeTag opened ≠ some (.codeBlock language))
    (hhome' : ∀ yaml, homeTag opened ≠ some (.metadataBlock yaml)) : Tracked opened b where
  shaped := hshaped
  rows := hrows
  gathers := hgathers
  code := by
    rw [hcode]
    exact ⟨nofun, fun ⟨language, htag⟩ => absurd htag (hhome language)⟩
  metadata := by
    rw [hmetadata]
    exact ⟨nofun, fun ⟨yaml, htag⟩ => absurd htag (hhome' yaml)⟩

theorem Quiet.no_code {tag : Option Tag} (h : Quiet tag) (language : Option (List Char)) :
    tag ≠ some (.codeBlock language) := by
  rintro rfl
  cases h

theorem Quiet.no_metadata {tag : Option Tag} (h : Quiet tag) (yaml : Bool) :
    tag ≠ some (.metadataBlock yaml) := by
  rintro rfl
  cases h

theorem tracked_quiet (hshaped : Shaped opened b.frames)
    (hrows : ∀ headed, placeOf opened = .rows headed →
      ∃ head rows rest, b.frames = .table head rows [] :: rest)
    (hinline : b.inline = none) (hcode : b.code = none) (hmetadata : b.metadata = none)
    (hquiet : Quiet (homeTag opened)) : Tracked opened b :=
  tracked_reading hshaped hrows (by rw [hinline]; exact hquiet.gathers) hcode hmetadata
    hquiet.no_code hquiet.no_metadata

theorem Tracked.code_none (h : Tracked opened b)
    (hhome : ∀ language, homeTag opened ≠ some (.codeBlock language)) : b.code = none := by
  cases hcode : b.code with
  | none => rfl
  | some code =>
      obtain ⟨language, htag⟩ := h.code.1 (by rw [hcode]; rfl)
      exact absurd htag (hhome language)

theorem Tracked.metadata_none (h : Tracked opened b)
    (hhome : ∀ yaml, homeTag opened ≠ some (.metadataBlock yaml)) : b.metadata = none := by
  cases hmetadata : b.metadata with
  | none => rfl
  | some source =>
      obtain ⟨yaml, htag⟩ := h.metadata.1 (by rw [hmetadata]; rfl)
      exact absurd htag (hhome yaml)

/-- Elements that hold blocks, items, rows or cells are quiet. -/
theorem Shaped.quiet {frames : List Frame} (h : Shaped opened frames)
    (hplace : (placeOf opened).takesBlocks = true ∨ placeOf opened = .items ∨
      (∃ headed, placeOf opened = .rows headed) ∨ placeOf opened = .cells) :
    Quiet (homeTag opened) := by
  rcases hplace with hplace | hplace
  · rcases h.homeTag_of_takes hplace with htag | htag | htag <;> rw [htag] <;> trivial
  · cases opened with
    | nil => trivial
    | cons element rest =>
        obtain ⟨tag, start, headed⟩ := element
        cases tag <;> simp_all [placeOf, Opened.place, homeTag, home, Tag.isInline, Quiet]

theorem Shaped.home_item {frames : List Frame} (h : Shaped opened frames)
    (htag : homeTag opened = some .item) : ∃ task held rest, frames = .item task held :: rest := by
  induction h with
  | document held => cases htag
  | quote => cases htag
  | list => cases htag
  | item => exact ⟨_, _, _, rfl⟩
  | table => cases htag
  | @inside opened frames element hframed hadmits hrest ih =>
      by_cases hskip : element.tag.isInline = true ∨ element.tag = .footnoteDefinition
      · rw [homeTag_cons_skip hskip] at htag
        exact ih htag
      · rw [homeTag_cons_of hskip, Option.some.injEq] at htag
        rw [htag] at hframed
        cases hframed

/-- Where a block begins, an item's text is flushed, and nothing else is read. -/
theorem Tracked.flushed_nil (h : Tracked opened b)
    (hplace : (placeOf opened).takesBlocks = true) : flushed letters b = [] := by
  have hgathers := h.gathers
  rw [flushed]
  rcases h.shaped.homeTag_of_takes hplace with htag | htag | htag
  · rw [htag] at hgathers
    have hpending : pending letters b = [] := by
      rw [pending, show b.inline = none from hgathers]
    rw [hpending, List.isEmpty_nil, Bool.not_true, Bool.and_false]
    rfl
  · rw [htag] at hgathers
    have hpending : pending letters b = [] := by
      rw [pending, show b.inline = none from hgathers]
    rw [hpending, List.isEmpty_nil, Bool.not_true, Bool.and_false]
    rfl
  · obtain ⟨task, held, rest, hframes⟩ := h.shaped.home_item htag
    have hnotTop : atTop b.frames = false := by
      rw [hframes]
      rfl
    rw [hnotTop, Bool.false_and]
    rfl

end Markdown

end Throng
