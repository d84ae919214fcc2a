import Throng.App.MarkdownSteps

/-!
# What events write

The step lemma of the builder: an event of a well-nested document writes `added`, gains the
document the blocks that start at `placed`, and goes on with what is tracked. The start
and the end of each kind of element come first, and then what stands between them.
-/

namespace Throng

namespace Markdown

variable {letters : Links.Letters} {opened : List Opened} {b b' : Builder}

/-- The elements at whose start an item's text ends. -/
def Tag.flushesAtStart : Tag → Bool
  | .paragraph => true
  | .heading _ => true
  | .blockQuote => true
  | .codeBlock _ => true
  | .htmlBlock => true
  | .list _ => true
  | .item => true
  | .table => true
  | _ => false

/-- The elements at whose end the inlines being read end. -/
def Tag.flushesAtEnd : Tag → Bool
  | .paragraph => true
  | .heading _ => true
  | .htmlBlock => true
  | .blockQuote => true
  | .list _ => true
  | .item => true
  | .tableCell => true
  | _ => false

/-- The leaves that an event writes. -/
def added (letters : Links.Letters) (b : Builder) : Event → List Leaf
  | .start tag => if tag.flushesAtStart then pending letters b else []
  | .finish (.codeBlock _) => b.code.elim [] fun code => [.code code.1 (codeText code.2)]
  | .finish (.metadataBlock _) =>
      b.metadata.elim [] fun source =>
        [(frontMatter source).elim (.code "yaml".toList source) .frontMatter]
  | .finish tag => if tag.flushesAtEnd then pending letters b else []
  | .rule => pending letters b ++ [.rule]
  | _ => []

/-- Where a block of the document itself starts, as the builder has it, that an event adds. -/
def placed (letters : Links.Letters) (b : Builder) (start : Nat) : Event → List Nat
  | .finish .paragraph => flushed letters b
  | .finish (.heading _) => flushed letters b
  | .finish .htmlBlock => flushed letters b
  | .finish (.codeBlock _) => if atTop b.frames then [b.topStart] else []
  | .finish (.metadataBlock _) => if atTop b.frames then [b.topStart] else []
  | .finish .blockQuote => if atTop b.frames.tail then [b.topStart] else []
  | .finish (.list _) => if atTop b.frames.tail then [b.topStart] else []
  | .finish .table => if atTop b.frames.tail then [b.topStart] else []
  | .rule => if atTop b.frames then [start] else []
  | _ => []

/-- A step is tracked, and writes what is said. -/
structure Step (opened : List Opened) (b b' : Builder) (written : List Leaf)
    (gained : List Nat) : Prop where
  tracked : Tracked opened b'
  wrote : Wrote b b' written gained

/-! ## Starts -/

/-- An item's text is flushed before a block in it begins. -/
structure Calm (letters : Links.Letters) (opened : List Opened) (b : Builder) : Prop where
  shaped : Shaped opened (b.flush letters).frames
  inline : (b.flush letters).inline = none
  code : (b.flush letters).code = none
  metadata : (b.flush letters).metadata = none
  wrote : Wrote b (b.flush letters) (pending letters b) []
  topStart : (b.flush letters).topStart = b.topStart

theorem Tracked.calm (h : Tracked opened b) (hquiet : Quiet (homeTag opened))
    (hnil : flushed letters b = []) : Calm letters opened b := by
  obtain ⟨frames, anchors, starts, hflush⟩ := exists_flush letters b
  have hwrote := @wrote_flush letters b h.closable
  rw [hnil] at hwrote
  refine ⟨h.shaped_flush, flush_inline b, ?_, ?_, hwrote, ?_⟩
  · rw [hflush]
    exact h.code_none hquiet.no_code
  · rw [hflush]
    exact h.metadata_none hquiet.no_metadata
  · rw [hflush]

theorem Tracked.calm_of_takes (h : Tracked opened b)
    (hplace : (placeOf opened).takesBlocks = true) : Calm letters opened b :=
  h.calm (h.shaped.quiet (.inl hplace)) (h.flushed_nil hplace)

/-- An element that is no inline opens on top of what the builder has flushed. -/
theorem Calm.step {tag : Tag} {i : Nat} {headed : Bool} (h : Calm letters opened b)
    (hwrote : Wrote (b.flush letters) b' [] [])
    (htracked : Tracked (⟨tag, i, headed⟩ :: opened) b') :
    Step (⟨tag, i, headed⟩ :: opened) b b' (pending letters b) [] where
  tracked := htracked
  wrote := by
    have htrans := h.wrote.trans hwrote
    rwa [List.append_nil, List.append_nil] at htrans

theorem step_startBlock (h : Tracked opened b) {tag : Tag} (i : Nat)
    (hadmits : (placeOf opened).admits (.start tag) = true) (hblock : tag.isBlock = true) :
    Step (⟨tag, i, false⟩ :: opened) b (b.startTag letters i tag)
      (added letters b (.start tag)) [] := by
  have hplace := Place.takesBlocks_of_admits hadmits hblock
  have hcalm := @Tracked.calm_of_takes letters opened b h hplace
  have hinside (hframed : tag.isFramed = false) :
      Shaped (⟨tag, i, false⟩ :: opened) (b.flush letters).frames :=
    .inside ⟨tag, i, false⟩ hframed hadmits hcalm.shaped
  obtain ⟨top, rest, htop, -⟩ := hcalm.shaped.takes hplace
  cases tag with
  | paragraph =>
      exact hcalm.step (.same rfl rfl) (tracked_reading (hinside rfl) nofun ⟨[], rfl⟩ hcalm.code
        hcalm.metadata nofun nofun)
  | heading level =>
      exact hcalm.step (.same rfl rfl) (tracked_reading (hinside rfl) nofun ⟨[], rfl⟩ hcalm.code
        hcalm.metadata nofun nofun)
  | codeBlock fenced =>
      refine hcalm.step (.same rfl rfl) ⟨hinside rfl, nofun, hcalm.inline,
        ⟨fun _ => ⟨fenced, rfl⟩, fun _ => rfl⟩, ?_⟩
      change (b.flush letters).metadata.isSome = true ↔ _
      rw [hcalm.metadata]
      exact ⟨nofun, nofun⟩
  | htmlBlock =>
      exact hcalm.step (.same rfl rfl) (tracked_quiet (hinside rfl)
        nofun hcalm.inline hcalm.code hcalm.metadata trivial)
  | blockQuote =>
      exact hcalm.step (.opened htop rfl rfl rfl) (tracked_quiet
        (.quote i false [] hplace hcalm.shaped) nofun
        hcalm.inline hcalm.code hcalm.metadata trivial)
  | list number =>
      exact hcalm.step (.opened htop rfl rfl rfl) (tracked_quiet
        (.list number i false [] hplace hcalm.shaped) nofun
        hcalm.inline hcalm.code hcalm.metadata trivial)
  | table =>
      exact hcalm.step (.opened htop rfl rfl rfl) (tracked_quiet
        (.table i false [] [] [] hplace (fun _ => ⟨rfl, rfl⟩) hcalm.shaped)
        (fun _ _ => ⟨[], [], _, rfl⟩) hcalm.inline hcalm.code hcalm.metadata trivial)
  | footnoteDefinition =>
      refine ⟨⟨.inside ⟨.footnoteDefinition, i, false⟩ rfl hadmits h.shaped,
        nofun, h.gathers, h.code, h.metadata⟩, .same rfl rfl⟩
  | _ => cases hblock

/-- Inlines do not matter to what the builder is in. -/
theorem Tracked.push_inline (h : Tracked opened b) {element : Opened}
    (hinline : element.tag.isInline = true)
    (hadmits : (placeOf opened).admits (.start element.tag) = true) :
    Tracked (element :: opened) b where
  shaped := by
    refine .inside element ?_ hadmits h.shaped
    obtain ⟨tag, start, headed⟩ := element
    cases tag <;> first | rfl | cases hinline
  rows headed' hrows := by
    obtain ⟨tag, start, headed⟩ := element
    cases tag <;> first | exact absurd hinline Bool.false_ne_true | cases hrows
  gathers := by
    rw [homeTag_cons_skip (.inl hinline)]
    exact h.gathers
  code := by
    rw [homeTag_cons_skip (.inl hinline)]
    exact h.code
  metadata := by
    rw [homeTag_cons_skip (.inl hinline)]
    exact h.metadata

/-- Inlines begin in what holds them. -/
theorem Shaped.holds_of_admits {frames : List Frame} (h : Shaped opened frames) {event : Event}
    (hadmits : (placeOf opened).admits event = true) (hinline : event.isInline = true)
    (hnot : event.isText = false ∧ event.isHtml = false) :
    ∃ tag, homeTag opened = some tag ∧ tag.holdsInlines = true := by
  refine h.holdsInlines ?_
  cases hplace : placeOf opened with
  | inlines => exact .inl rfl
  | item => exact .inr rfl
  | rows headed =>
      rw [hplace] at hadmits
      cases headed <;> cases event <;> simp_all [Place.admits] <;> cases hinline
  | _ =>
      rw [hplace] at hadmits
      cases event with
      | start tag => cases tag <;> simp_all [Place.admits, Event.isBlock, Event.isInline,
          Event.isText, Event.isHtml, Tag.isBlock, Tag.isInline]
      | _ => simp_all [Place.admits, Event.isBlock, Event.isInline, Event.isText, Event.isHtml]

/-- What is in a place where an element other than a block begins. -/
theorem place_of_admits {place : Place} {tag : Tag} (h : place.admits (.start tag) = true) :
    tag.isBlock = true ∨ tag.isInline = true ∨ (place = .items ∧ tag = .item) ∨
      (place = .rows false ∧ tag = .tableHead) ∨ (place = .rows true ∧ tag = .tableRow) ∨
      (place = .cells ∧ tag = .tableCell) ∨ (place = .document ∧ tag = .metadataBlock true) := by
  cases place with
  | rows headed =>
      cases headed with
      | false => exact .inr (.inr (.inr (.inl ⟨rfl, by simpa [Place.admits] using h⟩)))
      | true => exact .inr (.inr (.inr (.inr (.inl ⟨rfl, by simpa [Place.admits] using h⟩))))
  | document =>
      rcases Bool.or_eq_true_iff.1 h with hblock | hmetadata
      · exact .inl hblock
      · have htag : Event.start tag = .start (.metadataBlock true) := of_decide_eq_true hmetadata
        exact .inr (.inr (.inr (.inr (.inr (.inr ⟨rfl, Event.start.inj htag⟩)))))
  | blocks => exact .inl h
  | item =>
      rcases Bool.or_eq_true_iff.1 h with hblock | hinline
      · exact .inl hblock
      · exact .inr (.inl hinline)
  | items => exact .inr (.inr (.inl ⟨rfl, Event.start.inj (of_decide_eq_true h)⟩))
  | cells =>
      exact .inr (.inr (.inr (.inr (.inr (.inl ⟨rfl, Event.start.inj (of_decide_eq_true h)⟩)))))
  | inlines => exact .inr (.inl h)
  | raw => cases h
  | html => cases h

/-- Elements other than inlines begin where nothing is being read. -/
theorem Shaped.quiet_of_admits {frames : List Frame} (h : Shaped opened frames) {tag : Tag}
    (hadmits : (placeOf opened).admits (.start tag) = true) (hinline : tag.isInline = false) :
    Quiet (homeTag opened) := by
  refine h.quiet ?_
  rcases place_of_admits hadmits with
    hblock | hinline' | ⟨hplace, -⟩ | ⟨hplace, -⟩ | ⟨hplace, -⟩ | ⟨hplace, -⟩ | ⟨hplace, -⟩
  · exact .inl (Place.takesBlocks_of_admits hadmits hblock)
  · rw [hinline] at hinline'
    cases hinline'
  · exact .inr (.inl hplace)
  · exact .inr (.inr (.inl ⟨_, hplace⟩))
  · exact .inr (.inr (.inl ⟨_, hplace⟩))
  · exact .inr (.inr (.inr hplace))
  · exact .inl (by rw [hplace]; rfl)

/-- Around an element other than an inline nothing is being read. -/
theorem Shaped.quiet_tail {element : Opened} {rest : List Opened} {frames : List Frame}
    (h : Shaped (element :: rest) frames) (hinline : element.tag.isInline = false) :
    Quiet (homeTag rest) := by
  cases h with
  | quote _ _ _ hplace hrest => exact hrest.quiet (.inl hplace)
  | list _ _ _ _ hplace hrest => exact hrest.quiet (.inl hplace)
  | item _ _ _ _ hplace hrest => exact hrest.quiet (.inr (.inl hplace))
  | table _ _ _ _ _ hplace _ hrest => exact hrest.quiet (.inl hplace)
  | inside _ _ hadmits hrest => exact hrest.quiet_of_admits hadmits hinline

/-- Between the rows of a table nothing is read. -/
theorem Tracked.inline_none_of_rows (h : Tracked opened b) {headed : Bool}
    (hplace : placeOf opened = .rows headed) : b.inline = none := by
  have hgathers := h.gathers
  cases opened with
  | nil => cases hplace
  | cons element rest =>
      obtain ⟨tag, start, headed⟩ := element
      cases tag <;> first | exact hgathers | cases hplace

theorem step_start (h : Tracked opened b) (tag : Tag) (i : Nat)
    (hadmits : (placeOf opened).admits (.start tag) = true) :
    Step (⟨tag, i, false⟩ :: opened) b (b.startTag letters i tag)
      (added letters b (.start tag)) [] := by
  have hinside (hframed : tag.isFramed = false) :
      Shaped (⟨tag, i, false⟩ :: opened) b.frames :=
    .inside ⟨tag, i, false⟩ hframed hadmits h.shaped
  rcases place_of_admits hadmits with
    hblock | hinline | ⟨hplace, rfl⟩ | ⟨hplace, rfl⟩ | ⟨hplace, rfl⟩ | ⟨hplace, rfl⟩ | ⟨hplace, rfl⟩
  · exact step_startBlock h i hadmits hblock
  · have hinlined := @inlined_startTag letters b i tag hinline
    have hhome := h.shaped.holds_of_admits hadmits hinline ⟨rfl, rfl⟩
    have hnil : added letters b (.start tag) = [] := by
      cases tag <;> first | rfl | cases hinline
    rw [hnil]
    exact ⟨(h.of_inlined hinlined (.inl hhome)).push_inline hinline hadmits, hinlined.wrote⟩
  · have hquiet := h.shaped.quiet (.inr (.inl hplace))
    obtain ⟨number, items, rest, hframes⟩ := h.shaped.items hplace
    have hnil : flushed letters b = [] := by
      have hnotTop : atTop b.frames = false := by
        rw [hframes]
        rfl
      rw [flushed, hnotTop, Bool.false_and]
      rfl
    have hcalm := @Tracked.calm letters opened b h hquiet hnil
    obtain ⟨number', items', rest', htop⟩ := hcalm.shaped.items hplace
    exact hcalm.step (.opened htop rfl rfl rfl) (tracked_quiet
      (.item i false none [] hplace hcalm.shaped) (fun _ hrows => by cases hrows)
      hcalm.inline hcalm.code hcalm.metadata trivial)
  · have hquiet := h.shaped.quiet (.inr (.inr (.inl ⟨_, hplace⟩)))
    exact ⟨tracked_quiet (hinside rfl) (fun _ hrows => by cases hrows)
      (h.inline_none_of_rows hplace) (h.code_none hquiet.no_code)
      (h.metadata_none hquiet.no_metadata) trivial, .same rfl rfl⟩
  · have hquiet := h.shaped.quiet (.inr (.inr (.inl ⟨_, hplace⟩)))
    exact ⟨tracked_quiet (hinside rfl) (fun _ hrows => by cases hrows)
      (h.inline_none_of_rows hplace) (h.code_none hquiet.no_code)
      (h.metadata_none hquiet.no_metadata) trivial, .same rfl rfl⟩
  · have hquiet := h.shaped.quiet (.inr (.inr (.inr hplace)))
    exact ⟨tracked_reading (hinside rfl) (fun _ hrows => by cases hrows) ⟨[], rfl⟩
      (h.code_none hquiet.no_code) (h.metadata_none hquiet.no_metadata)
      (fun _ htag => by cases htag) (fun _ htag => by cases htag), .same rfl rfl⟩
  · have hnil : opened = [] := by
      cases opened with
      | nil => rfl
      | cons element rest =>
          obtain ⟨tag, start, headed⟩ := element
          cases tag <;> cases hplace
    subst hnil
    refine ⟨⟨hinside rfl, (fun _ hrows => by cases hrows), h.gathers, ⟨fun hcode => ?_, ?_⟩,
      fun _ => ⟨true, rfl⟩, fun _ => rfl⟩, .same rfl rfl⟩
    · obtain ⟨language, htag⟩ := h.code.1 hcode
      cases htag
    · rintro ⟨language, htag⟩
      cases htag

/-! ## Ends -/

theorem Shaped.listItems {number : Option Nat} {items : List Item} {rest : List Frame}
    (h : Shaped opened (.list number items :: rest)) (items' : List Item) :
    Shaped opened (.list number items' :: rest) := by
  generalize hframes : Frame.list number items :: rest = frames at h
  induction h with
  | document held => cases hframes
  | quote => cases hframes
  | list number i headed items hplace hrest =>
      cases hframes
      exact .list number i headed items' hplace hrest
  | item => cases hframes
  | table => cases hframes
  | inside element hframed hadmits hrest ih => exact .inside element hframed hadmits (ih hframes)

/-- A table whose rows come next is the innermost element. -/
theorem Shaped.table_of_rows {headed : Bool} {head : List (List Inline)}
    {rows : List (List (List Inline))} {row : List (List Inline)} {frames : List Frame}
    (h : Shaped opened (.table head rows row :: frames))
    (hplace : placeOf opened = .rows headed) : ∃ i rest, opened = ⟨.table, i, headed⟩ :: rest ∧
      (placeOf rest).takesBlocks = true ∧ Shaped rest frames := by
  cases h with
  | @table rest frames i headed' head rows row htakes hempty hrest =>
      obtain rfl : headed' = headed := by simpa [placeOf, Opened.place] using hplace
      exact ⟨i, rest, rfl, htakes, hrest⟩
  | inside element hframed =>
      obtain ⟨tag, start, headed'⟩ := element
      cases tag <;> simp_all [placeOf, Opened.place, Tag.isFramed]

theorem Shaped.tail {element : Opened} {rest : List Opened} {frames : List Frame}
    (h : Shaped (element :: rest) frames) (hframed : element.tag.isFramed = false) :
    Shaped rest frames ∧ (placeOf rest).admits (.start element.tag) = true := by
  cases h with
  | quote => cases hframed
  | list => cases hframed
  | item => cases hframed
  | table => cases hframed
  | inside _ _ hadmits hrest => exact ⟨hrest, hadmits⟩

theorem no_rows {headed : Bool} (hplace : (placeOf opened).takesBlocks = true) :
    placeOf opened ≠ .rows headed := by
  intro hrows
  rw [hrows] at hplace
  cases hplace

/-- A paragraph, a heading or a piece of HTML ends. -/
theorem step_flush {element : Opened} {rest : List Opened} (h : Tracked (element :: rest) b)
    (hframed : element.tag.isFramed = false) (hblock : element.tag.isBlock = true)
    (hcode : b.code = none) (hmetadata : b.metadata = none) :
    Step rest b (b.flush letters) (pending letters b) (flushed letters b) := by
  obtain ⟨hrest, hadmits⟩ := (@Tracked.shaped_flush letters _ b h).tail hframed
  have hplace := Place.takesBlocks_of_admits hadmits hblock
  obtain ⟨frames, anchors, starts, hflush⟩ := exists_flush letters b
  refine ⟨tracked_quiet hrest (fun _ hrows => absurd hrows (no_rows hplace)) (flush_inline b) ?_ ?_
    (hrest.quiet (.inl hplace)), wrote_flush h.closable⟩
  · rw [hflush]
    exact hcode
  · rw [hflush]
    exact hmetadata

/-- A block goes where an element ended. -/
theorem tracked_pushBlock {rest : List Opened} (hrest : Shaped rest b.frames)
    (hplace : (placeOf rest).takesBlocks = true) (hinline : b.inline = none)
    (hcode : b.code = none) (hmetadata : b.metadata = none) (block : Block) (start : Nat) :
    Tracked rest (b.pushBlock block start) := by
  obtain ⟨top, frames, htop, htakes⟩ := hrest.takes hplace
  refine tracked_quiet ?_ (fun _ hrows => absurd hrows (no_rows hplace)) hinline hcode hmetadata
    (hrest.quiet (.inl hplace))
  rw [pushBlock_frames htop htakes]
  rw [htop] at hrest
  exact hrest.push htakes block

/-- A quote, a list or a table ends. -/
theorem step_close {rest : List Opened} {frame : Frame} {frames : List Frame} {block : Block}
    (hframes : b.frames = frame :: frames) (hrest : Shaped rest frames)
    (hplace : (placeOf rest).takesBlocks = true) (hleaves : block.leaves = frame.leaves)
    (hinline : b.inline = none) (hcode : b.code = none) (hmetadata : b.metadata = none) :
    Step rest b ({ b with frames := b.frames.tail }.pushBlock block b.topStart) []
      (if atTop b.frames.tail then [b.topStart] else []) := by
  obtain ⟨top, frames, rfl, htakes⟩ := hrest.takes hplace
  have htail : Shaped rest b.frames.tail := by
    rw [hframes]
    exact hrest
  exact ⟨@tracked_pushBlock { b with frames := b.frames.tail } rest htail hplace hinline hcode
    hmetadata block b.topStart, wrote_close hframes htakes hleaves b.topStart⟩

theorem Shaped.quote_frame {rest : List Opened} {i : Nat} {headed : Bool} {frames : List Frame}
    (h : Shaped (⟨.blockQuote, i, headed⟩ :: rest) frames) : ∃ held below,
      frames = .quote held :: below ∧ (placeOf rest).takesBlocks = true ∧ Shaped rest below := by
  cases h with
  | quote _ _ held hplace hrest => exact ⟨held, _, rfl, hplace, hrest⟩
  | inside _ hframed => cases hframed

theorem Shaped.list_frame {rest : List Opened} {number : Option Nat} {i : Nat} {headed : Bool}
    {frames : List Frame} (h : Shaped (⟨.list number, i, headed⟩ :: rest) frames) :
    ∃ items below, frames = .list number items :: below ∧
      (placeOf rest).takesBlocks = true ∧ Shaped rest below := by
  cases h with
  | list _ _ _ items hplace hrest => exact ⟨items, _, rfl, hplace, hrest⟩
  | inside _ hframed => cases hframed

theorem Shaped.item_frame {rest : List Opened} {i : Nat} {headed : Bool} {frames : List Frame}
    (h : Shaped (⟨.item, i, headed⟩ :: rest) frames) : ∃ task held below,
      frames = .item task held :: below ∧ placeOf rest = .items ∧ Shaped rest below := by
  cases h with
  | item _ _ task held hplace hrest => exact ⟨task, held, _, rfl, hplace, hrest⟩
  | inside _ hframed => cases hframed

theorem step_finishQuote {rest : List Opened} {i : Nat} {headed : Bool}
    (h : Tracked (⟨.blockQuote, i, headed⟩ :: rest) b) :
    Step rest b (b.flush letters).endQuote (pending letters b)
      (if atTop b.frames.tail then [b.topStart] else []) := by
  have hnone : b.inline = none := h.gathers
  have hpending : pending letters b = [] := by rw [pending, hnone]
  obtain ⟨held, below, hframes, hplace, hrest⟩ := h.shaped.quote_frame
  have hend : (b.flush letters).endQuote =
      { b with frames := b.frames.tail }.pushBlock (.quote held) b.topStart := by
    rw [flush_of_none hnone, Builder.endQuote, Builder.popFrame, hframes]
    rfl
  have hleaves : (Block.quote held).leaves = (Frame.quote held).leaves := rfl
  rw [hend, hpending]
  have hquiet : Quiet (homeTag (⟨.blockQuote, i, headed⟩ :: rest)) := trivial
  exact step_close hframes hrest hplace hleaves hnone (h.code_none hquiet.no_code)
    (h.metadata_none hquiet.no_metadata)

theorem step_finishList {rest : List Opened} {number : Option Nat} {i : Nat} {headed : Bool}
    (h : Tracked (⟨.list number, i, headed⟩ :: rest) b) :
    Step rest b (b.flush letters).endList (pending letters b)
      (if atTop b.frames.tail then [b.topStart] else []) := by
  have hnone : b.inline = none := h.gathers
  have hpending : pending letters b = [] := by rw [pending, hnone]
  obtain ⟨items, below, hframes, hplace, hrest⟩ := h.shaped.list_frame
  have hend : (b.flush letters).endList =
      { b with frames := b.frames.tail }.pushBlock (.list number items) b.topStart := by
    rw [flush_of_none hnone, Builder.endList, Builder.popFrame, hframes]
    rfl
  have hleaves : (Block.list number items).leaves = (Frame.list number items).leaves := rfl
  rw [hend, hpending]
  have hquiet : Quiet (homeTag (⟨.list number, i, headed⟩ :: rest)) := trivial
  exact step_close hframes hrest hplace hleaves hnone (h.code_none hquiet.no_code)
    (h.metadata_none hquiet.no_metadata)

theorem step_finishTable {rest : List Opened} {i : Nat} {headed : Bool}
    (h : Tracked (⟨.table, i, headed⟩ :: rest) b) :
    Step rest b b.endTable [] (if atTop b.frames.tail then [b.topStart] else []) := by
  obtain ⟨head, rows, below, hframes⟩ := h.rows headed rfl
  have hshaped := h.shaped
  rw [hframes] at hshaped
  obtain ⟨_, _, heq, hplace, hrest⟩ := hshaped.table_of_rows rfl
  obtain rfl := (List.cons.inj heq).2
  have hend : b.endTable =
      { b with frames := b.frames.tail }.pushBlock (.table head rows) b.topStart := by
    rw [Builder.endTable, Builder.popFrame, hframes]
    rfl
  have hleaves : (Block.table head rows).leaves = (Frame.table head rows []).leaves := by
    rw [Frame.leaves, List.map_nil, List.append_nil]
    rfl
  rw [hend]
  have hquiet : Quiet (homeTag (⟨.table, i, headed⟩ :: rest)) := trivial
  exact step_close hframes hrest hplace hleaves h.gathers (h.code_none hquiet.no_code)
    (h.metadata_none hquiet.no_metadata)

theorem step_finishItem {rest : List Opened} {i : Nat} {headed : Bool}
    (h : Tracked (⟨.item, i, headed⟩ :: rest) b) :
    Step rest b (b.flush letters).endItem (pending letters b) [] := by
  have hnil : flushed letters b = [] := by
    obtain ⟨task, held, below, hframes, -⟩ := h.shaped.item_frame
    have hnotTop : atTop b.frames = false := by
      rw [hframes]
      rfl
    rw [flushed, hnotTop, Bool.false_and]
    rfl
  have hcalm := @Tracked.calm letters _ b h trivial hnil
  obtain ⟨task, held, below, hframes, hplace, hrest⟩ := hcalm.shaped.item_frame
  obtain ⟨number, items, below, rfl⟩ := hrest.items hplace
  have hend : (b.flush letters).endItem =
      { b.flush letters with frames := .list number (items ++ [.mk task held]) :: below } := by
    rw [Builder.endItem, Builder.popFrame, hframes]
    rfl
  have hwrote := hcalm.wrote
  rw [hend]
  refine ⟨tracked_quiet (hrest.listItems _) (fun _ hrows => ?_) hcalm.inline hcalm.code
    hcalm.metadata (hrest.quiet (.inr (.inl hplace))), ?_, hwrote.starts, ?_⟩
  · rw [hplace] at hrows
    cases hrows
  · rw [← hwrote.leaves, hframes]
    change leavesOf below ++ leavesOfItems (items ++ [.mk task held]) =
      (leavesOf below ++ leavesOfItems items) ++ leavesOfBlocks held
    rw [leavesOfItems_concat, List.append_assoc]
    rfl
  · rw [← hwrote.blocks, hframes, topBlocks_cons]
    cases below <;> rfl

theorem step_finishCode {rest : List Opened} {fenced : Option (List Char)} {i : Nat}
    {headed : Bool} (h : Tracked (⟨.codeBlock fenced, i, headed⟩ :: rest) b) :
    Step rest b b.endCode (b.code.elim [] fun code => [.code code.1 (codeText code.2)])
      (if atTop b.frames then [b.topStart] else []) := by
  obtain ⟨hrest, hadmits⟩ := h.shaped.tail rfl
  have hplace := Place.takesBlocks_of_admits hadmits rfl
  obtain ⟨top, below, htop, htakes⟩ := hrest.takes hplace
  obtain ⟨⟨language, text⟩, hcode⟩ := Option.isSome_iff_exists.1 (h.code.2 ⟨fenced, rfl⟩)
  have hend : b.endCode =
      { b with code := none }.pushBlock (.code language (codeText text)) b.topStart := by
    rw [Builder.endCode, hcode]
  have hpush := @wrote_pushBlock { b with code := none } top below htop htakes
    (.code language (codeText text)) b.topStart
  rw [hend, hcode]
  exact ⟨@tracked_pushBlock { b with code := none } rest hrest hplace h.gathers rfl
    (h.metadata_none nofun) _ _, hpush.leaves, hpush.starts, hpush.blocks⟩

theorem step_finishMetadata {rest : List Opened} {yaml : Bool} {i : Nat} {headed : Bool}
    (h : Tracked (⟨.metadataBlock yaml, i, headed⟩ :: rest) b) :
    Step rest b b.endMetadata
      (b.metadata.elim [] fun source =>
        [(frontMatter source).elim (.code "yaml".toList source) .frontMatter])
      (if atTop b.frames then [b.topStart] else []) := by
  obtain ⟨hrest, hadmits⟩ := h.shaped.tail rfl
  have hplace : (placeOf rest).takesBlocks = true := by
    rcases place_of_admits hadmits with
      hblock | hinline | ⟨_, htag⟩ | ⟨_, htag⟩ | ⟨_, htag⟩ | ⟨_, htag⟩ | ⟨hplace, -⟩
    · cases hblock
    · cases hinline
    · cases htag
    · cases htag
    · cases htag
    · cases htag
    · rw [hplace]
      rfl
  obtain ⟨top, below, htop, htakes⟩ := hrest.takes hplace
  obtain ⟨source, hmetadata⟩ := Option.isSome_iff_exists.1 (h.metadata.2 ⟨yaml, rfl⟩)
  have hend : b.endMetadata = { b with metadata := none }.addMetadata source := by
    rw [Builder.endMetadata, hmetadata]
  have hpush (block : Block) : Step rest b ({ b with metadata := none }.pushBlock block b.topStart)
      block.leaves (if atTop b.frames then [b.topStart] else []) := by
    have hwrote := @wrote_pushBlock { b with metadata := none } top below htop htakes block
      b.topStart
    exact ⟨@tracked_pushBlock { b with metadata := none } rest hrest hplace h.gathers
      (h.code_none nofun) rfl _ _, hwrote.leaves, hwrote.starts, hwrote.blocks⟩
  rw [hend, hmetadata, Builder.addMetadata, Option.elim_some]
  cases frontMatter source with
  | none => exact hpush (.code "yaml".toList source)
  | some pairs => exact hpush (.frontMatter pairs)

/-- A table's head is over: the rows come next. -/
theorem step_finishHead {rest : List Opened} {i : Nat} {headed : Bool}
    (h : Tracked (⟨.tableHead, i, headed⟩ :: rest) b) :
    Step (closing .tableHead rest) b b.endHead [] [] := by
  obtain ⟨hrest, hadmits⟩ := h.shaped.tail rfl
  have hplace : placeOf rest = .rows false := by
    rcases place_of_admits hadmits with
      hblock | hinline | ⟨_, htag⟩ | ⟨hplace, -⟩ | ⟨_, htag⟩ | ⟨_, htag⟩ | ⟨_, htag⟩
    · cases hblock
    · cases hinline
    · cases htag
    · exact hplace
    · cases htag
    · cases htag
    · cases htag
  obtain ⟨head, rows, row, below, hframes, hempty⟩ := hrest.rows hplace
  obtain ⟨rfl, rfl⟩ := hempty rfl
  rw [hframes] at hrest
  obtain ⟨start, outer, rfl, houter, hbelow⟩ := hrest.table_of_rows hplace
  have hend : b.endHead = { b with frames := .table row [] [] :: below } := by
    rw [Builder.endHead, hframes]
  rw [hend]
  refine ⟨tracked_quiet (.table start true row [] [] houter nofun hbelow)
    (fun _ _ => ⟨row, [], below, rfl⟩) h.gathers (h.code_none nofun) (h.metadata_none nofun)
    trivial, ?_, (List.append_nil _).symm, ?_⟩
  · rw [hframes]
    change leavesOf below ++ (cellLeaves [row] ++ []) =
      leavesOf below ++ (cellLeaves [[]] ++ row.map .text) ++ []
    rw [cellLeaves, cellLeaves, List.flatten_singleton, List.flatten_singleton, List.map_nil,
      List.append_nil, List.append_nil, List.nil_append]
  · rw [hframes]
    cases below <;> rfl

theorem step_finishRow {rest : List Opened} {i : Nat} {headed : Bool}
    (h : Tracked (⟨.tableRow, i, headed⟩ :: rest) b) : Step rest b b.endRow [] [] := by
  obtain ⟨hrest, hadmits⟩ := h.shaped.tail rfl
  have hplace : placeOf rest = .rows true := by
    rcases place_of_admits hadmits with
      hblock | hinline | ⟨_, htag⟩ | ⟨_, htag⟩ | ⟨hplace, -⟩ | ⟨_, htag⟩ | ⟨_, htag⟩
    · cases hblock
    · cases hinline
    · cases htag
    · cases htag
    · exact hplace
    · cases htag
    · cases htag
  obtain ⟨head, rows, row, below, hframes, -⟩ := hrest.rows hplace
  rw [hframes] at hrest
  obtain ⟨start, outer, rfl, houter, hbelow⟩ := hrest.table_of_rows hplace
  have hend : b.endRow = { b with frames := .table head (rows ++ [row]) [] :: below } := by
    rw [Builder.endRow, hframes]
  rw [hend]
  refine ⟨tracked_quiet (.table start true head (rows ++ [row]) [] houter nofun hbelow)
    (fun _ _ => ⟨head, rows ++ [row], below, rfl⟩) h.gathers (h.code_none nofun)
    (h.metadata_none nofun) trivial, ?_, (List.append_nil _).symm, ?_⟩
  · rw [hframes]
    change leavesOf below ++ (cellLeaves (head :: rows ++ [row]) ++ []) =
      leavesOf below ++ (cellLeaves (head :: rows) ++ row.map .text) ++ []
    rw [cellLeaves_concat, List.append_nil, List.append_nil]
  · rw [hframes]
    cases below <;> rfl

theorem step_finishCell {rest : List Opened} {i : Nat} {headed : Bool}
    (h : Tracked (⟨.tableCell, i, headed⟩ :: rest) b) :
    Step rest b (b.flush letters) (pending letters b) [] := by
  obtain ⟨hrest, hadmits⟩ := (@Tracked.shaped_flush letters _ b h).tail rfl
  have hplace : placeOf rest = .cells := by
    rcases place_of_admits hadmits with
      hblock | hinline | ⟨_, htag⟩ | ⟨_, htag⟩ | ⟨_, htag⟩ | ⟨hplace, -⟩ | ⟨_, htag⟩
    · cases hblock
    · cases hinline
    · cases htag
    · cases htag
    · cases htag
    · exact hplace
    · cases htag
  obtain ⟨frames, anchors, starts, hflush⟩ := exists_flush letters b
  have hnil : flushed letters b = [] := by
    obtain ⟨head, rows, row, below, hframes⟩ := (h.shaped.tail rfl).1.cells hplace
    have hnotTop : atTop b.frames = false := by
      rw [hframes]
      rfl
    rw [flushed, hnotTop, Bool.false_and]
    rfl
  have hwrote := @wrote_flush letters b h.closable
  rw [hnil] at hwrote
  refine ⟨tracked_quiet hrest (fun _ hrows => ?_) (flush_inline b) ?_ ?_
    (hrest.quiet (.inr (.inr (.inr hplace)))), hwrote⟩
  · rw [hplace] at hrows
    cases hrows
  · rw [hflush]
    exact h.code_none fun _ htag => by cases htag
  · rw [hflush]
    exact h.metadata_none fun _ htag => by cases htag

theorem Tracked.pop_inline {element : Opened} {rest : List Opened}
    (h : Tracked (element :: rest) b)
    (hskip : element.tag.isInline = true ∨ element.tag = .footnoteDefinition)
    (hframed : element.tag.isFramed = false) (hrows : ∀ headed, placeOf rest ≠ .rows headed) :
    Tracked rest b := by
  have hgathers := h.gathers
  have hcode := h.code
  have hmetadata := h.metadata
  rw [homeTag_cons_skip hskip] at hgathers hcode hmetadata
  exact ⟨(h.shaped.tail hframed).1, fun headed hplace => absurd hplace (hrows headed), hgathers,
    hcode, hmetadata⟩

theorem step_finishInline {element : Opened} {rest : List Opened}
    (h : Tracked (element :: rest) b) (hinline : element.tag.isInline = true) :
    Step rest b (b.endTag letters element.tag) [] [] := by
  have hinlined := @inlined_endTag letters b element.tag hinline
  have hframed : element.tag.isFramed = false := by
    obtain ⟨tag, start, headed⟩ := element
    cases tag <;> first | rfl | cases hinline
  obtain ⟨hrest, hadmits⟩ := h.shaped.tail hframed
  obtain ⟨tag, htag, hholds⟩ := hrest.holds_of_admits hadmits hinline ⟨rfl, rfl⟩
  have hhome : homeTag (element :: rest) = some tag := by
    rw [homeTag_cons_skip (.inl hinline), htag]
  refine ⟨(h.of_inlined hinlined (.inl ⟨tag, hhome, hholds⟩)).pop_inline (.inl hinline) hframed
    fun headed hplace => ?_, hinlined.wrote⟩
  rw [hplace] at hadmits
  cases headed with
  | false =>
      have heq : element.tag = .tableHead := Event.start.inj (of_decide_eq_true hadmits)
      rw [heq] at hinline
      cases hinline
  | true =>
      have heq : element.tag = .tableRow := Event.start.inj (of_decide_eq_true hadmits)
      rw [heq] at hinline
      cases hinline

theorem closing_of_ne {tag : Tag} (h : tag ≠ .tableHead) (rest : List Opened) :
    closing tag rest = rest := by
  cases rest with
  | nil => rfl
  | cons element rest => exact if_neg h

theorem step_finish {element : Opened} {rest : List Opened} (h : Tracked (element :: rest) b)
    (i : Nat) : Step (closing element.tag rest) b (b.endTag letters element.tag)
      (added letters b (.finish element.tag)) (placed letters b i (.finish element.tag)) := by
  obtain ⟨tag, start, headed⟩ := element
  by_cases hhead : tag = .tableHead
  · subst hhead
    exact step_finishHead h
  rw [closing_of_ne hhead]
  cases tag with
  | paragraph => exact step_flush h rfl rfl (h.code_none nofun) (h.metadata_none nofun)
  | heading level => exact step_flush h rfl rfl (h.code_none nofun) (h.metadata_none nofun)
  | htmlBlock => exact step_flush h rfl rfl (h.code_none nofun) (h.metadata_none nofun)
  | blockQuote => exact step_finishQuote h
  | codeBlock fenced => exact step_finishCode h
  | list number => exact step_finishList h
  | item => exact step_finishItem h
  | footnoteDefinition =>
      have hplace := Place.takesBlocks_of_admits (h.shaped.tail rfl).2 rfl
      exact ⟨h.pop_inline (.inr rfl) rfl fun _ => no_rows hplace, .same rfl rfl⟩
  | table => exact step_finishTable h
  | tableHead => exact absurd rfl hhead
  | tableRow => exact step_finishRow h
  | tableCell => exact step_finishCell h
  | metadataBlock yaml => exact step_finishMetadata h
  | emphasis => exact step_finishInline h rfl
  | strong => exact step_finishInline h rfl
  | strikethrough => exact step_finishInline h rfl
  | superscript => exact step_finishInline h rfl
  | subscript => exact step_finishInline h rfl
  | link destUrl => exact step_finishInline h rfl
  | image destUrl title => exact step_finishInline h rfl

/-! ## What stands between -/

theorem Shaped.task {task : Option Bool} {held : List Block} {rest : List Frame}
    (h : Shaped opened (.item task held :: rest)) (task' : Option Bool) :
    Shaped opened (.item task' held :: rest) := by
  generalize hframes : Frame.item task held :: rest = frames at h
  induction h with
  | document held => cases hframes
  | quote => cases hframes
  | list => cases hframes
  | item i headed task held hplace hrest =>
      cases hframes
      exact .item i headed task' _ hplace hrest
  | table => cases hframes
  | inside element hframed hadmits hrest ih => exact .inside element hframed hadmits (ih hframes)

theorem step_taskMarker (h : Tracked opened b) (done : Bool) :
    Step opened b (b.taskMarker done) [] [] := by
  rw [Builder.taskMarker]
  split
  · next task held rest hframes =>
      have hshaped := h.shaped
      rw [hframes] at hshaped
      refine ⟨⟨hshaped.task (some done), fun headed hrows => ?_, h.gathers, h.code, h.metadata⟩,
        ?_, (List.append_nil _).symm, ?_⟩
      · obtain ⟨head, rows, below, htable⟩ := h.rows headed hrows
        rw [hframes] at htable
        cases htable
      · rw [hframes]
        exact (List.append_nil _).symm
      · rw [hframes]
        cases rest <;> rfl
  · exact ⟨h, .same rfl rfl⟩

theorem atTop_flush (hclosable : Closable b) : atTop (b.flush letters).frames = atTop b.frames := by
  rcases @flush_frames letters b hclosable with
    heq | ⟨top, rest, block, htop, htakes, heq⟩ | ⟨head, rows, row, rest, cell, htop, heq⟩
  · rw [heq]
  · rw [heq, htop]
    cases rest <;> cases top <;> rfl
  · rw [heq, htop]
    rfl

theorem step_rule (h : Tracked opened b) (i : Nat)
    (hplace : (placeOf opened).takesBlocks = true) :
    Step opened b ((b.flush letters).pushBlock .rule i) (pending letters b ++ [.rule])
      (if atTop b.frames then [i] else []) := by
  have hcalm := @Tracked.calm_of_takes letters opened b h hplace
  obtain ⟨top, rest, htop, htakes⟩ := hcalm.shaped.takes hplace
  have hpush := wrote_pushBlock htop htakes .rule i
  rw [atTop_flush h.closable] at hpush
  exact ⟨tracked_pushBlock hcalm.shaped hplace hcalm.inline hcalm.code hcalm.metadata .rule i,
    hcalm.wrote.trans hpush⟩

theorem inlined_event (b : Builder) (i : Nat) {event : Event}
    (hkind : event.isText = true ∨ event.isHtml = true ∨ event.isInline = true)
    (hstart : ∀ tag, event ≠ .start tag) (htask : ∀ done, event ≠ .taskListMarker done) :
    Inlined b (b.event letters i event) := by
  cases event with
  | start tag => exact absurd rfl (hstart tag)
  | finish tag => rcases hkind with hkind | hkind | hkind <;> cases hkind
  | text text => exact inlined_textEvent b text
  | code text =>
      exact (inlined_pushStyle b _).trans ((inlined_addText _ text).trans (inlined_popStyle _))
  | inlineMath text => exact inlined_addText b _
  | displayMath text => exact inlined_addText b _
  | html source => exact inlined_html b source
  | inlineHtml source => exact inlined_html b source
  | softBreak => exact inlined_addText b _
  | hardBreak => exact inlined_pushInline b _
  | rule => rcases hkind with hkind | hkind | hkind <;> cases hkind
  | taskListMarker done => exact absurd rfl (htask done)
  | footnoteReference name => exact inlined_addText b _

/-- Text in a code block or in metadata does not touch the inlines. -/
theorem textEvent_inline {text : List Char} (h : Tracked opened b)
    (hplace : placeOf opened = .raw) : (b.textEvent text).inline = b.inline := by
  have hread : b.code.isSome = true ∨ b.metadata.isSome = true := by
    cases opened with
    | nil => cases hplace
    | cons element rest =>
        obtain ⟨tag, start, headed⟩ := element
        cases tag with
        | codeBlock fenced => exact .inl (h.code.2 ⟨fenced, rfl⟩)
        | metadataBlock yaml => exact .inr (h.metadata.2 ⟨yaml, rfl⟩)
        | _ => cases hplace
  rw [Builder.textEvent]
  split
  · rfl
  · rfl
  · next hcode hmetadata =>
      rw [hcode, hmetadata] at hread
      rcases hread with hread | hread <;> cases hread

theorem step_leaf (h : Tracked opened b) (i : Nat) {event : Event}
    (hstart : ∀ tag, event ≠ .start tag) (hadmits : (placeOf opened).admits event = true) :
    Step opened b (b.event letters i event) (added letters b event) (placed letters b i event) := by
  have hinlines (hkind : event.isText = true ∨ event.isHtml = true ∨ event.isInline = true)
      (htask : ∀ done, event ≠ .taskListMarker done)
      (hhome : (∃ tag, homeTag opened = some tag ∧ tag.holdsInlines = true) ∨
        (b.event letters i event).inline = b.inline) :
      Step opened b (b.event letters i event) [] [] :=
    ⟨h.of_inlined (inlined_event b i hkind hstart htask) hhome,
      (inlined_event b i hkind hstart htask).wrote⟩
  have hleaf (hinline : event.isInline = true) (htask : ∀ done, event ≠ .taskListMarker done)
      (hwritten : added letters b event = []) (hplaced : placed letters b i event = []) :
      Step opened b (b.event letters i event) (added letters b event)
        (placed letters b i event) := by
    rw [hwritten, hplaced]
    cases hplace : placeOf opened with
    | inlines =>
        exact hinlines (.inr (.inr hinline)) htask (.inl (h.shaped.holdsInlines (.inl hplace)))
    | item =>
        exact hinlines (.inr (.inr hinline)) htask (.inl (h.shaped.holdsInlines (.inr hplace)))
    | html =>
        refine hinlines (.inr (.inr hinline)) htask (.inl ?_)
        cases opened with
        | nil => cases hplace
        | cons element rest =>
            obtain ⟨tag, start, headed⟩ := element
            cases tag <;> first | exact ⟨.htmlBlock, rfl, rfl⟩ | cases hplace
    | raw =>
        rw [hplace] at hadmits
        cases event with
        | text text => exact hinlines (.inl rfl) htask (.inr (textEvent_inline h hplace))
        | _ => cases hadmits
    | rows headed =>
        rw [hplace] at hadmits
        cases event with
        | start tag => exact absurd rfl (hstart tag)
        | _ => cases hadmits
    | _ =>
        rw [hplace] at hadmits
        cases event with
        | start tag => exact absurd rfl (hstart tag)
        | rule => exact absurd hinline Bool.false_ne_true
        | _ => cases hadmits
  cases event with
  | start tag => exact absurd rfl (hstart tag)
  | finish tag =>
      cases hplace : placeOf opened <;> rw [hplace] at hadmits <;> cases hadmits
  | rule =>
      refine step_rule h i ?_
      cases hplace : placeOf opened <;> rw [hplace] at hadmits <;> first | rfl | cases hadmits
  | taskListMarker done => exact step_taskMarker h done
  | text _ => exact hleaf rfl nofun rfl rfl
  | code _ => exact hleaf rfl nofun rfl rfl
  | inlineMath _ => exact hleaf rfl nofun rfl rfl
  | displayMath _ => exact hleaf rfl nofun rfl rfl
  | html _ => exact hleaf rfl nofun rfl rfl
  | inlineHtml _ => exact hleaf rfl nofun rfl rfl
  | softBreak => exact hleaf rfl nofun rfl rfl
  | hardBreak => exact hleaf rfl nofun rfl rfl
  | footnoteReference _ => exact hleaf rfl nofun rfl rfl

end Markdown

end Throng
