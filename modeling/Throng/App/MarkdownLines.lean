import Throng.App.MarkdownDocument
import Throng.Core.LinkSafety

/-!
# Lines for scroll sync

For each of its blocks a document has the line that the block starts on. A paragraph's or
a heading's start is noted when it begins; a list, a quote, a table or code takes the start of
the outermost element that is open, which inside a footnote definition is the definition; and
the text of an HTML block takes that of the last paragraph or heading, whichever that was.
-/

namespace Throng

namespace Markdown

variable {letters : Links.Letters} {opened opened' : List Opened} {b : Builder} {r : Reading}

/-! ## Blocks that events add -/

/-- A block of the document itself, the event that adds it, where it starts in the source,
where the outermost element that is open does, and where the last paragraph or heading did. -/
structure Addition where
  event : Event
  own : Nat
  outer : Nat
  texted : Nat

/-- Where the source of what an event adds starts: with the element that ends. -/
def ownStart (opened : List Opened) (event : Event × Nat) : Nat :=
  match event.1, opened with
  | .finish _, element :: _ => element.start
  | _, _ => event.2

/-- Where the outermost element starts. -/
def outerStart (opened : List Opened) (event : Event × Nat) : Nat :=
  (opened.getLast?.map Opened.start).getD event.2

/-- Where the last paragraph or heading started. -/
def lastText (last : Nat) (event : Event × Nat) : Nat :=
  match event.1 with
  | .start .paragraph => event.2
  | .start (.heading _) => event.2
  | _ => last

/-- The blocks that the document itself gains while events are read. -/
def additions (letters : Links.Letters) :
    List Opened → Nat → Reading → List (Event × Nat) → List Addition
  | _, _, _, [] => []
  | opened, last, r, event :: events =>
      let r' := readEvent letters r event
      (if topBlocks r'.builder.frames = topBlocks r.builder.frames then []
        else [⟨event.1, ownStart opened event, outerStart opened event, last⟩]) ++
      additions letters ((nest opened event).getD []) (lastText last event) r' events

/-- The start that the builder has for a block. -/
def Addition.recorded (addition : Addition) : Nat :=
  match addition.event with
  | .finish .htmlBlock => addition.texted
  | .finish .blockQuote => addition.outer
  | .finish (.list _) => addition.outer
  | .finish .table => addition.outer
  | .finish (.codeBlock _) => addition.outer
  | .finish (.metadataBlock _) => addition.outer
  | _ => addition.own

/-- The positions that the builder takes a block's start from are on the line of the block: for
HTML the last paragraph or heading, for what has no start of its own the outermost element. -/
def StartsRight (text : List Char) (addition : Addition) : Prop :=
  match addition.event with
  | .finish .htmlBlock => lineAt text addition.texted = lineAt text addition.own
  | .finish .blockQuote => lineAt text addition.outer = lineAt text addition.own
  | .finish (.list _) => lineAt text addition.outer = lineAt text addition.own
  | .finish .table => lineAt text addition.outer = lineAt text addition.own
  | .finish (.codeBlock _) => lineAt text addition.outer = lineAt text addition.own
  | .finish (.metadataBlock _) => lineAt text addition.outer = lineAt text addition.own
  | _ => True

/-- Each block has the line its own source starts on. -/
structure LinesRight (text : List Char) (added : List Addition) (document : Document) : Prop where
  lines : document.lines = added.map fun addition => lineAt text addition.own
  length : document.lines.length = document.blocks.length
  sorted : document.lines.Pairwise (· ≤ ·)

/-- Where the source goes on: the end of an element repeats its range, and is left out. -/
def sources : List (Event × Nat) → List Nat
  | [] => []
  | (.finish _, _) :: events => sources events
  | (_, i) :: events => i :: sources events

/-- Source ranges go on in the text: elements and what stands between them start in order. -/
def Increasing (events : List (Event × Nat)) : Prop := (sources events).Pairwise (· ≤ ·)

theorem startsRight_iff (text : List Char) (addition : Addition) :
    StartsRight text addition ↔ lineAt text addition.recorded = lineAt text addition.own := by
  obtain ⟨event, own, outer, texted⟩ := addition
  have htrue (p : Prop) (hp : p) : True ↔ p := ⟨fun _ => hp, fun _ => trivial⟩
  cases event with
  | finish tag => cases tag <;> first | exact Iff.rfl | exact htrue _ rfl
  | _ => exact htrue _ rfl

/-! ## Positions -/

theorem flush_positions (b : Builder) : (b.flush letters).topStart = b.topStart ∧
    (b.flush letters).inlineStart = b.inlineStart := by
  obtain ⟨frames, anchors, starts, hflush⟩ := exists_flush letters b
  rw [hflush]
  exact ⟨rfl, rfl⟩

theorem startTag_positions (b : Builder) (i : Nat) (tag : Tag) :
    (b.startTag letters i tag).topStart = b.topStart ∧
      (b.startTag letters i tag).inlineStart = lastText b.inlineStart (.start tag, i) := by
  have hflush := @flush_positions letters b
  cases tag with
  | metadataBlock yaml => cases yaml <;> exact ⟨rfl, rfl⟩
  | paragraph => exact ⟨hflush.1, rfl⟩
  | heading level => exact ⟨hflush.1, rfl⟩
  | blockQuote => exact hflush
  | codeBlock fenced => exact hflush
  | htmlBlock => exact hflush
  | list number => exact hflush
  | item => exact hflush
  | table => exact hflush
  | _ => exact ⟨rfl, rfl⟩

theorem endTag_positions (b : Builder) (tag : Tag) :
    (b.endTag letters tag).topStart = b.topStart ∧
      (b.endTag letters tag).inlineStart = b.inlineStart := by
  have hflush := @flush_positions letters b
  cases tag with
  | paragraph => exact hflush
  | heading level => exact hflush
  | htmlBlock => exact hflush
  | tableCell => exact hflush
  | blockQuote =>
      rw [Builder.endTag, Builder.endQuote]
      dsimp only
      split <;> exact hflush
  | list number =>
      rw [Builder.endTag, Builder.endList]
      dsimp only
      split <;> exact hflush
  | item =>
      rw [Builder.endTag, Builder.endItem]
      dsimp only
      split <;> exact hflush
  | codeBlock fenced =>
      rw [Builder.endTag, Builder.endCode]
      split <;> exact ⟨rfl, rfl⟩
  | table =>
      rw [Builder.endTag, Builder.endTable]
      dsimp only
      split <;> exact ⟨rfl, rfl⟩
  | tableHead =>
      rw [Builder.endTag, Builder.endHead]
      split <;> exact ⟨rfl, rfl⟩
  | tableRow =>
      rw [Builder.endTag, Builder.endRow]
      split <;> exact ⟨rfl, rfl⟩
  | image destUrl title =>
      exact ⟨(inlined_endImage b).topStart, (inlined_endImage b).inlineStart⟩
  | metadataBlock yaml =>
      rw [Builder.endTag, Builder.endMetadata]
      split
      · rw [Builder.addMetadata]
        split <;> exact ⟨rfl, rfl⟩
      · exact ⟨rfl, rfl⟩
  | _ => exact ⟨rfl, rfl⟩

/-- Only a paragraph or a heading moves the start of the inlines. -/
theorem event_positions (b : Builder) (i : Nat) (event : Event) :
    (b.event letters i event).topStart = b.topStart ∧
      (b.event letters i event).inlineStart = lastText b.inlineStart (event, i) := by
  have hinlined {b' : Builder} (h : Inlined b b') :
      b'.topStart = b.topStart ∧ b'.inlineStart = b.inlineStart := ⟨h.topStart, h.inlineStart⟩
  cases event with
  | start tag => exact startTag_positions b i tag
  | finish tag => exact endTag_positions b tag
  | rule => exact @flush_positions letters b
  | taskListMarker done =>
      change (b.taskMarker done).topStart = b.topStart ∧
        (b.taskMarker done).inlineStart = b.inlineStart
      rw [Builder.taskMarker]
      split <;> exact ⟨rfl, rfl⟩
  | text text => exact hinlined (inlined_textEvent b text)
  | code text =>
      exact hinlined ((inlined_pushStyle b _).trans ((inlined_addText _ text).trans
        (inlined_popStyle _)))
  | inlineMath text => exact hinlined (inlined_addText b _)
  | displayMath text => exact hinlined (inlined_addText b _)
  | html source => exact hinlined (inlined_html b source)
  | inlineHtml source => exact hinlined (inlined_html b source)
  | softBreak => exact hinlined (inlined_addText b _)
  | hardBreak => exact hinlined (inlined_pushInline b _)
  | footnoteReference name => exact hinlined (inlined_addText b _)

/-- The positions the builder holds are those of the open elements and of what was read. -/
structure Positioned (opened : List Opened) (last : Nat) (r : Reading) : Prop where
  follows : Follows opened r
  outer : ∀ element, opened.getLast? = some element → r.builder.topStart = element.start
  texted : r.builder.inlineStart = last
  own : ∀ element, home opened = some element →
    (element.tag = .paragraph ∨ ∃ level, element.tag = .heading level) → last = element.start

theorem home_closing (tag : Tag) (rest : List Opened) :
    (home (closing tag rest)).map Opened.tag = (home rest).map Opened.tag := by
  cases rest with
  | nil => rfl
  | cons element rest =>
      rw [closing]
      split
      · rw [home, home]
        split <;> rfl
      · rfl

theorem mem_closing {tag : Tag} {rest : List Opened} {element : Opened}
    (h : element ∈ closing tag rest) :
    ∃ before ∈ rest, before.tag = element.tag ∧ before.start = element.start := by
  cases rest with
  | nil => cases h
  | cons first rest =>
      rw [closing] at h
      split at h
      · rcases List.mem_cons.1 h with rfl | hmem
        · exact ⟨first, List.mem_cons_self, rfl, rfl⟩
        · exact ⟨element, List.mem_cons_of_mem _ hmem, rfl, rfl⟩
      · exact ⟨element, h, rfl, rfl⟩

theorem getLast?_closing {tag : Tag} {element last : Opened} {rest : List Opened}
    (h : (closing tag rest).getLast? = some last) :
    ∃ before, (element :: rest).getLast? = some before ∧ before.start = last.start := by
  cases rest with
  | nil => cases h
  | cons first rest =>
      rw [List.getLast?_cons_cons]
      rw [closing] at h
      split at h
      · cases rest with
        | nil =>
            obtain rfl := Option.some.inj h
            exact ⟨first, rfl, rfl⟩
        | cons second rest =>
            rw [List.getLast?_cons_cons] at h ⊢
            exact ⟨last, h, rfl⟩
      · exact ⟨last, h, rfl⟩

theorem Positioned.start : Positioned [] 0 ⟨.start, 0⟩ where
  follows := .start
  outer := nofun
  texted := rfl
  own := nofun

/-- Nothing of the document itself begins inside an element. -/
theorem begun_of_cons {element : Opened} {rest : List Opened}
    (h : Follows (element :: rest) r) (event : Event × Nat) : begun r event = r.builder := by
  have hdepth : r.depth ≠ 0 := by
    rw [h.depth]
    exact Nat.succ_ne_zero _
  rw [begun, show (r.depth = 0 && event.1.begins) = false by simp [hdepth]]
  rfl

theorem Positioned.read {last : Nat} (h : Positioned opened last r) {event : Event × Nat}
    (hnest : nest opened event = some opened') :
    Positioned opened' (lastText last event) (readEvent letters r event) := by
  obtain ⟨hstart, htext⟩ := @event_positions letters (begun r event) event.2 event.1
  obtain ⟨topStart, hbegun⟩ := exists_begun r event
  have htexted : (begun r event).inlineStart = last := by
    rw [hbegun]
    exact h.texted
  have hshaped := h.follows.tracked.shaped
  obtain ⟨event, i⟩ := event
  refine ⟨h.follows.read hnest, ?_, ?_, ?_⟩
  · intro element helement
    rw [readEvent_eq]
    refine hstart.trans ?_
    rcases nest_cases hnest with ⟨tag, rfl, hadmits, rfl⟩ | ⟨closed, rest, rfl, rfl, rfl⟩ |
      ⟨hleaf, hadmits, rfl⟩
    · cases opened with
      | nil =>
          obtain rfl := Option.some.inj helement
          rw [begun, h.follows.depth]
          rfl
      | cons first rest =>
          rw [begun_of_cons h.follows]
          rw [List.getLast?_cons_cons] at helement
          exact h.outer element helement
    · rw [begun_of_cons h.follows]
      obtain ⟨before, hbefore, hsame⟩ := @getLast?_closing _ closed _ _ helement
      rw [h.outer before hbefore, hsame]
    · cases opened' with
      | nil => cases helement
      | cons first rest =>
          rw [begun_of_cons h.follows]
          exact h.outer element helement
  · rw [readEvent_eq]
    rw [htexted] at htext
    exact htext
  · intro element helement htag
    rcases nest_cases hnest with ⟨tag, rfl, hadmits, rfl⟩ | ⟨closed, rest, rfl, rfl, rfl⟩ |
      ⟨hleaf, hadmits, rfl⟩
    · rw [home] at helement
      split at helement
      · next hskip =>
          have hsame : lastText last (.start tag, i) = last := by
            cases tag <;> first | rfl | (rcases hskip with hskip | hskip <;> cases hskip)
          rw [hsame]
          exact h.own element helement htag
      · obtain rfl := Option.some.inj helement
        rcases htag with rfl | ⟨level, rfl⟩ <;> rfl
    · change last = element.start
      by_cases hskip : closed.tag.isInline = true ∨ closed.tag = .footnoteDefinition
      · have hne : closed.tag ≠ .tableHead := by
          rintro heq
          rw [heq] at hskip
          rcases hskip with hskip | hskip <;> cases hskip
        rw [closing_of_ne hne] at helement
        refine h.own element ?_ htag
        rw [home, if_pos hskip]
        exact helement
      · have hquiet : Quiet (homeTag rest) := by
          have hinline : closed.tag.isInline = false := by
            cases hvalue : closed.tag.isInline with
            | false => rfl
            | true => exact absurd (.inl hvalue) hskip
          exact hshaped.quiet_tail hinline
        have hhome := home_closing closed.tag rest
        rw [helement] at hhome
        rw [homeTag, ← hhome, Option.map_some] at hquiet
        rcases htag with htag | ⟨level, htag⟩ <;> rw [htag] at hquiet <;> cases hquiet
    · have hsame : lastText last (event, i) = last := by
        cases event with
        | start tag => exact absurd rfl (hleaf tag)
        | _ => rfl
      rw [hsame]
      exact h.own element helement htag

/-! ## What is recorded -/

theorem flushed_length (b : Builder) : (flushed letters b).length ≤ 1 := by
  rw [flushed]
  split <;> simp

/-- An event adds one block at most to the document itself. -/
theorem placed_length (b : Builder) (i : Nat) (event : Event) :
    (placed letters b i event).length ≤ 1 := by
  have hone (p : Bool) (start : Nat) : (if p then [start] else []).length ≤ 1 := by
    cases p <;> simp
  cases event with
  | finish tag =>
      cases tag with
      | paragraph => exact flushed_length b
      | heading level => exact flushed_length b
      | htmlBlock => exact flushed_length b
      | blockQuote => exact hone _ _
      | codeBlock fenced => exact hone _ _
      | list number => exact hone _ _
      | table => exact hone _ _
      | metadataBlock yaml => exact hone _ _
      | _ => exact Nat.zero_le 1
  | rule => exact hone _ _
  | _ => exact Nat.zero_le 1

theorem mem_flushed {b : Builder} {start : Nat} (h : start ∈ flushed letters b) :
    start = b.inlineStart ∧ atTop b.frames = true := by
  rw [flushed] at h
  split at h
  · next htop => exact ⟨List.mem_singleton.1 h, (Bool.and_eq_true_iff.1 htop).1⟩
  · cases h

theorem mem_placedAt {p : Bool} {start start' : Nat} (h : start ∈ if p then [start'] else []) :
    start = start' ∧ p = true := by
  cases p with
  | true => exact ⟨List.mem_singleton.1 h, rfl⟩
  | false => cases h

/-- The builder's start for a block. -/
theorem placed_eq {last : Nat} (h : Positioned opened last r) {event : Event × Nat}
    (hnest : nest opened event = some opened') {start : Nat}
    (hstart : start ∈ placed letters (begun r event) event.2 event.1) :
    start = (Addition.mk event.1 (ownStart opened event) (outerStart opened event)
      last).recorded := by
  obtain ⟨event, i⟩ := event
  rcases nest_cases hnest with ⟨tag, rfl, -, -⟩ | ⟨element, rest, rfl, rfl, rfl⟩ |
    ⟨hleaf, hadmits, rfl⟩
  · cases hstart
  · rw [begun_of_cons h.follows] at hstart
    have houter : r.builder.topStart = outerStart (element :: rest) (.finish element.tag, i) := by
      cases hlast : (element :: rest).getLast? with
      | none => exact absurd (List.getLast?_eq_none_iff.1 hlast) (List.cons_ne_nil _ _)
      | some outer =>
          rw [h.outer outer hlast, outerStart, hlast]
          rfl
    have htexted := h.texted
    obtain ⟨tag, begin, headed⟩ := element
    cases tag with
    | paragraph =>
        rw [(mem_flushed hstart).1, htexted]
        exact h.own _ rfl (.inl rfl)
    | heading level =>
        rw [(mem_flushed hstart).1, htexted]
        exact h.own _ rfl (.inr ⟨level, rfl⟩)
    | htmlBlock => exact (mem_flushed hstart).1.trans htexted
    | blockQuote => exact (mem_placedAt hstart).1.trans houter
    | codeBlock fenced => exact (mem_placedAt hstart).1.trans houter
    | list number => exact (mem_placedAt hstart).1.trans houter
    | table => exact (mem_placedAt hstart).1.trans houter
    | metadataBlock yaml => exact (mem_placedAt hstart).1.trans houter
    | _ => cases hstart
  · cases event with
    | start tag => exact absurd rfl (hleaf tag)
    | finish tag => cases hplace : placeOf opened' <;> rw [hplace] at hadmits <;> cases hadmits
    | rule => exact (mem_placedAt hstart).1
    | _ => cases hstart

/-- The addition of an event is the block that it places. -/
theorem additions_cons (h : Follows opened r) {event : Event × Nat}
    (hnest : nest opened event = some opened') (last : Nat) (events : List (Event × Nat)) :
    additions letters opened last r (event :: events) =
      ((placed letters (begun r event) event.2 event.1).map fun _ =>
        ⟨event.1, ownStart opened event, outerStart opened event, last⟩) ++
      additions letters opened' (lastText last event) (readEvent letters r event) events := by
  have hblocks := (@step_read letters _ _ _ h _ hnest).1.wrote.blocks
  obtain ⟨topStart, hbegun⟩ := exists_begun r event
  have hframes : (begun r event).frames = r.builder.frames := by rw [hbegun]
  rw [hframes] at hblocks
  rw [additions, hnest, Option.getD_some]
  refine congrArg (· ++ _) ?_
  have hlength := @placed_length letters (begun r event) event.2 event.1
  cases hlist : placed letters (begun r event) event.2 event.1 with
  | nil =>
      rw [hlist, List.length_nil, Nat.add_zero] at hblocks
      rw [if_pos hblocks]
      rfl
  | cons start starts =>
      rw [hlist] at hblocks hlength
      obtain rfl : starts = [] :=
        List.length_eq_zero_iff.1 (Nat.le_zero.1 (Nat.le_of_succ_le_succ hlength))
      rw [if_neg (by rw [hblocks]; exact Nat.succ_ne_self _)]
      rfl

/-- The starts of a run are those recorded for the blocks it adds. -/
theorem gained_eq {last : Nat} (h : Positioned opened last r) {events : List (Event × Nat)}
    (hnest : events.foldlM nest opened = some opened') :
    gained letters r events = (additions letters opened last r events).map Addition.recorded := by
  induction events generalizing opened last r with
  | nil => rfl
  | cons event events ih =>
      rw [List.foldlM_cons] at hnest
      obtain ⟨between, hbetween, hrest⟩ := Option.bind_eq_some_iff.1 hnest
      rw [gained, additions_cons h.follows hbetween, List.map_append, ih (h.read hbetween) hrest,
        List.map_map]
      refine congrArg (· ++ _) ((List.map_id _).symm.trans (List.map_congr_left ?_))
      intro start hstart
      exact placed_eq h hbetween hstart

/-! ## The order of the blocks -/

/-- Where the document itself takes a block, only footnote definitions are open. -/
theorem Shaped.all_footnotes {frames : List Frame} (h : Shaped opened frames)
    (hplace : (placeOf opened).takesBlocks = true) (htop : atTop frames = true) :
    ∀ element ∈ opened, element.tag = .footnoteDefinition := by
  induction h with
  | document held => exact nofun
  | quote => cases htop
  | list => cases htop
  | item => cases htop
  | table => cases htop
  | inside element hframed hadmits hrest ih =>
      have htag : element.tag = .footnoteDefinition := by
        obtain ⟨tag, start, headed⟩ := element
        cases tag <;> simp_all [placeOf, Opened.place, Place.takesBlocks, Tag.isFramed]
      intro other hmem
      rcases List.mem_cons.1 hmem with rfl | hmem
      · exact htag
      · exact ih (Place.takesBlocks_of_admits hadmits (by rw [htag]; rfl)) htop other hmem

/-- So are they once an event has added a block to it. -/
theorem footnotes_of_placed (h : Follows opened r) {event : Event × Nat}
    (hnest : nest opened event = some opened') {start : Nat}
    (hstart : start ∈ placed letters (begun r event) event.2 event.1) :
    (∀ element ∈ opened', element.tag = .footnoteDefinition) ∧
      ((∃ element rest, opened = element :: rest ∧ event.1 = .finish element.tag ∧
        element.tag ≠ .footnoteDefinition) ∨ event.1 = .rule) := by
  obtain ⟨event, i⟩ := event
  rcases nest_cases hnest with ⟨tag, rfl, -, -⟩ | ⟨element, rest, rfl, rfl, rfl⟩ |
    ⟨hleaf, hadmits, rfl⟩
  · cases hstart
  · rw [begun_of_cons h] at hstart
    have hshaped := h.tracked.shaped
    obtain ⟨tag, begin, headed⟩ := element
    have hblock (hframed : tag.isFramed = false) (hblock : tag.isBlock = true)
        (htop : atTop r.builder.frames = true) :
        ∀ element ∈ closing tag rest, element.tag = .footnoteDefinition := by
      obtain ⟨hrest, hadmits⟩ := hshaped.tail hframed
      rw [closing_of_ne (by rintro rfl; cases hblock)]
      exact hrest.all_footnotes (Place.takesBlocks_of_admits hadmits hblock) htop
    cases tag with
    | paragraph => exact ⟨hblock rfl rfl (mem_flushed hstart).2, .inl ⟨_, _, rfl, rfl, nofun⟩⟩
    | heading level => exact ⟨hblock rfl rfl (mem_flushed hstart).2, .inl ⟨_, _, rfl, rfl, nofun⟩⟩
    | htmlBlock => exact ⟨hblock rfl rfl (mem_flushed hstart).2, .inl ⟨_, _, rfl, rfl, nofun⟩⟩
    | codeBlock fenced =>
        exact ⟨hblock rfl rfl (mem_placedAt hstart).2, .inl ⟨_, _, rfl, rfl, nofun⟩⟩
    | metadataBlock yaml =>
        obtain ⟨hrest, hadmits⟩ := hshaped.tail rfl
        refine ⟨?_, .inl ⟨_, _, rfl, rfl, nofun⟩⟩
        have hplace : placeOf rest = .document := by
          rcases place_of_admits hadmits with
            hblock | hinline | ⟨_, htag⟩ | ⟨_, htag⟩ | ⟨_, htag⟩ | ⟨_, htag⟩ | ⟨hplace, -⟩
          · cases hblock
          · cases hinline
          · cases htag
          · cases htag
          · cases htag
          · cases htag
          · exact hplace
        rw [closing_of_ne (show Tag.metadataBlock yaml ≠ .tableHead from nofun)]
        exact hrest.all_footnotes (by rw [hplace]; rfl) (mem_placedAt hstart).2
    | blockQuote =>
        obtain ⟨held, below, hframes, hplace, hrest⟩ := hshaped.quote_frame
        refine ⟨?_, .inl ⟨_, _, rfl, rfl, nofun⟩⟩
        have htop := (mem_placedAt hstart).2
        rw [hframes] at htop
        rw [closing_of_ne (show Tag.blockQuote ≠ .tableHead from nofun)]
        exact hrest.all_footnotes hplace htop
    | list number =>
        obtain ⟨items, below, hframes, hplace, hrest⟩ := hshaped.list_frame
        refine ⟨?_, .inl ⟨_, _, rfl, rfl, nofun⟩⟩
        have htop := (mem_placedAt hstart).2
        rw [hframes] at htop
        rw [closing_of_ne (show Tag.list number ≠ .tableHead from nofun)]
        exact hrest.all_footnotes hplace htop
    | table =>
        obtain ⟨head, rows, below, hframes⟩ := h.tracked.rows headed rfl
        rw [hframes] at hshaped
        obtain ⟨_, _, heq, hplace, hrest⟩ := hshaped.table_of_rows rfl
        obtain rfl := (List.cons.inj heq).2
        refine ⟨?_, .inl ⟨_, _, rfl, rfl, nofun⟩⟩
        have htop := (mem_placedAt hstart).2
        rw [hframes] at htop
        rw [closing_of_ne (show Tag.table ≠ .tableHead from nofun)]
        exact hrest.all_footnotes hplace htop
    | _ => cases hstart
  · cases event with
    | start tag => exact absurd rfl (hleaf tag)
    | finish tag => cases hplace : placeOf opened' <;> rw [hplace] at hadmits <;> cases hadmits
    | rule =>
        have htop := (mem_placedAt hstart).2
        obtain ⟨topStart, hbegun⟩ := exists_begun r (.rule, i)
        rw [hbegun] at htop
        refine ⟨h.tracked.shaped.all_footnotes ?_ htop, .inr rfl⟩
        cases hplace : placeOf opened' <;> rw [hplace] at hadmits <;> first | rfl | cases hadmits
    | _ => cases hstart

/-- Blocks up to here start at `bound` at most, and the source is read up to `seen`. Of the open
elements only footnote definitions may have started before the last block. -/
structure Bounded (bound seen : Nat) (opened : List Opened) : Prop where
  bound_le : bound ≤ seen
  start_le : ∀ element ∈ opened, element.start ≤ seen
  le_start : ∀ element ∈ opened, element.tag ≠ .footnoteDefinition → bound ≤ element.start

/-- Where the source is read up to behind an event. -/
def readUpTo (seen : Nat) (event : Event × Nat) : Nat :=
  match event.1 with
  | .finish _ => seen
  | _ => event.2

theorem sources_cons {seen : Nat} {event : Event × Nat} {events : List (Event × Nat)}
    (h : (seen :: sources (event :: events)).Pairwise (· ≤ ·)) :
    seen ≤ readUpTo seen event ∧ (readUpTo seen event :: sources events).Pairwise (· ≤ ·) := by
  have hshape (i : Nat) (hcons : (seen :: i :: sources events).Pairwise (· ≤ ·)) :
      seen ≤ i ∧ (i :: sources events).Pairwise (· ≤ ·) := by
    obtain ⟨hle, hrest⟩ := List.pairwise_cons.1 hcons
    exact ⟨hle i List.mem_cons_self, hrest⟩
  obtain ⟨event, i⟩ := event
  cases event with
  | finish tag => exact ⟨Nat.le_refl _, h⟩
  | _ => exact hshape i h

/-- One event: the block that it adds starts behind those before it. -/
theorem Bounded.read {bound seen : Nat} (h : Bounded bound seen opened)
    (hfollows : Follows opened r) {event : Event × Nat} (hnest : nest opened event = some opened')
    (hseen : seen ≤ readUpTo seen event) :
    Bounded bound (readUpTo seen event) opened' ∧
      ∀ start ∈ placed letters (begun r event) event.2 event.1,
        bound ≤ ownStart opened event ∧
          Bounded (ownStart opened event) (readUpTo seen event) opened' := by
  have hopened : ∀ element ∈ opened', element.start ≤ readUpTo seen event ∧
      (element.tag ≠ .footnoteDefinition → bound ≤ element.start) := by
    intro element hmem
    obtain ⟨event, i⟩ := event
    rcases nest_cases hnest with ⟨tag, rfl, -, rfl⟩ | ⟨closed, rest, rfl, rfl, rfl⟩ |
      ⟨hleaf, -, rfl⟩
    · rcases List.mem_cons.1 hmem with rfl | hmem
      · exact ⟨Nat.le_refl _, fun _ => h.bound_le.trans hseen⟩
      · exact ⟨(h.start_le element hmem).trans hseen, h.le_start element hmem⟩
    · obtain ⟨before, hbefore, htag, hstart⟩ := mem_closing hmem
      rw [← htag, ← hstart]
      have hmem' := List.mem_cons_of_mem closed hbefore
      exact ⟨(h.start_le before hmem').trans hseen, h.le_start before hmem'⟩
    · exact ⟨(h.start_le element hmem).trans hseen, h.le_start element hmem⟩
  refine ⟨⟨h.bound_le.trans hseen, fun element hmem => (hopened element hmem).1,
    fun element hmem => (hopened element hmem).2⟩, fun start hmem => ?_⟩
  obtain ⟨hfootnotes, hadded⟩ := footnotes_of_placed hfollows hnest hmem
  have hown : bound ≤ ownStart opened event ∧ ownStart opened event ≤ readUpTo seen event := by
    obtain ⟨event, i⟩ := event
    rcases hadded with ⟨element, rest, rfl, rfl, htag⟩ | rfl
    · exact ⟨h.le_start element List.mem_cons_self htag,
        h.start_le element List.mem_cons_self⟩
    · exact ⟨h.bound_le.trans hseen, Nat.le_refl _⟩
  exact ⟨hown.1, hown.2, fun element hmem => (hopened element hmem).1,
    fun element hmem htag => absurd (hfootnotes element hmem) htag⟩

/-- The sources of the blocks that a run adds start in the order of the blocks. -/
theorem owns_sorted (h : Follows opened r) {bound seen last : Nat}
    (hbounded : Bounded bound seen opened) {events : List (Event × Nat)}
    (hnest : events.foldlM nest opened = some opened')
    (hincreasing : (seen :: sources events).Pairwise (· ≤ ·)) :
    (bound :: (additions letters opened last r events).map Addition.own).Pairwise (· ≤ ·) := by
  induction events generalizing opened bound seen last r with
  | nil => exact List.pairwise_singleton _ _
  | cons event events ih =>
      rw [List.foldlM_cons] at hnest
      obtain ⟨between, hbetween, hrest⟩ := Option.bind_eq_some_iff.1 hnest
      obtain ⟨hseen, hlater⟩ := sources_cons hincreasing
      obtain ⟨hkept, hadded⟩ := @Bounded.read letters _ _ _ _ _ hbounded h _ hbetween hseen
      have hlength := @placed_length letters (begun r event) event.2 event.1
      rw [additions_cons h hbetween]
      cases hlist : placed letters (begun r event) event.2 event.1 with
      | nil => exact ih (h.read hbetween) hkept hrest hlater
      | cons start starts =>
          rw [hlist] at hlength hadded
          obtain rfl : starts = [] :=
            List.length_eq_zero_iff.1 (Nat.le_zero.1 (Nat.le_of_succ_le_succ hlength))
          obtain ⟨hbound, hbounded'⟩ := hadded start List.mem_cons_self
          have hsorted : (ownStart opened event :: (additions letters between (lastText last event)
              (readEvent letters r event) events).map Addition.own).Pairwise (· ≤ ·) :=
            ih (h.read hbetween) hbounded' hrest hlater
          refine List.pairwise_cons.2 ⟨fun own hmem => ?_, hsorted⟩
          rcases List.mem_cons.1 hmem with rfl | hmem
          · exact hbound
          · exact hbound.trans ((List.pairwise_cons.1 hsorted).1 own hmem)

theorem length_autolinkBlocks (blocks : List Block) :
    (autolinkBlocks letters blocks).length = blocks.length := by
  induction blocks with
  | nil => rfl
  | cons block blocks ih => rw [autolinkBlocks, List.length_cons, ih, List.length_cons]

/-- Further on in the text is no earlier line. -/
theorem lineAt_mono (text : List Char) {i j : Nat} (h : i ≤ j) : lineAt text i ≤ lineAt text j := by
  have hprefix : ((0 :: lineStartsFrom 0 text).takeWhile (· ≤ i)).length ≤
      ((0 :: lineStartsFrom 0 text).takeWhile (· ≤ j)).length := by
    induction (0 :: lineStartsFrom 0 text) with
    | nil => exact Nat.le_refl _
    | cons start starts ih =>
        by_cases hi : start ≤ i
        · rw [List.takeWhile_cons_of_pos (by simpa using hi),
            List.takeWhile_cons_of_pos (by simpa using hi.trans h)]
          exact Nat.succ_le_succ ih
        · rw [List.takeWhile_cons_of_neg (by simpa using hi)]
          exact Nat.zero_le _
  exact Nat.sub_le_sub_right hprefix 1

/-! ## The lines of a document -/

/-- The blocks that the document of a stream gains. -/
def blocksAdded (letters : Links.Letters) (events : List (Event × Nat)) : List Addition :=
  additions letters [] 0 ⟨.start, 0⟩ events

/-- Each block of a document has the line that its own source starts on, and the lines are in
order, just when the positions that the builder takes starts from are on those lines. -/
theorem linesRight_iff (letters : Links.Letters) (text : List Char) (events : List (Event × Nat))
    (hnest : WellNested events) (hincreasing : Increasing events) :
    ∃ document, parse letters text events = some document ∧
      (LinesRight text (blocksAdded letters events) document ↔
        ∀ addition ∈ blocksAdded letters events, StartsRight text addition) := by
  obtain ⟨held, hparse, -, hlength⟩ := parse_wellNested letters text hnest
  refine ⟨_, hparse, ?_⟩
  rw [gained_eq Positioned.start hnest] at hlength ⊢
  have hsame : (((additions letters [] 0 ⟨.start, 0⟩ events).map Addition.recorded).map
        (lineAt text) =
      (additions letters [] 0 ⟨.start, 0⟩ events).map fun addition =>
        lineAt text addition.own) ↔
      ∀ addition ∈ blocksAdded letters events, StartsRight text addition := by
    rw [List.map_map, List.map_inj_left]
    exact forall₂_congr fun addition _ => (startsRight_iff text addition).symm
  refine ⟨fun hright => hsame.1 hright.lines, fun hall => ?_⟩
  have hlines := hsame.2 hall
  refine ⟨hlines, ?_, ?_⟩
  · rw [List.length_map, length_autolinkBlocks]
    exact hlength
  · have hsorted := (List.pairwise_cons.1 (@owns_sorted letters _ _ _ Follows.start 0 0 0
      ⟨Nat.le_refl _, nofun, nofun⟩ _ hnest
      (List.pairwise_cons.2 ⟨fun i _ => Nat.zero_le i, hincreasing⟩))).2
    dsimp only
    rw [hlines]
    rw [List.pairwise_map] at hsorted ⊢
    exact hsorted.imp fun h => lineAt_mono text h

/-- A footnote of a paragraph, a rule and a quote. -/
def footnote : List (Event × Nat) :=
  [(.start .footnoteDefinition, 0), (.start .paragraph, 6), (.text "b".toList, 6),
    (.finish .paragraph, 6), (.rule, 13), (.start .blockQuote, 22), (.start .paragraph, 24),
    (.text "c".toList, 24), (.finish .paragraph, 24), (.finish .blockQuote, 22),
    (.finish .footnoteDefinition, 0)]

def footnoteText : List Char := "[^a]: b\n\n    ***\n\n    > c\n".toList

theorem linesRight_footnote :
    ∃ document, parse Links.asciiLetters footnoteText footnote = some document ∧
      (LinesRight footnoteText (blocksAdded Links.asciiLetters footnote) document ↔
        ∀ addition ∈ blocksAdded Links.asciiLetters footnote,
          StartsRight footnoteText addition) :=
  linesRight_iff Links.asciiLetters footnoteText footnote (by decide)
    (show List.Pairwise (· ≤ ·) [0, 6, 6, 13, 22, 24, 24] by decide)

/-- The quote is on line 4, and gets line 0, behind the rule's line 2. -/
theorem not_linesRight : WellNested footnote ∧ Increasing footnote ∧
    ¬∃ document, parse Links.asciiLetters footnoteText footnote = some document ∧
      LinesRight footnoteText (blocksAdded Links.asciiLetters footnote) document := by
  refine ⟨by decide, show List.Pairwise (· ≤ ·) [0, 6, 6, 13, 22, 24, 24] by decide, ?_⟩
  rintro ⟨document, hparse, hright⟩
  have hlines : (parse Links.asciiLetters footnoteText footnote).map Document.lines =
      some [0, 2, 0] := by decide
  rw [hparse, Option.map_some, Option.some.injEq] at hlines
  have hsorted := hright.sorted
  rw [hlines] at hsorted
  exact absurd hsorted (by decide)

end Markdown

end Throng
