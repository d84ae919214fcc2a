import Throng.App.Markdown

/-!
# Well-nested Markdown

The parser hands over elements that are nested as Markdown nests them: blocks in the document,
in quotes, items and footnote definitions, rows and cells in tables, inlines in what holds
text. `nest` reads one event against the elements that are open. While it does not refuse,
the builder's frames are those of the open quotes, lists, items and tables, and what the inlines
being read become is settled by the innermost open element that is not an inline itself.
-/

namespace Throng

namespace Markdown

/-! ## Nesting -/

/-- An element that is open, where it starts, and, of a table, whether its head is over. -/
structure Opened where
  tag : Tag
  start : Nat
  headed : Bool
deriving DecidableEq, Repr

/-- What stands directly inside an element. -/
inductive Place
  | document
  | blocks
  | items
  | item
  | rows (headed : Bool)
  | cells
  | inlines
  | raw
  | html
deriving DecidableEq, Repr

def Opened.place (element : Opened) : Place :=
  match element.tag with
  | .blockQuote => .blocks
  | .footnoteDefinition => .blocks
  | .list _ => .items
  | .item => .item
  | .table => .rows element.headed
  | .tableHead => .cells
  | .tableRow => .cells
  | .codeBlock _ => .raw
  | .metadataBlock _ => .raw
  | .htmlBlock => .html
  | _ => .inlines

def placeOf : List Opened → Place
  | [] => .document
  | element :: _ => element.place

def Tag.isInline : Tag → Bool
  | .emphasis => true
  | .strong => true
  | .strikethrough => true
  | .superscript => true
  | .subscript => true
  | .link _ => true
  | .image _ _ => true
  | _ => false

def Tag.isBlock : Tag → Bool
  | .paragraph => true
  | .heading _ => true
  | .blockQuote => true
  | .codeBlock _ => true
  | .htmlBlock => true
  | .list _ => true
  | .footnoteDefinition => true
  | .table => true
  | _ => false

def Event.isInline : Event → Bool
  | .start tag => tag.isInline
  | .finish _ => false
  | .rule => false
  | _ => true

def Event.isBlock : Event → Bool
  | .start tag => tag.isBlock
  | .rule => true
  | _ => false

def Event.isText : Event → Bool
  | .text _ => true
  | _ => false

def Event.isHtml : Event → Bool
  | .html _ => true
  | .inlineHtml _ => true
  | .text _ => true
  | _ => false

/-- What may begin here. -/
def Place.admits : Place → Event → Bool
  | .document, event => event.isBlock || event = .start (.metadataBlock true)
  | .blocks, event => event.isBlock
  | .item, event => event.isBlock || event.isInline
  | .items, event => event = .start .item
  | .rows headed, event => event = .start (if headed then .tableRow else .tableHead)
  | .cells, event => event = .start .tableCell
  | .inlines, event => event.isInline
  | .raw, event => event.isText
  | .html, event => event.isHtml

/-- The elements that are left open when one ends: its table has its head then, if it was that. -/
def closing (tag : Tag) : List Opened → List Opened
  | element :: rest =>
      if tag = .tableHead then { element with headed := true } :: rest else element :: rest
  | [] => []

/-- Read an event against the open elements, innermost first. -/
def nest (opened : List Opened) : Event × Nat → Option (List Opened)
  | (.start tag, i) =>
      if (placeOf opened).admits (.start tag) then some (⟨tag, i, false⟩ :: opened) else none
  | (.finish tag, _) =>
      match opened with
      | element :: rest => if element.tag = tag then some (closing tag rest) else none
      | [] => none
  | (event, _) => if (placeOf opened).admits event then some opened else none

/-- Every element that is opened is closed, and holds what it may. -/
def WellNested (events : List (Event × Nat)) : Prop := events.foldlM nest [] = some []

instance (events : List (Event × Nat)) : Decidable (WellNested events) :=
  inferInstanceAs (Decidable (_ = _))

/-- What an event that is not refused does to the open elements. -/
theorem nest_cases {opened opened' : List Opened} {event : Event} {i : Nat}
    (h : nest opened (event, i) = some opened') :
    (∃ tag, event = .start tag ∧ (placeOf opened).admits event = true ∧
      opened' = ⟨tag, i, false⟩ :: opened) ∨
    (∃ element rest, event = .finish element.tag ∧ opened = element :: rest ∧
      opened' = closing element.tag rest) ∨
    ((∀ tag, event ≠ .start tag) ∧ (placeOf opened).admits event = true ∧ opened' = opened) := by
  have hleaf (hshape : nest opened (event, i) =
      if (placeOf opened).admits event then some opened else none) :
      (placeOf opened).admits event = true ∧ opened' = opened := by
    rw [hshape] at h
    split at h
    · next hadmits => exact ⟨hadmits, (Option.some.inj h).symm⟩
    · cases h
  cases event with
  | start tag =>
      change (if (placeOf opened).admits (.start tag) then some (⟨tag, i, false⟩ :: opened)
        else none) = _ at h
      split at h
      · next hadmits => exact .inl ⟨tag, rfl, hadmits, (Option.some.inj h).symm⟩
      · cases h
  | finish tag =>
      cases opened with
      | nil => cases h
      | cons element rest =>
          change (if element.tag = tag then some (closing tag rest) else none) = _ at h
          split at h
          · next htag =>
              subst htag
              exact .inr (.inl ⟨element, rest, rfl, rfl, (Option.some.inj h).symm⟩)
          · cases h
  | text _ => exact .inr (.inr ⟨nofun, hleaf rfl⟩)
  | code _ => exact .inr (.inr ⟨nofun, hleaf rfl⟩)
  | inlineMath _ => exact .inr (.inr ⟨nofun, hleaf rfl⟩)
  | displayMath _ => exact .inr (.inr ⟨nofun, hleaf rfl⟩)
  | html _ => exact .inr (.inr ⟨nofun, hleaf rfl⟩)
  | inlineHtml _ => exact .inr (.inr ⟨nofun, hleaf rfl⟩)
  | softBreak => exact .inr (.inr ⟨nofun, hleaf rfl⟩)
  | hardBreak => exact .inr (.inr ⟨nofun, hleaf rfl⟩)
  | rule => exact .inr (.inr ⟨nofun, hleaf rfl⟩)
  | taskListMarker _ => exact .inr (.inr ⟨nofun, hleaf rfl⟩)
  | footnoteReference _ => exact .inr (.inr ⟨nofun, hleaf rfl⟩)

/-! ## Frames -/

/-- Blocks may stand directly in here. -/
def Place.takesBlocks : Place → Bool
  | .document => true
  | .blocks => true
  | .item => true
  | _ => false

/-- The elements that a frame is kept for. -/
def Tag.isFramed : Tag → Bool
  | .blockQuote => true
  | .list _ => true
  | .item => true
  | .table => true
  | _ => false

/-- The frames are those of the open elements, and each of these stands where it may. -/
inductive Shaped : List Opened → List Frame → Prop
  | document (held : List Block) : Shaped [] [.blocks held]
  | quote {opened : List Opened} {frames : List Frame} (i : Nat) (headed : Bool)
      (held : List Block) : (placeOf opened).takesBlocks = true → Shaped opened frames →
      Shaped (⟨.blockQuote, i, headed⟩ :: opened) (.quote held :: frames)
  | list {opened : List Opened} {frames : List Frame} (number : Option Nat) (i : Nat)
      (headed : Bool) (items : List Item) : (placeOf opened).takesBlocks = true →
      Shaped opened frames →
      Shaped (⟨.list number, i, headed⟩ :: opened) (.list number items :: frames)
  | item {opened : List Opened} {frames : List Frame} (i : Nat) (headed : Bool)
      (task : Option Bool) (held : List Block) : placeOf opened = .items →
      Shaped opened frames → Shaped (⟨.item, i, headed⟩ :: opened) (.item task held :: frames)
  | table {opened : List Opened} {frames : List Frame} (i : Nat) (headed : Bool)
      (head : List (List Inline)) (rows : List (List (List Inline))) (row : List (List Inline)) :
      (placeOf opened).takesBlocks = true → (headed = false → head = [] ∧ rows = []) →
      Shaped opened frames →
      Shaped (⟨.table, i, headed⟩ :: opened) (.table head rows row :: frames)
  | inside {opened : List Opened} {frames : List Frame} (element : Opened) :
      element.tag.isFramed = false → (placeOf opened).admits (.start element.tag) = true →
      Shaped opened frames → Shaped (element :: opened) frames

/-- Blocks begin where blocks may stand. -/
theorem Place.takesBlocks_of_admits {place : Place} {tag : Tag}
    (h : place.admits (.start tag) = true) (hblock : tag.isBlock = true) :
    place.takesBlocks = true := by
  cases place with
  | document => rfl
  | blocks => rfl
  | item => rfl
  | rows headed => cases headed <;> cases tag <;> simp_all [admits, Tag.isBlock]
  | _ => cases tag <;> simp_all [admits, Tag.isBlock, Tag.isInline, Event.isInline, Event.isText,
      Event.isHtml]

/-- Where blocks may stand, the innermost frame takes them. -/
theorem Shaped.takes {opened : List Opened} {frames : List Frame} (h : Shaped opened frames)
    (hplace : (placeOf opened).takesBlocks = true) :
    ∃ top rest, frames = top :: rest ∧ top.takes = true := by
  induction h with
  | document held => exact ⟨_, _, rfl, rfl⟩
  | quote => exact ⟨_, _, rfl, rfl⟩
  | list => cases hplace
  | item => exact ⟨_, _, rfl, rfl⟩
  | table => cases hplace
  | inside element hframed hadmits _ ih =>
      refine ih (Place.takesBlocks_of_admits hadmits ?_)
      obtain ⟨tag, start, headed⟩ := element
      cases tag <;> simp_all [placeOf, Opened.place, Place.takesBlocks, Tag.isBlock, Tag.isFramed]

theorem Shaped.takes_of_block {opened : List Opened} {frames : List Frame}
    (h : Shaped opened frames) {tag : Tag} (hadmits : (placeOf opened).admits (.start tag) = true)
    (hblock : tag.isBlock = true) : ∃ top rest, frames = top :: rest ∧ top.takes = true :=
  h.takes (Place.takesBlocks_of_admits hadmits hblock)

/-- Items stand in a list. -/
theorem Shaped.items {opened : List Opened} {frames : List Frame} (h : Shaped opened frames)
    (hplace : placeOf opened = .items) :
    ∃ number items rest, frames = .list number items :: rest := by
  cases h with
  | document held => cases hplace
  | quote => cases hplace
  | list => exact ⟨_, _, _, rfl⟩
  | item => cases hplace
  | table => cases hplace
  | inside element hframed =>
      obtain ⟨tag, start, headed⟩ := element
      cases tag <;> simp_all [placeOf, Opened.place, Tag.isFramed]

/-- Rows stand in a table. -/
theorem Shaped.rows {opened : List Opened} {frames : List Frame} (h : Shaped opened frames)
    {headed : Bool} (hplace : placeOf opened = .rows headed) :
    ∃ head rows row rest, frames = .table head rows row :: rest ∧
      (headed = false → head = [] ∧ rows = []) := by
  cases h with
  | document held => cases hplace
  | quote => cases hplace
  | list => cases hplace
  | item => cases hplace
  | table i headed' head rows row _ hempty =>
      obtain rfl : headed' = headed := by simpa [placeOf, Opened.place] using hplace
      exact ⟨_, _, _, _, rfl, hempty⟩
  | inside element hframed =>
      obtain ⟨tag, start, headed⟩ := element
      cases tag <;> simp_all [placeOf, Opened.place, Tag.isFramed]

/-- Cells stand in a table's row or head. -/
theorem Shaped.cells {opened : List Opened} {frames : List Frame} (h : Shaped opened frames)
    (hplace : placeOf opened = .cells) :
    ∃ head rows row rest, frames = .table head rows row :: rest := by
  cases h with
  | document held => cases hplace
  | quote => cases hplace
  | list => cases hplace
  | item => cases hplace
  | table => cases hplace
  | @inside opened frames element hframed hadmits hrest =>
      have hrows : ∃ headed, placeOf opened = .rows headed := by
        obtain ⟨tag, start, headed⟩ := element
        cases hparent : placeOf opened with
        | rows headed => exact ⟨headed, rfl⟩
        | _ =>
            rw [hparent] at hadmits
            cases tag <;> simp_all [placeOf, Opened.place, Place.admits, Event.isBlock,
              Event.isInline, Event.isText, Event.isHtml, Tag.isBlock, Tag.isInline]
      obtain ⟨headed, hheaded⟩ := hrows
      obtain ⟨head, rows, row, rest, hframes, -⟩ := hrest.rows hheaded
      exact ⟨head, rows, row, rest, hframes⟩

/-! ## What inlines become -/

/-- The innermost element that is no inline; footnote definitions do not count. -/
def home : List Opened → Option Opened
  | [] => none
  | element :: rest =>
      if element.tag.isInline = true ∨ element.tag = .footnoteDefinition then home rest
      else some element

def homeTag (opened : List Opened) : Option Tag := (home opened).map Opened.tag

/-- What the inlines being read become in an element. -/
def Gathers : Option Tag → Option (Gather × List Inline) → Prop
  | some .paragraph, gathered => ∃ inlines, gathered = some (.paragraph, inlines)
  | some (.heading level), gathered => ∃ inlines, gathered = some (.heading level, inlines)
  | some .tableCell, gathered => ∃ inlines, gathered = some (.cell, inlines)
  | some .item, gathered => gathered = none ∨ ∃ inlines, gathered = some (.paragraph, inlines)
  | some .htmlBlock, gathered => gathered = none ∨ ∃ inlines, gathered = some (.paragraph, inlines)
  | _, gathered => gathered = none

/-- The elements that inlines may be read in. -/
def Tag.holdsInlines : Tag → Bool
  | .paragraph => true
  | .heading _ => true
  | .tableCell => true
  | .item => true
  | .htmlBlock => true
  | _ => false

theorem homeTag_cons_of {element : Opened} {opened : List Opened}
    (h : ¬(element.tag.isInline = true ∨ element.tag = .footnoteDefinition)) :
    homeTag (element :: opened) = some element.tag := by
  rw [homeTag, home, if_neg h]
  rfl

theorem homeTag_cons_skip {element : Opened} {opened : List Opened}
    (h : element.tag.isInline = true ∨ element.tag = .footnoteDefinition) :
    homeTag (element :: opened) = homeTag opened := by
  rw [homeTag, home, if_pos h]
  rfl

/-- Where blocks may stand, inlines are read in an item or not at all. -/
theorem Shaped.homeTag_of_takes {opened : List Opened} {frames : List Frame}
    (h : Shaped opened frames) (hplace : (placeOf opened).takesBlocks = true) :
    homeTag opened = none ∨ homeTag opened = some .blockQuote ∨ homeTag opened = some .item := by
  induction h with
  | document held => exact .inl rfl
  | quote => exact .inr (.inl rfl)
  | list => cases hplace
  | item => exact .inr (.inr rfl)
  | table => cases hplace
  | inside element hframed hadmits _ ih =>
      have htag : element.tag = .footnoteDefinition := by
        obtain ⟨tag, start, headed⟩ := element
        cases tag <;> simp_all [placeOf, Opened.place, Place.takesBlocks, Tag.isFramed]
      rw [homeTag_cons_skip (.inr htag)]
      exact ih (Place.takesBlocks_of_admits hadmits (by rw [htag]; rfl))

/-- Inlines are read in what holds them. -/
theorem Shaped.holdsInlines {opened : List Opened} {frames : List Frame}
    (h : Shaped opened frames) (hplace : placeOf opened = .inlines ∨ placeOf opened = .item) :
    ∃ tag, homeTag opened = some tag ∧ tag.holdsInlines = true := by
  induction h with
  | document held => rcases hplace with hplace | hplace <;> cases hplace
  | quote => rcases hplace with hplace | hplace <;> cases hplace
  | list => rcases hplace with hplace | hplace <;> cases hplace
  | item => exact ⟨.item, rfl, rfl⟩
  | table => rcases hplace with hplace | hplace <;> cases hplace
  | @inside opened frames element hframed hadmits _ ih =>
      by_cases hinline : element.tag.isInline = true
      · rw [homeTag_cons_skip (.inl hinline)]
        refine ih ?_
        obtain ⟨tag, start, headed⟩ := element
        cases hparent : placeOf opened with
        | inlines => exact .inl rfl
        | item => exact .inr rfl
        | rows headed =>
            rw [hparent] at hadmits
            cases headed <;> cases tag <;> simp_all [Place.admits, Tag.isInline]
        | _ =>
            rw [hparent] at hadmits
            cases tag <;> simp_all [Place.admits, Event.isBlock, Tag.isBlock, Event.isText,
              Event.isHtml, Tag.isInline]
      · obtain ⟨tag, start, headed⟩ := element
        refine ⟨tag, homeTag_cons_of ?_, ?_⟩ <;>
          cases tag <;> simp_all [placeOf, Opened.place, Tag.isInline, Tag.holdsInlines]

/-- What is read in an element that holds inlines can be closed: the innermost frame takes a
block, or it is the table the cell is in. -/
theorem Shaped.home_frame {opened : List Opened} {frames : List Frame} (h : Shaped opened frames)
    {tag : Tag} (htag : homeTag opened = some tag) (hinlines : tag.holdsInlines = true) :
    (tag ≠ .tableCell → ∃ top rest, frames = top :: rest ∧ top.takes = true) ∧
      (tag = .tableCell → ∃ head rows row rest, frames = .table head rows row :: rest) := by
  induction h with
  | document held => cases htag
  | quote =>
      obtain rfl := Option.some.inj htag
      cases hinlines
  | list number =>
      obtain rfl := Option.some.inj htag
      cases hinlines
  | item =>
      obtain rfl := Option.some.inj htag
      exact ⟨fun _ => ⟨_, _, rfl, rfl⟩, nofun⟩
  | table =>
      obtain rfl := Option.some.inj htag
      cases hinlines
  | @inside opened frames element hframed hadmits hrest ih =>
      by_cases hskip : element.tag.isInline = true ∨ element.tag = .footnoteDefinition
      · rw [homeTag_cons_skip hskip] at htag
        exact ih htag
      · rw [homeTag_cons_of hskip, Option.some.injEq] at htag
        rw [htag] at hadmits
        refine ⟨fun hcell => hrest.takes_of_block hadmits ?_, fun hcell => hrest.cells ?_⟩
        · cases tag <;> simp_all [Tag.isFramed, Tag.holdsInlines, Tag.isBlock]
        · rw [hcell] at hadmits
          cases hparent : placeOf opened with
          | cells => rfl
          | rows headed =>
              rw [hparent] at hadmits
              cases headed <;> simp [Place.admits] at hadmits
          | _ =>
              rw [hparent] at hadmits
              simp [Place.admits, Event.isBlock, Event.isInline, Event.isText, Event.isHtml,
                Tag.isBlock, Tag.isInline] at hadmits

end Markdown

end Throng
