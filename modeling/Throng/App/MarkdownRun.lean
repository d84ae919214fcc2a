import Throng.App.MarkdownNesting

/-!
# What a run of the builder writes

The leaves of a document are its paragraphs, headings, cells, code blocks and the like, in
reading order. An event of a well-nested document adds to those of the open frames what it
closes, and to the document's own blocks at most one, whose start it records. So nothing that is
closed is lost, moved or written twice.
-/

namespace Throng

namespace Markdown

/-! ## Leaves -/

/-- A part of a document that holds no other. -/
inductive Leaf
  | text (inlines : List Inline)
  | heading (level : Nat) (inlines : List Inline) (anchor : List Char)
  | code (language text : List Char)
  | rule
  | frontMatter (pairs : List (List Char × List Char))
deriving DecidableEq, Repr

/-- The cells of a table's rows. -/
def cellLeaves (rows : List (List (List Inline))) : List Leaf := rows.flatten.map .text

mutual

def Block.leaves : Block → List Leaf
  | .heading level inlines anchor => [.heading level inlines anchor]
  | .paragraph inlines => [.text inlines]
  | .list _ items => leavesOfItems items
  | .quote blocks => leavesOfBlocks blocks
  | .code language text => [.code language text]
  | .table head rows => cellLeaves (head :: rows)
  | .rule => [.rule]
  | .frontMatter pairs => [.frontMatter pairs]

def leavesOfBlocks : List Block → List Leaf
  | [] => []
  | block :: blocks => block.leaves ++ leavesOfBlocks blocks

def Item.leaves : Item → List Leaf
  | .mk _ blocks => leavesOfBlocks blocks

def leavesOfItems : List Item → List Leaf
  | [] => []
  | item :: items => item.leaves ++ leavesOfItems items

end

theorem leavesOfBlocks_concat (blocks : List Block) (block : Block) :
    leavesOfBlocks (blocks ++ [block]) = leavesOfBlocks blocks ++ block.leaves := by
  induction blocks with
  | nil => exact List.append_nil _
  | cons first blocks ih => rw [List.cons_append, leavesOfBlocks, leavesOfBlocks, ih,
      List.append_assoc]

theorem leavesOfItems_concat (items : List Item) (item : Item) :
    leavesOfItems (items ++ [item]) = leavesOfItems items ++ item.leaves := by
  induction items with
  | nil => exact List.append_nil _
  | cons first items ih => rw [List.cons_append, leavesOfItems, leavesOfItems, ih,
      List.append_assoc]

theorem cellLeaves_concat (rows : List (List (List Inline))) (row : List (List Inline)) :
    cellLeaves (rows ++ [row]) = cellLeaves rows ++ row.map .text := by
  rw [cellLeaves, List.flatten_append, List.map_append, List.flatten_singleton]
  rfl

def Frame.leaves : Frame → List Leaf
  | .blocks held => leavesOfBlocks held
  | .quote held => leavesOfBlocks held
  | .list _ items => leavesOfItems items
  | .item _ held => leavesOfBlocks held
  | .table head rows row => cellLeaves (head :: rows) ++ row.map .text

/-- What all frames hold, in reading order. -/
def leavesOf : List Frame → List Leaf
  | [] => []
  | frame :: frames => leavesOf frames ++ frame.leaves

/-- How many blocks the document itself has. -/
def topBlocks : List Frame → Nat
  | [] => 0
  | [.blocks held] => held.length
  | _ :: frames => topBlocks frames

theorem topBlocks_cons {frame other : Frame} {frames : List Frame} :
    topBlocks (frame :: other :: frames) = topBlocks (other :: frames) := by
  cases frame <;> rfl

theorem Frame.leaves_push {frame : Frame} (h : frame.takes = true) (block : Block) :
    (frame.push block).leaves = frame.leaves ++ block.leaves := by
  cases frame with
  | blocks held => exact leavesOfBlocks_concat held block
  | quote held => exact leavesOfBlocks_concat held block
  | item task held => exact leavesOfBlocks_concat held block
  | list number items => cases h
  | table head rows row => cases h

/-! ## What a change writes -/

/-- From one builder to the other, leaves are written in reading order, and for each block that
the document itself gains its start. -/
structure Wrote (b b' : Builder) (written : List Leaf) (gained : List Nat) : Prop where
  leaves : leavesOf b'.frames = leavesOf b.frames ++ written
  starts : b'.starts = b.starts ++ gained
  blocks : topBlocks b'.frames = topBlocks b.frames + gained.length

theorem Wrote.trans {b b' b'' : Builder} {written written' : List Leaf} {gained gained' : List Nat}
    (h : Wrote b b' written gained) (h' : Wrote b' b'' written' gained') :
    Wrote b b'' (written ++ written') (gained ++ gained') where
  leaves := by rw [h'.leaves, h.leaves, List.append_assoc]
  starts := by rw [h'.starts, h.starts, List.append_assoc]
  blocks := by rw [h'.blocks, h.blocks, List.length_append, Nat.add_assoc]

/-- Nothing is written while the frames stay as they are. -/
theorem Wrote.same {b b' : Builder} (hframes : b'.frames = b.frames)
    (hstarts : b'.starts = b.starts) : Wrote b b' [] [] where
  leaves := by rw [hframes, List.append_nil]
  starts := by rw [hstarts, List.append_nil]
  blocks := by rw [hframes]; rfl

/-- A new frame that holds nothing yet. -/
theorem Wrote.opened {b b' : Builder} {frame top : Frame} {rest : List Frame}
    (htop : b.frames = top :: rest) (hframes : b'.frames = frame :: b.frames)
    (hempty : frame.leaves = []) (hstarts : b'.starts = b.starts) : Wrote b b' [] [] where
  leaves := by rw [hframes, leavesOf, hempty]
  starts := by rw [hstarts, List.append_nil]
  blocks := by
    rw [hframes, htop, topBlocks_cons]
    rfl

/-- A block goes into the innermost frame: it is the document's own if that is the only one. -/
theorem wrote_pushBlock {b : Builder} {top : Frame} {rest : List Frame}
    (htop : b.frames = top :: rest) (htakes : top.takes = true) (block : Block) (start : Nat) :
    Wrote b (b.pushBlock block start) block.leaves (if atTop b.frames then [start] else []) := by
  have hframes : (b.pushBlock block start).frames = top.push block :: rest := by
    rw [Builder.pushBlock, htop]
    change pushOnto block (top :: rest) = _
    rw [pushOnto, if_pos htakes]
  refine ⟨?_, ?_, ?_⟩
  · rw [hframes, htop, leavesOf, leavesOf, Frame.leaves_push htakes, List.append_assoc]
  · rw [Builder.pushBlock]
    cases atTop b.frames with
    | true => rfl
    | false => exact (List.append_nil _).symm
  · rw [hframes, htop]
    cases rest with
    | cons other rest =>
        rw [topBlocks_cons, topBlocks_cons]
        cases top <;> rfl
    | nil =>
        cases top with
        | blocks held => exact List.length_append
        | quote held => rfl
        | item task held => rfl
        | list number items => cases htakes
        | table head rows row => cases htakes

/-- A frame is closed: what it holds goes into the one around it as a block. -/
theorem wrote_close {b : Builder} {frame top : Frame} {rest : List Frame} {block : Block}
    (hframes : b.frames = frame :: top :: rest) (htakes : top.takes = true)
    (hleaves : block.leaves = frame.leaves) (start : Nat) :
    Wrote b ({ b with frames := b.frames.tail }.pushBlock block start) []
      (if atTop b.frames.tail then [start] else []) := by
  have htail : ({ b with frames := b.frames.tail } : Builder).frames = top :: rest := by
    rw [hframes]
    rfl
  have hpush := wrote_pushBlock htail htakes block start
  refine ⟨?_, hpush.starts, ?_⟩
  · rw [hpush.leaves, htail, hleaves, hframes, List.append_nil]
    rfl
  · rw [hpush.blocks, htail, hframes, topBlocks_cons]
    rfl

/-! ## Flushing -/

/-- What the inlines being read become when they are flushed. -/
def pending (letters : Links.Letters) (b : Builder) : List Leaf :=
  match b.inline with
  | none => []
  | some (.paragraph, inlines) => if inlines.all Builder.isBlank then [] else [.text inlines]
  | some (.heading level, inlines) =>
      let base := slug letters (inlineText inlines)
      [.heading level inlines (Builder.numbered base (b.anchors base))]
  | some (.cell, inlines) => [.text inlines]

/-- Where a block of the document itself starts that flushing adds. -/
def flushed (letters : Links.Letters) (b : Builder) : List Nat :=
  if atTop b.frames && !(pending letters b).isEmpty then [b.inlineStart] else []

/-- The inlines being read have a frame to go into. -/
def Closable (b : Builder) : Prop :=
  ∀ gathered inlines, b.inline = some (gathered, inlines) →
    (gathered ≠ .cell → ∃ top rest, b.frames = top :: rest ∧ top.takes = true) ∧
      (gathered = .cell → ∃ head rows row rest, b.frames = .table head rows row :: rest)

variable {letters : Links.Letters}

/-- Flushing changes the frames, the anchors and the starts, and ends the inlines. -/
theorem exists_flush (letters : Links.Letters) (b : Builder) : ∃ frames anchors starts,
    b.flush letters =
      { b with inline := none, frames := frames, anchors := anchors, starts := starts } := by
  rw [Builder.flush]
  split
  · next hinline => exact ⟨b.frames, b.anchors, b.starts, by rw [← hinline]⟩
  · dsimp only
    split
    · exact ⟨_, _, _, rfl⟩
    · exact ⟨_, _, _, rfl⟩
  · exact ⟨_, _, _, rfl⟩
  · dsimp only
    split
    · exact ⟨_, _, _, rfl⟩
    · exact ⟨_, _, _, rfl⟩

theorem flush_of_none {b : Builder} (h : b.inline = none) : b.flush letters = b := by
  rw [Builder.flush, h]

theorem flush_inline (b : Builder) : (b.flush letters).inline = none := by
  obtain ⟨frames, anchors, starts, hflush⟩ := exists_flush letters b
  rw [hflush]

/-- What flushing writes. -/
theorem wrote_flush {b : Builder} (h : Closable b) :
    Wrote b (b.flush letters) (pending letters b) (flushed letters b) := by
  cases hinline : b.inline with
  | none =>
      have hpending : pending letters b = [] := by rw [pending, hinline]
      rw [flush_of_none hinline, flushed, hpending, List.isEmpty_nil, Bool.not_true,
        Bool.and_false]
      exact .same rfl rfl
  | some gathered =>
      obtain ⟨gathered, inlines⟩ := gathered
      obtain ⟨htakes, htable⟩ := h gathered inlines hinline
      cases gathered with
      | paragraph =>
          obtain ⟨top, rest, htop, htop'⟩ := htakes nofun
          by_cases hblank : inlines.all Builder.isBlank = true
          · have hpending : pending letters b = [] := by
              rw [pending, hinline]
              exact if_pos hblank
            have hflush : b.flush letters = { b with inline := none } := by
              rw [Builder.flush, hinline]
              exact if_pos hblank
            rw [hflush, flushed, hpending, List.isEmpty_nil, Bool.not_true, Bool.and_false]
            exact .same rfl rfl
          · have hpending : pending letters b = [.text inlines] := by
              rw [pending, hinline]
              exact if_neg hblank
            have hflush : b.flush letters =
                { b with inline := none }.pushBlock (.paragraph inlines) b.inlineStart := by
              rw [Builder.flush, hinline]
              exact if_neg hblank
            have hpush := @wrote_pushBlock { b with inline := none } top rest htop htop'
              (.paragraph inlines) b.inlineStart
            rw [hflush, flushed, hpending, List.isEmpty_cons, Bool.not_false, Bool.and_true]
            exact ⟨hpush.leaves, hpush.starts, hpush.blocks⟩
      | heading level =>
          obtain ⟨top, rest, htop, htop'⟩ := htakes nofun
          have hpending : pending letters b =
              [.heading level inlines (Builder.numbered (slug letters (inlineText inlines))
                (b.anchors (slug letters (inlineText inlines))))] := by
            rw [pending, hinline]
          have hpush := @wrote_pushBlock
            { b with
              inline := none
              anchors := fun key => if key = slug letters (inlineText inlines) then
                b.anchors (slug letters (inlineText inlines)) + 1 else b.anchors key }
            top rest htop htop' (.heading level inlines (Builder.numbered
              (slug letters (inlineText inlines)) (b.anchors (slug letters (inlineText inlines)))))
            b.inlineStart
          rw [Builder.flush, flushed, hpending, hinline, List.isEmpty_cons, Bool.not_false,
            Bool.and_true]
          exact ⟨hpush.leaves, hpush.starts, hpush.blocks⟩
      | cell =>
          obtain ⟨head, rows, row, rest, htop⟩ := htable rfl
          have hflush : b.flush letters =
              { b with inline := none, frames := .table head rows (row ++ [inlines]) :: rest } := by
            rw [Builder.flush, hinline]
            dsimp only
            rw [htop]
          have hpending : pending letters b = [.text inlines] := by rw [pending, hinline]
          have hnotTop : atTop b.frames = false := by
            rw [htop]
            rfl
          rw [hflush, flushed, hpending, hnotTop, Bool.false_and]
          refine ⟨?_, (List.append_nil _).symm, ?_⟩
          · change leavesOf rest ++ (cellLeaves (head :: rows) ++ (row ++ [inlines]).map .text) = _
            rw [htop, List.map_append, ← List.append_assoc, ← List.append_assoc, leavesOf,
              Frame.leaves, ← List.append_assoc]
            rfl
          · rw [htop]
            cases rest <;> rfl

/-! ## What is tracked -/

theorem Shaped.push {opened : List Opened} {top : Frame} {rest : List Frame}
    (h : Shaped opened (top :: rest)) (htakes : top.takes = true) (block : Block) :
    Shaped opened (top.push block :: rest) := by
  generalize hframes : top :: rest = frames at h
  induction h with
  | document held =>
      cases hframes
      exact .document _
  | quote i headed held hplace hrest =>
      cases hframes
      exact .quote i headed _ hplace hrest
  | list =>
      cases hframes
      cases htakes
  | item i headed task held hplace hrest =>
      cases hframes
      exact .item i headed task _ hplace hrest
  | table =>
      cases hframes
      cases htakes
  | inside element hframed hadmits hrest ih => exact .inside element hframed hadmits (ih hframes)

theorem Shaped.row {opened : List Opened} {head : List (List Inline)}
    {rows : List (List (List Inline))} {row : List (List Inline)} {rest : List Frame}
    (h : Shaped opened (.table head rows row :: rest)) (row' : List (List Inline)) :
    Shaped opened (.table head rows row' :: rest) := by
  generalize hframes : Frame.table head rows row :: rest = frames at h
  induction h with
  | document held => cases hframes
  | quote => cases hframes
  | list => cases hframes
  | item => cases hframes
  | table i headed head rows row hplace hempty hrest =>
      cases hframes
      exact .table i headed _ _ row' hplace hempty hrest
  | inside element hframed hadmits hrest ih => exact .inside element hframed hadmits (ih hframes)

/-- What the builder holds while `opened` are the open elements. -/
structure Tracked (opened : List Opened) (b : Builder) : Prop where
  shaped : Shaped opened b.frames
  /-- between a table's rows, none is being read -/
  rows : ∀ headed, placeOf opened = .rows headed →
    ∃ head rows rest, b.frames = .table head rows [] :: rest
  gathers : Gathers (homeTag opened) b.inline
  code : b.code.isSome = true ↔ ∃ language, homeTag opened = some (.codeBlock language)
  metadata : b.metadata.isSome = true ↔ ∃ yaml, homeTag opened = some (.metadataBlock yaml)

theorem Tracked.closable {opened : List Opened} {b : Builder} (h : Tracked opened b) :
    Closable b := by
  intro gathered inlines hinline
  have hgathers := h.gathers
  rw [hinline] at hgathers
  have hframe (tag : Tag) (htag : homeTag opened = some tag) (hinlines : tag.holdsInlines = true) :=
    h.shaped.home_frame htag hinlines
  cases htag : homeTag opened with
  | none =>
      rw [htag] at hgathers
      cases hgathers
  | some tag =>
      rw [htag] at hgathers
      cases tag with
      | paragraph =>
          obtain ⟨_, heq⟩ := hgathers
          cases heq
          exact ⟨fun _ => (hframe _ htag rfl).1 nofun, nofun⟩
      | heading level =>
          obtain ⟨_, heq⟩ := hgathers
          cases heq
          exact ⟨fun _ => (hframe _ htag rfl).1 nofun, nofun⟩
      | tableCell =>
          obtain ⟨_, heq⟩ := hgathers
          cases heq
          exact ⟨fun hcell => absurd rfl hcell, fun _ => (hframe _ htag rfl).2 rfl⟩
      | item =>
          rcases hgathers with hnone | ⟨_, heq⟩
          · cases hnone
          · cases heq
            exact ⟨fun _ => (hframe _ htag rfl).1 nofun, nofun⟩
      | htmlBlock =>
          rcases hgathers with hnone | ⟨_, heq⟩
          · cases hnone
          · cases heq
            exact ⟨fun _ => (hframe _ htag rfl).1 nofun, nofun⟩
      | _ => cases hgathers

end Markdown

end Throng
