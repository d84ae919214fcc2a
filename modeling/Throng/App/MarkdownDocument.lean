import Throng.App.MarkdownEvents

/-!
# The document of a well-nested stream

Step by step the whole stream is read: the document holds what the events write, in reading
order, with as many starts as it has blocks.
-/

namespace Throng

namespace Markdown

variable {letters : Links.Letters} {opened opened' : List Opened} {r : Reading}

/-- The builder when an event is read: a construct of the document itself starts with it. -/
def begun (r : Reading) (event : Event × Nat) : Builder :=
  if r.depth = 0 && event.1.begins then { r.builder with topStart := event.2 } else r.builder

theorem exists_begun (r : Reading) (event : Event × Nat) :
    ∃ topStart, begun r event = { r.builder with topStart := topStart } := by
  rw [begun]
  split
  · exact ⟨event.2, rfl⟩
  · exact ⟨r.builder.topStart, rfl⟩

theorem readEvent_eq (letters : Links.Letters) (r : Reading) (event : Event × Nat) :
    readEvent letters r event =
      ⟨(begun r event).event letters event.2 event.1, event.1.deepens r.depth⟩ := rfl

/-- What is tracked of a reading: its builder, and how many elements are open. -/
structure Follows (opened : List Opened) (r : Reading) : Prop where
  tracked : Tracked opened r.builder
  depth : r.depth = opened.length

theorem Follows.begun (h : Follows opened r) (event : Event × Nat) :
    Tracked opened (begun r event) := by
  obtain ⟨topStart, hbegun⟩ := exists_begun r event
  rw [hbegun]
  exact ⟨h.tracked.shaped, h.tracked.rows, h.tracked.gathers, h.tracked.code, h.tracked.metadata⟩

theorem length_closing (tag : Tag) (rest : List Opened) :
    (closing tag rest).length = rest.length := by
  cases rest with
  | nil => rfl
  | cons element rest =>
      rw [closing]
      split <;> rfl

/-- One event of a well-nested stream. -/
theorem step_read (h : Follows opened r) {event : Event × Nat}
    (hnest : nest opened event = some opened') :
    Step opened' (begun r event) (readEvent letters r event).builder
        (added letters (begun r event) event.1)
        (placed letters (begun r event) event.2 event.1) ∧
      (readEvent letters r event).depth = opened'.length := by
  obtain ⟨event, i⟩ := event
  have hbegun := h.begun (event, i)
  rcases nest_cases hnest with ⟨tag, rfl, hadmits, rfl⟩ | ⟨element, rest, rfl, rfl, rfl⟩ |
    ⟨hstart, hadmits, rfl⟩
  · exact ⟨step_start hbegun tag i hadmits, congrArg Nat.succ h.depth⟩
  · refine ⟨step_finish hbegun i, ?_⟩
    change r.depth - 1 = _
    rw [h.depth, length_closing]
    rfl
  · refine ⟨step_leaf hbegun i hstart hadmits, ?_⟩
    have hdepth := h.depth
    cases event with
    | start tag => exact absurd rfl (hstart tag)
    | finish tag => cases hplace : placeOf opened' <;> rw [hplace] at hadmits <;> cases hadmits
    | _ => exact hdepth

theorem Follows.read (h : Follows opened r) {event : Event × Nat}
    (hnest : nest opened event = some opened') : Follows opened' (readEvent letters r event) :=
  ⟨(step_read h hnest).1.tracked, (step_read h hnest).2⟩

/-- The leaves that events write. -/
def written (letters : Links.Letters) : Reading → List (Event × Nat) → List Leaf
  | _, [] => []
  | r, event :: events =>
      added letters (begun r event) event.1 ++ written letters (readEvent letters r event) events

/-- Where the blocks start that events add to the document itself. -/
def gained (letters : Links.Letters) : Reading → List (Event × Nat) → List Nat
  | _, [] => []
  | r, event :: events =>
      placed letters (begun r event) event.2 event.1 ++
        gained letters (readEvent letters r event) events

/-- What a run of a well-nested stream writes. -/
theorem run_read (h : Follows opened r) {events : List (Event × Nat)}
    (hnest : events.foldlM nest opened = some opened') :
    Follows opened' (events.foldl (readEvent letters) r) ∧
      Wrote r.builder (events.foldl (readEvent letters) r).builder (written letters r events)
        (gained letters r events) := by
  induction events generalizing opened r with
  | nil =>
      obtain rfl : opened = opened' := Option.some.inj hnest
      exact ⟨h, .same rfl rfl⟩
  | cons event events ih =>
      rw [List.foldlM_cons] at hnest
      obtain ⟨between, hbetween, hrest⟩ := Option.bind_eq_some_iff.1 hnest
      obtain ⟨hfollows, hwrote⟩ := ih (h.read hbetween) hrest
      obtain ⟨topStart, hbegun⟩ := exists_begun r event
      have hstep := (@step_read letters _ _ _ h _ hbetween).1.wrote
      have hfirst : Wrote r.builder (begun r event) [] [] := by
        rw [hbegun]
        exact .same rfl rfl
      exact ⟨hfollows, (hfirst.trans hstep).trans hwrote⟩

theorem Follows.start : Follows [] ⟨.start, 0⟩ where
  tracked := ⟨.document [], nofun, rfl, ⟨nofun, nofun⟩, ⟨nofun, nofun⟩⟩
  depth := rfl

theorem Shaped.document_frame {frames : List Frame} (h : Shaped [] frames) :
    ∃ held, frames = [.blocks held] := by
  cases h with
  | document held => exact ⟨held, rfl⟩

/-- The lines are those of the starts, where there is one for each block. -/
theorem range_map_lineAt (text : List Char) {starts : List Nat} {n last : Nat}
    (h : starts.length = n) :
    (List.range n).map (fun i => lineAt text (starts[i]?.getD last)) =
      starts.map (lineAt text) := by
  subst h
  refine List.ext_getElem (by simp) fun i hi hi' => ?_
  rw [List.length_map] at hi'
  rw [List.getElem_map, List.getElem_map, List.getElem_range, List.getElem?_eq_getElem hi']
  rfl

/-- The document of a well-nested stream: its blocks are what the events write, and the line of
each is that of the start that its event has placed. -/
theorem parse_wellNested (letters : Links.Letters) (text : List Char)
    {events : List (Event × Nat)} (h : WellNested events) : ∃ held,
      parse letters text events = some ⟨autolinkBlocks letters held,
        (gained letters ⟨.start, 0⟩ events).map (lineAt text)⟩ ∧
      leavesOfBlocks held = written letters ⟨.start, 0⟩ events ∧
      (gained letters ⟨.start, 0⟩ events).length = held.length := by
  obtain ⟨hfollows, hwrote⟩ := @run_read letters _ _ _ Follows.start _ h
  obtain ⟨held, hframes⟩ := hfollows.tracked.shaped.document_frame
  have hinline : (events.foldl (readEvent letters) ⟨.start, 0⟩).builder.inline = none :=
    hfollows.tracked.gathers
  have hstarts : (events.foldl (readEvent letters) ⟨.start, 0⟩).builder.starts =
      gained letters ⟨.start, 0⟩ events := hwrote.starts
  have hlength : (gained letters ⟨.start, 0⟩ events).length = held.length := by
    have hblocks := hwrote.blocks
    rw [hframes] at hblocks
    change held.length = 0 + _ at hblocks
    rw [hblocks, Nat.zero_add]
  refine ⟨held, ?_, ?_, hlength⟩
  · rw [parse, flush_of_none hinline, document, hframes, collapse]
    · rw [Option.map_some, hstarts]
      dsimp only
      rw [range_map_lineAt text hlength]
    · exact nofun
  · have hleaves := hwrote.leaves
    rw [hframes] at hleaves
    exact hleaves

/-! ## Bare addresses -/

/-- Addresses become links inside the leaves only. -/
def Leaf.autolinked (letters : Links.Letters) : Leaf → Leaf
  | .text inlines => .text (autolink letters inlines)
  | .heading level inlines anchor => .heading level (autolink letters inlines) anchor
  | leaf => leaf

theorem cellLeaves_autolinked (letters : Links.Letters) (rows : List (List (List Inline))) :
    cellLeaves (rows.map fun row => row.map (autolink letters)) =
      (cellLeaves rows).map (Leaf.autolinked letters) := by
  induction rows with
  | nil => rfl
  | cons row rows ih =>
      rw [cellLeaves, List.map_cons, List.flatten_cons, List.map_append] at *
      rw [cellLeaves, List.flatten_cons, List.map_append, List.map_append]
      refine congrArg₂ _ ?_ ih
      rw [List.map_map, List.map_map]
      rfl

mutual

theorem leaves_autolinked (letters : Links.Letters) :
    ∀ block : Block, (block.autolinked letters).leaves =
      block.leaves.map (Leaf.autolinked letters)
  | .heading _ _ _ => rfl
  | .paragraph _ => rfl
  | .list _ items => leavesOfItems_autolinked letters items
  | .quote blocks => leavesOfBlocks_autolinked letters blocks
  | .code _ _ => rfl
  | .table head rows => cellLeaves_autolinked letters (head :: rows)
  | .rule => rfl
  | .frontMatter _ => rfl

theorem leavesOfBlocks_autolinked (letters : Links.Letters) :
    ∀ blocks : List Block, leavesOfBlocks (autolinkBlocks letters blocks) =
      (leavesOfBlocks blocks).map (Leaf.autolinked letters)
  | [] => rfl
  | block :: blocks => by
      rw [autolinkBlocks, leavesOfBlocks, leavesOfBlocks, List.map_append,
        leaves_autolinked letters block, leavesOfBlocks_autolinked letters blocks]

theorem leavesOfItem_autolinked (letters : Links.Letters) :
    ∀ item : Item, (item.autolinked letters).leaves = item.leaves.map (Leaf.autolinked letters)
  | .mk _ blocks => leavesOfBlocks_autolinked letters blocks

theorem leavesOfItems_autolinked (letters : Links.Letters) :
    ∀ items : List Item, leavesOfItems (autolinkItems letters items) =
      (leavesOfItems items).map (Leaf.autolinked letters)
  | [] => rfl
  | item :: items => by
      rw [autolinkItems, leavesOfItems, leavesOfItems, List.map_append,
        leavesOfItem_autolinked letters item, leavesOfItems_autolinked letters items]

end

end Markdown

end Throng
