import Throng.App.MarkdownDocument

/-!
# Raw HTML, piece by piece

The sanitiser's scan and what it does with what it finds are two things. The scan cuts a source
into texts and tags, or finds that a script or a style is over; each of these changes the
builder by itself. So reading a document is a run over its atoms, the parser's events with the
pieces in the place of raw HTML.
-/

namespace Throng

namespace Markdown

variable {letters : Links.Letters} {opened opened' : List Opened} {b : Builder} {r : Reading}

/-- What the scan finds: text, a tag without its brackets, or the end of what is skipped. -/
inductive Piece
  | text (text : List Char)
  | tag (tag : List Char)
  | resume
deriving DecidableEq, Repr

def Builder.piece (b : Builder) : Piece → Builder
  | .text text => b.addText (decodeEntities text)
  | .tag tag => b.tag tag
  | .resume => { b with skipUntil := none }

/-- What a tag begins to skip. -/
def skipFrom (tag : List Char) : Option (List Char) :=
  if tagName tag = "script".toList ∧ ¬tag.head? = some '/' then some "</script".toList
  else if tagName tag = "style".toList ∧ ¬tag.head? = some '/' then some "</style".toList
  else none

/-- What is skipped behind a piece. -/
def Piece.skipBehind (skip : Option (List Char)) : Piece → Option (List Char)
  | .text _ => skip
  | .tag source => (skipFrom source).or skip
  | .resume => none

/-- The pieces of a source. -/
def piecesFrom : Option (List Char) → Nat → List Char → List Piece
  | _, 0, _ => []
  | skip, fuel + 1, rest =>
      if rest = [] then []
      else match skip with
        | some endTag =>
            match afterFirst endTag rest with
            | some rest => .resume :: piecesFrom none fuel rest
            | none => []
        | none =>
            let front := rest.takeWhile fun c => c ≠ '<'
            let tagged := rest.dropWhile fun c => c ≠ '<'
            if tagged = [] then [.text rest]
            else
              (if front = [] then [] else [.text front]) ++
                if '>' ∉ tagged then [.text tagged]
                else
                  let tag := (tagged.drop 1).takeWhile fun c => c ≠ '>'
                  .tag tag :: piecesFrom (skipFrom tag) fuel
                    ((tagged.dropWhile fun c => c ≠ '>').drop 1)

def pieces (skip : Option (List Char)) (source : List Char) : List Piece :=
  piecesFrom skip source.length source

theorem skipUntil_addText (b : Builder) (text : List Char) :
    (b.addText text).skipUntil = b.skipUntil := by
  rw [Builder.addText]
  split
  · rfl
  · split <;> rfl

theorem skipUntil_tag (b : Builder) (tag : List Char) :
    (b.tag tag).skipUntil = (skipFrom tag).or b.skipUntil := by
  rw [Builder.tag, skipFrom]
  split
  · rfl
  split
  · rfl
  all_goals
    repeat' split
    all_goals rfl

theorem skipUntil_piece (b : Builder) (piece : Piece) :
    (b.piece piece).skipUntil = piece.skipBehind b.skipUntil := by
  cases piece with
  | text text => exact skipUntil_addText b _
  | tag tag => exact skipUntil_tag b tag
  | resume => rfl

theorem htmlFrom_eq (b : Builder) (fuel : Nat) (rest : List Char) :
    b.htmlFrom fuel rest = (piecesFrom b.skipUntil fuel rest).foldl Builder.piece b := by
  induction fuel generalizing b rest with
  | zero => rfl
  | succ fuel ih =>
      rw [Builder.htmlFrom, piecesFrom.eq_def]
      dsimp only
      split
      · rfl
      cases hskip : b.skipUntil with
      | some endTag =>
          dsimp only
          cases afterFirst endTag rest with
          | some behind => exact ih { b with skipUntil := none } behind
          | none => rfl
      | none =>
          dsimp only
          split
          · rfl
          rw [List.foldl_append]
          have hfront : (if (rest.takeWhile fun c => c ≠ '<') = [] then []
              else [Piece.text (rest.takeWhile fun c => c ≠ '<')]).foldl Builder.piece b =
              if (rest.takeWhile fun c => c ≠ '<') = [] then b
              else b.addText (decodeEntities (rest.takeWhile fun c => c ≠ '<')) := by
            split <;> rfl
          have hskip' : (if (rest.takeWhile fun c => c ≠ '<') = [] then b
              else b.addText (decodeEntities (rest.takeWhile fun c => c ≠ '<'))).skipUntil =
              none := by
            split
            · exact hskip
            · exact (skipUntil_addText b _).trans hskip
          rw [hfront]
          split
          · rfl
          · rw [ih, skipUntil_tag, hskip', Option.or_none]
            rfl

/-- Sanitising a source is to do what each of its pieces does. -/
theorem html_eq (b : Builder) (source : List Char) :
    b.html source = (pieces b.skipUntil source).foldl Builder.piece b := htmlFrom_eq b _ source

/-! ## Events that are not raw HTML -/

/-- The styles that the parser's elements set. -/
def Tag.change : Tag → Option (Style → Style)
  | .emphasis => some fun s => { s with emphasis := true }
  | .strong => some fun s => { s with strong := true }
  | .strikethrough => some fun s => { s with strike := true }
  | .superscript => some fun s => { s with sup := true }
  | .subscript => some fun s => { s with sub := true }
  | _ => none

/-- The stack of styles behind an event. -/
def Event.restyle (styles : List Style) : Event → List Style
  | .start tag =>
      match tag.change with
      | some change => change (styles.head?.getD {}) :: styles
      | none => styles
  | .finish tag => if tag.change.isSome then styles.tail else styles
  | _ => styles

/-- Neither what is skipped nor the stack of styles is touched. -/
structure Unstyled (b b' : Builder) : Prop where
  skipUntil : b'.skipUntil = b.skipUntil
  style : b'.style = b.style

theorem unstyled_addText (b : Builder) (text : List Char) : Unstyled b (b.addText text) := by
  refine ⟨skipUntil_addText b text, ?_⟩
  rw [Builder.addText]
  split
  · rfl
  · split <;> rfl

theorem unstyled_flush (b : Builder) : Unstyled b (b.flush letters) := by
  obtain ⟨frames, anchors, starts, hflush⟩ := exists_flush letters b
  rw [hflush]
  exact ⟨rfl, rfl⟩

theorem startTag_restyled (b : Builder) (i : Nat) (tag : Tag) :
    (b.startTag letters i tag).skipUntil = b.skipUntil ∧
      (b.startTag letters i tag).style = (Event.start tag).restyle b.style := by
  have hflush := @unstyled_flush letters b
  cases tag with
  | metadataBlock yaml => cases yaml <;> exact ⟨rfl, rfl⟩
  | paragraph => exact ⟨hflush.1, hflush.2⟩
  | heading level => exact ⟨hflush.1, hflush.2⟩
  | blockQuote => exact ⟨hflush.1, hflush.2⟩
  | codeBlock fenced => exact ⟨hflush.1, hflush.2⟩
  | htmlBlock => exact ⟨hflush.1, hflush.2⟩
  | list number => exact ⟨hflush.1, hflush.2⟩
  | item => exact ⟨hflush.1, hflush.2⟩
  | table => exact ⟨hflush.1, hflush.2⟩
  | _ => exact ⟨rfl, rfl⟩

theorem endTag_restyled (b : Builder) (tag : Tag) :
    (b.endTag letters tag).skipUntil = b.skipUntil ∧
      (b.endTag letters tag).style = (Event.finish tag).restyle b.style := by
  have hflush := @unstyled_flush letters b
  cases tag with
  | paragraph => exact ⟨hflush.1, hflush.2⟩
  | heading level => exact ⟨hflush.1, hflush.2⟩
  | htmlBlock => exact ⟨hflush.1, hflush.2⟩
  | tableCell => exact ⟨hflush.1, hflush.2⟩
  | blockQuote =>
      rw [Builder.endTag, Builder.endQuote]
      dsimp only
      split <;> exact ⟨hflush.1, hflush.2⟩
  | list number =>
      rw [Builder.endTag, Builder.endList]
      dsimp only
      split <;> exact ⟨hflush.1, hflush.2⟩
  | item =>
      rw [Builder.endTag, Builder.endItem]
      dsimp only
      split <;> exact ⟨hflush.1, hflush.2⟩
  | codeBlock fenced =>
      rw [Builder.endTag, Builder.endCode]
      split <;> exact ⟨rfl, rfl⟩
  | table =>
      rw [Builder.endTag, Builder.endTable]
      dsimp only
      split <;> exact ⟨rfl, rfl⟩
  | tableHead =>
      rw [Builder.endTag, Builder.endHead]
      split <;> exact ⟨rfl, rfl⟩
  | tableRow =>
      rw [Builder.endTag, Builder.endRow]
      split <;> exact ⟨rfl, rfl⟩
  | image destUrl title =>
      rw [Builder.endTag, Builder.endImage]
      split <;> exact ⟨rfl, rfl⟩
  | metadataBlock yaml =>
      rw [Builder.endTag, Builder.endMetadata]
      split
      · rw [Builder.addMetadata]
        split <;> exact ⟨rfl, rfl⟩
      · exact ⟨rfl, rfl⟩
  | _ => exact ⟨rfl, rfl⟩

def Event.isRaw : Event → Bool
  | .html _ => true
  | .inlineHtml _ => true
  | _ => false

/-- Only raw HTML begins to skip, and only Markdown's own elements and it set styles. -/
theorem event_restyled (b : Builder) (i : Nat) {event : Event} (hraw : event.isRaw = false) :
    (b.event letters i event).skipUntil = b.skipUntil ∧
      (b.event letters i event).style = event.restyle b.style := by
  have htext (text : List Char) := unstyled_addText b text
  cases event with
  | start tag => exact startTag_restyled b i tag
  | finish tag => exact endTag_restyled b tag
  | rule =>
      have hflush := @unstyled_flush letters b
      exact ⟨hflush.1, hflush.2⟩
  | taskListMarker done =>
      change (b.taskMarker done).skipUntil = b.skipUntil ∧ (b.taskMarker done).style = b.style
      rw [Builder.taskMarker]
      split <;> exact ⟨rfl, rfl⟩
  | text text =>
      change (b.textEvent text).skipUntil = b.skipUntil ∧ (b.textEvent text).style = b.style
      rw [Builder.textEvent]
      split
      · exact ⟨rfl, rfl⟩
      · exact ⟨rfl, rfl⟩
      · exact ⟨(htext text).1, (htext text).2⟩
  | code text =>
      have hcode := unstyled_addText (b.pushStyle fun s => { s with code := true }) text
      exact ⟨hcode.1, congrArg List.tail hcode.2⟩
  | inlineMath text => exact ⟨(htext _).1, (htext _).2⟩
  | displayMath text => exact ⟨(htext _).1, (htext _).2⟩
  | softBreak => exact ⟨(htext _).1, (htext _).2⟩
  | hardBreak => exact ⟨rfl, rfl⟩
  | footnoteReference name => exact ⟨(htext _).1, (htext _).2⟩
  | html source => cases hraw
  | inlineHtml source => cases hraw

/-- Raw HTML stands inside an element. -/
theorem exists_opened_of_raw {event : Event × Nat} (hraw : event.1.isRaw = true)
    (hnest : nest opened event = some opened') :
    opened' = opened ∧ ∃ element rest, opened = element :: rest := by
  obtain ⟨event, i⟩ := event
  rcases nest_cases hnest with ⟨tag, rfl, -, -⟩ | ⟨element, rest, rfl, -, -⟩ | ⟨-, hadmits, rfl⟩
  · cases hraw
  · cases hraw
  · cases opened' with
    | nil =>
        cases event with
        | html source => cases hadmits
        | inlineHtml source => cases hadmits
        | _ => cases hraw
    | cons element rest => exact ⟨rfl, element, rest, rfl⟩

/-! ## Atoms -/

/-- An event of the parser's, raw HTML without its source, or a piece of such a source. -/
inductive Atom
  | event (event : Event) (start : Nat)
  | piece (piece : Piece)
deriving DecidableEq, Repr

def readAtom (letters : Links.Letters) (r : Reading) : Atom → Reading
  | .event event start => readEvent letters r (event, start)
  | .piece piece => { r with builder := r.builder.piece piece }

def Atom.skipBehind (skip : Option (List Char)) : Atom → Option (List Char)
  | .event _ _ => skip
  | .piece found => found.skipBehind skip

/-- The atoms of one event. -/
def atomsOf (skip : Option (List Char)) : Event × Nat → List Atom
  | (.html source, i) => .event (.html []) i :: (pieces skip source).map .piece
  | (.inlineHtml source, i) => .event (.inlineHtml []) i :: (pieces skip source).map .piece
  | (event, i) => [.event event i]

def atoms : Option (List Char) → List (Event × Nat) → List Atom
  | _, [] => []
  | skip, event :: events =>
      atomsOf skip event ++ atoms ((atomsOf skip event).foldl Atom.skipBehind skip) events

theorem atomsOf_of_not_raw (skip : Option (List Char)) {event : Event × Nat}
    (hraw : event.1.isRaw = false) : atomsOf skip event = [.event event.1 event.2] := by
  obtain ⟨event, i⟩ := event
  cases event with
  | html source => cases hraw
  | inlineHtml source => cases hraw
  | _ => rfl

/-- Pieces are read one by one. -/
theorem foldl_pieces (r : Reading) (found : List Piece) :
    (found.map Atom.piece).foldl (readAtom letters) r =
      { r with builder := found.foldl Builder.piece r.builder } := by
  induction found generalizing r with
  | nil => rfl
  | cons piece found ih => exact ih _

theorem skipUntil_pieces (b : Builder) (found : List Piece) :
    (found.foldl Builder.piece b).skipUntil =
      (found.map Atom.piece).foldl Atom.skipBehind b.skipUntil := by
  induction found generalizing b with
  | nil => rfl
  | cons piece found ih =>
      rw [List.foldl_cons, ih, skipUntil_piece]
      rfl

theorem begun_skipUntil (r : Reading) (event : Event × Nat) :
    (begun r event).skipUntil = r.builder.skipUntil := by
  obtain ⟨topStart, hbegun⟩ := exists_begun r event
  rw [hbegun]

/-- An event does what its atoms do. -/
theorem readEvent_atoms (r : Reading) (event : Event × Nat) :
    readEvent letters r event =
        (atomsOf r.builder.skipUntil event).foldl (readAtom letters) r ∧
      (readEvent letters r event).builder.skipUntil =
        (atomsOf r.builder.skipUntil event).foldl Atom.skipBehind r.builder.skipUntil := by
  cases hraw : event.1.isRaw with
  | false =>
      rw [atomsOf_of_not_raw _ hraw]
      refine ⟨rfl, ?_⟩
      rw [readEvent_eq, (event_restyled _ _ hraw).1, begun_skipUntil]
      rfl
  | true =>
      have hsource (source : List Char) (first : Event) (hfirst : first.isRaw = true)
          (hread : readEvent letters r event = ⟨(begun r event).html source, r.depth⟩)
          (hbegin : readEvent letters r (first, event.2) = ⟨begun r event, r.depth⟩)
          (hatoms : atomsOf r.builder.skipUntil event =
            .event first event.2 :: (pieces r.builder.skipUntil source).map .piece) :
          readEvent letters r event =
              (atomsOf r.builder.skipUntil event).foldl (readAtom letters) r ∧
            (readEvent letters r event).builder.skipUntil =
              (atomsOf r.builder.skipUntil event).foldl Atom.skipBehind r.builder.skipUntil := by
        rw [hatoms, hread, List.foldl_cons, List.foldl_cons, readAtom, hbegin, foldl_pieces,
          html_eq, begun_skipUntil]
        refine ⟨rfl, ?_⟩
        rw [skipUntil_pieces, begun_skipUntil]
        rfl
      obtain ⟨event, i⟩ := event
      cases event with
      | html source => exact hsource source (.html []) rfl rfl rfl rfl
      | inlineHtml source => exact hsource source (.inlineHtml []) rfl rfl rfl rfl
      | _ => cases hraw

/-- A document is read atom by atom. -/
theorem foldl_readEvent (r : Reading) (events : List (Event × Nat)) :
    events.foldl (readEvent letters) r =
      (atoms r.builder.skipUntil events).foldl (readAtom letters) r := by
  induction events generalizing r with
  | nil => rfl
  | cons event events ih =>
      obtain ⟨hread, hskip⟩ := @readEvent_atoms letters r event
      rw [List.foldl_cons, ih, hskip, hread, atoms, List.foldl_append]

end Markdown

end Throng
