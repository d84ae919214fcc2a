import Throng.Core.LinkFind

/-!
# Markdown for previews

The parser's events are put together into a small document model that the preview draws. HTML
is sanitised on the way in: a few inline tags are drawn, every other is dropped, and what a
script or a style holds never reaches the model.
-/

namespace Throng

namespace Markdown

/-! ## The document -/

/-- How a run of text is set. -/
structure Style where
  strong : Bool := false
  emphasis : Bool := false
  strike : Bool := false
  code : Bool := false
  kbd : Bool := false
  sup : Bool := false
  sub : Bool := false
deriving DecidableEq, Repr

inductive Inline
  | text (text : List Char) (style : Style) (link : Option (List Char))
  | image (alt src title : List Char) (link : Option (List Char))
  | lineBreak
deriving DecidableEq, Repr

mutual

inductive Block
  | heading (level : Nat) (inlines : List Inline) (anchor : List Char)
  | paragraph (inlines : List Inline)
  | list (start : Option Nat) (items : List Item)
  | quote (blocks : List Block)
  | code (language text : List Char)
  | table (head : List (List Inline)) (rows : List (List (List Inline)))
  | rule
  | frontMatter (pairs : List (List Char × List Char))

/-- An item of a list, with a task's checkbox. -/
inductive Item
  | mk (task : Option Bool) (blocks : List Block)

end

/-- A parsed document: its blocks, and the line each of them starts on. -/
structure Document where
  blocks : List Block
  lines : List Nat

/-! ## Events -/

inductive Tag
  | paragraph
  | heading (level : Nat)
  | blockQuote
  | codeBlock (fenced : Option (List Char))
  | htmlBlock
  | list (start : Option Nat)
  | item
  | footnoteDefinition
  | table
  | tableHead
  | tableRow
  | tableCell
  | emphasis
  | strong
  | strikethrough
  | superscript
  | subscript
  | link (destUrl : List Char)
  | image (destUrl title : List Char)
  | metadataBlock (yaml : Bool)
deriving DecidableEq, Repr

/-- What the parser hands over. The end of an element repeats its tag. -/
inductive Event
  | start (tag : Tag)
  | finish (tag : Tag)
  | text (text : List Char)
  | code (text : List Char)
  | inlineMath (text : List Char)
  | displayMath (text : List Char)
  | html (html : List Char)
  | inlineHtml (html : List Char)
  | softBreak
  | hardBreak
  | rule
  | taskListMarker (done : Bool)
  | footnoteReference (name : List Char)
deriving DecidableEq, Repr

/-! ## Text -/

/-- The text of a heading or a cell. -/
def inlineText (inlines : List Inline) : List Char :=
  inlines.flatMap fun
    | .text text _ _ => text
    | .image alt _ _ _ => alt
    | .lineBreak => ['\n']

/-- A heading's anchor: lower case, spaces to hyphens, punctuation dropped. -/
def slug (letters : Links.Letters) (text : List Char) : List Char :=
  (letters.lowercase (trimmed text)).filterMap fun c =>
    if c = ' ' then some '-'
    else if letters.isAlphanumeric c || c = '-' || c = '_' then some c
    else none

/-- `u32::from_str_radix`: digits, behind a sign `+` or not. -/
def parseU32 (digit : Char → Option Nat) (radix : Nat) (text : List Char) : Option Nat :=
  let digits := if text.head? = some '+' then text.drop 1 else text
  if digits = [] then none
  else (digits.foldlM (fun n c => (digit c).map (radix * n + ·)) 0).filter (· ≤ u32Max)

def decimalDigit (c : Char) : Option Nat := if c.isDigit then some (c.toNat - 0x30) else none

/-- `char::from_u32`. -/
def fromU32 (n : Nat) : Option Char := if n.isValidChar then some (Char.ofNat n) else none

/-- What stands for an entity, between `&` and `;`. -/
def entity (name : List Char) : Option Char :=
  if name = "amp".toList then some '&'
  else if name = "lt".toList then some '<'
  else if name = "gt".toList then some '>'
  else if name = "quot".toList then some '"'
  else if name = "apos".toList ∨ name = "#39".toList then some '\''
  else if name = "nbsp".toList then some '\u00a0'
  else if "#x".toList.isPrefixOf name ∨ "#X".toList.isPrefixOf name then
    (parseU32 Links.hexDigit 16 (name.drop 2)).bind fromU32
  else if name.head? = some '#' then (parseU32 decimalDigit 10 (name.drop 1)).bind fromU32
  else none

/-- The character an `&` begins, and how many characters behind it are read. The `;` is at most
ten bytes away, and control characters stay as they are written. -/
def entityAfter (rest : List Char) : Option (Char × Nat) :=
  let name := rest.takeWhile fun c => c ≠ ';'
  if name.length < rest.length ∧ (Utf8.encode name).length + 1 ≤ 10 then
    ((entity name).filter fun c => !isControl c).map fun c => (c, name.length + 1)
  else none

/-- Decoding, `skip` characters being read already. -/
def decodeFrom : Nat → List Char → List Char
  | _, [] => []
  | skip + 1, _ :: rest => decodeFrom skip rest
  | 0, c :: rest =>
      if c ≠ '&' then c :: decodeFrom 0 rest
      else match entityAfter rest with
        | some (d, n) => d :: decodeFrom n rest
        | none => c :: decodeFrom 0 rest

def decodeEntities (text : List Char) : List Char := decodeFrom 0 text

/-! ## Tags -/

/-- `u8::is_ascii_whitespace`. -/
def isAsciiWhitespace (c : Char) : Bool := [' ', '\t', '\n', '\x0c', '\r'].contains c

/-- A quoted or bare value. -/
def attributeValue (value : List Char) : List Char :=
  match value with
  | q :: rest =>
      if q = '"' ∨ q = '\'' then rest.takeWhile fun c => c ≠ q
      else value.takeWhile fun c => !(isWhitespace c || c = '/')
  | [] => []

/-- The value of an attribute from here on, the character before and `skip` characters being
read already. -/
def attributeFrom (name : List Char) : Option Char → Nat → List Char → Option (List Char)
  | _, _, [] => none
  | _, skip + 1, c :: rest => attributeFrom name (some c) skip rest
  | before, 0, c :: rest =>
      if name.isPrefixOf ((c :: rest).map Char.toLower) then
        let after := ((c :: rest).drop name.length).dropWhile isWhitespace
        if before.any isAsciiWhitespace && after.head? = some '=' then
          some (decodeEntities (attributeValue ((after.drop 1).dropWhile isWhitespace)))
        else attributeFrom name (some c) (name.length - 1) rest
      else attributeFrom name (some c) 0 rest

/-- An attribute of a tag. -/
def attributeOf (tag name : List Char) : Option (List Char) := attributeFrom name none 0 tag

/-- The name of a tag, in lower case. -/
def tagName (tag : List Char) : List Char :=
  ((tag.dropWhile fun c => c = '/').takeWhile Char.isAlphanum).map Char.toLower

/-- What follows the first `needle`, which stands there in any letter case. -/
def afterFirst (needle : List Char) : List Char → Option (List Char)
  | [] => none
  | c :: rest =>
      if needle.isPrefixOf ((c :: rest).map Char.toLower) then some ((c :: rest).drop needle.length)
      else afterFirst needle rest

/-! ## Front matter -/

/-- `str::lines`. -/
def sourceLines (source : List Char) : List (List Char) :=
  let lines := source.splitOn '\n'
  let ended := lines.dropLast.map fun line =>
    if line.getLast? = some '\r' then line.dropLast else line
  -- a last line without an end keeps its carriage return
  ended ++ (lines.getLast?.filter fun last => last ≠ []).toList

/-- Quotes around a value are not part of it. -/
def unquoted (value : List Char) : List Char :=
  let isQuote := fun c : Char => c = '"' || c = '\''
  ((value.dropWhile isQuote).reverse.dropWhile isQuote).reverse

/-- One line of front matter. -/
def frontLine (pairs : List (List Char × List Char)) (line : List Char) :
    Option (List (List Char × List Char)) :=
  if trimmed line = [] ∨ (line.dropWhile isWhitespace).head? = some '#' then some pairs
  else if line.head?.any fun c => [' ', '\t', '-'].contains c then
    pairs.getLast?.map fun last =>
      let value := if last.2 = [] then last.2 else last.2 ++ ['\n']
      pairs.dropLast ++ [(last.1, value ++ line)]
  else if ':' ∈ line then
    let key := trimmed (line.takeWhile fun c => c ≠ ':')
    let value := trimmed ((line.dropWhile fun c => c ≠ ':').drop 1)
    if key = [] then none else some (pairs ++ [(key, unquoted value)])
  else none

/-- Simple YAML front matter as key and value pairs. -/
def frontMatter (source : List Char) : Option (List (List Char × List Char)) :=
  (sourceLines source).foldlM frontLine []

/-! ## Building -/

/-- A block that is open. -/
inductive Frame
  | blocks (blocks : List Block)
  | quote (blocks : List Block)
  | list (start : Option Nat) (items : List Item)
  | item (task : Option Bool) (blocks : List Block)
  | table (head : List (List Inline)) (rows : List (List (List Inline))) (row : List (List Inline))

/-- What the inlines being read become. -/
inductive Gather
  | paragraph
  | heading (level : Nat)
  | cell
deriving DecidableEq, Repr

/-- The document being put together. The frames, styles and links are given from the innermost
on. -/
structure Builder where
  frames : List Frame
  inline : Option (Gather × List Inline)
  style : List Style
  links : List (List Char)
  /-- an image being read: its source, title, and the alternative text so far -/
  image : Option (List Char × List Char × List Char)
  code : Option (List Char × List Char)
  metadata : Option (List Char)
  /-- the closing tag before which everything is dropped -/
  skipUntil : Option (List Char)
  /-- how many headings have had a slug -/
  anchors : List Char → Nat
  topStart : Nat
  inlineStart : Nat
  /-- where each top-level block started -/
  starts : List Nat

def Builder.start : Builder :=
  ⟨[.blocks []], none, [], [], none, none, none, none, fun _ => 0, 0, 0, []⟩

/-- A frame that a block can go into. -/
def Frame.takes : Frame → Bool
  | .blocks _ => true
  | .quote _ => true
  | .item _ _ => true
  | _ => false

def Frame.push (block : Block) : Frame → Frame
  | .blocks held => .blocks (held ++ [block])
  | .quote held => .quote (held ++ [block])
  | .item task held => .item task (held ++ [block])
  | frame => frame

/-- The only frame is the document's own. -/
def atTop : List Frame → Bool
  | [.blocks _] => true
  | _ => false

/-- Only malformed input puts a block straight inside a list or a table: it gets a frame of its
own. -/
def pushOnto (block : Block) : List Frame → List Frame
  | frame :: frames =>
      if frame.takes then frame.push block :: frames else .blocks [block] :: frame :: frames
  | [] => [.blocks [block]]

namespace Builder

/-- Add a block where blocks go now; a top-level one records where it started. -/
def pushBlock (b : Builder) (block : Block) (start : Nat) : Builder :=
  { b with
    frames := pushOnto block b.frames
    starts := if atTop b.frames then b.starts ++ [start] else b.starts }

def currentStyle (b : Builder) : Style := b.style.head?.getD {}

def pushStyle (b : Builder) (change : Style → Style) : Builder :=
  { b with style := change b.currentStyle :: b.style }

def popStyle (b : Builder) : Builder := { b with style := b.style.tail }

def pushInline (b : Builder) (inline : Inline) : Builder :=
  let gathered := b.inline.getD (.paragraph, [])
  { b with inline := some (gathered.1, gathered.2 ++ [inline]) }

/-- Text goes on where the text before it has the same style and link. -/
def appendText (inlines : List Inline) (text : List Char) (style : Style)
    (link : Option (List Char)) : List Inline :=
  match inlines.getLast? with
  | some (.text last s l) =>
      if s = style ∧ l = link then inlines.dropLast ++ [.text (last ++ text) style link]
      else inlines ++ [.text text style link]
  | _ => inlines ++ [.text text style link]

def addText (b : Builder) (text : List Char) : Builder :=
  if b.skipUntil.isSome then b
  else match b.image with
    | some (src, title, alt) => { b with image := some (src, title, alt ++ text) }
    | none =>
        let gathered := b.inline.getD (.paragraph, [])
        { b with
          inline := some (gathered.1,
            appendText gathered.2 text b.currentStyle b.links.head?) }

/-- An inline that shows nothing. -/
def isBlank : Inline → Bool
  | .text text _ _ => text.all isWhitespace
  | _ => false

/-- The number a slug's later headings get, after a hyphen. -/
def numbered (base : List Char) (n : Nat) : List Char :=
  if n = 0 then base else base ++ '-' :: Nat.toDigits 10 n

/-- Close an open paragraph, heading or cell. -/
def flush (letters : Links.Letters) (b : Builder) : Builder :=
  match b.inline with
  | none => b
  | some (.paragraph, inlines) =>
      let b := { b with inline := none }
      if inlines.all isBlank then b else b.pushBlock (.paragraph inlines) b.inlineStart
  | some (.heading level, inlines) =>
      let base := slug letters (inlineText inlines)
      let n := b.anchors base
      let b := { b with
        inline := none
        anchors := fun key => if key = base then n + 1 else b.anchors key }
      b.pushBlock (.heading level inlines (numbered base n)) b.inlineStart
  | some (.cell, inlines) =>
      let b := { b with inline := none }
      match b.frames with
      | .table head rows row :: frames =>
          { b with frames := .table head rows (row ++ [inlines]) :: frames }
      | _ => b

/-- One tag: some change the style, break the line or are images, and the rest are dropped. -/
def tag (b : Builder) (tag : List Char) : Builder :=
  let closing := tag.head? = some '/'
  let name := tagName tag
  if name = "script".toList ∧ ¬closing then { b with skipUntil := some "</script".toList }
  else if name = "style".toList ∧ ¬closing then { b with skipUntil := some "</style".toList }
  else if name = "br".toList then b.pushInline .lineBreak
  else if name = "kbd".toList ∧ ¬closing then b.pushStyle fun s => { s with kbd := true }
  else if name = "sub".toList ∧ ¬closing then b.pushStyle fun s => { s with sub := true }
  else if name = "sup".toList ∧ ¬closing then b.pushStyle fun s => { s with sup := true }
  else if name = "summary".toList ∧ ¬closing then b.pushStyle fun s => { s with strong := true }
  else if (name = "kbd".toList ∨ name = "sub".toList ∨ name = "sup".toList) ∧ closing then
    b.popStyle
  else if name = "summary".toList ∧ closing then b.popStyle.pushInline .lineBreak
  else if name = "img".toList ∧ ¬closing then
    b.pushInline (.image ((attributeOf tag "alt".toList).getD [])
      ((attributeOf tag "src".toList).getD []) ((attributeOf tag "title".toList).getD [])
      b.links.head?)
  else b

/-- Sanitise raw HTML. Each round reads a character at least. -/
def htmlFrom (b : Builder) : Nat → List Char → Builder
  | 0, _ => b
  | fuel + 1, rest =>
      if rest = [] then b
      else match b.skipUntil with
        | some endTag =>
            match afterFirst endTag rest with
            | some rest => htmlFrom { b with skipUntil := none } fuel rest
            | none => b
        | none =>
            let front := rest.takeWhile fun c => c ≠ '<'
            let tagged := rest.dropWhile fun c => c ≠ '<'
            if tagged = [] then b.addText (decodeEntities rest)
            else
              let b := if front = [] then b else b.addText (decodeEntities front)
              -- a lone `<` is text
              if '>' ∉ tagged then b.addText (decodeEntities tagged)
              else htmlFrom (b.tag ((tagged.drop 1).takeWhile fun c => c ≠ '>')) fuel
                ((tagged.dropWhile fun c => c ≠ '>').drop 1)

def html (b : Builder) (html : List Char) : Builder := b.htmlFrom html.length html

/-- Front matter that is not simple is shown as it is. -/
def addMetadata (b : Builder) (source : List Char) : Builder :=
  match frontMatter source with
  | some pairs => b.pushBlock (.frontMatter pairs) b.topStart
  | none => b.pushBlock (.code "yaml".toList source) b.topStart

end Builder

/-! ## Parsing -/

/-- The first word of a fence's info. -/
def firstWord (info : List Char) : List Char :=
  (info.dropWhile isWhitespace).takeWhile fun c => !isWhitespace c

/-- A code block's text without its last line end. -/
def codeText (text : List Char) : List Char :=
  if text.getLast? = some '\n' then text.dropLast else text

namespace Builder

variable (letters : Links.Letters)

def startTag (b : Builder) (start : Nat) : Tag → Builder
  | .paragraph => { b.flush letters with inlineStart := start, inline := some (.paragraph, []) }
  | .heading level =>
      { b.flush letters with inlineStart := start, inline := some (.heading level, []) }
  | .blockQuote =>
      let b := b.flush letters
      { b with frames := .quote [] :: b.frames }
  | .codeBlock fenced => { b.flush letters with code := some (firstWord (fenced.getD []), []) }
  | .list number =>
      let b := b.flush letters
      { b with frames := .list number [] :: b.frames }
  | .item =>
      let b := b.flush letters
      { b with frames := .item none [] :: b.frames }
  | .table =>
      let b := b.flush letters
      { b with frames := .table [] [] [] :: b.frames }
  | .tableCell => { b with inline := some (.cell, []) }
  | .emphasis => b.pushStyle fun s => { s with emphasis := true }
  | .strong => b.pushStyle fun s => { s with strong := true }
  | .strikethrough => b.pushStyle fun s => { s with strike := true }
  | .superscript => b.pushStyle fun s => { s with sup := true }
  | .subscript => b.pushStyle fun s => { s with sub := true }
  | .link destUrl => { b with links := destUrl :: b.links }
  | .image destUrl title => { b with image := some (destUrl, title, []) }
  | .metadataBlock yaml => if yaml then { b with metadata := some [] } else b
  | .htmlBlock => b.flush letters
  | .footnoteDefinition => b
  | .tableHead => b
  | .tableRow => b

/-- The innermost frame is taken off, and read. -/
def popFrame (b : Builder) : Option Frame × Builder :=
  (b.frames.head?, { b with frames := b.frames.tail })

/-- A quote is over. -/
def endQuote (b : Builder) : Builder :=
  let (frame, b) := b.popFrame
  match frame with
  | some (.quote blocks) => b.pushBlock (.quote blocks) b.topStart
  | _ => b

def endList (b : Builder) : Builder :=
  let (frame, b) := b.popFrame
  match frame with
  | some (.list start items) => b.pushBlock (.list start items) b.topStart
  | _ => b

def endItem (b : Builder) : Builder :=
  let (frame, b) := b.popFrame
  match frame, b.frames with
  | some (.item task blocks), .list start items :: frames =>
      { b with frames := .list start (items ++ [.mk task blocks]) :: frames }
  | _, _ => b

def endHead (b : Builder) : Builder :=
  match b.frames with
  | .table _ rows row :: frames => { b with frames := .table row rows [] :: frames }
  | _ => b

def endRow (b : Builder) : Builder :=
  match b.frames with
  | .table head rows row :: frames => { b with frames := .table head (rows ++ [row]) [] :: frames }
  | _ => b

def endTable (b : Builder) : Builder :=
  let (frame, b) := b.popFrame
  match frame with
  | some (.table head rows _) => b.pushBlock (.table head rows) b.topStart
  | _ => b

def endCode (b : Builder) : Builder :=
  match b.code with
  | some (language, text) =>
      { b with code := none }.pushBlock (.code language (codeText text)) b.topStart
  | none => b

def endImage (b : Builder) : Builder :=
  match b.image with
  | some (src, title, alt) =>
      { b with image := none }.pushInline (.image alt src title b.links.head?)
  | none => b

def endMetadata (b : Builder) : Builder :=
  match b.metadata with
  | some source => { b with metadata := none }.addMetadata source
  | none => b

def endTag (b : Builder) : Tag → Builder
  | .paragraph => b.flush letters
  | .heading _ => b.flush letters
  | .htmlBlock => b.flush letters
  | .blockQuote => (b.flush letters).endQuote
  | .codeBlock _ => b.endCode
  | .list _ => (b.flush letters).endList
  | .item => (b.flush letters).endItem
  | .tableCell => b.flush letters
  | .tableHead => b.endHead
  | .tableRow => b.endRow
  | .table => b.endTable
  | .emphasis => b.popStyle
  | .strong => b.popStyle
  | .strikethrough => b.popStyle
  | .superscript => b.popStyle
  | .subscript => b.popStyle
  | .link _ => { b with links := b.links.tail }
  | .image _ _ => b.endImage
  | .metadataBlock _ => b.endMetadata
  | .footnoteDefinition => b

/-- Text goes to the code or the metadata being read, if any. -/
def textEvent (b : Builder) (text : List Char) : Builder :=
  match b.code, b.metadata with
  | some (language, code), _ => { b with code := some (language, code ++ text) }
  | none, some source => { b with metadata := some (source ++ text) }
  | none, none => b.addText text

/-- A task's checkbox is its item's. -/
def taskMarker (b : Builder) (done : Bool) : Builder :=
  match b.frames with
  | .item _ blocks :: frames => { b with frames := .item (some done) blocks :: frames }
  | _ => b

def event (b : Builder) (start : Nat) : Event → Builder
  | .start tag => b.startTag letters start tag
  | .finish tag => b.endTag letters tag
  | .text text => b.textEvent text
  | .code text => ((b.pushStyle fun s => { s with code := true }).addText text).popStyle
  | .inlineMath text => b.addText ('$' :: text ++ ['$'])
  | .displayMath text => b.addText ('$' :: '$' :: text ++ ['$', '$'])
  | .html source => b.html source
  | .inlineHtml source => b.html source
  | .softBreak => b.addText [' ']
  | .hardBreak => b.pushInline .lineBreak
  | .rule => (b.flush letters).pushBlock .rule start
  | .taskListMarker done => b.taskMarker done
  | .footnoteReference name => b.addText ('[' :: name ++ [']'])

end Builder

/-- The events that begin a construct of the document. -/
def Event.begins : Event → Bool
  | .start _ => true
  | .rule => true
  | .html _ => true
  | _ => false

def Event.deepens (depth : Nat) : Event → Nat
  | .start _ => depth + 1
  | .finish _ => depth - 1
  | _ => depth

/-- The builder, and how many elements are open. -/
structure Reading where
  builder : Builder
  depth : Nat

/-- One event, with the offset its source starts at. -/
def readEvent (letters : Links.Letters) (r : Reading) (event : Event × Nat) : Reading :=
  let b := if r.depth = 0 && event.1.begins then { r.builder with topStart := event.2 }
    else r.builder
  ⟨b.event letters event.2 event.1, event.1.deepens r.depth⟩

/-- What a frame that was left open holds. -/
def Frame.left : Frame → List Block
  | .blocks held => held
  | .quote held => held
  | .item _ held => held
  | .list start items => [.list start items]
  | .table head rows _ => [.table head rows]

/-- Collapse whatever frames a malformed document left open. A round either takes a frame away
or goes on forever, so there are at most as many as there are frames. -/
def collapse : Nat → List Frame → Option (List Frame)
  | 0, _ => none
  | fuel + 1, frame :: other :: frames =>
      let blocks := frame.left
      let below := if other.takes then other :: frames else .blocks [] :: other :: frames
      collapse fuel (match below with
        | top :: rest => blocks.foldl (fun top block => top.push block) top :: rest
        | [] => [])
  | _ + 1, frames => some frames

/-! ## Bare addresses -/

/-- The text from an offset on, its web and mail addresses made links. -/
def autolinkFrom (text : List Char) (style : Style) : Nat → List Links.Link → List Inline
  | i, [] => if i < text.length then [.text (text.drop i) style none] else []
  | i, found :: rest =>
      match found.target with
      | .file _ _ _ => autolinkFrom text style i rest
      | .web address =>
          (if i < found.start then [.text ((text.take found.start).drop i) style none] else []) ++
            .text ((text.take found.stop).drop found.start) style (some address) ::
              autolinkFrom text style found.stop rest
      | .scheme address =>
          (if i < found.start then [.text ((text.take found.start).drop i) style none] else []) ++
            .text ((text.take found.stop).drop found.start) style (some address) ::
              autolinkFrom text style found.stop rest

/-- Bare addresses become links, but not in code. -/
def autolink (letters : Links.Letters) (inlines : List Inline) : List Inline :=
  inlines.flatMap fun
    | .text text style none =>
        if style.code then [.text text style none]
        else autolinkFrom text style 0 (Links.find letters text)
    | inline => [inline]

mutual

def Block.autolinked (letters : Links.Letters) : Block → Block
  | .heading level inlines anchor => .heading level (autolink letters inlines) anchor
  | .paragraph inlines => .paragraph (autolink letters inlines)
  | .list start items => .list start (autolinkItems letters items)
  | .quote blocks => .quote (autolinkBlocks letters blocks)
  | .table head rows =>
      .table (head.map (autolink letters)) (rows.map fun row => row.map (autolink letters))
  | .code language text => .code language text
  | .rule => .rule
  | .frontMatter pairs => .frontMatter pairs

def autolinkBlocks (letters : Links.Letters) : List Block → List Block
  | [] => []
  | block :: blocks => block.autolinked letters :: autolinkBlocks letters blocks

def Item.autolinked (letters : Links.Letters) : Item → Item
  | .mk task blocks => .mk task (autolinkBlocks letters blocks)

def autolinkItems (letters : Links.Letters) : List Item → List Item
  | [] => []
  | item :: items => item.autolinked letters :: autolinkItems letters items

end

/-! ## Lines -/

/-- The offsets, in bytes, at which lines start behind an LF. -/
def lineStartsFrom : Nat → List Char → List Nat
  | _, [] => []
  | i, c :: rest =>
      if c = '\n' then (i + 1) :: lineStartsFrom (i + 1) rest
      else lineStartsFrom (i + (String.utf8EncodeChar c).length) rest

/-- The line an offset is on. -/
def lineAt (text : List Char) (i : Nat) : Nat :=
  ((0 :: lineStartsFrom 0 text).takeWhile (· ≤ i)).length - 1

/-- The document that the builder has put together. Blocks folded in from frames that were left
open start where the last did. -/
def document (letters : Links.Letters) (text : List Char) (b : Builder) : Option Document :=
  (collapse (b.frames.length + 1) b.frames).map fun
    | [.blocks blocks] =>
        let last := b.starts.getLast?.getD 0
        ⟨autolinkBlocks letters blocks,
          (List.range blocks.length).map fun i => lineAt text (b.starts[i]?.getD last)⟩
    | _ => ⟨[], []⟩

/-- Parse a text, given its events. -/
def parse (letters : Links.Letters) (text : List Char) (events : List (Event × Nat)) :
    Option Document :=
  let r := events.foldl (readEvent letters) ⟨.start, 0⟩
  document letters text (r.builder.flush letters)

end Markdown

end Throng
