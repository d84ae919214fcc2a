import Throng.Core.Links

/-!
# Links found in a line of text

Paths in quotes are found first, since they may hold blanks; what stands between blanks and
quotes outside them is read word by word. A word may be a web address, an address of an
allowed scheme, a `file:` address, a mail address or a path.
-/

namespace Throng

namespace Links

/-- The beginnings of what is followed, or opened by its address. -/
def beginnings : List (List Char) :=
  ["http://".toList, "https://".toList, "file:".toList, "mailto:".toList, "tel:".toList]

/-- What is asked about characters beyond ASCII. -/
structure Letters where
  /-- `str::to_lowercase` -/
  lowercase : List Char → List Char
  /-- `char::is_alphanumeric` -/
  isAlphanumeric : Char → Bool
  /-- `char::is_alphabetic` -/
  isAlphabetic : Char → Bool
  /-- what is ASCII at the front is put in lower case letter by letter -/
  ascii : ∀ front rest, (∀ c ∈ front, c.toNat < 0x80) →
    ∃ rest', lowercase (front ++ rest) = front.map Char.toLower ++ rest'
  /-- only their own letters spell these beginnings in lower case -/
  spelled : ∀ text, ∀ p ∈ beginnings, p <+: lowercase text → p <+: text.map Char.toLower
  /-- letters and digits are no control characters -/
  notControl : ∀ c, isAlphanumeric c = true → isControl c = false

/-- A link found in a line of text. -/
structure Link where
  start : Nat
  stop : Nat
  target : Target
deriving DecidableEq, Repr

/-- Characters that end an unquoted word. -/
def isBreak (c : Char) : Bool :=
  isWhitespace c || ['"', '\'', '`', '<', '>', '|'].contains c || c.toNat ≤ 0x1F

/-- Brackets and punctuation in front of a link. -/
def isLeading (c : Char) : Bool := ['(', '[', '\x7b', ',', ';'].contains c

/-! ## Trimming -/

/-- The last character of a word is dropped: punctuation, or a bracket that has no opening
partner. The word is given from its end. -/
def drops (url : Bool) (last : Char) (word : List Char) : Bool :=
  let unbalanced := fun opening closing : Char => word.count opening < word.count closing
  if ['.', ',', ';', '!', '?', ':'].contains last then true
  else if last = ')' then unbalanced '(' ')'
  else if last = ']' then unbalanced '[' ']'
  else if last = '\x7d' then unbalanced '\x7b' '\x7d'
  else (last = '*' || last = '_') && !url

/-- Trimming from the end on, the word given from its end. -/
def trimBack (url : Bool) : List Char → List Char
  | [] => []
  | last :: front => if drops url last (last :: front) then trimBack url front else last :: front

/-- Drop trailing sentence punctuation, and closing brackets with no opening partner. -/
def trimEnd (url : Bool) (word : List Char) : List Char := (trimBack url word.reverse).reverse

/-! ## Words -/

/-- What is behind the last separator. -/
def lastPart (path : List Char) : List Char :=
  (path.reverse.takeWhile fun c => c ≠ '/' ∧ c ≠ '\\').reverse

/-- A stem, and an extension of up to ten letters and digits with a letter in it. -/
def hasExtension (last : List Char) : Bool :=
  match splitLast '.' last with
  | none => false
  | some (stem, ext) =>
      stem ≠ [] && (1 ≤ ext.length && ext.length ≤ 10) && ext.all Char.isAlphanum &&
        ext.any Char.isAlpha

/-- A path that begins like no other text. -/
def isExplicit (path : List Char) : Bool :=
  match path with
  | '~' :: '/' :: _ => true
  | '.' :: '/' :: _ => true
  | '.' :: '.' :: '/' :: _ => true
  | '.' :: '\\' :: _ => true
  | '.' :: '.' :: '\\' :: _ => true
  | '\\' :: '\\' :: _ => true
  | '/' :: c :: _ => c ≠ '/'
  | d :: ':' :: separator :: _ => d.isAlpha && (separator = '\\' || separator = '/')
  | _ => false

/-- A candidate reads as a file reference rather than prose. -/
def looksLikePath (letters : Letters) (path : List Char) (hasPosition : Bool) : Bool :=
  if path = [] ∨ path.any isControl then false
  else if !path.any letters.isAlphabetic then false
  else if isExplicit path then 2 < (Utf8.encode path).length
  else
    let hasSeparator := path.contains '/' || path.contains '\\'
    if hasPosition then hasExtension (lastPart path) || hasSeparator
    else hasSeparator && hasExtension (lastPart path)

/-- A bare mail address becomes a `mailto:` link. -/
def email (letters : Letters) (start : Nat) (word : List Char) : Option Link :=
  let text := trimEnd false word
  let user := text.takeWhile fun c => c ≠ '@'
  let domain := (text.dropWhile fun c => c ≠ '@').drop 1
  if '@' ∈ text ∧
      user ≠ [] ∧ user.all (fun c => letters.isAlphanumeric c || "._%+-".toList.contains c) ∧
      '.' ∈ domain ∧ domain.head? ≠ some '.' ∧ domain.getLast? ≠ some '.' ∧
      domain.all (fun c => letters.isAlphanumeric c || c = '.' || c = '-') then
    some ⟨start, start + text.length, .scheme ("mailto:".toList ++ text)⟩
  else none

/-- A word that begins `scheme://`. -/
def isForeign (lower : List Char) : Bool :=
  let scheme := lower.takeWhile fun c => c ≠ ':'
  scheme.all (fun c => c.isAlphanum || c = '+' || c = '-' || c = '.') && 1 < scheme.length &&
    "://".toList.isPrefixOf (lower.dropWhile fun c => c ≠ ':')

/-- A path as it is written, with a position. -/
def pathLink (letters : Letters) (start : Nat) (raw : List Char) : Option Link :=
  let positioned := splitPosition raw
  if looksLikePath letters positioned.path positioned.line.isSome then
    some ⟨start, start + raw.length, .file positioned.path positioned.line positioned.column⟩
  else none

/-- The part of a word that a link is looked for in. -/
def body (word : List Char) : List Char := word.dropWhile isLeading

/-- What a word without its leading punctuation is, trimmed to the link inside it, if any. -/
def bodyLink (letters : Letters) (start : Nat) (body : List Char) : Option Link :=
  let lower := letters.lowercase body
  if "http://".toList.isPrefixOf lower then
    let url := trimEnd true body
    if 7 < url.length then some ⟨start, start + url.length, .web url⟩ else none
  else if "https://".toList.isPrefixOf lower then
    let url := trimEnd true body
    if 8 < url.length then some ⟨start, start + url.length, .web url⟩ else none
  else if "file:".toList.isPrefixOf lower then
    let raw := trimEnd true body
    let positioned := splitPosition raw
    (fileUriPath positioned.path).map fun path =>
      ⟨start, start + raw.length, .file path positioned.line positioned.column⟩
  else match allowedSchemes.find? fun scheme => scheme.isPrefixOf lower with
    | some scheme =>
        let address := trimEnd false body
        if scheme.length < address.length then
          some ⟨start, start + address.length, .scheme address⟩
        else none
    | none =>
        if isForeign lower then none
        else (email letters start body).or (pathLink letters start (trimEnd false body))

/-- One unquoted word from offset `i` on. -/
def token (letters : Letters) (i : Nat) (word : List Char) : Option Link :=
  bodyLink letters (i + (word.length - (body word).length)) (body word)

/-! ## Lines -/

/-- `str::contains`. -/
def contains (needle : List Char) : List Char → Bool
  | [] => needle = []
  | c :: rest => needle.isPrefixOf (c :: rest) || contains needle rest

/-- The quotes a path may stand in. -/
def isQuote (c : Char) : Bool := c = '"' || c = '\'' || c = '`'

/-- A path between two quotes. -/
def quotedLink (letters : Letters) (start : Nat) (inner : List Char) : Option Link :=
  if inner.contains ' ' && !contains "://".toList inner then pathLink letters start inner
  else none

/-- Paths in matching quotes from offset `i` on, `skip` characters being read already. -/
def quoted (letters : Letters) : Nat → Nat → List Char → List Link
  | _, _, [] => []
  | i, skip + 1, _ :: rest => quoted letters (i + 1) skip rest
  | i, 0, q :: rest =>
      if isQuote q then
        match rest.findIdx? (· = q) with
        | none => quoted letters (i + 1) 0 rest
        | some n =>
            (quotedLink letters (i + 1) (rest.take n)).toList ++ quoted letters (i + 1) (n + 1) rest
      else quoted letters (i + 1) 0 rest

/-- A character lies in a link. -/
def Link.covers (link : Link) (i : Nat) : Bool := link.start ≤ i && i < link.stop

/-- The links so far, and those of the words from offset `i` on outside them. -/
def tokens (letters : Letters) (out : List Link) : Nat → Nat → List Char → List Link
  | _, _, [] => out
  | i, skip + 1, _ :: rest => tokens letters out (i + 1) skip rest
  | i, 0, c :: rest =>
      if isBreak c || out.any (·.covers i) then tokens letters out (i + 1) 0 rest
      else
        let word := (c :: rest).takeWhile fun c => !isBreak c
        tokens letters (out ++ (token letters i word).toList) (i + 1) (word.length - 1) rest

/-- Every link in one line, left to right, never overlapping. -/
def find (letters : Letters) (text : List Char) : List Link :=
  (tokens letters (quoted letters 0 0 text) 0 0 text).mergeSort fun a b => a.start ≤ b.start

end Links

end Throng
