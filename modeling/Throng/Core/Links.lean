import Throng.Core.Chars
import Throng.Core.Panel
import Throng.Lib.Utf8

/-!
# Links

What an explicit hyperlink's target is: an address, or a file with a position in it. The
position is a `:line`, `:line:col`, `(line)` or `(line,col)` at the end of what is written.
-/

namespace Throng

/-- `str::trim`, of characters. -/
def trimmed (text : List Char) : List Char := (trim (.ofList text)).toList

/-- `str::eq_ignore_ascii_case`. -/
def eqIgnoreAsciiCase (a b : List Char) : Bool := a.map Char.toLower = b.map Char.toLower

/-- `char::is_control`. -/
def isControl (c : Char) : Bool := c.toNat < 0x20 || (0x7F ≤ c.toNat && c.toNat ≤ 0x9F)

/-- `u32::MAX`. -/
def u32Max : Nat := 0xFFFFFFFF

namespace Links

/-- What a link points at. -/
inductive Target
  | web (address : List Char)
  | scheme (address : List Char)
  | file (path : List Char) (line column : Option Nat)
deriving DecidableEq, Repr

/-- Schemes followed through the system's handler. -/
def allowedSchemes : List (List Char) := ["mailto:".toList, "tel:".toList]

/-! ## Positions -/

/-- What stands before and after the last `c`, which `str::rfind` finds. -/
def splitLast (c : Char) : List Char → Option (List Char × List Char)
  | [] => none
  | d :: rest =>
      ((splitLast c rest).map fun split => (d :: split.1, split.2)).or
        (if d = c then some ([], rest) else none)

/-- ASCII digits that a `u32` holds. -/
def number (digits : List Char) : Option Nat :=
  if digits ≠ [] ∧ digits.all Char.isDigit ∧ Nat.ofDigitChars 10 digits 0 ≤ u32Max then
    some (Nat.ofDigitChars 10 digits 0)
  else none

/-- A path and the position split off it. -/
structure Positioned where
  path : List Char
  line : Option Nat
  column : Option Nat

/-- A position in the brackets that end `raw`. -/
def bracketed (raw : List Char) : Option Positioned :=
  (splitLast '(' raw).bind fun split =>
    if split.2.getLast? = some ')' ∧ split.1 ≠ [] then
      let inner := split.2.dropLast
      let column := if ',' ∈ inner then
        number (trimmed ((inner.dropWhile fun c => c ≠ ',').drop 1)) else none
      (number (trimmed (inner.takeWhile fun c => c ≠ ','))).map fun line =>
        ⟨split.1, some line, column⟩
    else none

/-- A number behind the last colon, and the path before it. -/
def popNumber (raw : List Char) : Option (List Char × Nat) :=
  (splitLast ':' raw).bind fun split => (number split.2).map fun n => (split.1, n)

/-- At most two numbers behind colons, in order, and the path before them. -/
def popNumbers (raw : List Char) : List Char × List Nat :=
  match popNumber raw with
  | none => (raw, [])
  | some (path, last) =>
      match popNumber path with
      | none => (path, [last])
      | some (front, first) => (front, [first, last])

/-- Split a position off a path. It is never refused; one letter before a single number is a
drive. -/
def splitPosition (raw : List Char) : Positioned :=
  match bracketed raw with
  | some positioned => positioned
  | none =>
      let (path, numbers) := popNumbers raw
      if path = [] ∨ ((Utf8.encode path).length = 1 ∧ numbers.length = 1) then ⟨raw, none, none⟩
      else ⟨path, numbers[0]?, numbers[1]?⟩

/-! ## `file:` addresses -/

/-- `char::to_digit(16)`. -/
def hexDigit (c : Char) : Option Nat :=
  if '0' ≤ c ∧ c ≤ '9' then some (c.toNat - 0x30)
  else if 'a' ≤ c ∧ c ≤ 'f' then some (c.toNat - 0x57)
  else if 'A' ≤ c ∧ c ≤ 'F' then some (c.toNat - 0x37)
  else none

/-- `u8::from_str_radix` of two characters to base 16: a sign `+` may stand first. -/
def hexByte (high low : Char) : Option UInt8 :=
  if high = '+' then (hexDigit low).map UInt8.ofNat
  else (hexDigit high).bind fun h => (hexDigit low).map fun l => UInt8.ofNat (16 * h + l)

/-- The byte that `%` and two characters stand for, if it is no control character. -/
def escaped (high low : Char) : Option UInt8 :=
  (hexByte high low).filter fun b => !(b < 0x20 || b = 0x7F)

/-- Percent-decoding to bytes. -/
def percentBytes : List Char → Option (List UInt8)
  | [] => some []
  | c :: high :: low :: rest =>
      if c = '%' then (escaped high low).bind fun b => (percentBytes rest).map (b :: ·)
      else (percentBytes (high :: low :: rest)).map (String.utf8EncodeChar c ++ ·)
  | c :: rest =>
      if c = '%' then none else (percentBytes rest).map (String.utf8EncodeChar c ++ ·)

/-- Percent-decoding that refuses control characters and what is no UTF-8. -/
def percentDecode (text : List Char) : Option (List Char) :=
  (percentBytes text).bind fun bytes => (Utf8.decode bytes).toOption

/-- What follows the host of an address without its scheme. A host other than `localhost` is
kept. -/
def withoutHost (decoded : List Char) : List Char :=
  match decoded with
  | '/' :: '/' :: after =>
      let host := after.takeWhile fun c => c ≠ '/'
      let path := after.dropWhile fun c => c ≠ '/'
      if host = [] ∨ eqIgnoreAsciiCase host "localhost".toList then path
      else '/' :: '/' :: (host ++ path)
  | decoded => decoded

/-- `file:///C:/x` names a drive path. -/
def driveForm (path : List Char) : List Char :=
  match path with
  | '/' :: d :: ':' :: rest => if d.isAlpha then d :: ':' :: rest else '/' :: d :: ':' :: rest
  | path => path

/-- The path of a `file:` URI, percent-decoded. -/
def fileUriPath (uri : List Char) : Option (List Char) :=
  if uri.length < 5 then none
  else (percentDecode (uri.drop 5)).bind fun decoded =>
    let path := driveForm (withoutHost decoded)
    if path ≠ [] ∧ path.all (fun c => !isControl c) then some path else none

/-- What an explicit hyperlink's target is. -/
def classify (uri : List Char) : Option Target :=
  let uri := trimmed uri
  let lower := uri.map Char.toLower
  if uri.any isControl then none
  else if "http://".toList.isPrefixOf lower then
    if 7 < uri.length then some (.web uri) else none
  else if "https://".toList.isPrefixOf lower then
    if 8 < uri.length then some (.web uri) else none
  else if "file:".toList.isPrefixOf lower then
    let positioned := splitPosition uri
    (fileUriPath positioned.path).map fun path => .file path positioned.line positioned.column
  else if allowedSchemes.any fun scheme => scheme.isPrefixOf lower then some (.scheme uri)
  else none

end Links

end Throng
