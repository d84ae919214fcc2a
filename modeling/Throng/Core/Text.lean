import Throng.Lib.Utf8
import Throng.Lib.Utf16
import Throng.Protocol.Messages

/-!
# Text files

A document is held with LF line breaks and saved with the encoding and the line
endings it was read with. A file with mixed endings keeps the ending of each line
that a diff against the original lines finds unchanged; every other line takes the
dominant one. The diff is the `similar` crate's and stands as a parameter.

A text is a list of characters. The source splits lines over the UTF-8 bytes, in
which a CR or LF byte is always a character of its own.
-/

namespace Throng.Text

inductive Encoding
  | utf8 (bom : Bool)
  | utf16Le
  | utf16Be
deriving DecidableEq, Repr

inductive LineEnding
  | lf
  | crLf
  | cr
deriving DecidableEq, Repr

def LineEnding.asStr : LineEnding → List Char
  | .lf => ['\n']
  | .crLf => ['\r', '\n']
  | .cr => ['\r']

inductive DecodeError
  | binary
  | invalidUtf8 (offset : Nat)
  | invalidUtf16
deriving DecidableEq, Repr

/-- A line without its terminator, and the terminator; only a last line has none. -/
abbrev Line := List Char × Option LineEnding

/-- Everything needed to write a document back the way it was read. -/
structure TextFormat where
  encoding : Encoding
  eol : LineEnding
  /-- The original lines of a file whose lines did not all end the same way. -/
  mixed : Option (List Line)
deriving DecidableEq, Repr

structure Decoded where
  text : List Char
  format : TextFormat
deriving DecidableEq, Repr

def binarySniffBytes : Nat := 8 * 1024

/-! ## Reading -/

/-- `bytes.strip_prefix`. -/
def stripBytes (pfx bytes : Bytes) : Option Bytes :=
  if pfx <+: bytes then some (bytes.drop pfx.length) else none

def utf8Bom : Bytes := [0xEF, 0xBB, 0xBF]
def utf16LeBom : Bytes := [0xFF, 0xFE]
def utf16BeBom : Bytes := [0xFE, 0xFF]

def utf8 (bytes : Bytes) (offsetBase : Nat) : Except DecodeError (List Char) :=
  match Utf8.decode bytes with
  | .ok text => .ok text
  | .error offset => .error (.invalidUtf8 (offsetBase + offset))

def utf16 (bytes : Bytes) (order : Utf16.Order) : Except DecodeError (List Char) :=
  match (Utf16.ofBytes order bytes).bind Utf16.decode with
  | some text => .ok text
  | none => .error .invalidUtf16

/-- The encoding of a file, and its text as it stands. -/
def decodeRaw (bytes : Bytes) : Except DecodeError (Encoding × List Char) :=
  match stripBytes utf8Bom bytes with
  | some rest => (utf8 rest 3).map (.utf8 true, ·)
  | none =>
      match stripBytes utf16LeBom bytes with
      | some rest => (utf16 rest .little).map (.utf16Le, ·)
      | none =>
          match stripBytes utf16BeBom bytes with
          | some rest => (utf16 rest .big).map (.utf16Be, ·)
          | none =>
              if (bytes.take binarySniffBytes).contains 0 then .error .binary
              else (utf8 bytes 0).map (.utf8 false, ·)

/-- `split_lines` from a position at which `line` holds the line so far. -/
def splitLinesFrom (line : List Char) : List Char → List Line
  | [] => if line = [] then [] else [(line, none)]
  | c :: cs =>
      if c = '\n' then (line, some .lf) :: splitLinesFrom [] cs
      else if c = '\r' then
        match cs with
        | '\n' :: rest => (line, some .crLf) :: splitLinesFrom [] rest
        | rest => (line, some .cr) :: splitLinesFrom [] rest
      else splitLinesFrom (line ++ [c]) cs

def splitLines (raw : List Char) : List Line := splitLinesFrom [] raw

/-- How often an ending occurs. -/
def count (lines : List Line) (ending : LineEnding) : Nat :=
  lines.countP fun line => line.2 = some ending

/-- The dominant ending (ties prefer LF, then CRLF) and whether more than one kind occurs. -/
def classify (lines : List Line) (defaultEol : LineEnding) : LineEnding × Bool :=
  let lf := count lines .lf
  let crlf := count lines .crLf
  let cr := count lines .cr
  let kinds := ([lf, crlf, cr].filter fun n => n > 0).length
  (if kinds = 0 then defaultEol
    else if lf ≥ crlf ∧ lf ≥ cr then .lf
    else if crlf ≥ cr then .crLf
    else .cr, kinds > 1)

/-- The lines with LF for every terminator. -/
def textOf (lines : List Line) : List Char :=
  lines.flatMap fun line => line.1 ++ if line.2.isSome then ['\n'] else []

def decode (bytes : Bytes) (defaultEol : LineEnding) : Except DecodeError Decoded :=
  (decodeRaw bytes).map fun (encoding, raw) =>
    let lines := splitLines raw
    let (eol, mixed) := classify lines defaultEol
    ⟨textOf lines, encoding, eol, if mixed then some lines else none⟩

/-! ## Writing -/

/-- An operation of a diff. -/
inductive DiffOp
  | equal (oldIndex newIndex len : Nat)
  | delete (oldIndex oldLen newIndex : Nat)
  | insert (oldIndex newIndex newLen : Nat)
  | replace (oldIndex oldLen newIndex newLen : Nat)
deriving DecidableEq, Repr

/-- The diff of two lists of lines: `capture_diff_slices`. -/
abbrev Diff := List (List Char) → List (List Char) → List DiffOp

def endsWithNewline (text : List Char) : Bool := text.getLast? = some '\n'

/-- The lines of an LF text; the empty piece after a last LF is none. -/
def newLines (text : List Char) : List (List Char) :=
  if text = [] then []
  else if endsWithNewline text then (text.splitOn '\n').dropLast
  else text.splitOn '\n'

/-- Give line `newIndex` the ending of the original line `oldIndex`, if that has one. -/
def keepEnding (original : List Line) (endings : List LineEnding) (oldIndex newIndex : Nat) :
    List LineEnding :=
  match original[oldIndex]? with
  | some (_, some ending) => endings.set newIndex ending
  | _ => endings

/-- Take over the endings of the lines one operation finds unchanged. -/
def keepEndings (original : List Line) (endings : List LineEnding) : DiffOp → List LineEnding
  | .equal oldIndex newIndex len =>
      (List.range len).foldl (fun endings k =>
        keepEnding original endings (oldIndex + k) (newIndex + k)) endings
  | _ => endings

def endings (diff : Diff) (format : TextFormat) (lines : List (List Char)) : List LineEnding :=
  let all := List.replicate lines.length format.eol
  match format.mixed with
  | none => all
  | some original => (diff (original.map Prod.fst) lines).foldl (keepEndings original) all

/-- The lines that are written, the last with its ending if the text ends in one. -/
def writtenLines (diff : Diff) (text : List Char) (format : TextFormat) : List Line :=
  let lines := newLines text
  let endings := endings diff format lines
  lines.mapIdx fun i line =>
    (line, if i + 1 ≠ lines.length ∨ endsWithNewline text then endings[i]? else none)

def joined (lines : List Line) : List Char :=
  lines.flatMap fun line => line.1 ++ (line.2.map LineEnding.asStr).getD []

def encodeRaw (encoding : Encoding) (raw : List Char) : Bytes :=
  match encoding with
  | .utf8 bom => (if bom then utf8Bom else []) ++ Utf8.encode raw
  | .utf16Le => utf16LeBom ++ Utf16.toBytes .little (Utf16.encode raw)
  | .utf16Be => utf16BeBom ++ Utf16.toBytes .big (Utf16.encode raw)

def encode (diff : Diff) (text : List Char) (format : TextFormat) : Bytes :=
  encodeRaw format.encoding (joined (writtenLines diff text format))

end Throng.Text
