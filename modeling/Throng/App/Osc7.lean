import Throng.Core.Links
import Throng.Protocol.Messages

/-!
# OSC 7

`ESC ] 7 ; file://host/path BEL`: a shell reporting its working directory. The
scanner finds reports in output that arrives in pieces; a report counts when its host
is this machine.
-/

namespace Throng

/-- The longest report kept while waiting for its end. -/
def Osc7.limit : Nat := 4096

structure Osc7 where
  /-- A report whose start has been seen but not its end. -/
  begun : Option Bytes := none
  /-- The last byte seen was ESC, so a string terminator may follow. -/
  escape : Bool := false
deriving DecidableEq, Repr

namespace Osc7

/-- `ESC ] 7 ;` -/
def start : Bytes := [0x1b, 0x5d, 0x37, 0x3b]

/-- `String::from_utf8`. -/
def fromUtf8 (bytes : Bytes) : Option String :=
  match Utf8.decode bytes with
  | .ok text => some (String.ofList text)
  | .error _ => none

/-- One byte of a report that has begun. A report that ends replaces what was found
before it, even if it is no text. -/
def scanByte (bytes : Bytes) (escape : Bool) (found : Option String) (byte : UInt8) :
    Osc7 × Option String :=
  if byte = 0x07 ∨ (escape ∧ byte = '\\'.toUInt8) then
    ({}, fromUtf8 (if escape then bytes.dropLast else bytes))
  else if (bytes ++ [byte]).length > limit then ({}, found)
  else (⟨some (bytes ++ [byte]), byte = 0x1b⟩, found)

/-- The scan from here on, the next `skip` bytes being the rest of a start. A start
that straddles two pieces is missed. -/
def scanFrom : Osc7 → Option String → Nat → Bytes → Osc7 × Option String
  | s, found, _, [] => (s, found)
  | s, found, skip + 1, _ :: rest => scanFrom s found skip rest
  | s, found, 0, byte :: rest =>
      match s.begun with
      | some bytes =>
          let (s, found) := scanByte bytes s.escape found byte
          scanFrom s found 0 rest
      | none =>
          if start.isPrefixOf (byte :: rest) then
            scanFrom ⟨some [], false⟩ found (start.length - 1) rest
          else scanFrom s found 0 rest

/-- The last complete report's URI in `data`, if any. -/
def scan (s : Osc7) (data : Bytes) : Osc7 × Option String := scanFrom s none 0 data

/-- The host of a report is this machine. -/
def isLocal (host : List Char) (hostname : Option (List Char)) : Bool :=
  host = [] || eqIgnoreAsciiCase host "localhost".toList ||
    hostname.any fun name => eqIgnoreAsciiCase host name

/-- The directory a report names, when its host is this machine. -/
def localDirectory (uri : List Char) (hostname : Option (List Char)) : Option (List Char) :=
  (stripPrefix "file://".toList uri).bind fun rest =>
    let host := rest.takeWhile fun c => c ≠ '/'
    let path := rest.dropWhile fun c => c ≠ '/'
    if path = [] ∨ isLocal host hostname = false then none
    else match Links.classify ("file://".toList ++ path) with
      | some (.file path _ _) => some path
      | _ => none

end Osc7

end Throng
