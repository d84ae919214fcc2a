import Throng.App.Document
import Throng.Core.Chars
import Throng.Editor.Find
import Throng.Editor.Lines
import Throng.Lib.Machine

/-!
# Find in Files

A scan lists the matches of a file by their places in the text it found. A commit replaces
some of them, each checked against the text as it is by then: in the buffer where the file is
open, and on disk otherwise.

One file is followed. What a commit does to it does not depend on the other files of the
search. The writes of files that are not open have been confirmed.
-/

namespace Throng

open Editor (Letters Query Rope Selection Transaction)
open Text (Diff TextFormat)

namespace FileSearch

/-- One match in a file. -/
structure FileMatch where
  start : Nat
  stop : Nat
  /-- The matched text, as found (checked again before replacing it). -/
  found : List Char
deriving DecidableEq, Repr

/-! ## The scan -/

/-- Whether bytes look like a binary file. -/
def isBinary (bytes : Bytes) : Bool := (bytes.take 8000).contains 0

/-- The matches in a text. -/
def matchesIn (letters : Letters) (rope : Rope) (query : Query) (limit : Nat) : List FileMatch :=
  (Editor.Find.findAll letters rope query limit).map fun range =>
    ⟨range.1, range.2, (rope.take range.2).drop range.1⟩

/-- How much of a line is shown around a match. -/
def context : Nat := 40

/-- Back from a character to the start of its word, at most to `low`. -/
def backUp (text : List Char) (low : Nat) : Nat → Option Nat
  | 0 => some 0
  | n + 1 => text[n]?.bind fun c =>
      if isWhitespace c || n + 1 ≤ low then some (n + 1) else backUp text low n

/-- On from a character to the end of its word, at most to `high`. -/
def reach (high : Nat) : Nat → List Char → Nat
  | i, [] => i
  | i, c :: rest => if !isWhitespace c && i < high then reach high (i + 1) rest else i

/-- Over white space, at most `n` characters of it. -/
def skipIndent (text : List Char) : Nat → Nat → Option Nat
  | 0, i => some i
  | n + 1, i => text[i]?.bind fun c => if isWhitespace c then skipIndent text n (i + 1) else some i

/-- What is shown of a line around a match, and where the match is in that. An ellipsis stands
wherever the line was cut. The slices panic outside the line. -/
def snippet (line : List Char) (start stop : Nat) : Option (List Char × (Nat × Nat)) :=
  (backUp line (start - (context + 12)) (start - context)).bind fun word =>
    let edge := min (stop + context) line.length
    let last := reach (stop + context + 12) edge (line.drop edge)
    -- leading indentation is noise in a result row
    (skipIndent line (start - word) word).bind fun first =>
      if first ≤ last ∧ last ≤ line.length then
        let offset := if (line.take first).any fun c => !isWhitespace c then 1 else 0
        some (List.replicate offset '…' ++ (line.take last).drop first ++
            (if last < line.length then ['…'] else []),
          (start - first + offset, stop - first + offset))
      else none

/-- A match as it is listed: with its line, and what is shown of that. -/
structure Row extends FileMatch where
  line : Nat
  snippet : List Char
  span : Nat × Nat
deriving DecidableEq, Repr

/-- The matches in a text, with snippets. -/
def rowsIn (letters : Letters) (rope : Rope) (query : Query) (limit : Nat) : Option (List Row) :=
  (Editor.Find.findAll letters rope query limit).mapM fun range =>
    let line := Editor.Lines.lineOf rope range.1
    let text := Editor.Lines.lineText rope line
    let start := range.1 - Editor.Lines.lineStart rope line
    (snippet text start (start + (range.2 - range.1))).map fun shown =>
      ⟨⟨range.1, range.2, (rope.take range.2).drop range.1⟩, line, shown.1, shown.2⟩

/-- The matches in one file, or `none` when it is skipped. -/
def searchOne (letters : Letters) (look : Look) (query : Query) (maxBytes limit : Nat) :
    Option (List FileMatch) :=
  match look.stamp with
  | .error _ => none
  | .ok stamp =>
      if stamp.len > maxBytes then none
      else
        match look.bytes with
        | .error _ => none
        | .ok bytes =>
            if isBinary bytes then none
            else
              match Text.decode bytes .lf with
              | .error _ => none
              | .ok decoded => some (matchesIn letters decoded.text query limit)

/-! ## Replacing -/

/-- The match is still there. -/
def stands (rope : Rope) (m : FileMatch) : Bool := Rope.slice rope m.start m.stop = some m.found

/-- The edits of the targets that are still there, and how many were refused. -/
def verifiedEdits (rope : Rope) (targets : List FileMatch) (replacement : List Char) :
    List (Nat × Nat × List Char) × Nat :=
  ((targets.filter (stands rope)).map fun m => (m.start, m.stop, replacement),
    (targets.filter fun m => !stands rope m).length)

/-- How a step of the user goes: the time, and what becomes of the write it makes. -/
structure Env where
  now : Nat
  wrote : Except String Unit
  stamp : Option Stamp

variable (diff : Diff) (maxBytes : Nat) (replacement : List Char)

/-- Replace matches in a file that is not open. Besides how many were replaced and refused it
gives what the file holds then. -/
def replaceOnDisk (look : Look) (targets : List FileMatch) (env : Env) :
    Option (Except String ((Nat × Nat) × Bytes)) :=
  match look.stamp with
  | .error reason => some (.error reason)
  | .ok stamp =>
      if stamp.len > maxBytes then
        some (.error "the file is now larger than the editor's limit")
      else
        match look.bytes with
        | .error reason => some (.error reason)
        | .ok bytes =>
            match Text.decode bytes .lf with
            | .error reason => some (.error (decodeErrorText reason))
            | .ok decoded =>
                let edits := verifiedEdits decoded.text targets replacement
                if edits.1 = [] then some (.ok ((0, edits.2), bytes))
                else
                  ((Transaction.replace decoded.text edits.1).bind fun tx =>
                    tx.apply decoded.text).map fun rope =>
                      env.wrote.map fun _ =>
                        ((edits.1.length, edits.2), Text.encode diff rope decoded.format)

/-- How the calls of a write go, each of which can fail. -/
structure WriteCalls where
  resolve : Except String Unit
  create : Except String Unit
  write : Except String Unit
  sync : Except String Unit
  permit : Except String Unit
  persist : Except String Unit

/-- A sibling temp file that is ready to be renamed. -/
def WriteCalls.prepared (calls : WriteCalls) : Except String Unit := do
  calls.resolve
  calls.create
  calls.write
  calls.sync
  calls.permit

/-- Write to a sibling temp file and rename it over a file: the outcome, and what the file that
held `held` holds then. -/
def atomicWrite (calls : WriteCalls) (held bytes : Bytes) : Except String Unit × Bytes :=
  match calls.prepared with
  | .error reason => (.error reason, held)
  | .ok _ =>
      match calls.persist with
      | .error reason => (.error reason, held)
      | .ok _ => (.ok (), bytes)

/-- `replace_on_disk` with the write it makes: the answer, and what the file that held `held`
holds then. -/
def replaceFile (look : Look) (targets : List FileMatch) (calls : WriteCalls) (held : Bytes) :
    Option (Except String (Nat × Nat) × Bytes) :=
  match look.stamp with
  | .error reason => some (.error reason, held)
  | .ok stamp =>
      if stamp.len > maxBytes then
        some (.error "the file is now larger than the editor's limit", held)
      else
        match look.bytes with
        | .error reason => some (.error reason, held)
        | .ok bytes =>
            match Text.decode bytes .lf with
            | .error reason => some (.error (decodeErrorText reason), held)
            | .ok decoded =>
                let edits := verifiedEdits decoded.text targets replacement
                if edits.1 = [] then some (.ok (0, edits.2), held)
                else
                  ((Transaction.replace decoded.text edits.1).bind fun tx =>
                    tx.apply decoded.text).map fun rope =>
                      let written := atomicWrite calls held (Text.encode diff rope decoded.format)
                      (written.1.map fun _ => (edits.1.length, edits.2), written.2)

/-- Replace matches in the buffer of an open file, in one undo step. A clean document is saved,
and the error of the save is kept; one with edits of its own stays dirty. -/
def replaceInBuffer (doc : Document) (targets : List FileMatch) (env : Env) :
    Option (Document × (Nat × Nat) × List String) :=
  let dirty := doc.isDirty
  let edits := verifiedEdits dirty.2.buf.rope targets replacement
  if edits.1 = [] then some (dirty.2, (0, edits.2), [])
  else
    ((Transaction.replace dirty.2.buf.rope edits.1).bind fun tx =>
      dirty.2.transact (Selection.point 0) tx env.now).map fun result =>
        if dirty.1 then (result.1, (edits.1.length, edits.2), [])
        else
          match result.1.saveTo diff none env.wrote env.stamp with
          | .ok saved => (saved, (edits.1.length, edits.2), [])
          | .error reason => (result.1, (edits.1.length, edits.2), [reason])

/-! ## The search panel -/

/-- Where the text of a file is: on disk only, or in the buffer of an open document. -/
inductive Place
  | unopened (bytes : Bytes)
  | opened (doc : Document)

namespace Place

/-- The text a commit finds. -/
def text : Place → Rope
  | .unopened bytes =>
      match Text.decode bytes .lf with
      | .ok decoded => decoded.text
      | .error _ => []
  | .opened doc => doc.buf.rope

end Place

/-- What the commits of a file came to. -/
structure Tally where
  replaced : Nat
  refused : Nat
  failures : List String
deriving DecidableEq, Repr

/-- A file in the results of a search: where its text is, and the matches that are listed. -/
structure SearchedFile where
  place : Place
  rows : List FileMatch
  tally : Tally

/-- What the user commits of a file: all its matches, or one row of them. -/
inductive Commit
  | file
  | row (i : Nat)
deriving DecidableEq, Repr

namespace SearchedFile

def targets (file : SearchedFile) : Commit → List FileMatch
  | .file => file.rows
  | .row i => file.rows[i]?.toList

/-- Committed rows leave the list, replaced or refused. -/
def committed (file : SearchedFile) (place : Place) (targets : List FileMatch)
    (counts : Nat × Nat) (failures : List String) : SearchedFile where
  place
  rows := file.rows.filter fun m => !targets.contains m
  tally :=
    { replaced := file.tally.replaced + counts.1
      refused := file.tally.refused + counts.2
      failures := file.tally.failures ++ failures }

/-- A file that is not open, after `replaceOnDisk`: where that fails the rows stay. -/
def onDisk (file : SearchedFile) (targets : List FileMatch) :
    Except String ((Nat × Nat) × Bytes) → SearchedFile
  | .ok result => file.committed (.unopened result.2) targets result.1 []
  | .error reason =>
      { file with tally := { file.tally with failures := file.tally.failures ++ [reason] } }

/-- What is found of a file that nothing else keeps from being read. -/
def look (bytes : Bytes) : Look where
  stamp := .ok ⟨bytes.length, none⟩
  isThere := true
  bytes := .ok bytes

/-- Commit replacements. -/
def commit (file : SearchedFile) (what : Commit) (env : Env) : Option SearchedFile :=
  let targets := file.targets what
  if targets = [] then some file
  else
    match file.place with
    | .opened doc =>
        (replaceInBuffer diff replacement doc targets env).map fun result =>
          file.committed (.opened result.1) targets result.2.1 result.2.2
    | .unopened bytes =>
        (replaceOnDisk diff maxBytes replacement (look bytes) targets env).map
          (file.onDisk targets)

end SearchedFile

/-- The results of a scan that found `scanned`. -/
def found (letters : Letters) (query : Query) (limit : Nat) (scanned : Rope) (place : Place) :
    SearchedFile where
  place
  rows := matchesIn letters scanned query limit
  tally := ⟨0, 0, []⟩

/-- The user commits one row, and how that goes. -/
structure Click where
  row : Nat
  env : Env

/-- Rows committed one by one, in whatever order. -/
def machine (start : SearchedFile) : Machine SearchedFile Click where
  init file := file = start
  step file click := file.commit diff maxBytes replacement (.row click.row) click.env

end FileSearch

end Throng
