import Throng.Editor.Rope
import Std.Data.ExtTreeMap

/-!
# Syntax highlighting

`syntect`'s parser is a state machine run line by line. The state at the start of
every 32nd line is kept, so drawing a line needs at most 31 lines of re-parsing. A
request gives up at its deadline; what it parsed until then stays.

The parser is a parameter. The clock only ever moves on, so all a request sees of it is
how many times it may still look before the deadline has passed.
-/

namespace Throng.Editor

def longLine : Nat := 10000
def stride : Nat := 32
def cacheLines : Nat := 20000

structure Rgba where
  r : UInt8
  g : UInt8
  b : UInt8
  a : UInt8
deriving DecidableEq, Repr

structure TokenStyle where
  fg : Rgba
  bold : Bool
  italic : Bool
  underline : Bool
deriving DecidableEq, Repr

/-- A styled run of a line: byte offsets within the line's text. -/
structure Span where
  start : Nat
  stop : Nat
  style : TokenStyle
deriving DecidableEq, Repr

/-- The parser: its state before the first line, and a line's styled ranges with the
state after it. The ranges are missing where `parse_line` fails. -/
structure Syntect (S T σ : Type) where
  initial : S → T → σ
  parseLine : T → σ → List Char → Option (List (TokenStyle × Nat × Nat)) × σ

/-- `checkpoints[k]` is the state at the start of line `k * stride`; the first is always
there. -/
abbrev Checkpoints (σ : Type) := { states : List σ // states ≠ [] }

namespace Checkpoints

variable {σ : Type}

def length (checkpoints : Checkpoints σ) : Nat := checkpoints.val.length

def last (checkpoints : Checkpoints σ) : σ := checkpoints.val.getLast checkpoints.property

def push (checkpoints : Checkpoints σ) (state : σ) : Checkpoints σ :=
  ⟨checkpoints.val ++ [state], by simp⟩

/-- `checkpoints.truncate(n + 1)`. -/
def truncate (checkpoints : Checkpoints σ) (n : Nat) : Checkpoints σ :=
  ⟨checkpoints.val.take (n + 1), by simpa using checkpoints.property⟩

end Checkpoints

/-- Highlighting for one document in one language and theme. -/
structure Highlighter (S T σ : Type) where
  language : S
  theme : T
  checkpoints : Checkpoints σ
  cache : Std.ExtTreeMap Nat (List Span)

namespace Highlighter

variable {S T σ : Type} [DecidableEq S] (syntect : Syntect S T σ)

/-- Forget everything. -/
def reset (highlighter : Highlighter S T σ) : Highlighter S T σ :=
  { highlighter with
    checkpoints := ⟨[syntect.initial highlighter.language highlighter.theme], by simp⟩
    cache := ∅ }

def new (language : S) (theme : T) : Highlighter S T σ :=
  { language := language
    theme := theme
    checkpoints := ⟨[syntect.initial language theme], by simp⟩
    cache := ∅ }

def setTheme (highlighter : Highlighter S T σ) (theme : T) : Highlighter S T σ :=
  reset syntect { highlighter with theme := theme }

def setSyntax (highlighter : Highlighter S T σ) (language : S) : Highlighter S T σ :=
  if highlighter.language ≠ language then reset syntect { highlighter with language := language }
  else highlighter

/-- Text changed from `line` on: states after it are no longer known. -/
def invalidateFrom (highlighter : Highlighter S T σ) (line : Nat) : Highlighter S T σ :=
  { highlighter with
    checkpoints := highlighter.checkpoints.truncate (line / stride)
    cache := highlighter.cache.filter fun l _ => l < line }

/-- The spans of a parsed line: the ranges cut off before the line break. -/
def spansOf (textLen : Nat) (ranges : List (TokenStyle × Nat × Nat)) : List Span :=
  ranges.filterMap fun range =>
    let stop := min range.2.2 textLen
    if range.2.1 < stop then some { start := range.2.1, stop := stop, style := range.1 } else none

/-- Parse one line; its spans and the state after it. -/
def parse (theme : T) (rope : Rope) (line : Nat) (state : σ) : List Span × σ :=
  match (Rope.lines rope)[line]? with
  | none => ([], state)
  | some slice =>
      if slice.length > longLine then ([], state)
      else
        let buf := if slice.getLast? = some '\n' then slice else slice ++ ['\n']
        let parsed := syntect.parseLine theme state buf
        match parsed.1 with
        | none => ([], parsed.2)
        | some ranges => (spansOf (utf8Len buf - 1) ranges, parsed.2)

/-- Parse lines one after the other, looking at the clock before each; `none` when the
deadline has passed. -/
def parseLines (theme : T) (rope : Rope) : σ → Nat → List Nat → Option (σ × Nat)
  | state, left, [] => some (state, left)
  | _, 0, _ :: _ => none
  | state, left + 1, line :: lines =>
      parseLines theme rope (parse syntect theme rope line state).2 left lines

/-- Fill in the next `missing` checkpoints; how often the clock may still be looked at,
`none` when the deadline has passed. -/
def reach (theme : T) (rope : Rope) : Nat → Checkpoints σ → Nat → Checkpoints σ × Option Nat
  | 0, checkpoints, left => (checkpoints, some left)
  | missing + 1, checkpoints, left =>
      let k := checkpoints.length - 1
      match parseLines syntect theme rope checkpoints.last left
          (List.range' (k * stride) stride) with
      | none => (checkpoints, none)
      | some (state, left) => reach theme rope missing (checkpoints.push state) left

/-- Where the loop over the lines of a request stands. -/
structure Pass (σ : Type) where
  checkpoints : Checkpoints σ
  cache : Std.ExtTreeMap Nat (List Span)
  state : σ
  left : Nat
  out : List (Option (List Span))

/-- Keep the state if the line is where the next checkpoint belongs. -/
def Pass.keep (pass : Pass σ) (line : Nat) : Pass σ :=
  if line % stride = 0 ∧ line / stride = pass.checkpoints.length then
    { pass with checkpoints := pass.checkpoints.push pass.state }
  else pass

/-- One turn of the loop: a line before `start` is parsed only for the state after it. -/
def visit (theme : T) (rope : Rope) (start : Nat) (pass : Pass σ) (line : Nat) : Pass σ :=
  let pass := pass.keep line
  let parsed := parse syntect theme rope line pass.state
  if line < start then { pass with state := parsed.2 }
  else
    match pass.cache[line]? with
    | some cached => { pass with state := parsed.2, out := pass.out ++ [some cached] }
    | none =>
        -- past the deadline the state does not advance
        if pass.left = 0 then { pass with out := pass.out ++ [none] }
        else
          { pass with
            cache := pass.cache.insert line parsed.1
            state := parsed.2
            left := pass.left - 1
            out := pass.out ++ [some parsed.1] }

/-- The cache a request starts with. -/
def kept (highlighter : Highlighter S T σ) : Std.ExtTreeMap Nat (List Span) :=
  if highlighter.cache.size > cacheLines then ∅ else highlighter.cache

/-- Draw the lines from `start` to `stop`, once the checkpoint before them is reached;
what the cache has of them when it is not. -/
def draw (highlighter : Highlighter S T σ) (rope : Rope) (start stop : Nat) :
    Checkpoints σ × Option Nat → Option (Highlighter S T σ × List (Option (List Span)))
  | (checkpoints, none) =>
      some ({ highlighter with checkpoints, cache := highlighter.kept },
        (List.range' start (stop - start)).map fun line => highlighter.kept[line]?)
  | (checkpoints, some left) =>
      checkpoints.val[start / stride]?.map fun state =>
        let base := start / stride * stride
        let pass := (List.range' base (stop - base)).foldl
          (visit syntect highlighter.theme rope start)
          ⟨checkpoints, highlighter.kept, state, left, []⟩
        ({ highlighter with checkpoints := pass.checkpoints, cache := pass.cache }, pass.out)

/-- Spans for each of the lines, or `none` for a line not reached in time; the whole is
`none` where the checkpoint is missing that `reach` filled in. -/
def spans (highlighter : Highlighter S T σ) (rope : Rope) (start stop : Nat) (budget : Nat) :
    Option (Highlighter S T σ × List (Option (List Span))) :=
  let start := min start (Rope.lenLines rope)
  let stop := min stop (Rope.lenLines rope)
  let lines := List.range' start (stop - start)
  if lines.all fun line => highlighter.cache.contains line then
    some (highlighter, lines.map fun line => highlighter.cache[line]?)
  else
    draw syntect highlighter rope start stop
      (reach syntect highlighter.theme rope (start / stride + 1 - highlighter.checkpoints.length)
        highlighter.checkpoints budget)

end Highlighter

end Throng.Editor
