import Std.Data.ExtTreeMap
import Mathlib.Data.List.Basic
import Throng.Core.Chars

/-!
# Key bindings

The commands a chord can run, where each is live, and what each is bound to by default.
A keymap keeps the chords bound to each command; the settings screen binds, unbinds and
resets them. Binding a chord takes it from the commands it conflicts with.
-/

namespace Throng

/-- Where a command is live: the kind of thing that has the keyboard. -/
inductive Scope
  | editor
  | terminal
  | explorer
  | preview
  | findInFiles
deriving DecidableEq, Repr

/-- A key with its modifiers. -/
structure Chord where
  ctrl : Bool
  shift : Bool
  alt : Bool
  key : String
deriving DecidableEq, Repr

/-! ## Chords -/

/-- `char::to_uppercase`, where `upper` says what it does beyond ASCII. -/
def uppercase (upper : Char → List Char) (c : Char) : List Char :=
  if c.toNat < 128 then [c.toUpper] else upper c

/-- `str::to_ascii_lowercase`. -/
def asciiLowercase (text : String) : String := .ofList (text.toList.map Char.toLower)

/-- `rsplit_once('+')`, or everything as the second part. -/
def rsplitPlus (token : List Char) : List Char × List Char :=
  let key := (token.reverse.takeWhile fun c => c ≠ '+').reverse
  (token.take (token.length - key.length - 1), key)

namespace Chord

/-- Whether a chord can be bound at all: a lone Escape, Space or Enter is the UI's own. -/
def bindable (chord : Chord) : Bool :=
  chord.ctrl || chord.alt || chord.shift ||
    !(["Escape", "Space", "Enter", "Tab", "Backspace"].contains chord.key)

/-- `Display`. -/
def text (chord : Chord) : String :=
  (if chord.ctrl then "Ctrl+" else "") ++ (if chord.shift then "Shift+" else "") ++
    (if chord.alt then "Alt+" else "") ++ chord.key

def modifierNames : List String :=
  ["Ctrl", "Control", "Shift", "Alt", "Meta", "Cmd", "Command", "Option"]

/-- The full name of a key with a short one. -/
def keyAlias : String → Option String
  | "esc" => some "Escape"
  | "return" => some "Enter"
  | "del" => some "Delete"
  | "up" => some "ArrowUp"
  | "down" => some "ArrowDown"
  | "left" => some "ArrowLeft"
  | "right" => some "ArrowRight"
  | "pgup" => some "PageUp"
  | "pgdn" | "pgdown" => some "PageDown"
  | "space" | "spacebar" => some "Space"
  | _ => none

/-- A single letter is upper-cased, and so is the first one of a name. -/
def normaliseKey (upper : Char → List Char) (key : String) : String :=
  match key.toList with
  | [c] => .ofList (uppercase upper c)
  | chars =>
      match keyAlias (asciiLowercase key) with
      | some full => full
      | none =>
          match chars with
          | [] => ""
          | first :: rest => .ofList (uppercase upper first ++ rest)

/-- The modifiers of a chord's text, read one after the other. -/
def readModifiers (chord : Chord) : List String → Option Chord
  | [] => some chord
  | part :: parts =>
      match asciiLowercase part with
      | "ctrl" | "control" | "cmd" | "command" | "meta" | "super" =>
          readModifiers { chord with ctrl := true } parts
      | "shift" => readModifiers { chord with shift := true } parts
      | "alt" | "option" | "opt" => readModifiers { chord with alt := true } parts
      | _ => none

/-- The modifiers of a token and its key. A trailing `+` is the plus key: `Ctrl++`. -/
def splitToken (token : List Char) : List Char × List Char :=
  if ['+', '+'].isSuffixOf token then (token.take (token.length - 2), ['+'])
  else if token = ['+'] then ([], ['+'])
  else rsplitPlus token

/-- Read `Ctrl+Shift+T`. -/
def parse (upper : Char → List Char) (token : String) : Option Chord :=
  let split := splitToken (trim token).toList
  let parts := (split.1.splitOn '+').map fun part => trim (.ofList part)
  match readModifiers ⟨false, false, false, ""⟩ (parts.filter fun part => part ≠ "") with
  | none => none
  | some chord =>
      let key := trim (.ofList split.2)
      if key = "" || (modifierNames.map asciiLowercase).contains (asciiLowercase key) then none
      else some { chord with key := normaliseKey upper key }

end Chord

/-! ## Commands -/

/-- A command a chord can run. -/
structure Command where
  id : String
  group : String
  label : String
  scopes : List Scope
  defaultTokens : List String
  /-- macOS defaults, where they differ. -/
  macDefaults : Option (List String)
deriving DecidableEq, Repr

namespace Command

def defaults (upper : Char → List Char) (command : Command) (mac : Bool) : List Chord :=
  let tokens :=
    if mac then command.macDefaults.getD command.defaultTokens else command.defaultTokens
  tokens.filterMap (Chord.parse upper)

def liveIn (command : Command) (scope : Scope) : Bool := command.scopes.contains scope

def sharesScope (command other : Command) : Bool :=
  command.scopes.any fun scope => other.scopes.contains scope

end Command

namespace Keymap

def cmd (id group label : String) (scopes : List Scope) (defaultTokens : List String) :
    Command :=
  { id, group, label, scopes, defaultTokens, macDefaults := none }

def everywhere : List Scope := [.editor, .terminal, .explorer, .preview, .findInFiles]

def inEditor : List Scope := [.editor]

def inTerminal : List Scope := [.terminal]

def inExplorer : List Scope := [.explorer]

def inPanels : List Scope := [.editor, .terminal]

def onLinks : List Scope := [.editor, .preview]

def inPreview : List Scope := [.preview]

/-- Every command a chord can run, in the order the key bindings editor lists them. -/
def commands : List Command :=
  [cmd "navigate.quickOpen" "Navigate" "Quick Open" everywhere ["Ctrl+Shift+T"],
    cmd "navigate.gotoLine" "Navigate" "Go To Line" inEditor ["Ctrl+G"],
    cmd "preview.followLink" "Navigate" "Open Link" onLinks ["Ctrl+Enter"],
    cmd "navigate.back" "Navigate" "Back" inPreview ["Alt+ArrowLeft"],
    cmd "navigate.forward" "Navigate" "Forward" inPreview ["Alt+ArrowRight"],
    cmd "tabs.next" "Tabs" "Next tab" everywhere ["Ctrl+Tab"],
    cmd "tabs.previous" "Tabs" "Previous tab" everywhere ["Ctrl+Shift+Tab"],
    cmd "panel.splitRight" "Panels" "Split right with a terminal" everywhere ["Ctrl+Shift+D"],
    cmd "panel.splitDown" "Panels" "Split down with a terminal" everywhere ["Ctrl+Shift+E"],
    cmd "panel.close" "Panels" "Close panel" everywhere ["Ctrl+Shift+W"],
    cmd "project.new" "Projects" "New project" everywhere ["Ctrl+Shift+N"],
    cmd "view.toggleExplorer" "View" "Toggle File Explorer" everywhere ["Ctrl+Alt+N"],
    cmd "view.fullscreen" "View" "Toggle fullscreen" everywhere ["F11"],
    cmd "app.preferences" "View" "Preferences" everywhere ["Ctrl+,"],
    cmd "zoom.in" "Zoom" "Zoom in" everywhere ["Ctrl+=", "Ctrl++"],
    cmd "zoom.out" "Zoom" "Zoom out" everywhere ["Ctrl+-"],
    cmd "zoom.reset" "Zoom" "Reset zoom" everywhere ["Ctrl+0"],
    cmd "editor.save" "Editor" "Save" inEditor ["Ctrl+S"],
    cmd "editor.toggleWordWrap" "Editor" "Toggle word wrap" inEditor ["Ctrl+Alt+W"],
    cmd "search.find" "Search" "Find" inPanels ["Ctrl+F"],
    { cmd "search.replace" "Search" "Find and replace" inEditor ["Ctrl+H"] with
      macDefaults := some ["Ctrl+Alt+F"] },
    cmd "search.findNext" "Search" "Find next" inPanels ["F3"],
    cmd "search.findPrevious" "Search" "Find previous" inPanels ["Shift+F3"],
    cmd "search.findInFiles" "Search" "Find in Files" everywhere ["Ctrl+Shift+F"],
    cmd "search.replaceInFiles" "Search" "Replace in Files" everywhere ["Ctrl+Shift+H"],
    cmd "terminal.scrollLineUp" "Terminal" "Scroll up a line" inTerminal ["Ctrl+Shift+ArrowUp"],
    cmd "terminal.scrollLineDown" "Terminal" "Scroll down a line" inTerminal
      ["Ctrl+Shift+ArrowDown"],
    cmd "terminal.scrollPageUp" "Terminal" "Scroll up a page" inTerminal ["Shift+PageUp"],
    cmd "terminal.scrollPageDown" "Terminal" "Scroll down a page" inTerminal ["Shift+PageDown"],
    cmd "terminal.scrollToTop" "Terminal" "Scroll to the top" inTerminal ["Ctrl+Home"],
    cmd "terminal.scrollToBottom" "Terminal" "Scroll to the bottom" inTerminal ["Ctrl+End"],
    cmd "file.rename" "File Explorer" "Rename" inExplorer ["F2"],
    cmd "file.delete" "File Explorer" "Delete" inExplorer ["Delete"],
    cmd "file.cut" "File Explorer" "Cut" inExplorer ["Ctrl+X"],
    cmd "file.copy" "File Explorer" "Copy" inExplorer ["Ctrl+C"],
    cmd "file.paste" "File Explorer" "Paste" inExplorer ["Ctrl+V"],
    cmd "file.undo" "File Explorer" "Undo file operation" inExplorer ["Ctrl+Z"],
    -- Both chords everywhere; macOS lists its own first, which is what its menus show.
    { cmd "file.redo" "File Explorer" "Redo file operation" inExplorer
        ["Ctrl+Y", "Ctrl+Shift+Z"] with
      macDefaults := some ["Ctrl+Shift+Z", "Ctrl+Y"] }]

def command (id : String) : Option Command := commands.find? fun c => c.id = id

/-- What taking a chord from a focused terminal costs. -/
inductive TerminalTier
  | free
  /-- A secondary line-editor binding the user can reach another way. -/
  | shadowable (what : String)
  /-- The terminal's own and nothing else's. -/
  | reserved (what : String)
deriving DecidableEq, Repr

/-- The tier of `chord` for a command live in a terminal. -/
def terminalTier (chord : Chord) (mac : Bool) : TerminalTier :=
  if mac || !chord.ctrl || chord.shift || chord.alt then .free
  else
    match chord.key with
    | "C" => .reserved "interrupt (SIGINT)"
    | "D" => .reserved "end of input"
    | "Z" => .reserved "suspend"
    | "A" => .reserved "start of line"
    | "E" => .reserved "end of line"
    | "W" => .reserved "delete word"
    | "U" => .reserved "delete to line start"
    | "K" => .reserved "delete to line end"
    | "R" => .reserved "reverse history search"
    | "L" => .reserved "clear screen"
    | "Q" => .reserved "resume output (XON)"
    | "B" => .shadowable "back a character"
    | "F" => .shadowable "forward a character"
    | "N" => .shadowable "next history entry"
    | "P" => .shadowable "previous history entry"
    | "H" => .shadowable "backspace"
    | "S" => .shadowable "pause output (XOFF)"
    | _ => .free

end Keymap

/-! ## The keymap -/

/-- The chords bound to each command. -/
structure Keymap where
  mac : Bool
  bindings : Std.ExtTreeMap String (List Chord)

namespace Keymap

def defaults (upper : Char → List Char) (mac : Bool) : Keymap where
  mac
  bindings := .ofList (commands.map fun c => (c.id, c.defaults upper mac))

variable (upper : Char → List Char) (keys : Keymap)

def chords (id : String) : List Chord := keys.bindings.getD id []

def isDefault (id : String) : Bool :=
  (command id).any fun c => keys.chords id = c.defaults upper keys.mac

/-- The command of a list of commands `chord` runs where `scope` has the keyboard. -/
def lookupIn (commands : List Command) (chord : Chord) (scope : Scope) : Option String :=
  (commands.find? fun c => c.liveIn scope && (keys.chords c.id).contains chord).map Command.id

/-- The command `chord` runs where `scope` has the keyboard. -/
def lookup (chord : Chord) (scope : Scope) : Option String := keys.lookupIn commands chord scope

/-- Commands other than `id` that `chord` already runs somewhere `id` is live too. -/
def conflicts (id : String) (chord : Chord) : List String :=
  match command id with
  | none => []
  | some mine =>
      (commands.filter fun c =>
        c.id ≠ id && c.sharesScope mine && (keys.chords c.id).contains chord).map Command.id

/-- Why `chord` may not be bound to `id`, if it may not: it cannot be bound at all, or the
command is live in a terminal and the chord is the terminal's. -/
def refusal (id : String) (chord : Chord) : Option String :=
  if !chord.bindable then some (chord.text ++ " on its own belongs to the interface.")
  else
    match command id with
    | none => none
    | some command =>
        match terminalTier chord keys.mac with
        | .reserved what =>
            if command.liveIn .terminal then
              some (chord.text ++ " is the terminal's (" ++ what ++ ") and " ++ command.label ++
                " is live in terminals.")
            else none
        | _ => none

/-- Take `chord` from the command `id`. -/
def unbind (id : String) (chord : Chord) : Keymap :=
  { keys with bindings := keys.bindings.modify id fun chords => chords.filter fun c => c ≠ chord }

/-- Add `chord` to `id`, taking it from any command it conflicts with. -/
def bind (id : String) (chord : Chord) : Keymap :=
  match command id with
  | none => keys
  | some command =>
      let taken := (keys.conflicts id chord).foldl (fun keys other => keys.unbind other chord) keys
      let chords := taken.chords command.id
      { taken with
        bindings := taken.bindings.insert command.id
          (if chords.contains chord then chords else chords ++ [chord]) }

def reset (id : String) : Keymap :=
  match command id with
  | none => keys
  | some command =>
      { keys with bindings := keys.bindings.insert command.id (command.defaults upper keys.mac) }

end Keymap

end Throng
