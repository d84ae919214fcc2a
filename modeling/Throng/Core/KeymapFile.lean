import Throng.Core.Keymap
import Throng.Lib.Json

/-!
# The key bindings file

The user's `keybindings.json` is read over the defaults: a command it lists takes exactly
the chords it gives, and what is not a command, a list or a chord is reported and skipped.
Writing leaves out the commands at their defaults and keeps what else the file holds.
-/

namespace Throng

namespace Keymap

/-- Commands throng does not have yet that a file written for the earlier app may name. -/
def elsewhere : List String :=
  ["panel.zoomIn", "panel.zoomOut", "panel.zoomReset", "panel.rename", "focus.left",
    "focus.right", "focus.up", "focus.down", "focus.cycle", "focus.cycleBack", "focus.notice",
    "view.toggleProjects", "menu.open", "tabs.openPicker", "preview.open",
    "preview.toggleSyncScroll", "navigate.back", "navigate.forward", "editor.saveAll",
    "editor.saveAs", "editor.cutLine", "editor.indentLines", "editor.outdentLines",
    "editor.columnSelectUp", "editor.columnSelectDown", "editor.columnSelectLeft",
    "editor.columnSelectRight", "search.close", "search.replaceCurrent", "search.replaceAll",
    "terminal.redraw"]

variable {Text : Type} (serde : SerdeJson Text) (upper : Char → List Char)

/-- One token of a command's list: the chords so far, and the problems. `display` is
`Display` of a JSON value. -/
def readToken (display : Json → String) (keys : Keymap) (id : String)
    (state : List Chord × List String) (token : Json) : List Chord × List String :=
  (token.asStr.bind (Chord.parse upper)).elim
    (state.1, state.2 ++ ["\"" ++ id ++ "\": " ++ display token ++ " is not a chord."])
    fun chord =>
      if state.1.contains chord then state
      else
        (keys.refusal id chord).elim (state.1 ++ [chord], state.2) fun reason =>
          (state.1, state.2 ++ ["\"" ++ id ++ "\": " ++ reason])

/-- One member of the file's `bindings`: the keymap so far, and the problems. -/
def readBinding (display : Json → String) (state : Keymap × List String)
    (member : String × Json) : Keymap × List String :=
  (command member.1).elim
    (state.1, if elsewhere.contains member.1 then state.2
      else state.2 ++ ["\"" ++ member.1 ++ "\" is not a command throng knows."])
    fun command =>
      member.2.asArray.elim
        (state.1, state.2 ++ ["\"" ++ member.1 ++ "\" should be a list of chords."])
        fun tokens =>
          let read := tokens.foldl (readToken upper display state.1 member.1) ([], state.2)
          ({ state.1 with bindings := state.1.bindings.insert command.id read.1 }, read.2)

/-- The members of a document's `bindings`, if it has an object there. -/
def bindingsOf (value : Json) : Option Json.Members :=
  (value.asObject.bind fun doc => Json.get doc "bindings").bind Json.asObject

/-- What a document that is JSON makes of the defaults. -/
def readValue (display : Json → String) (mac : Bool) (value : Json) : Keymap × List String :=
  (bindingsOf value).elim
    (defaults upper mac, if value.asObject.isSome then []
      else ["keybindings.json is not a JSON object; the defaults apply."])
    fun bindings => bindings.foldl (readBinding upper display) (defaults upper mac, [])

/-- Read `keybindings.json` over the defaults: the keymap, and the problems. -/
def parse (display : Json → String) (text : Text) (mac : Bool) : Keymap × List String :=
  match serde.fromStr text with
  | .error e => (defaults upper mac,
      ["keybindings.json is not valid JSON (" ++ e ++ "); the defaults apply."])
  | .ok value => readValue upper display mac value

/-- The object an existing file holds, if it holds one. -/
def existingDoc (existing : Option Text) : Json.Members :=
  ((existing.bind fun text => (serde.fromStr text).toOption).bind Json.asObject).getD []

/-- One command of the loop that writes the bindings. -/
def writeBinding (keys : Keymap) (bindings : Json.Members) (command : Command) : Json.Members :=
  if keys.chords command.id = command.defaults upper keys.mac then Json.erase bindings command.id
  else
    Json.insert command.id (.arr ((keys.chords command.id).map fun chord => .str chord.text))
      bindings

/-- `bindings` as it is written over those of a document. -/
def writtenBindings (keys : Keymap) (bindings : Json.Members) : Json.Members :=
  commands.foldl (writeBinding upper keys) bindings

/-- The object that is written over a document. -/
def written (keys : Keymap) (doc : Json.Members) : Json.Members :=
  let doc :=
    if (Json.get doc "version").isSome then doc else Json.insert "version" (.num (.int 1)) doc
  Json.insert "bindings"
    (.obj (writtenBindings upper keys ((bindingsOf (.obj doc)).getD []))) doc

/-- This keymap written over an existing file's JSON. -/
def writeInto (keys : Keymap) (existing : Option Text) : Text :=
  serde.toLines (.obj (written upper keys (existingDoc serde existing)))

end Keymap

end Throng
