import Mathlib.Data.List.Sort
import Throng.Core.Project
import Throng.Lib.Tables

/-!
# The store's tables of projects and app state

Every write touches only the rows it means to. A row that this build cannot read is reported and
left alone. What ids and hidden paths are written as is a parameter.
-/

namespace Throng

/-- `format!("{:02x}")`. -/
def hexByte (b : UInt8) : List Char := [Nat.digitChar (b.toNat / 16), Nat.digitChar (b.toNat % 16)]

/-- `#rrggbb`, lower case. -/
def Colour.toHex (c : Colour) : String :=
  .ofList ('#' :: (hexByte c.r ++ hexByte c.g ++ hexByte c.b))

/-- The texts of ids, and of lists of strings as JSON. -/
structure Texts where
  idText : ProjectId → String
  parseId : String → Except String ProjectId
  hiddenText : List String → String
  parseHidden : String → Except String (List String)

/-- What is written reads back. -/
structure Texts.Lawful (texts : Texts) : Prop where
  id : ∀ id, texts.parseId (texts.idText id) = .ok id
  hidden : ∀ hidden, texts.parseHidden (texts.hiddenText hidden) = .ok hidden

/-- A row of the table of projects. -/
structure ProjectRow where
  id : String
  name : String
  colour : String
  root : String
  hiddenPaths : String
  position : Int
  createdAt : Int
  updatedAt : Int
deriving DecidableEq, Repr

/-- A project row that could not be read. -/
structure BadRow where
  id : String
  reason : String
deriving DecidableEq, Repr

/-- The tables, with their rows as they were inserted. -/
structure ProjectStore where
  projectRows : List ProjectRow
  appState : List (String × String)
deriving DecidableEq, Repr

/-- App-state key for the active project id. -/
def activeProjectKey : String := "activeProject"

/-- App-state keys holding a project's file-operation history, followed by the project id. -/
def fileHistoryKeyPrefix : String := "file-history:"

namespace ProjectStore

variable (texts : Texts) (store : ProjectStore)

/-- A row as a project. -/
def readRow (row : ProjectRow) : Except String Project :=
  match texts.parseId row.id with
  | .error e => .error ("bad id: " ++ e)
  | .ok id =>
      match Colour.parse row.colour with
      | .error e => .error e.text
      | .ok colour =>
          match texts.parseHidden row.hiddenPaths with
          | .error e => .error ("bad hidden paths: " ++ e)
          | .ok hiddenPaths =>
              .ok
                { id, name := row.name, colour, root := row.root, hiddenPaths
                  createdAt := row.createdAt, updatedAt := row.updatedAt }

/-- `ORDER BY position, created_at`. -/
def before (row row' : ProjectRow) : Bool :=
  row.position < row'.position ∨ (row.position = row'.position ∧ row.createdAt ≤ row'.createdAt)

/-- Every readable project in display order. -/
def good (rows : List ProjectRow) : List Project :=
  rows.filterMap fun row => (readRow texts row).toOption

/-- The rows that could not be read. -/
def bad (rows : List ProjectRow) : List BadRow :=
  rows.filterMap fun row =>
    match readRow texts row with
    | .ok _ => none
    | .error reason => some ⟨row.id, reason⟩

/-- Every readable project in display order, plus the rows that could not be read. -/
def projects : List Project × List BadRow :=
  let rows := store.projectRows.mergeSort before
  (good texts rows, bad texts rows)

/-- The row that is written for a project. -/
def rowFor (project : Project) (position : Nat) : ProjectRow :=
  { id := texts.idText project.id
    name := project.name
    colour := project.colour.toHex
    root := project.root
    hiddenPaths := texts.hiddenText project.hiddenPaths
    position := position
    createdAt := project.createdAt
    updatedAt := project.updatedAt }

/-- Insert or update one project at `position`. An update leaves the row's creation time. -/
def upsertProject (project : Project) (position : Nat) : ProjectStore :=
  let update := fun old : ProjectRow =>
    { rowFor texts project position with id := old.id, createdAt := old.createdAt }
  { store with
    projectRows :=
      Tables.upsert ProjectRow.id (rowFor texts project position) update store.projectRows }

/-- Record display order for the given ids; other rows keep theirs. -/
def setPositions (ordered : List ProjectId) : ProjectStore :=
  { store with
    projectRows := ordered.zipIdx.foldl (fun rows entry =>
      Tables.updateWhere ProjectRow.id (texts.idText entry.1)
        (fun row => { row with position := entry.2 }) rows) store.projectRows }

/-- Delete one project and its file-operation history. -/
def deleteProject (id : ProjectId) : ProjectStore :=
  { projectRows := store.projectRows.filter fun row => row.id ≠ texts.idText id
    appState := store.appState.filter fun entry =>
      entry.1 ≠ fileHistoryKeyPrefix ++ texts.idText id }

/-- Read a small piece of app state. -/
def state (key : String) : Option String :=
  (store.appState.find? fun entry => entry.1 = key).map Prod.snd

/-- Write a small piece of app state; `none` deletes it. -/
def setState (key : String) : Option String → ProjectStore
  | some value =>
      { store with
        appState := Tables.upsert Prod.fst (key, value) (fun _ => (key, value)) store.appState }
  | none => { store with appState := store.appState.filter fun entry => entry.1 ≠ key }

end ProjectStore

end Throng
