import Throng.Core.Paths
import Throng.Lib.Machine

/-!
# Projects

A project has a friendly name, a dominant colour and a root folder that is exclusively
bound to it. The book keeps the user's projects in display order, with at most one active.
Each operation returns the book as it leaves it, and its answer.
-/

namespace Throng

structure Colour where
  r : UInt8
  g : UInt8
  b : UInt8
deriving DecidableEq, Repr

structure Project where
  id : ProjectId
  name : String
  colour : Colour
  root : PathBuf
  hiddenPaths : List String
  createdAt : Int
  updatedAt : Int
deriving DecidableEq, Repr

/-- The fields a user edits. -/
structure ProjectInput where
  name : String
  colour : String
  root : PathBuf
deriving DecidableEq, Repr

/-- Why a project input was refused. -/
inductive ProjectError
  | emptyName
  | nameTooLong
  | invalidColour (text : String)
  | emptyRoot
  | rootNotAbsolute
  | folderConflict (otherName : String) (otherRoot : PathBuf)
  | notFound
deriving DecidableEq, Repr

/-- An editable project field. -/
inductive ProjectField
  | name
  | colour
  | root
deriving DecidableEq, Repr

/-- The longest friendly name accepted. -/
def maxNameLength : Nat := 120

namespace ProjectError

def text : ProjectError → String
  | .emptyName => "Give the project a name."
  | .nameTooLong =>
      "A project name can be at most " ++ toString maxNameLength ++ " characters."
  | .invalidColour text => "\"" ++ text ++ "\" is not a colour. Use a hex value such as #6aa3ff."
  | .emptyRoot => "Choose the project's root folder."
  | .rootNotAbsolute => "The root folder must be a full path."
  | .folderConflict otherName otherRoot =>
      "This folder overlaps the root of \"" ++ otherName ++ "\" (" ++ otherRoot ++
        "). Each folder belongs to one project."
  | .notFound => "No project with that id exists."

/-- The input field the error is about. -/
def field : ProjectError → ProjectField
  | .emptyName | .nameTooLong => .name
  | .invalidColour _ => .colour
  | .emptyRoot | .rootNotAbsolute | .folderConflict _ _ => .root
  | .notFound => .name

end ProjectError

/-- `char::to_digit(16)`. -/
def Colour.digit (c : Char) : Option UInt8 :=
  if '0' ≤ c ∧ c ≤ '9' then some (.ofNat (c.toNat - '0'.toNat))
  else if 'a' ≤ c ∧ c ≤ 'f' then some (.ofNat (c.toNat - 'a'.toNat + 10))
  else if 'A' ≤ c ∧ c ≤ 'F' then some (.ofNat (c.toNat - 'A'.toNat + 10))
  else none

/-- Parse `#rgb` or `#rrggbb`. The source counts bytes, and no other byte is a digit. -/
def Colour.parse (text : String) : Except ProjectError Colour :=
  match (trim text).toList with
  | '#' :: hex =>
      match hex.mapM Colour.digit with
      | some [r, g, b] => .ok ⟨r * 17, g * 17, b * 17⟩
      | some [r, r', g, g', b, b'] => .ok ⟨r * 16 + r', g * 16 + g', b * 16 + b'⟩
      | _ => .error (.invalidColour text)
  | _ => .error (.invalidColour text)

/-- A validated, normalised input. -/
structure ValidInput where
  name : String
  colour : Colour
  root : PathBuf
deriving DecidableEq, Repr

/-- Validate an input's fields on their own. -/
def validateInput (host : Host) (input : ProjectInput) : Except ProjectError ValidInput :=
  let name := trim input.name
  if name = "" then .error .emptyName
  else if name.length > maxNameLength then .error .nameTooLong
  else
    match Colour.parse input.colour with
    | .error reason => .error reason
    | .ok colour =>
        let root := trim input.root
        if root = "" then .error .emptyRoot
        else if !host.isAbsolute root then .error .rootNotAbsolute
        else .ok ⟨name, colour, root⟩

/-- Refuse `candidate` if it overlaps any other project's root. `selfId` is the project being
edited, which may keep its own root. -/
def assertFolderExclusive (rules : PathRules) (host : Host) (candidate : PathBuf)
    (existing : List Project) (selfId : Option ProjectId) : Except ProjectError Unit :=
  match existing with
  | [] => .ok ()
  | project :: existing =>
      if some project.id = selfId then assertFolderExclusive rules host candidate existing selfId
      else if rules.overlaps host candidate project.root then
        .error (.folderConflict project.name project.root)
      else assertFolderExclusive rules host candidate existing selfId

structure ProjectBook where
  projects : List Project
  active : Option ProjectId
deriving DecidableEq, Repr

namespace ProjectBook

def empty : ProjectBook := ⟨[], none⟩

variable (rules : PathRules) (host : Host) (book : ProjectBook)

def get (id : ProjectId) : Option Project := book.projects.find? fun project => project.id = id

/-- `iter_mut().find(..)`: change the first project with the id. -/
def modify (id : ProjectId) (f : Project → Project) : List Project → List Project
  | [] => []
  | project :: projects =>
      if project.id = id then f project :: projects else project :: modify id f projects

/-- Create a project, whose id is drawn. The first project becomes active. -/
def create (input : ProjectInput) (now : Int) (id : ProjectId) :
    ProjectBook × Except ProjectError Project :=
  match validateInput host input with
  | .error reason => (book, .error reason)
  | .ok valid =>
      match assertFolderExclusive rules host valid.root book.projects none with
      | .error reason => (book, .error reason)
      | .ok () =>
          let project : Project :=
            { id, name := valid.name, colour := valid.colour, root := valid.root
              hiddenPaths := [], createdAt := now, updatedAt := now }
          ({ projects := book.projects ++ [project]
             active := if book.active.isNone then some id else book.active }, .ok project)

/-- Edit a project's name, colour and root. -/
def update (id : ProjectId) (input : ProjectInput) (now : Int) :
    ProjectBook × Except ProjectError Project :=
  match validateInput host input with
  | .error reason => (book, .error reason)
  | .ok valid =>
      match assertFolderExclusive rules host valid.root book.projects (some id) with
      | .error reason => (book, .error reason)
      | .ok () =>
          match book.get id with
          | none => (book, .error .notFound)
          | some project =>
              let edit := fun project : Project =>
                { project with
                  name := valid.name, colour := valid.colour, root := valid.root, updatedAt := now }
              ({ book with projects := modify id edit book.projects }, .ok (edit project))

/-- The hidden paths without repetitions and empty ones. -/
def dedupHidden (hidden : List String) : List String :=
  hidden.foldl (fun seen path => if path ≠ "" ∧ path ∉ seen then seen ++ [path] else seen) []

/-- Replace a project's hidden paths. -/
def setHidden (id : ProjectId) (hidden : List String) (now : Int) :
    ProjectBook × Except ProjectError Unit :=
  match book.get id with
  | none => (book, .error .notFound)
  | some _ =>
      let edit := fun project : Project =>
        { project with hiddenPaths := dedupHidden hidden, updatedAt := now }
      ({ book with projects := modify id edit book.projects }, .ok ())

/-- Make `id` the active project. -/
def setActive (id : ProjectId) : ProjectBook × Except ProjectError Unit :=
  if (book.get id).isNone then (book, .error .notFound)
  else ({ book with active := some id }, .ok ())

/-- Delete a project. If it was active, the first remaining project becomes active. -/
def delete (id : ProjectId) : ProjectBook × Except ProjectError Project :=
  match book.projects.findIdx? fun project => project.id = id with
  | none => (book, .error .notFound)
  | some index =>
      match book.projects[index]? with
      | none => (book, .error .notFound)
      | some removed =>
          let projects := book.projects.eraseIdx index
          ({ projects
             active :=
               if book.active = some id then projects.head?.map Project.id else book.active },
            .ok removed)

/-- Move a project to `dest` in display order. -/
def reorder (id : ProjectId) (dest : Nat) : ProjectBook × Except ProjectError Unit :=
  match book.projects.findIdx? fun project => project.id = id with
  | none => (book, .error .notFound)
  | some index =>
      match book.projects[index]? with
      | none => (book, .error .notFound)
      | some project =>
          let projects := book.projects.eraseIdx index
          ({ book with projects := projects.insertIdx (min dest projects.length) project }, .ok ())

/-- The project whose root contains `path`, if any. -/
def ownerOf (path : PathBuf) : Option Project :=
  book.projects.find? fun project => rules.isWithin host project.root path

/-! ## Runs -/

inductive Action
  | create (input : ProjectInput) (now : Int) (id : ProjectId)
  | update (id : ProjectId) (input : ProjectInput) (now : Int)
  | setHidden (id : ProjectId) (hidden : List String) (now : Int)
  | setActive (id : ProjectId)
  | delete (id : ProjectId)
  | reorder (id : ProjectId) (dest : Nat)

/-- The book after an action, and the error it answered. -/
def act : Action → ProjectBook × Option ProjectError
  | .create input now id => answered (book.create rules host input now id)
  | .update id input now => answered (book.update rules host id input now)
  | .setHidden id hidden now => answered (book.setHidden id hidden now)
  | .setActive id => answered (book.setActive id)
  | .delete id => answered (book.delete id)
  | .reorder id dest => answered (book.reorder id dest)
where
  answered {α : Type} (result : ProjectBook × Except ProjectError α) :
      ProjectBook × Option ProjectError :=
    match result.2 with
    | .ok _ => (result.1, none)
    | .error reason => (result.1, some reason)

/-- The ids that are drawn are new ones. -/
def fresh : Action → Bool
  | .create _ _ id => !(book.projects.map Project.id).contains id
  | _ => true

/-- The books the operations lead to from the empty one. -/
def machine : Machine ProjectBook Action where
  init book := book = empty
  step book action := if book.fresh action then some (book.act rules host action).1 else none

end ProjectBook

end Throng
