import Throng.Lib.Machine
import Throng.Persistence.Store

/-!
# The projects and what is stored of them

The app keeps the projects in memory and writes each change of them to the store. A write that
fails is reported, and leaves the store as it was. A new start reads the projects from the store.
-/

namespace Throng

/-- A write to the store. -/
inductive StoreWrite
  | upsertProject (project : Project) (position : Nat)
  | setPositions (ordered : List ProjectId)
  | deleteProject (id : ProjectId)
  | setState (key : String) (value : Option String)
deriving DecidableEq, Repr

def StoreWrite.apply (texts : Texts) (store : ProjectStore) : StoreWrite → ProjectStore
  | .upsertProject project position => store.upsertProject texts project position
  | .setPositions ordered => store.setPositions texts ordered
  | .deleteProject id => store.deleteProject texts id
  | .setState key value => store.setState key value

/-- The projects of an app, and the store they are kept in. -/
structure Shelf where
  book : ProjectBook
  store : ProjectStore
deriving DecidableEq, Repr

namespace Shelf

/-- `ProjectBook::new`: an active id that names no project is dropped. -/
def bookOf (projects : List Project) (active : Option ProjectId) : ProjectBook :=
  { projects, active := active.filter fun id => projects.any fun p => p.id = id }

/-- The projects that a start finds in the store. -/
def load (texts : Texts) (store : ProjectStore) : ProjectBook :=
  bookOf (store.projects texts).1
    ((store.state activeProjectKey).bind fun text => (texts.parseId text).toOption)

variable (texts : Texts) (rules : PathRules) (host : Host) (book : ProjectBook)

/-- `persist_project`. -/
def persistProject (id : ProjectId) : List StoreWrite :=
  let position := (book.projects.findIdx? fun p => p.id = id).getD 0
  match book.get id with
  | none => []
  | some project => [.upsertProject project position]

/-- `switch_project`. -/
def switchProject (id : ProjectId) : ProjectBook × List StoreWrite :=
  match book.setActive id with
  | (_, .error _) => (book, [])
  | (book, .ok ()) => (book, [.setState activeProjectKey (some (texts.idText id))])

/-- `save_project` of a new project, whose id is drawn. -/
def createProject (input : ProjectInput) (now : Int) (id : ProjectId) :
    ProjectBook × List StoreWrite :=
  match book.create rules host input now id with
  | (_, .error _) => (book, [])
  | (book, .ok project) =>
      ((switchProject texts book project.id).1,
        persistProject book project.id ++ (switchProject texts book project.id).2)

/-- `save_project` of a project that is edited. -/
def editProject (id : ProjectId) (input : ProjectInput) (now : Int) :
    ProjectBook × List StoreWrite :=
  match book.update rules host id input now with
  | (_, .error _) => (book, [])
  | (book, .ok project) => (book, persistProject book project.id)

/-- The explorer hides paths of a project, or shows them again. -/
def hidePaths (id : ProjectId) (hidden : List String) (now : Int) :
    ProjectBook × List StoreWrite :=
  match book.get id with
  | none => (book, [])
  | some _ =>
      ((book.setHidden id hidden now).1, persistProject (book.setHidden id hidden now).1 id)

/-- Move a project up or down. -/
def moveProject (id : ProjectId) (dest : Nat) : ProjectBook × List StoreWrite :=
  let book := (book.reorder id dest).1
  (book, [.setPositions (book.projects.map Project.id)])

/-- `delete_project`. -/
def deleteProject (id : ProjectId) : ProjectBook × List StoreWrite :=
  let wasActive := book.active = some id
  let book := (book.delete id).1
  let writes := [.deleteProject id, .setPositions (book.projects.map Project.id)]
  if wasActive then
    match book.active with
    | some next => ((switchProject texts book next).1, writes ++ (switchProject texts book next).2)
    | none => (book, writes ++ [.setState activeProjectKey none])
  else (book, writes)

/-- What the user does, and that the app is started anew. -/
inductive Action
  | create (input : ProjectInput) (now : Int) (id : ProjectId)
  | edit (id : ProjectId) (input : ProjectInput) (now : Int)
  | hide (id : ProjectId) (hidden : List String) (now : Int)
  | switch (id : ProjectId)
  | move (id : ProjectId) (dest : Nat)
  | delete (id : ProjectId)
  | restart

/-- What an action does in memory, and what it then writes. -/
def act (shelf : Shelf) : Action → ProjectBook × List StoreWrite
  | .create input now id => createProject texts rules host shelf.book input now id
  | .edit id input now => editProject rules host shelf.book id input now
  | .hide id hidden now => hidePaths shelf.book id hidden now
  | .switch id => switchProject texts shelf.book id
  | .move id dest => moveProject shelf.book id dest
  | .delete id => deleteProject texts shelf.book id
  | .restart => (load texts shelf.store, [])

/-- The store after the writes, of which some fail. -/
def carry (failed : List StoreWrite) (store : ProjectStore) (writes : List StoreWrite) :
    ProjectStore :=
  writes.foldl (fun store write => if write ∈ failed then store else write.apply texts store) store

/-- An id that is drawn is a new one, and only a project that is shown can be deleted. -/
def enabled (shelf : Shelf) : Action → Bool
  | .create _ _ id =>
      !(shelf.book.projects.map Project.id).contains id &&
        !(shelf.store.projectRows.map ProjectRow.id).contains (texts.idText id)
  | .delete id => (shelf.book.projects.map Project.id).contains id
  | _ => true

/-- The runs of an app over a store as it first finds it. Each step says which writes fail. -/
def machine (start : ProjectStore) : Machine Shelf (Action × List StoreWrite) where
  init shelf := shelf = ⟨load texts start, start⟩
  step shelf step :=
    if shelf.enabled texts step.1 then
      let done := act texts rules host shelf step.1
      some ⟨done.1, carry texts step.2 shelf.store done.2⟩
    else none

/-- No write fails. -/
def Writes (_ : Shelf) (step : Action × List StoreWrite) : Prop := step.2 = []

instance : DecidableRel Writes := fun _ step => inferInstanceAs (Decidable (step.2 = []))

end Shelf

end Throng
