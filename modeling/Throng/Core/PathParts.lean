import Throng.Core.Panel

/-!
# Parts of a path

The components of a path as the standard library of a Unix host gives them, and what it
makes of a path that goes on.
-/

namespace Throng

namespace Path

/-- The components of a path: repeated separators count as one, and `.` only at the front. -/
def components (path : PathBuf) : List String :=
  let names := (path.toList.splitOn '/').map String.ofList
  let root :=
    if path.toList.head? = some '/' then ["/"]
    else if names.head? = some "." then ["."]
    else []
  root ++ names.filter fun name => name ≠ "" ∧ name ≠ "."

/-- `PathBuf::push` of a name or a path. -/
def push (base : PathBuf) (rest : String) : PathBuf :=
  if rest.toList.head? = some '/' then rest
  else base ++ (if base = "" ∨ base.toList.getLast? = some '/' then "" else "/") ++ rest

end Path

end Throng
