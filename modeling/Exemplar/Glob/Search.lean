import Exemplar.FileTree
import Exemplar.Glob

/-!
# Finding what a pattern asks for

A search descends from a directory, one component after the other. Literal
components are followed even where they wander; other components choose among
the names in a directory, in order, and before them `..` and `.` where the
component begins with a dot of its own. Every directory is met before what it
holds.
-/

namespace Exemplar.Glob

/-- A path text, one name longer. A name in the working directory is written by itself. -/
def join (path name : String) : String :=
  if path.toList.getLast? = some '/' then path ++ name else path ++ "/" ++ name

/-- Whether a path text stays in the working directory. -/
def isHere (path : String) : Bool :=
  let (start, names) := FileTree.names path
  start.isEmpty && names.head? = some "." && names.all fun name => name = "." || name = ""

def child (directory name : String) : String :=
  if isHere directory then name else join directory name

/-- The paths below a directory, down to a depth, each with its name. -/
def below (tree : FileTree) : (depth : Nat) → String → List (String × String)
  | 0, _ => []
  | depth + 1, directory =>
    (tree.list directory).flatMap fun name =>
      (child directory name, name) :: below tree depth (child directory name)

/-- A depth that no directory of a tree reaches. -/
def depthBound (tree : FileTree) : Nat := tree.directories.length + 1

/-- The names for a place that a component which begins with a dot may choose, too. -/
def specials : Component → List String
  | .wild (.char '.' :: rest) =>
    ["..", "."].filter fun name => (Component.wild (.char '.' :: rest)).accepts name
  | _ => []

def search (tree : FileTree) : List Component → String → List String
  | [], path => [path]
  | .literal name :: rest, path =>
    let next := child path name
    let found :=
      if name = "." || name = ".." then tree.isDirectory path else tree.contains next
    if found then search tree rest next else []
  | .anyDepth :: .anyDepth :: rest, path => search tree (.anyDepth :: rest) path
  | [.anyDepth], path =>
    ((below tree (depthBound tree) path).map (·.1)).filter tree.isDirectory
  | .anyDepth :: component :: rest, path =>
    (below tree (depthBound tree) path).flatMap fun (next, name) =>
      if component.accepts name then search tree rest next else []
  | component :: rest, path =>
    let chosen := (tree.list path).filter fun name => component.accepts name
    let wandering := if tree.isDirectory path then specials component else []
    (wandering.map (join path) ++ chosen.map (child path)).flatMap (search tree rest)

def paths (tree : FileTree) (pattern : Glob) : List String :=
  let found := search tree pattern.components (if pattern.absolute then "/" else ".")
  if pattern.directoriesOnly then found.filter tree.isDirectory else found

end Exemplar.Glob
