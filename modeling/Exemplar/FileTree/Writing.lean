import Exemplar.FileTree

/-!
# Writing files

A file is written into a directory that may have to be made first, together with
those that it lies in. Directories that were made stay, even if a later step is
refused.
-/

namespace Exemplar.FileTree

/-- A path text in reverse, without slashes and `.` at its end. -/
def trimReversed : List Char → List Char
  | '/' :: rest => trimReversed rest
  | '.' :: '/' :: rest => trimReversed rest
  | path => path

/-- The path text of the directory that a path text's last name is in. A root has none. -/
def parent? (path : String) : Option String :=
  match trimReversed path.toList.reverse with
  | [] => none
  | named =>
    match trimReversed (named.dropWhile (· ≠ '/')) with
    | [] => some (if path.toList.head? = some '/' then "/" else "")
    | above => some (String.ofList above.reverse)

def makeDirectory (tree : FileTree) (start : Location) (names : List String) :
    Except FileError FileTree :=
  match tree.walk start names with
  | .error error => .error error
  | .ok location =>
    match tree.entry location with
    | .vacant => .ok { tree with directories := tree.directories ++ [location] }
    | _ => .error .exists

/-- Make a directory in one that is there, unless it is there itself. -/
def ensureDirectory (tree : FileTree) (start : Location) (names : List String) :
    Except FileError Unit × FileTree :=
  match tree.makeDirectory start names with
  | .ok made => (.ok (), made)
  | .error error =>
    match (tree.walk start names).map tree.entry with
    | .ok .directory => (.ok (), tree)
    | _ => (.error error, tree)

/-- Make a directory and those above it that are missing, given its names from last to first. -/
def ensureDirectories (tree : FileTree) (start : Location) :
    List String → Except FileError Unit × FileTree
  | [] => (.ok (), tree)
  | name :: rest =>
    match tree.makeDirectory start (name :: rest).reverse with
    | .error .notFound =>
      match ensureDirectories tree start rest with
      | (.ok (), made) => made.ensureDirectory start (name :: rest).reverse
      | refused => refused
    | _ => tree.ensureDirectory start (name :: rest).reverse

/-- Make the directory that a path text leads to. The empty text leads to the working directory. -/
def prepare (tree : FileTree) (path : String) : Except FileError Unit × FileTree :=
  if path.isEmpty then (.ok (), tree)
  else
    match pathFault? path with
    | some fault => (.error fault, tree)
    | none =>
      let (start, parts) := names path
      tree.ensureDirectories start parts.reverse

def withoutSlashes (path : String) : String :=
  String.ofList (path.toList.reverse.dropWhile (· = '/')).reverse

/-- The refusal of a path text that ends in a slash: it leads to no file, and perhaps to nothing. -/
def refuseSlash (tree : FileTree) (path : String) : FileError :=
  let (start, parts) := names (withoutSlashes path)
  match tree.walk start (parts.dropLast ++ ["."]) with
  | .error error => error
  | .ok _ => .isDirectory

/-- Write a text to a file. A path text that ends in a slash leads to none. -/
def write (tree : FileTree) (path text : String) : Except FileError FileTree :=
  match pathFault? path with
  | some fault => .error fault
  | none =>
    if path.toList.getLast? = some '/' then .error (tree.refuseSlash path)
    else
      match tree.locate path with
      | .error error => .error error
      | .ok location =>
        match tree.entry location with
        | .directory => .error .isDirectory
        | _ => .ok { tree with files := setFile text.toUTF8 location tree.files }

end Exemplar.FileTree
