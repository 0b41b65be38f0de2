/-!
# File trees

A file tree says which directories there are and what the files hold. A location is
a sequence of names, read from the working directory down; an absolute location
begins with the name `/`, and one above the working directory with `..`.

A path text is a sequence of names too, but it may wander: an empty name and `.`
stay in a directory, and `..` leaves it. Each name but the last has to lead to a
directory. Names and path texts have a greatest size, counted in bytes of their
UTF-8 form, and no path text may hold the character of code zero.
-/

namespace Exemplar

abbrev Location := List String

/-- Directories and files. The working directory and the places above it are not listed. -/
structure FileTree where
  directories : List Location
  files : List (Location × ByteArray)

inductive FileError where
  | notFound
  | exists
  | notDirectory
  | isDirectory
  | notText
  | tooLong
  | zeroCharacter
deriving DecidableEq, Repr

def FileError.message : FileError → String
  | .notFound => "No such file or directory (os error 2)"
  | .exists => "File exists (os error 17)"
  | .notDirectory => "Not a directory (os error 20)"
  | .isDirectory => "Is a directory (os error 21)"
  | .notText => "stream did not contain valid UTF-8"
  | .tooLong => "File name too long (os error 36)"
  | .zeroCharacter => "file name contained an unexpected NUL byte"

inductive Entry where
  | directory
  | file (bytes : ByteArray)
  | vacant

namespace FileTree

def empty : FileTree := ⟨[], []⟩

/-- The root, the working directory and what lies above it are always there. -/
def isLandmark (location : Location) : Bool := location = ["/"] || location.all (· = "..")

def entry (tree : FileTree) (location : Location) : Entry :=
  if isLandmark location || tree.directories.contains location then .directory
  else
    match tree.files.lookup location with
    | some bytes => .file bytes
    | none => .vacant

def above (location : Location) : Location :=
  if location = ["/"] then location
  else if location.all (· = "..") then location ++ [".."]
  else location.dropLast

/-- The location that a name leads to from a directory. -/
def step (location : Location) (name : String) : Location :=
  if name = "" || name = "." then location
  else if name = ".." then above location
  else location ++ [name]

def maxNameSize : Nat := 255

def maxPathSize : Nat := 4095

/-- The location that a name leads to, unless the name is too long. -/
def stepTo (location : Location) (name : String) : Except FileError Location :=
  if maxNameSize < name.utf8ByteSize then .error .tooLong else .ok (step location name)

/-- Follow names from a directory. Only the last may lead to something else than a directory. -/
def walk (tree : FileTree) (location : Location) : List String → Except FileError Location
  | [] => .ok location
  | [name] => stepTo location name
  | name :: rest =>
    match stepTo location name with
    | .error error => .error error
    | .ok next =>
      match tree.entry next with
      | .directory => walk tree next rest
      | .file _ => .error .notDirectory
      | .vacant => .error .notFound

/-- The names in a path text, after the directory where they begin. -/
def names (path : String) : Location × List String :=
  let parts := (path.toList.splitOn '/').map String.ofList
  if path.toList.head? = some '/' then (["/"], parts) else ([], parts)

/-- What is wrong with a path text, whatever the tree holds. -/
def pathFault? (path : String) : Option FileError :=
  if path.toList.contains '\x00' then some .zeroCharacter
  else if path.isEmpty then some .notFound
  else if maxPathSize < path.utf8ByteSize then some .tooLong
  else none

/-- The location that a path text leads to. -/
def locate (tree : FileTree) (path : String) : Except FileError Location :=
  match pathFault? path with
  | some fault => .error fault
  | none =>
    let (start, parts) := names path
    tree.walk start parts

def find (tree : FileTree) (path : String) : Except FileError Entry :=
  (tree.locate path).map tree.entry

def isDirectory (tree : FileTree) (path : String) : Bool :=
  match tree.find path with
  | .ok .directory => true
  | _ => false

def contains (tree : FileTree) (path : String) : Bool :=
  match tree.find path with
  | .ok .directory | .ok (.file _) => true
  | _ => false

def read (tree : FileTree) (path : String) : Except FileError String :=
  match tree.find path with
  | .error error => .error error
  | .ok .directory => .error .isDirectory
  | .ok .vacant => .error .notFound
  | .ok (.file bytes) =>
    match String.fromUTF8? bytes with
    | some text => .ok text
    | none => .error .notText

/-- Set what a file holds; a new file goes to the end. -/
def setFile (bytes : ByteArray) (location : Location) :
    List (Location × ByteArray) → List (Location × ByteArray)
  | [] => [(location, bytes)]
  | (p, old) :: rest =>
    if p = location then (p, bytes) :: rest else (p, old) :: setFile bytes location rest

/-- Add a directory, and those that it lies in. -/
def insertDirectory (tree : FileTree) (location : Location) : FileTree :=
  let new := ((List.range location.length).map fun n => location.take (n + 1)).filter fun p =>
    !(isLandmark p || tree.directories.contains p)
  { tree with directories := tree.directories ++ new }

def insertFile (tree : FileTree) (location : Location) (bytes : ByteArray) : FileTree :=
  let housed := tree.insertDirectory location.dropLast
  { housed with files := setFile bytes location housed.files }

def children (tree : FileTree) (location : Location) : List String :=
  let inside := (tree.directories ++ tree.files.map (·.1)).filter fun p =>
    !p.isEmpty && p.dropLast = location
  (inside.filterMap List.getLast?).mergeSort fun a b => decide (a ≤ b)

def list (tree : FileTree) (path : String) : List String :=
  match tree.locate path with
  | .ok location =>
    match tree.entry location with
    | .directory => tree.children location
    | _ => []
  | .error _ => []

end FileTree

end Exemplar
