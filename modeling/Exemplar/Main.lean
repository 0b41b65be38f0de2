import Exemplar.Reply

/-!
# The command line

The part of the file system that a request is about becomes a file tree, the
request is carried out on the tree, and what it leaves behind is printed or
written. Files are looked for first; only those that will be read are read.
-/

namespace Exemplar.CommandLine

def pathText : Location → String
  | [] => "."
  | "/" :: names => "/" ++ "/".intercalate names
  | names => "/".intercalate names

/-- What is at a path: a directory or a file, or nothing that can be used. -/
def look (path : String) : IO (Option Bool) := do
  match ← (IO.FS.realPath path).toBaseIO with
  | .error _ => return none
  | .ok found =>
    match ← found.metadata.toBaseIO with
    | .error _ => return none
    | .ok data => return some (data.type matches .dir)

/-- Add what is at a location, as a file without content if it is a file. -/
def addLocation (tree : FileTree) (location : Location) : IO FileTree := do
  match ← look (pathText location) with
  | some true => return tree.insertDirectory location
  | some false => return tree.insertFile location .empty
  | none => return tree

def addNames (tree : FileTree) (location : Location) : List String → IO FileTree
  | [] => return tree
  | name :: rest => do
    let next := FileTree.step location name
    addNames (← addLocation tree next) next rest

def addPath (tree : FileTree) (path : String) : IO FileTree :=
  let (start, names) := FileTree.names path
  addNames tree start names

/-- Add what is below a directory, down to a depth. -/
def addBelow : (depth : Nat) → FileTree → Location → IO FileTree
  | 0, tree, _ => return tree
  | depth + 1, tree, location => do
    match ← (do (← IO.FS.realPath (pathText location)).readDir).toBaseIO with
    | .error _ => return tree
    | .ok entries =>
      entries.foldlM (fun tree entry => do
        let inside := location ++ [entry.fileName]
        addBelow depth (← addLocation tree inside) inside) tree

/-- How deep a search for `**` goes. -/
def maxDescent : Nat := 64

/-- Add what a pattern may choose from: all below its literal beginning. -/
def addPattern (tree : FileTree) (text : String) : IO FileTree := do
  match Glob.ofText text with
  | .error _ => return tree
  | .ok pattern =>
    let start : Location := if pattern.absolute then ["/"] else []
    let names := pattern.components.map fun
      | .literal name => some name
      | _ => none
    let fixed := (names.takeWhile Option.isSome).filterMap id
    let depth := if pattern.components.contains .anyDepth then maxDescent
      else pattern.components.length
    addBelow depth (← addNames tree start fixed) (fixed.foldl FileTree.step start)

def addInput (tree : FileTree) (input : String) : IO FileTree :=
  if Document.isPattern input then addPattern tree input else addPath tree input

def fill (tree : FileTree) (path : String) : IO FileTree := do
  match tree.locate path with
  | .error _ => return tree
  | .ok location =>
    match tree.entry location with
    | .file _ => return tree.insertFile location (← IO.FS.readBinFile (pathText location))
    | _ => return tree

def treeFor (request : Request) : IO FileTree := do
  let named := request.optionsFile.toList ++ request.output.toList
  let found ← request.inputs.foldlM addInput (← named.foldlM addPath .empty)
  let read :=
    match Document.resolveAll .builtIn found request.inputs with
    | .ok paths => paths
    | .error _ => []
  (request.optionsFile.toList ++ read).foldlM fill found

/-- Make the directories that a request leaves behind, and write its output. -/
def apply (before : FileTree) (request : Request) (outcome : Outcome) : IO Unit := do
  for location in outcome.tree.directories do
    unless before.directories.contains location do IO.FS.createDirAll (pathText location)
  match outcome.printed, request.output with
  | .ok _, some path =>
    match outcome.tree.locate path with
    | .ok location =>
      if let .file bytes := outcome.tree.entry location then
        IO.FS.writeBinFile (pathText location) bytes
    | .error _ => return
  | _, _ => return

/-- Print a reply, and end with its code. -/
def give (reply : Reply) : IO UInt32 := do
  IO.print reply.printed
  IO.eprint reply.complaint
  return reply.code

end Exemplar.CommandLine

open Exemplar in
def main (args : List String) : IO UInt32 := do
  match Services.builtIn.request args with
  | .error notice => CommandLine.give (.ofNotice .empty notice)
  | .ok request =>
    let tree ← CommandLine.treeFor request
    let outcome := request.run tree
    CommandLine.apply tree request outcome
    CommandLine.give (.ofOutcome outcome)
