import Exemplar.Filtering
import Exemplar.Json.Pointer
import Exemplar.Text.Lines
import Exemplar.Text.WhiteSpace

/-!
# Documents

The inputs of a request are path texts and patterns. Each file that they lead to
holds one document, or one on every line that is not blank. A pointer may select
a part of a document, and a filter may then make any number of documents of it.

Files are read in order, and a file is looked into before the next one is read,
so of several errors the one that lies first is met. Patterns are resolved before
anything is read.
-/

namespace Exemplar

structure Document where
  source : String
  value : Json

inductive InputError where
  | badPattern (pattern error : String)
  | badPath (error : String)
  | noMatch (pattern : String)
  | unreadable (path : String) (error : FileError)
  | badFile (path : String) (error : Json.SyntaxError)
  | badLine (source : String) (error : Json.SyntaxError)
  | noSuchPart (pointer source : String)
  | filterFailed (source : String) (error : FilterError)
deriving DecidableEq, Repr

/-- The text of an input error. What else there is to say about a filter comes after it. -/
def InputError.message : InputError → String
  | .badPattern pattern error =>
    "failed to resolve input file paths: invalid glob pattern: " ++ pattern ++ ": " ++ error
  | .badPath error => "failed to resolve input file paths: " ++ error
  | .noMatch pattern =>
    "failed to resolve input file paths: glob pattern matched no files: " ++ pattern
  | .unreadable path error =>
    "failed to read source file (" ++ path ++ "): " ++ error.message
  | .badFile path error =>
    "failed to parse JSON source file (" ++ path ++ "): " ++ error.message
  | .badLine source error =>
    "failed to parse NDJSON line (" ++ source ++ "): " ++ error.message
  | .noSuchPart pointer source => "JSON pointer " ++ pointer ++ " not found in " ++ source
  | .filterFailed source _ => "failed to apply jq expression to " ++ source

def InputError.detail : InputError → String
  | .filterFailed _ error => ": " ++ error.message
  | _ => ""

namespace Document

def isPattern (path : String) : Bool := path.toList.any fun c => c = '*' || c = '?' || c = '['

/-- The paths that were found, up to one that could not be looked at. -/
def foundPaths : List (Except String String) → Except InputError (List String)
  | [] => .ok []
  | .error error :: _ => .error (.badPath error)
  | .ok path :: rest => (foundPaths rest).map (path :: ·)

/-- The paths that an input stands for. A pattern stands for at least one. -/
def resolve (services : Services) (tree : FileTree) (input : String) :
    Except InputError (List String) :=
  if isPattern input then
    match services.paths tree input with
    | .error error => .error (.badPattern input error)
    | .ok found =>
      match foundPaths found with
      | .error error => .error error
      | .ok [] => .error (.noMatch input)
      | .ok paths => .ok paths
  else .ok [input]

def resolveAll (services : Services) (tree : FileTree) :
    List String → Except InputError (List String)
  | [] => .ok []
  | input :: rest => do
    let paths ← resolve services tree input
    return paths ++ (← resolveAll services tree rest)

/-- The lines of a text that are not blank, each with its number. -/
def numberedLines (text : String) : List (Nat × String) :=
  ((Text.lines text.toList).zipIdx 1).filterMap fun (line, number) =>
    if Text.isBlank line then none else some (number, String.ofList line)

def ofLine (path : String) : Nat × String → Except InputError Document
  | (number, line) =>
    let source := path ++ ":" ++ toString number
    match Json.ofText line with
    | .ok value => .ok ⟨source, value⟩
    | .error error => .error (.badLine source error)

def select (pointer : Option String) (document : Document) : Except InputError Document :=
  match pointer with
  | none => .ok document
  | some pointer =>
    match document.value.find? pointer with
    | some value => .ok { document with value := value }
    | none => .error (.noSuchPart pointer document.source)

def refine (services : Services) (filter : Option String) (document : Document) :
    Except InputError (List Document) :=
  match filter with
  | none => .ok [document]
  | some text =>
    match services.filtered text document.value with
    | .ok values => .ok (values.map fun value => { document with value := value })
    | .error error => .error (.filterFailed document.source error)

def prepare (services : Services) (request : Request) (document : Document) :
    Except InputError (List Document) := do
  refine services request.filter (← select request.pointer document)

def ofLines (services : Services) (request : Request) (path : String) :
    List (Nat × String) → Except InputError (List Document)
  | [] => .ok []
  | line :: rest => do
    let documents ← prepare services request (← ofLine path line)
    return documents ++ (← ofLines services request path rest)

def ofText (services : Services) (request : Request) (path text : String) :
    Except InputError (List Document) :=
  if request.lineByLine then ofLines services request path (numberedLines text)
  else
    match Json.ofText text with
    | .ok value => prepare services request ⟨path, value⟩
    | .error error => .error (.badFile path error)

def ofFiles (services : Services) (tree : FileTree) (request : Request) :
    List String → Except InputError (List Document)
  | [] => .ok []
  | path :: rest =>
    match tree.read path with
    | .error error => .error (.unreadable path error)
    | .ok text => do
      let documents ← ofText services request path text
      return documents ++ (← ofFiles services tree request rest)

end Document

def Request.documents (services : Services) (tree : FileTree) (request : Request) :
    Except InputError (List Document) := do
  Document.ofFiles services tree request (← Document.resolveAll services tree request.inputs)

end Exemplar
