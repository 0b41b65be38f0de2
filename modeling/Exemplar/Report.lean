import Exemplar.Definition.Rendering
import Exemplar.Definition.Schema
import Exemplar.Document
import Exemplar.FileTree.Writing
import Exemplar.Options.Reader
import Exemplar.Samples
import Exemplar.Services.BuiltIn
import Exemplar.Shape.Encoding

/-!
# Reports

A request is answered by a report: the definitions of all documents together, or
those of each. It is printed, or written to a file. Either happens only after
all has gone well.
-/

namespace Exemplar

/-- Definitions of all documents together, or of each document. -/
inductive Report where
  | joint (types : List (Definition String))
  | separate (groups : List (String × List (Definition String)))

inductive RequestError where
  | optionsUnreadable (path : String) (error : FileError)
  | badOptions (path : String) (issue : OptionsIssue)
  | input (error : InputError)
  | noDocuments
  | noTypes (failure : Failure)
  | noTypesFor (source : String) (failure : Failure)
  | directoryRefused (path : String) (error : FileError)
  | fileRefused (path : String) (error : FileError)

def RequestError.message : RequestError → String
  | .optionsUnreadable path error =>
    "failed to read options file (" ++ path ++ "): " ++ error.message
  | .badOptions path issue => "in options file " ++ path ++ ": " ++ issue.message
  | .input error => error.message
  | .noDocuments => "no input documents"
  | .noTypes failure => "failed to guess types: " ++ failure.message Key.text
  | .noTypesFor source failure =>
    "failed to guess types for " ++ source ++ ": " ++ failure.message Key.text
  | .directoryRefused path error =>
    "failed to create output directory (" ++ path ++ "): " ++ error.message
  | .fileRefused path error =>
    "failed to write output file (" ++ path ++ "): " ++ error.message

/-- What there is to say after the text of a request error. -/
def RequestError.detail : RequestError → String
  | .input error => error.detail
  | _ => ""

namespace Report

def typesText : String × List (Definition String) → String
  | (source, types) => "// " ++ source ++ "\n" ++ render types

def groupSchema : String × List (Definition String) → Json
  | (source, types) => .object [("source", .string source), ("types", schema types)]

/-- A report as text. An empty line stands between the definitions of two documents. -/
def text : Form → Report → String
  | .types, .joint types => render types
  | .types, .separate groups => "\n".intercalate (groups.map typesText)
  | .schema, .joint types => (schema types).pretty ++ "\n"
  | .schema, .separate groups => (Json.array (groups.map groupSchema)).pretty ++ "\n"

def ofEach (options : Options) :
    List Document → Except RequestError (List (String × List (Definition String)))
  | [] => .ok []
  | document :: rest =>
    match definitionsOfSamples options [document.value] with
    | .error failure => .error (.noTypesFor document.source failure)
    | .ok types => (ofEach options rest).map ((document.source, types) :: ·)

/-- The report on documents, of which there has to be one at least. -/
def ofDocuments (options : Options) (each : Bool) (documents : List Document) :
    Except RequestError Report :=
  if documents.isEmpty then .error .noDocuments
  else if each then (ofEach options documents).map .separate
  else
    match definitionsOfSamples options (documents.map (·.value)) with
    | .error failure => .error (.noTypes failure)
    | .ok types => .ok (.joint types)

end Report

/-- What a request leaves behind: the file tree, and the text to print or what went wrong. -/
structure Outcome where
  tree : FileTree
  printed : Except RequestError String

namespace Request

/-- The options in the file that a request names, or the defaults. -/
def optionsInFile (tree : FileTree) (request : Request) : Except RequestError Options :=
  match request.optionsFile with
  | none => .ok {}
  | some path =>
    match tree.read path with
    | .error error => .error (.optionsUnreadable path error)
    | .ok text => (Options.ofText text).mapError (.badOptions path)

/-- The options of a request: what it sets itself goes before what a file sets. -/
def options (tree : FileTree) (request : Request) : Except RequestError Options := do
  let options ← request.optionsInFile tree
  return {
    options with
    rootName := request.rootName.getD options.rootName
    maxDepth := request.maxDepth.getD options.maxDepth }

def report (services : Services) (tree : FileTree) (request : Request) :
    Except RequestError String := do
  let options ← request.options tree
  let documents ← (request.documents services tree).mapError .input
  return (← Report.ofDocuments options request.each documents).text request.form

/-- Write a text to a file, in a directory that is there. -/
def save (tree : FileTree) (path text : String) : Outcome :=
  match tree.write path text with
  | .ok written => ⟨written, .ok ""⟩
  | .error error => ⟨tree, .error (.fileRefused path error)⟩

/-- Write a text to a file, in a directory that is made if it is missing. -/
def saveHoused (tree : FileTree) (path text : String) : Outcome :=
  match FileTree.parent? path with
  | none => save tree path text
  | some parent =>
    match tree.prepare parent with
    | (.ok (), housed) => save housed path text
    | (.error error, housed) => ⟨housed, .error (.directoryRefused parent error)⟩

def runWith (services : Services) (tree : FileTree) (request : Request) : Outcome :=
  match request.report services tree with
  | .error error => ⟨tree, .error error⟩
  | .ok text =>
    match request.output with
    | none => ⟨tree, .ok text⟩
    | some path => saveHoused tree path text

/-- Carry out a request with the services at hand. -/
def run (tree : FileTree) (request : Request) : Outcome := request.runWith .builtIn tree

end Request

end Exemplar
