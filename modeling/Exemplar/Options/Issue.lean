import Exemplar.Decimal.Shortest
import Exemplar.Json.Cursor
import Exemplar.Json
import Exemplar.Text.Escaped

/-!
# What can be wrong with an options text

An issue has a path to the part of the text that is concerned, a cause, and the
place up to which the text had been read.
-/

namespace Exemplar

/-- Where in an options text something is wrong. -/
inductive OptionsPath where
  | root
  | unknown
  | member (name : String)
  | index (position : Nat)
deriving DecidableEq, Repr

def OptionsPath.text : OptionsPath → String
  | .root => "."
  | .unknown => "?"
  | .member name => name
  | .index position => "[" ++ toString position ++ "]"

inductive Expected where
  | string
  | count
  | options
deriving DecidableEq, Repr

def Expected.text : Expected → String
  | .string => "a string"
  | .count => "usize"
  | .options => "struct GuessOptions"

inductive OptionsCause where
  | syntaxError (cause : Json.SyntaxCause)
  | invalidType (found : Json) (expected : Expected)
  | negative (value : Int)
  | unknownField (name : String)
  | duplicateField (name : String)

def describe : Json → String
  | .null => "null"
  | .boolean value => "boolean `" ++ (if value then "true" else "false") ++ "`"
  | .number (.integer value) => "integer `" ++ toString value ++ "`"
  | .number (.float value) => "floating point `" ++ Shortest.floatText value ++ "`"
  | .string value => "string " ++ Escaped.quote value
  | .array _ => "sequence"
  | .object _ => "map"

def OptionsCause.message : OptionsCause → String
  | .syntaxError cause => cause.message
  | .invalidType found expected =>
    "invalid type: " ++ describe found ++ ", expected " ++ expected.text
  | .negative value => "invalid value: integer `" ++ toString value ++ "`, expected usize"
  | .unknownField name =>
    "unknown field `" ++ name ++
      "`, expected one of `rootName`, `placeholderName`, `maxDepth`"
  | .duplicateField name => "duplicate field `" ++ name ++ "`"

structure OptionsIssue where
  path : OptionsPath
  cause : OptionsCause
  place : Json.Place

def OptionsIssue.message (issue : OptionsIssue) : String :=
  "invalid options: at JSON path " ++ issue.path.text ++ " → " ++ issue.cause.message ++
    " at " ++ issue.place.text

end Exemplar
