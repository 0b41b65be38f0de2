import Exemplar.Json.Reader
import Exemplar.Services

/-!
# Filtering

A filter puts out texts, and each has to be the text of a value. The values count
only if there is no failure among them.
-/

namespace Exemplar

def FilterFault.message : FilterFault → String
  | .malformed faults =>
    String.join (faults.map fun (fault, text) =>
      "parse error: " ++ fault ++ " in `" ++ text ++ "`\n")
  | .undefined names =>
    String.join (names.map fun (name, expected, text) =>
      "undefined `" ++ name ++ "`: " ++ expected ++ " in `" ++ text ++ "`\n")

/-- Why a filter makes no documents of one. -/
inductive FilterError where
  | noFilter (fault : FilterFault)
  | failed (reason : String)
  | notJson (text : String) (error : Json.SyntaxError)
deriving DecidableEq, Repr

def FilterError.message : FilterError → String
  | .noFilter fault => fault.message
  | .failed reason => "jq runtime error: " ++ reason
  | .notJson text error =>
    "jq produced non-JSON output `" ++ text ++ "`: " ++ error.message

/-- The values that were put out, up to the first failure. -/
def valuesOfOutputs : List (Except String String) → Except FilterError (List Json)
  | [] => .ok []
  | .error reason :: _ => .error (.failed reason)
  | .ok text :: rest =>
    match Json.ofText text with
    | .error error => .error (.notJson text error)
    | .ok value => (valuesOfOutputs rest).map (value :: ·)

/-- The values that the filter of a text makes of a value. -/
def Services.filtered (services : Services) (text : String) (value : Json) :
    Except FilterError (List Json) :=
  match services.filter text with
  | .error fault => .error (.noFilter fault)
  | .ok outputs => valuesOfOutputs (outputs value)

end Exemplar
