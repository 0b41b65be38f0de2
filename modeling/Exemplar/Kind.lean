/-!
# Primitive kinds

The four kinds of JSON value that have no parts. Everything else about a
literal is forgotten before shapes are inferred.
-/

namespace Exemplar

/-- The kind of a JSON value without parts. -/
inductive Kind where
  | string
  | boolean
  | number
  | null
deriving DecidableEq, Repr

def Kind.text : Kind → String
  | .string => "string"
  | .boolean => "boolean"
  | .number => "number"
  | .null => "null"

end Exemplar
