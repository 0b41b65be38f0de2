/-!
# Requests

What a caller of the program asks for.
-/

namespace Exemplar

/-- The form in which definitions are written: as text in a type language, or as JSON. -/
inductive Form where
  | types
  | schema
deriving DecidableEq, Repr

structure Request where
  form : Form
  /-- Path texts, and patterns for them. -/
  inputs : List String
  /-- Every line of an input is a document. -/
  lineByLine : Bool := false
  /-- Every document gets definitions of its own. -/
  each : Bool := false
  /-- The part of a document to look at. -/
  pointer : Option String := none
  /-- A filter that makes any number of documents of one. -/
  filter : Option String := none
  /-- A file with options. -/
  optionsFile : Option String := none
  rootName : Option String := none
  maxDepth : Option Nat := none
  /-- The file to write to. -/
  output : Option String := none
deriving DecidableEq, Repr

end Exemplar
