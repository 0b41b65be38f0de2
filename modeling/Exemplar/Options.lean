/-!
# Options of an inference
-/

namespace Exemplar

/-- What a caller may choose: two names, and how deep containers may nest. -/
structure Options where
  rootName : String := "Root"
  placeholderName : String := "Guessed"
  maxDepth : Nat := 256
deriving DecidableEq, Repr

end Exemplar
