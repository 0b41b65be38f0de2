import Exemplar.Shape.Key

/-!
# Failures

`Failure` collects what can stop an inference. Four causes lie in the samples.
The fifth is a fault: a broken rule of the engine itself, such as a reference
to a shape that was never saved.
-/

namespace Exemplar

/-- A broken rule of the engine. -/
inductive Fault where
  | missingShape (key : Key)
  | missingRoot (key : Key)
  | primitiveRoot (kind : Kind)
  | unknownDefinition (key : Key)
deriving DecidableEq

/-- Why samples have no common type. -/
inductive Failure where
  | tooDeep (limit : Nat)
  | primitiveRoot (kind : Kind)
  | noSamples
  | incompatible (alternatives : Nat)
  | fault (broken : Fault)
deriving DecidableEq

def Fault.message (writeKey : Key → String) : Fault → String
  | .missingShape key => "invariant violated: shape " ++ writeKey key ++ " not found in store"
  | .missingRoot key =>
    "invariant violated: root definition " ++ writeKey key ++ " missing after collection"
  | .primitiveRoot kind =>
    "invariant violated: primitive `" ++ kind.text ++ "` reached the root after observe"
  | .unknownDefinition key =>
    "invariant violated: reference to unknown definition " ++ writeKey key

def Failure.message (writeKey : Key → String) : Failure → String
  | .tooDeep limit =>
    "input nests deeper than the configured limit of " ++ toString limit ++ " levels"
  | .primitiveRoot kind => "root value must be an array or an object, found " ++ kind.text
  | .noSamples => "no samples were observed"
  | .incompatible alternatives =>
    "samples do not unify into a single root type (" ++ toString alternatives ++ " alternatives)"
  | .fault broken => broken.message writeKey

end Exemplar
