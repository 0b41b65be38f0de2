import Exemplar.Definition.Collection
import Exemplar.Definition.Inlining
import Exemplar.Definition.Naming
import Exemplar.Inference

/-!
# From samples to definitions

The whole way: observe every sample, solve, collect what the root needs, write
arrays in place, mark the root and name the rest.
-/

namespace Exemplar

def markRoot (root : Key) (types : List (Definition Key)) :
    Except Fault (List (Definition Key)) :=
  if types.any (·.name = root) then
    .ok (types.map fun t => { t with isRoot := t.isRoot || t.name = root })
  else .error (.missingRoot root)

def definitions (store : Store) (root : Key) (options : Options) :
    Except Fault (List (Definition String)) := do
  let collected ← collect store root
  let marked ← markRoot root (inlineArrays root collected)
  (assignNames root options marked).mapError .unknownDefinition

/-- The named definitions that describe every sample. -/
def definitionsOfSamples (options : Options) (samples : List Json) :
    Except Failure (List (Definition String)) := do
  let session ← (Session.start options.maxDepth).observeAll samples
  let inferred ← session.solve
  (definitions inferred.store inferred.root options).mapError .fault

end Exemplar
