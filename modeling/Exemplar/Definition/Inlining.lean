import Exemplar.Definition

/-!
# Writing arrays in place

A wrapper is a definition of an array that is not the root. Five rounds replace
each reference to a wrapper by the array it was defined as. Arrays nested deeper
than that leave references to wrappers behind; a wrapper is kept exactly when a
definition that is kept still refers to it.

Names may repeat in a list of definitions: the last wrapper of a name counts, and
the last definition of a name is the one that a reference leads to.
-/

namespace Exemplar

namespace Inline

variable {ν : Type} [DecidableEq ν]

/-- The array that a wrapper stands for, if the name is a wrapper's. -/
def wrapper? (types : List (Definition ν)) (root name : ν) : Option (TypeExpr ν) :=
  if name = root then none
  else
    let elements := types.filterMap fun t => if t.name = name then t.body.element? else none
    elements.getLast?.map .array

def isWrapper (types : List (Definition ν)) (root name : ν) : Bool :=
  (wrapper? types root name).isSome

def expand (wrapper : ν → Option (TypeExpr ν)) (body : Body ν) : Body ν :=
  body.subst fun name => (wrapper name).getD (.named name)

def expandAll (wrapper : ν → Option (TypeExpr ν)) (types : List (Definition ν)) :
    List (Definition ν) :=
  types.map fun t => { t with body := expand wrapper t.body }

/-- Replace references to wrappers so many times over. -/
def expandRounds (wrapper : ν → Option (TypeExpr ν)) :
    (rounds : Nat) → List (Definition ν) → List (Definition ν)
  | 0, types => types
  | rounds + 1, types => expandRounds wrapper rounds (expandAll wrapper types)

def rounds : Nat := 5

def bodyOf? (types : List (Definition ν)) (name : ν) : Option (Body ν) :=
  (types.filter (·.name = name)).getLast?.map (·.body)

/-- The wrappers among the references of some bodies that were not met before. -/
def fresh (isWrapper : ν → Bool) (met : List ν) (bodies : List (Body ν)) : List ν :=
  ((bodies.flatMap (·.references)).filter fun name => isWrapper name && name ∉ met).eraseDups

/-- The wrappers met by following references, `steps` steps on from those met last. -/
def follow (isWrapper : ν → Bool) (types : List (Definition ν)) :
    (steps : Nat) → (last met : List ν) → List ν
  | 0, _, met => met
  | steps + 1, last, met =>
    match fresh isWrapper met (last.filterMap (bodyOf? types)) with
    | [] => met
    | next => follow isWrapper types steps next (met ++ next)

/-- The wrappers that the definitions to keep refer to, directly or through wrappers. -/
def live (isWrapper : ν → Bool) (keep : Definition ν → Bool) (types : List (Definition ν)) :
    List ν :=
  let first := fresh isWrapper [] ((types.filter keep).map (·.body))
  follow isWrapper types types.length first first

end Inline

/-- Write wrappers in place, and drop those that nothing kept refers to. -/
def inlineArrays {ν : Type} [DecidableEq ν] (root : ν) (types : List (Definition ν)) :
    List (Definition ν) :=
  let isWrapper := Inline.isWrapper types root
  let expanded := Inline.expandRounds (Inline.wrapper? types root) Inline.rounds types
  let keep := fun (t : Definition ν) => t.name = root || !isWrapper t.name
  let live := Inline.live isWrapper keep expanded
  expanded.filter fun t => keep t || t.name ∈ live

end Exemplar
