import Exemplar.Definition
import Exemplar.Store

/-!
# Collecting definitions

Every container reachable from a root becomes one definition, named by its key,
and parts come before the wholes that use them. Arrays in place count as
containers of their own. An object must be in the store when it is reached.

The shape found under a key is the one the key addresses, so the walk recurses
on keys. A key can not lie below itself; a definition that is not written yet is
never met again inside its own parts.
-/

namespace Exemplar

namespace Collect

/-- The type that stands for a leaf: a container is referred to by its key. -/
def typeOf : Leaf Key → TypeExpr Key
  | .primitive kind => .primitive kind
  | .array elements => .named (.address (.array elements))
  | .object ref => .named ref

def typeOfAll (leaves : List (Leaf Key)) : TypeExpr Key :=
  .ofAlternatives (leaves.map typeOf)

def memberOf (field : Field Key) : Member (TypeExpr Key) :=
  ⟨field.name, typeOfAll field.types, field.nullable⟩

def bodyOf : Composite Key → Body Key
  | .array elements => .array (typeOfAll elements)
  | .object fields => .object (fields.map memberOf)

def definitionOf (shape : Composite Key) : Definition Key :=
  ⟨.address shape, bodyOf shape, false⟩

abbrev Collected := List (Definition Key)

def defined (collected : Collected) (key : Key) : Bool :=
  collected.any (·.name = key)

mutual

/-- Collect the shape under a key, unless it was collected before. -/
def key (store : Store) : Key → Collected → Except Fault Collected
  | .of depth shape, collected =>
    if defined collected (.of depth shape) then .ok collected
    else if store.contains (.of depth shape) then composite store shape collected
    else .error (.missingShape (.of depth shape))

def composite (store : Store) : Composite Key → Collected → Except Fault Collected
  | .array elements, collected => do
    let collected ← leaves store elements collected
    return collected ++ [definitionOf (.array elements)]
  | .object members, collected => do
    let collected ← fields store members collected
    return collected ++ [definitionOf (.object members)]

def fields (store : Store) : List (Field Key) → Collected → Except Fault Collected
  | [], collected => .ok collected
  | member :: rest, collected => do
    let collected ← field store member collected
    fields store rest collected

def field (store : Store) : Field Key → Collected → Except Fault Collected
  | ⟨_, types, _⟩, collected => leaves store types collected

def leaves (store : Store) : List (Leaf Key) → Collected → Except Fault Collected
  | [], collected => .ok collected
  | first :: rest, collected => do
    let collected ← leaf store first collected
    leaves store rest collected

/-- Collect what a leaf needs. An array in place need not be in the store. -/
def leaf (store : Store) : Leaf Key → Collected → Except Fault Collected
  | .primitive _, collected => .ok collected
  | .array elements, collected =>
    if defined collected (.address (.array elements)) then .ok collected
    else do
      let collected ← leaves store elements collected
      return collected ++ [definitionOf (.array elements)]
  | .object ref, collected => key store ref collected

end

end Collect

/-- The definitions of everything reachable from a root, parts first. -/
def collect (store : Store) (root : Key) : Except Fault (List (Definition Key)) :=
  Collect.key store root []

end Exemplar
