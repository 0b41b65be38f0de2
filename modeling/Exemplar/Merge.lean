import Exemplar.Store

/-!
# Unifying alternatives

Several shapes of one position become the alternatives of that position:
at most one object, at most one array, then the distinct primitive kinds.

Objects merge field by field. A field of the result is nullable exactly when
some of the objects lacks it, and its alternatives are unified in turn. Arrays
pool their element alternatives without merging them. Following references
goes one step down in the depth of the leaves, which bounds the descent.
-/

namespace Exemplar

/-- The alternatives of several arrays, repetitions dropped. -/
def pool (arrays : List (List (Leaf Key))) : List (Leaf Key) :=
  arrays.flatten.eraseDups

namespace Merge

/-- The field of a name, where the first of several counts. -/
def field? (name : String) (fields : List (Field Key)) : Option (Field Key) :=
  fields.find? (·.name = name)

/-- The distinct field names of some objects, in the order of first sight. -/
def fieldNames (objects : List (List (Field Key))) : List String :=
  (objects.flatten.map (·.name)).eraseDups

/-- All alternatives that some objects give to a field. -/
def candidates (name : String) (objects : List (List (Field Key))) : List (Leaf Key) :=
  (objects.filterMap (field? name)).flatMap (·.types)

def lacks (name : String) (objects : List (List (Field Key))) : Bool :=
  objects.any fun fields => (field? name fields).isNone

/-- Merge objects into one saved object, given how to unify the alternatives of a field. -/
def objectsWith (unifyTypes : List (Leaf Key) → Saving Fault (List (Leaf Key)))
    (objects : List (List (Field Key))) : Saving Fault (Leaf Key) := do
  let fields ← (fieldNames objects).mapM fun name => do
    let types ← unifyTypes (candidates name objects)
    return ⟨name, types, lacks name objects⟩
  Saving.saveObject fields

/-- Merge shapes into alternatives: an object, an array, then the primitive kinds. -/
def shapesWith (unifyTypes : List (Leaf Key) → Saving Fault (List (Leaf Key)))
    (shapes : List (Shape Key)) : Saving Fault (List (Leaf Key)) := do
  let objects := shapes.filterMap (·.fields?)
  let arrays := shapes.filterMap (·.elements?)
  let kinds := shapes.filterMap (·.kind?)
  let merged ← if objects.isEmpty then pure [] else List.singleton <$> objectsWith unifyTypes objects
  let pooled := if arrays.isEmpty then [] else [Leaf.array (pool arrays)]
  return merged ++ pooled ++ kinds.eraseDups.map Leaf.primitive

/-- Unify leaves whose objects nest fewer than `levels` deep. -/
def leavesWithin : (levels : Nat) → List (Leaf Key) → Saving Fault (List (Leaf Key))
  | 0, _ => return []
  | levels + 1, leaves => do
    let shapes ← leaves.eraseDups.mapM Saving.shapeOf
    shapesWith (leavesWithin levels) shapes

end Merge

/-- Unify leaves into the alternatives that describe them all. -/
def unify (leaves : List (Leaf Key)) : Saving Fault (List (Leaf Key)) :=
  Merge.leavesWithin (Key.depthOfLeaves leaves + 1) leaves

def mergeShapes (shapes : List (Shape Key)) : Saving Fault (List (Leaf Key)) :=
  Merge.shapesWith unify shapes

/-- Merge objects, given by their fields, into one saved object. -/
def mergeObjects (objects : List (List (Field Key))) : Saving Fault (Leaf Key) :=
  Merge.objectsWith unify objects

end Exemplar
