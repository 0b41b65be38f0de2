import Exemplar.Merge
import Exemplar.Node

/-!
# Inferring shapes

A node is described bottom up. A primitive is its own shape, an array holds the
unified shapes of its items, and every object is saved, even one that occurs
once. A limit on the nesting of containers is checked on the way down.

A `Session` observes samples one by one. Solving it unifies the samples like the
items of one array; a single sample is taken as it is.
-/

namespace Exemplar

namespace Infer

/-- A computation over shapes, as part of an inference. -/
def merging {α : Type} (act : Saving Fault α) : Saving Failure α :=
  ExceptT.adapt Failure.fault act

/-- Enter a container if there is room for one more level. -/
def entering {α : Type} (limit room : Nat) (body : Nat → Saving Failure α) : Saving Failure α :=
  match room with
  | 0 => throw (.tooDeep limit)
  | room + 1 => body room

mutual

/-- The shape of a node, with room for so many more levels of containers. -/
def nodeWithin (limit room : Nat) : Node → Saving Failure (Leaf Key)
  | .primitive kind => return .primitive kind
  | .array items => entering limit room fun room => do
    let leaves ← itemsWithin limit room items
    return .array (← merging (unify leaves))
  | .object members => entering limit room fun room => do
    let fields ← membersWithin limit room members
    Saving.saveObject fields

def itemsWithin (limit room : Nat) : List Node → Saving Failure (List (Leaf Key))
  | [] => return []
  | item :: rest => do
    let leaf ← nodeWithin limit room item
    return leaf :: (← itemsWithin limit room rest)

def membersWithin (limit room : Nat) :
    List (String × Node) → Saving Failure (List (Field Key))
  | [] => return []
  | (name, node) :: rest => do
    let leaf ← nodeWithin limit room node
    return ⟨name, [leaf], false⟩ :: (← membersWithin limit room rest)

end

/-- The shape of a node whose containers nest at most `limit` deep. -/
def node (limit : Nat) (node : Node) : Saving Failure (Leaf Key) :=
  nodeWithin limit limit node

def elements (limit : Nat) (items : List Node) : Saving Failure (List (Leaf Key)) :=
  entering limit limit fun room => do
    let leaves ← itemsWithin limit room items
    merging (unify leaves)

end Infer

/-- A store and the key of the shape that describes all samples. -/
structure Inferred where
  store : Store
  root : Key

/-- Samples observed so far, under one limit on nesting. -/
structure Session where
  limit : Nat
  store : Store
  samples : List (Leaf Key)

namespace Session

/-- A session without samples. -/
def start (limit : Nat) : Session := ⟨limit, .empty, []⟩

def sampleCount (session : Session) : Nat := session.samples.length

/-- Observe a node. One that is refused adds no sample, but may leave shapes of its parts. -/
def observeNode (node : Node) (session : Session) : Except Failure Unit × Session :=
  match node.kind? with
  | some kind => (.error (.primitiveRoot kind), session)
  | none =>
    match (Infer.node session.limit node).run session.store with
    | (.ok leaf, store) =>
      (.ok (), { session with store := store, samples := session.samples ++ [leaf] })
    | (.error failure, store) => (.error failure, { session with store := store })

/-- Observe a value. One that is refused leaves the session as it was. -/
def observe (value : Json) (session : Session) : Except Failure Unit × Session :=
  match Node.load session.limit value with
  | .ok node => session.observeNode node
  | .error failure => (.error failure, session)

/-- Observe values in order, up to the first that is refused. -/
def observeAll (session : Session) : List Json → Except Failure Session
  | [] => .ok session
  | value :: rest =>
    match session.observe value with
    | (.ok (), next) => next.observeAll rest
    | (.error failure, _) => .error failure

/-- The root made of the alternatives of all samples, which must be a single container. -/
def root (store : Store) : List (Leaf Key) → Except Failure Inferred
  | [.object ref] => .ok ⟨store, ref⟩
  | [.array elements] => .ok ⟨store.insert (.array elements), .address (.array elements)⟩
  | [.primitive kind] => .error (.fault (.primitiveRoot kind))
  | leaves => .error (.incompatible leaves.length)

def solve (session : Session) : Except Failure Inferred :=
  match session.samples with
  | [] => .error .noSamples
  | [sample] => root session.store [sample]
  | samples =>
    match (unify samples).run session.store with
    | (.ok leaves, store) => root store leaves
    | (.error fault, _) => .error (.fault fault)

end Session

end Exemplar
