import Exemplar.Proofs.Inference.Session
import Exemplar.Proofs.Tree.Soundness

/-!
# What is inferred accepts the samples

The objects of a value with distinct keys merge without loss, also those in the
items of its arrays. Hence the tree of a value accepts the value, and the union
of several samples accepts each of them.
-/

namespace Exemplar

namespace Json

mutual

/-- Every object in a value has distinct keys. -/
def DistinctKeys : Json → Prop
  | .array items => DistinctKeysOfItems items
  | .object members => (members.map (·.1)).Nodup ∧ DistinctKeysOfMembers members
  | _ => True

def DistinctKeysOfItems : List Json → Prop
  | [] => True
  | item :: rest => DistinctKeys item ∧ DistinctKeysOfItems rest

def DistinctKeysOfMembers : List (String × Json) → Prop
  | [] => True
  | (_, value) :: rest => DistinctKeys value ∧ DistinctKeysOfMembers rest

end

theorem distinctKeysOfItems_iff {items : List Json} :
    DistinctKeysOfItems items ↔ ∀ item ∈ items, item.DistinctKeys := by
  induction items with
  | nil => simp [DistinctKeysOfItems]
  | cons item rest ih => rw [DistinctKeysOfItems, ih, List.forall_mem_cons]

theorem distinctKeysOfMembers_iff {members : List (String × Json)} :
    DistinctKeysOfMembers members ↔ ∀ m ∈ members, m.2.DistinctKeys := by
  induction members with
  | nil => simp [DistinctKeysOfMembers]
  | cons m rest ih => rw [DistinctKeysOfMembers, ih, List.forall_mem_cons]

end Json

namespace Node

open Exemplar.Tree

mutual

/-- The objects of a value merge without loss. -/
theorem plain_tree {value : Json} (distinct : value.DistinctKeys) :
    Surface Plain value.node.tree := by
  match value with
  | .null => exact .primitive _
  | .boolean _ => exact .primitive _
  | .number _ => exact .primitive _
  | .string _ => exact .primitive _
  | .array items => exact .array _
  | .object members =>
    obtain ⟨distinct, parts⟩ := distinct
    refine .object ⟨?_, fun field hf => ?_⟩ (plain_fieldsOfMembers parts)
    · rwa [names_fieldsOfMembers]
    · obtain ⟨m, _, rfl⟩ := mem_fieldsOfMembers.mp hf
      rfl

theorem plain_fieldsOfMembers {members : List (String × Json)}
    (distinct : Json.DistinctKeysOfMembers members) :
    ∀ field ∈ fieldsOfMembers (Json.nodesOfMembers members), ∀ tree ∈ field.type,
      Surface Plain tree := by
  match members with
  | [] => simp [Json.nodesOfMembers, fieldsOfMembers]
  | (name, value) :: rest =>
    intro field hf tree ht
    rcases List.mem_cons.mp hf with rfl | hf
    · exact List.mem_singleton.mp ht ▸ plain_tree distinct.1
    · exact plain_fieldsOfMembers distinct.2 field hf tree ht

end

theorem plain_treesOfItems {items : List Json} (distinct : Json.DistinctKeysOfItems items) :
    ∀ tree ∈ treesOfItems (Json.nodesOfItems items), Surface Plain tree := by
  induction items with
  | nil => simp [Json.nodesOfItems, treesOfItems]
  | cons item rest ih =>
    intro tree ht
    rcases List.mem_cons.mp ht with rfl | ht
    · exact plain_tree distinct.1
    · exact ih distinct.2 tree ht

mutual

/-- The tree of a value accepts the value. -/
theorem accepts_tree {value : Json} (distinct : value.DistinctKeys) :
    value.node.tree.Accepts value := by
  match value with
  | .null => rfl
  | .boolean _ => rfl
  | .number _ => rfl
  | .string _ => rfl
  | .array items =>
    refine ⟨items, rfl, fun part hp => acceptsAny_merge (plain_treesOfItems distinct) ?_⟩
    exact acceptsAny_treesOfItems distinct part hp
  | .object members =>
    refine ⟨members, rfl, accepts_fieldsOfMembers distinct.2, fun name needed => ?_⟩
    obtain ⟨field, hf, rfl, _⟩ := needed
    have has : field.name ∈ (fieldsOfMembers (Json.nodesOfMembers members)).map (·.name) :=
      List.mem_map_of_mem hf
    rw [names_fieldsOfMembers] at has
    exact List.mem_map.mp has

theorem acceptsAny_treesOfItems {items : List Json} (distinct : Json.DistinctKeysOfItems items) :
    ∀ part ∈ items, AcceptsAny (treesOfItems (Json.nodesOfItems items)) part := by
  match items with
  | [] => simp
  | item :: rest =>
    intro part hp
    rcases List.mem_cons.mp hp with same | hp
    · rw [same]
      exact Or.inl (accepts_tree distinct.1)
    · exact Or.inr (acceptsAny_treesOfItems distinct.2 part hp)

theorem accepts_fieldsOfMembers {members : List (String × Json)}
    (distinct : Json.DistinctKeysOfMembers members) :
    ∀ m ∈ members, AcceptsField (fieldsOfMembers (Json.nodesOfMembers members)) m.1 m.2 := by
  match members with
  | [] => simp
  | (name, value) :: rest =>
    intro m hm
    rcases List.mem_cons.mp hm with same | hm
    · rw [same]
      exact Or.inl ⟨rfl, Or.inl (accepts_tree distinct.1)⟩
    · exact Or.inr (accepts_fieldsOfMembers distinct.2 m hm)

end

end Node

namespace Tree

/-- What the tree of one of several samples accepts, the tree of all samples accepts. -/
theorem acceptsAny_combine {trees : List Tree} (plain : ∀ tree ∈ trees, Surface Plain tree)
    {value : Json} (accepted : AcceptsAny trees value) : AcceptsAny (combine trees) value := by
  match trees with
  | [] => exact accepted.elim
  | [tree] => exact accepted
  | first :: second :: rest => exact acceptsAny_merge plain accepted

/-- The tree of several samples accepts each of them. -/
theorem accepts_samples {samples : List Json} (distinct : ∀ value ∈ samples, value.DistinctKeys)
    {value : Json} (sampled : value ∈ samples) :
    AcceptsAny (combine (samples.map (·.node.tree))) value := by
  refine acceptsAny_combine (fun tree ht => ?_) ?_
  · obtain ⟨value, hv, rfl⟩ := List.mem_map.mp ht
    exact Node.plain_tree (distinct value hv)
  · refine acceptsAny_iff.mpr ⟨_, List.mem_map_of_mem sampled, ?_⟩
    exact Node.accepts_tree (distinct value sampled)

end Tree

end Exemplar
