import Exemplar.Proofs.Inference.Session
import Exemplar.Proofs.Tree.FixedPoints

/-!
# Regular trees

A field is left with at most one object, at most one array and distinct primitive
kinds, in this order, and with something. An array is left with distinct
elements, which may be several objects or arrays. The tree of a node is such a
tree through and through, and merging makes such trees out of such trees.
-/

namespace Exemplar

namespace Tree

/-- At most one object, then at most one array, then distinct primitive kinds. -/
def Sorted (trees : List Tree) : Prop :=
  ∃ (object : Option (List (Member (List Tree)))) (array : Option (List Tree)) (kinds : List Kind),
    trees = object.toList.map .object ++ array.toList.map .array ++ kinds.map .primitive ∧ kinds.Nodup

/-- The elements of an array, and the alternatives of the fields of an object. -/
def parts : Tree → List Tree
  | .primitive _ => []
  | .array elements => elements
  | .object fields => fields.flatMap (·.type)

/-- Arrays with distinct elements, and fields with sorted alternatives, all the way down. -/
inductive Regular : Tree → Prop
  | primitive (kind : Kind) : Regular (.primitive kind)
  | array {elements : List Tree} (distinct : elements.Nodup) (each : ∀ tree ∈ elements, Regular tree) :
      Regular (.array elements)
  | object {fields : List (Member (List Tree))} (sorted : ∀ field ∈ fields, Sorted field.type)
      (nonempty : ∀ field ∈ fields, field.type ≠ [])
      (each : ∀ field ∈ fields, ∀ tree ∈ field.type, Regular tree) : Regular (.object fields)

theorem Sorted.nodup {trees : List Tree} (sorted : Sorted trees) : trees.Nodup := by
  obtain ⟨object, array, kinds, rfl, distinct⟩ := sorted
  have primitives : (kinds.map Tree.primitive).Nodup :=
    distinct.map fun _ _ => Tree.primitive.inj
  cases object <;> cases array <;> simp [primitives]

theorem sorted_singleton (tree : Tree) : Sorted [tree] := by
  cases tree with
  | primitive kind => exact ⟨none, none, [kind], rfl, List.nodup_singleton kind⟩
  | array elements => exact ⟨none, some elements, [], rfl, List.nodup_nil⟩
  | object fields => exact ⟨some fields, none, [], rfl, List.nodup_nil⟩

/-- What is merged is sorted. -/
theorem sorted_merge (trees : List Tree) : Sorted (merge trees) := by
  refine ⟨if objects trees.eraseDups = [] then none
      else some (mergedFields (objects trees.eraseDups)),
    if arrays trees.eraseDups = [] then none else some (arrays trees.eraseDups).flatten.eraseDups,
    kinds trees.eraseDups, ?_, List.nodup_eraseDups _⟩
  rw [merge_eq]
  by_cases ho : objects trees.eraseDups = [] <;> by_cases ha : arrays trees.eraseDups = [] <;>
    simp [ho, ha]

theorem merge_ne_nil {trees : List Tree} (nonempty : trees ≠ []) : merge trees ≠ [] := by
  obtain ⟨tree, ht⟩ := List.exists_mem_of_ne_nil trees nonempty
  have ht := List.mem_eraseDups.mpr ht
  cases tree with
  | primitive kind =>
    exact List.ne_nil_of_mem (mem_merge.mpr (.inr (.inr ⟨kind, mem_kinds.mpr ht, rfl⟩)))
  | array elements =>
    have present := List.ne_nil_of_mem (mem_arrays.mpr ht)
    exact List.ne_nil_of_mem (mem_merge.mpr (.inr (.inl ⟨present, rfl⟩)))
  | object fields =>
    have present := List.ne_nil_of_mem (mem_objects.mpr ht)
    exact List.ne_nil_of_mem (mem_merge.mpr (.inl ⟨present, rfl⟩))

theorem Regular.elements {elements : List Tree} (regular : Regular (.array elements)) :
    ∀ tree ∈ elements, Regular tree := by
  cases regular with
  | array _ each => exact each

theorem Regular.fields {fields : List (Member (List Tree))} (regular : Regular (.object fields)) :
    ∀ field ∈ fields, field.type ≠ [] ∧ ∀ tree ∈ field.type, Regular tree := by
  cases regular with
  | object _ nonempty each => exact fun field hf => ⟨nonempty field hf, each field hf⟩

theorem Regular.parts {tree : Tree} (regular : Regular tree) : ∀ part ∈ tree.parts, Regular part := by
  cases regular with
  | primitive kind => exact nofun
  | array _ each => exact each
  | object _ _ each =>
    intro part hp
    obtain ⟨field, hf, hp⟩ := List.mem_flatMap.mp hp
    exact each field hf part hp

/-- Every object that has a field gives it an alternative. -/
theorem candidates_ne_nil {trees : List Tree} (regular : ∀ tree ∈ trees, Regular tree)
    {name : String} (hn : name ∈ fieldNames (objects trees)) :
    candidates name (objects trees) ≠ [] := by
  obtain ⟨fields, hf, field, hm, rfl⟩ := mem_fieldNames.mp hn
  -- The field that is found under the name may be another one than this.
  obtain ⟨first, found⟩ : ∃ first, field? field.name fields = some first := by
    apply Option.isSome_iff_exists.mp
    rw [field?, List.find?_isSome]
    exact ⟨field, hm, by simp⟩
  have nonempty := ((regular _ (mem_objects.mp hf)).fields first (of_field?_eq_some found).1).1
  obtain ⟨tree, ht⟩ := List.exists_mem_of_ne_nil _ nonempty
  exact List.ne_nil_of_mem (mem_candidates.mpr ⟨fields, hf, first, found, ht⟩)

/-- Regular trees merge into regular trees. -/
theorem regular_merge {trees : List Tree} (regular : ∀ tree ∈ trees, Regular tree) :
    ∀ tree ∈ merge trees, Regular tree := by
  induction trees using merge_induction with
  | step trees ih =>
    have regular : ∀ tree ∈ trees.eraseDups, Regular tree := by
      intro tree ht
      exact regular tree (List.mem_eraseDups.mp ht)
    intro tree ht
    rcases mem_merge.mp ht with ⟨present, rfl⟩ | ⟨_, rfl⟩ | ⟨kind, _, rfl⟩
    · have below : ∀ name, ∀ tree ∈ candidates name (objects trees.eraseDups), Regular tree := by
        intro name tree ht
        obtain ⟨fields, hf, field, found, ht⟩ := mem_candidates.mp ht
        have each := (regular _ (mem_objects.mp hf)).fields field (of_field?_eq_some found).1
        exact each.2 tree ht
      apply Regular.object <;> intro field hf <;> obtain ⟨name, hn, rfl⟩ := List.mem_map.mp hf
      · exact sorted_merge _
      · exact merge_ne_nil (candidates_ne_nil regular hn)
      · exact ih present name (below name)
    · apply Regular.array (List.nodup_eraseDups _)
      intro tree ht
      obtain ⟨elements, he, ht⟩ := List.mem_flatten.mp (List.mem_eraseDups.mp ht)
      exact (regular _ (mem_arrays.mp he)).elements tree ht
    · exact .primitive kind

theorem regular_combine {trees : List Tree} (regular : ∀ tree ∈ trees, Regular tree) :
    ∀ tree ∈ combine trees, Regular tree := by
  match trees with
  | [] => exact regular_merge regular
  | [tree] => exact regular
  | first :: second :: rest => exact regular_merge regular

end Tree

namespace Node

open Exemplar.Tree

/-- The tree of a node is regular. -/
theorem regular_tree (node : Node) : Regular node.tree := by
  induction node using parts_induction with
  | primitive kind => exact .primitive kind
  | array items ih =>
    apply Regular.array (nodup_merge _)
    exact regular_merge (forall_treesOfItems.mpr ih)
  | object members ih =>
    have each := forall_fieldsOfMembers.mpr ih
    apply Regular.object <;> intro field hf <;> obtain ⟨m, hm, rfl⟩ := mem_fieldsOfMembers.mp hf
    · exact sorted_singleton _
    · exact List.cons_ne_nil _ _
    · exact each _ hf

end Node

/-! ## Shapes of regular trees -/

namespace Key

open Exemplar.Tree (toLeaf)

/-- What a store keeps for a tree unfolds to the tree. -/
theorem treeOfComposite_of_composite? {tree : Tree} {shape : Composite Key}
    (kept : tree.composite? = some shape) : treeOfComposite shape = tree := by
  have same := Tree.treeOfLeaf_toLeaf tree
  cases tree with
  | primitive kind => cases kept
  | array elements => cases kept; exact same
  | object fields => cases kept; exact same

end Key

namespace Session

variable {session : Session} {trees : List Tree} {inferred : Inferred}

/-- The root of a session is what a store keeps for a tree, the only alternative of the samples. -/
theorem Sound.root_eq (sound : session.Sound trees) (solved : session.solve = .ok inferred) :
    ∃ tree shape, Tree.combine trees = [tree] ∧ tree.composite? = some shape ∧
      inferred.root = .address shape := by
  obtain ⟨_, there, alone⟩ := sound.solve solved
  obtain ⟨kept, _, root⟩ := Store.contains_iff.mp there
  have container : inferred.root.tree.kind? = none := by
    rw [root, Key.tree_address]
    cases kept <;> rfl
  obtain ⟨shape, same⟩ := Tree.exists_composite container
  obtain ⟨_, solved', _⟩ := sound.solves alone same
  cases solved.symm.trans solved'
  exact ⟨_, shape, alone, same, rfl⟩

end Session

end Exemplar
