import Exemplar.Proofs.Inference.Soundness
import Exemplar.Proofs.Tree.FixedPoints

/-!
# Samples and the items of an array

Several samples are unified like the items of one array, and a single sample is
taken as it is. That is the same, because the tree of a value merges into itself.
So the samples have a root exactly when the array of them has one alternative
for its elements, and then it is that alternative.
-/

namespace Exemplar

namespace Node

open Exemplar.Tree

mutual

/-- The tree of a value with distinct keys merges into itself. -/
theorem merge_tree {value : Json} (distinct : value.DistinctKeys) :
    merge [value.node.tree] = [value.node.tree] := by
  match value with
  | .null => exact merge_primitive _
  | .boolean _ => exact merge_primitive _
  | .number _ => exact merge_primitive _
  | .string _ => exact merge_primitive _
  | .array items => exact merge_array (nodup_merge _)
  | .object members =>
    exact merge_object (plain_tree distinct).holds (merge_fieldsOfMembers distinct.2)

theorem merge_fieldsOfMembers {members : List (String × Json)}
    (distinct : Json.DistinctKeysOfMembers members) :
    ∀ field ∈ fieldsOfMembers (Json.nodesOfMembers members), merge field.type = field.type := by
  match members with
  | [] => simp [Json.nodesOfMembers, fieldsOfMembers]
  | (name, value) :: rest =>
    intro field hf
    rcases List.mem_cons.mp hf with rfl | hf
    · exact merge_tree distinct.1
    · exact merge_fieldsOfMembers distinct.2 field hf

end

end Node

/-- A single sample has the alternatives that it would have among several. -/
theorem Tree.combine_samples {samples : List Json} (distinct : ∀ value ∈ samples, value.DistinctKeys) :
    combine (samples.map (·.node.tree)) = merge (samples.map (·.node.tree)) := by
  match samples with
  | [] => rfl
  | [value] => exact (Node.merge_tree (distinct value List.mem_cons_self)).symm
  | first :: second :: rest => rfl

/-- The trees of containers are containers. -/
theorem Tree.containers_samples {samples : List Json}
    (containers : ∀ value ∈ samples, value.kind? = none) :
    ∀ tree ∈ samples.map (·.node.tree), tree.kind? = none := by
  intro tree ht
  obtain ⟨value, hv, rfl⟩ := List.mem_map.mp ht
  rw [Node.kind?_tree, Node.kind?_node]
  exact containers value hv

/-- If containers have one alternative, it is a container again. -/
theorem Tree.exists_composite_of_length_eq_one {trees : List Tree}
    (containers : ∀ tree ∈ trees, tree.kind? = none) (one : (combine trees).length = 1) :
    ∃ tree shape, combine trees = [tree] ∧ tree.composite? = some shape := by
  have combined : ∀ tree ∈ combine trees, tree.kind? = none := by
    match trees with
    | [] => exact containers_merge containers
    | [tree] => exact containers
    | first :: second :: rest => exact containers_merge containers
  obtain ⟨tree, alone⟩ := List.length_eq_one_iff.mp one
  obtain ⟨shape, same⟩ := exists_composite (combined tree (alone ▸ List.mem_singleton_self tree))
  exact ⟨tree, shape, alone, same⟩

theorem Json.nestingOfItems_le {items : List Json} {limit : Nat}
    (fits : ∀ item ∈ items, item.nesting ≤ limit) : nestingOfItems items ≤ limit := by
  induction items with
  | nil => exact Nat.zero_le limit
  | cons item rest ih =>
    refine Nat.max_le.mpr ⟨fits item List.mem_cons_self, ih fun item hi => ?_⟩
    exact fits item (List.mem_cons_of_mem _ hi)

theorem Json.nestingOfMembers_le {members : List (String × Json)} {limit : Nat}
    (fits : ∀ m ∈ members, m.2.nesting ≤ limit) : nestingOfMembers members ≤ limit := by
  induction members with
  | nil => exact Nat.zero_le limit
  | cons m rest ih =>
    refine Nat.max_le.mpr ⟨fits m List.mem_cons_self, ih fun m hm => ?_⟩
    exact fits m (List.mem_cons_of_mem _ hm)

/-- The leaf that an inferred root would have as an item: an array in place, or a reference to the
object. -/
def Inferred.HasLeaf (inferred : Inferred) : Leaf Key → Prop
  | .primitive _ => False
  | .array elements => inferred.store.resolve inferred.root = .ok (.array elements)
  | .object ref => ref = inferred.root ∧ ∃ fields, inferred.store.resolve ref = .ok (.object fields)

theorem Inferred.hasLeaf_of_composite {store : Store} {tree : Tree} {shape : Composite Key}
    (container : tree.composite? = some shape) (there : store.contains (.address shape) = true) :
    HasLeaf ⟨store, .address shape⟩ tree.toLeaf := by
  cases tree with
  | primitive kind => cases container
  | array elements =>
    cases container
    exact Store.resolve_address there
  | object fields =>
    cases container
    exact ⟨rfl, _, Store.resolve_address there⟩

namespace Session

variable {limit above : Nat} {values : List Json}

/-- An array of values, within the limit, has the merge of their trees as its alternatives. -/
theorem solve_array (fits : (Json.array values).nesting ≤ limit) :
    ∃ session whole, (start limit).observeAll [.array values] = .ok session ∧
      session.solve = .ok whole ∧ whole.store.resolve whole.root =
        .ok (.array ((Tree.merge (values.map (·.node.tree))).map Tree.toLeaf)) := by
  have accepted : [Json.array values].findSome? (refusal? limit) = none := by
    rw [List.findSome?_cons, refusal?_eq_none_iff.mpr ⟨rfl, fits⟩]
    rfl
  obtain ⟨session, observed, sound⟩ := start_observesAll accepted
  obtain ⟨store, solved, _, there⟩ := sound.solves rfl rfl
  have found := Store.resolve_address there
  rw [Node.treesOfItems_nodesOfItems, Tree.toLeaves_eq_map] at solved found
  exact ⟨session, _, observed, solved, found⟩

/-- Samples are solved exactly when the array of them has one alternative for its elements. That
alternative is then the root, and else the samples are refused with the number of alternatives. -/
theorem solve_iff_of_items (nonempty : values ≠ [])
    (containers : ∀ value ∈ values, value.kind? = none)
    (distinct : ∀ value ∈ values, value.DistinctKeys)
    (fits : ∀ value ∈ values, value.nesting ≤ limit) (room : limit < above) :
    ∃ together whole elements apart,
      (start above).observeAll [.array values] = .ok together ∧ together.solve = .ok whole ∧
      whole.store.resolve whole.root = .ok (.array elements) ∧
      (start limit).observeAll values = .ok apart ∧
      ((∃ inferred, apart.solve = .ok inferred) ↔ elements.length = 1) ∧
      (∀ inferred, apart.solve = .ok inferred → ∃ leaf, elements = [leaf] ∧ inferred.HasLeaf leaf) ∧
      (elements.length ≠ 1 → apart.solve = .error (.incompatible elements.length)) := by
  have nested : (Json.array values).nesting ≤ above :=
    Nat.le_trans (Nat.succ_le_succ (Json.nestingOfItems_le fits)) room
  have accepted : values.findSome? (refusal? limit) = none :=
    List.findSome?_eq_none_iff.mpr fun value hv =>
      refusal?_eq_none_iff.mpr ⟨containers value hv, fits value hv⟩
  obtain ⟨together, whole, observed, solved, found⟩ := solve_array nested
  obtain ⟨apart, observed', sound⟩ := start_observesAll accepted
  have union := Tree.combine_samples distinct
  refine ⟨together, whole, _, apart, observed, solved, found, observed', ?_⟩
  rw [List.length_map, ← union]
  by_cases one : (Tree.combine (values.map (·.node.tree))).length = 1
  · obtain ⟨tree, shape, alone, same⟩ :=
      Tree.exists_composite_of_length_eq_one (Tree.containers_samples containers) one
    obtain ⟨store, solved', _, there⟩ := sound.solves alone same
    refine ⟨iff_of_true ⟨_, solved'⟩ one, fun inferred again => ?_, absurd one⟩
    cases solved'.symm.trans again
    rw [alone, List.map_singleton]
    exact ⟨_, rfl, Inferred.hasLeaf_of_composite same there⟩
  · have present : values.map (·.node.tree) ≠ [] := List.map_eq_nil_iff.not.mpr nonempty
    have refused := sound.solve_incompatible present one
    have unsolved : ∀ inferred, apart.solve ≠ .ok inferred := by
      intro inferred solved
      cases refused.symm.trans solved
    refine ⟨iff_of_false (fun ⟨inferred, solved⟩ => unsolved inferred solved) one, ?_, fun _ => refused⟩
    exact fun inferred solved => absurd solved (unsolved inferred)

/-- Two objects, one of which lacks a key and nests as deep as the limit lets it. -/
theorem solve_iff_of_items_of_two_objects :
    let values : List Json :=
      [.object [("a", .array [.object [("b", .null)], .boolean true])],
        .object [("a", .array []), ("c", .string "x")]]
    values ≠ [] ∧ (∀ value ∈ values, value.kind? = none) ∧
      (∀ value ∈ values, value.DistinctKeys) ∧ (∀ value ∈ values, value.nesting ≤ 3) ∧
      ∃ together whole elements apart,
        (start 4).observeAll [.array values] = .ok together ∧ together.solve = .ok whole ∧
        whole.store.resolve whole.root = .ok (.array elements) ∧
        (start 3).observeAll values = .ok apart ∧
        ((∃ inferred, apart.solve = .ok inferred) ↔ elements.length = 1) ∧
        (∀ inferred, apart.solve = .ok inferred →
          ∃ leaf, elements = [leaf] ∧ inferred.HasLeaf leaf) ∧
        (elements.length ≠ 1 → apart.solve = .error (.incompatible elements.length)) := by
  intro values
  have nonempty : values ≠ [] := List.cons_ne_nil _ _
  have containers : ∀ value ∈ values, value.kind? = none := by simp [values, Json.kind?]
  have distinct : ∀ value ∈ values, value.DistinctKeys := by
    simp [values, Json.DistinctKeys, Json.DistinctKeysOfItems, Json.DistinctKeysOfMembers]
  have fits : ∀ value ∈ values, value.nesting ≤ 3 := by
    simp [values, Json.nesting, Json.nestingOfItems, Json.nestingOfMembers]
  exact ⟨nonempty, containers, distinct, fits,
    solve_iff_of_items nonempty containers distinct fits (Nat.lt_succ_self 3)⟩

end Session

end Exemplar
