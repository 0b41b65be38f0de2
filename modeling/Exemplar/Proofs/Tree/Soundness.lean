import Exemplar.Proofs.Merge.Acceptance
import Exemplar.Proofs.Tree.Merging

/-!
# What merging keeps

A merge accepts whatever one of its inputs accepted, if the objects that it
merges have distinct names and no nullable field. It never looks into arrays, so
this only concerns objects that are met without entering one.
-/

namespace Exemplar

namespace Tree

/-- Every object that is met without entering an array satisfies a condition. -/
inductive Surface (p : List (Member (List Tree)) → Prop) : Tree → Prop
  | primitive (kind : Kind) : Surface p (.primitive kind)
  | array (elements : List Tree) : Surface p (.array elements)
  | object {fields : List (Member (List Tree))} (holds : p fields)
      (each : ∀ field ∈ fields, ∀ tree ∈ field.type, Surface p tree) : Surface p (.object fields)

/-- Fields with distinct names, none of which is nullable. -/
def Plain (fields : List (Member (List Tree))) : Prop :=
  (fields.map (·.name)).Nodup ∧ ∀ field ∈ fields, field.nullable = false

theorem Surface.holds {p : List (Member (List Tree)) → Prop} {fields : List (Member (List Tree))}
    (surface : Surface p (.object fields)) : p fields := by
  cases surface with
  | object holds _ => exact holds

theorem Surface.each {p : List (Member (List Tree)) → Prop} {fields : List (Member (List Tree))}
    (surface : Surface p (.object fields)) {field : Member (List Tree)} (hf : field ∈ fields) :
    ∀ tree ∈ field.type, Surface p tree := by
  cases surface with
  | object _ each => exact each field hf

/-- Where names are distinct, a field is what is found under its name. -/
theorem field?_of_mem {fields : List (Member (List Tree))} (distinct : (fields.map (·.name)).Nodup)
    {field : Member (List Tree)} (hf : field ∈ fields) : field? field.name fields = some field :=
  List.find?_of_nodup_map distinct hf

theorem surface_candidates {p : List (Member (List Tree)) → Prop} {trees : List Tree}
    (surface : ∀ tree ∈ trees, Surface p tree) (name : String) :
    ∀ tree ∈ candidates name (objects trees), Surface p tree := by
  intro tree ht
  obtain ⟨fields, hf, field, found, ht⟩ := mem_candidates.mp ht
  exact (surface _ (mem_objects.mp hf)).each (of_field?_eq_some found).1 tree ht

/-- The leaf of a tree has the surface of the tree. -/
theorem Surface.toLeaf {p : List (Member (List Tree)) → Prop} {q : List (Field Key) → Prop}
    (implies : ∀ fields, p fields → q (fields.map toField)) {tree : Tree} (surface : Surface p tree) :
    tree.toLeaf.Surface q := by
  induction surface with
  | primitive kind => exact .primitive kind
  | array elements => exact .array _
  | object holds _ ih =>
    rw [Tree.toLeaf, toFields_eq_map]
    apply Leaf.Surface.object (implies _ holds)
    intro field' hf leaf hl
    obtain ⟨field, hm, rfl⟩ := List.mem_map.mp hf
    obtain ⟨tree, ht, rfl⟩ := List.mem_map.mp hl
    exact ih field hm tree ht

theorem Surface.toLeaves {p : List (Member (List Tree)) → Prop} {q : List (Field Key) → Prop}
    (implies : ∀ fields, p fields → q (fields.map toField)) {trees : List Tree}
    (surface : ∀ tree ∈ trees, Surface p tree) : ∀ leaf ∈ trees.map Tree.toLeaf, leaf.Surface q := by
  intro leaf hl
  obtain ⟨tree, ht, rfl⟩ := List.mem_map.mp hl
  exact (surface tree ht).toLeaf implies

/-- What one of several trees accepts, their merge accepts. -/
theorem acceptsAny_merge {trees : List Tree} (plain : ∀ tree ∈ trees, Surface Plain tree)
    {value : Json} (accepted : AcceptsAny trees value) : AcceptsAny (merge trees) value := by
  have distinct : ∀ leaf ∈ trees.map toLeaf, leaf.Surface Field.DistinctNames := by
    refine Surface.toLeaves ?_ plain
    intro fields holds
    rw [Field.DistinctNames, List.map_map]
    exact holds.1
  have unmarked : ∀ leaf ∈ trees.map toLeaf,
      leaf.Surface fun fields => ∀ field ∈ fields, field.nullable = false := by
    refine Surface.toLeaves ?_ plain
    intro fields holds
    exact List.forall_mem_map.mpr holds.2
  obtain ⟨tree, ht, accepted⟩ := acceptsAny_iff.mp accepted
  rw [← treeOfLeaf_toLeaf tree] at accepted
  have kept := Merge.keeps_unified distinct (Merge.keepsMarks_of_surface unmarked) tree.toLeaf
    (List.mem_map_of_mem ht) value accepted
  rwa [unified_toLeaf, Key.treesOfLeaves_eq_map, map_treeOfLeaf_toLeaf] at kept

end Tree

end Exemplar
