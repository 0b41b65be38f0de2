import Exemplar.Proofs.Store.Unfolding
import Exemplar.Proofs.Tree.Merging

/-!
# Unifying in a store refines merging of trees

Where every reference leads to an object, a leaf is determined by its tree: two
leaves are equal exactly if they unfold to the same tree. So dropping repeated
leaves is dropping repeated trees, and what `unify` returns unfolds, in the
store that it leaves, to the merge of what its input unfolded to before.
-/

namespace Exemplar

/-- Some references all lead to saved objects. -/
def Store.LeadsToObjects (store : Store) (refs : List Key) : Prop :=
  ∀ ref ∈ refs, ∃ fields, store.find? ref = some (.object fields)

theorem Store.LeadsToObjects.holds {store : Store} {refs : List Key}
    (lead : store.LeadsToObjects refs) : store.Holds refs := by
  intro ref hr
  obtain ⟨fields, found⟩ := lead ref hr
  obtain ⟨rfl, member⟩ := find?_eq_some_iff.mp found
  exact contains_iff.mpr ⟨_, member, rfl⟩

namespace Key

theorem toLeaf_treeOfLeaf_of_references {leaf : Leaf Key}
    (each : ∀ ref ∈ leaf.references, ref.tree.toLeaf = .object ref) :
    (treeOfLeaf leaf).toLeaf = leaf := by
  induction leaf using Leaf.inPlace_induction with
  | primitive kind => rfl
  | array elements ih =>
    have same : (elements.map treeOfLeaf).map Tree.toLeaf = elements := by
      rw [List.map_map]
      refine (List.map_congr_left fun leaf hl => ?_).trans (List.map_id _)
      exact ih leaf hl fun ref hr => each ref (Leaf.mem_referencesOfAll.mpr ⟨leaf, hl, hr⟩)
    rw [treeOfLeaf, Tree.toLeaf, treesOfLeaves_eq_map, Tree.toLeaves_eq_map, same]
  | object ref => exact each ref List.mem_cons_self

theorem toLeaf_treeOfLeaf_of_referencesOfAll {leaves : List (Leaf Key)}
    (each : ∀ ref ∈ Leaf.referencesOfAll leaves, ref.tree.toLeaf = .object ref) :
    (leaves.map treeOfLeaf).map Tree.toLeaf = leaves := by
  rw [List.map_map]
  refine (List.map_congr_left fun leaf hl => ?_).trans (List.map_id _)
  refine toLeaf_treeOfLeaf_of_references fun ref hr => each ref ?_
  exact Leaf.mem_referencesOfAll.mpr ⟨leaf, hl, hr⟩

theorem toFields_treesOfFields_of_references {fields : List (Field Key)}
    (each : ∀ ref ∈ Field.referencesOfAll fields, ref.tree.toLeaf = .object ref) :
    Tree.toFields (treesOfFields fields) = fields := by
  rw [treesOfFields_eq_map, Tree.toFields_eq_map, List.map_map]
  refine (List.map_congr_left fun field hf => ?_).trans (List.map_id _)
  have types := toLeaf_treeOfLeaf_of_referencesOfAll fun ref hr =>
    each ref (List.mem_flatMap.mpr ⟨field, hf, hr⟩)
  rw [Function.comp, treeOfField, Tree.toField, types, id]

end Key

namespace Store

variable {store : Store}

/-- A key of a saved object is found again from its tree. -/
theorem toLeaf_tree (objects : ∀ shape ∈ store.shapes, store.LeadsToObjects shape.references)
    {ref : Key} (lead : store.LeadsToObjects [ref]) : ref.tree.toLeaf = .object ref := by
  induction n : ref.depth using Nat.strongRecOn generalizing ref with
  | ind n ih =>
    obtain ⟨fields, found⟩ := lead ref List.mem_cons_self
    obtain ⟨rfl, member⟩ := find?_eq_some_iff.mp found
    have same : Tree.toFields (Key.treesOfFields fields) = fields := by
      refine Key.toFields_treesOfFields_of_references ?_
      intro inner hi
      have below : inner.depth < (Key.address (.object fields)).depth :=
        Key.depth_lt_of_mem_references hi
      refine ih inner.depth (n ▸ below) (fun other ho => ?_) rfl
      exact List.mem_singleton.mp ho ▸ objects _ member inner hi
    rw [Key.tree_address, Key.treeOfComposite, Tree.toLeaf, same]

/-- Unifying refines merging: what it returns unfolds to the merge of what its input unfolds to. -/
theorem unify_unfolds_to_merge (ordered : store.Ordered)
    (objects : ∀ shape ∈ store.shapes, store.LeadsToObjects shape.references)
    (leaves : List (Leaf Key)) (lead : store.LeadsToObjects (Leaf.referencesOfAll leaves)) :
    ∃ leaves' after trees, (unify leaves).run store = (.ok leaves', after) ∧
      store.unfoldAll leaves = some trees ∧ after.unfoldAll leaves' = some (Tree.merge trees) := by
  have inPlace : (leaves.map Key.treeOfLeaf).map Tree.toLeaf = leaves := by
    refine Key.toLeaf_treeOfLeaf_of_referencesOfAll ?_
    intro ref hr
    refine toLeaf_tree objects ?_
    intro other ho
    exact List.mem_singleton.mp ho ▸ lead ref hr
  obtain ⟨after, ran, _, ordered', there⟩ := Merge.comesTo_unified leaves store ordered lead.holds
  have merged : Merge.unified leaves = (Tree.merge (leaves.map Key.treeOfLeaf)).map Tree.toLeaf := by
    rw [← Tree.unified_toLeaf, inPlace]
  refine ⟨_, after, leaves.map Key.treeOfLeaf, ran, unfoldAll_of_holds ordered lead.holds, ?_⟩
  rw [unfoldAll_of_holds ordered' (there _ rfl), merged, Tree.map_treeOfLeaf_toLeaf]

/-- Two objects with different keys, one of which holds the other in an array. -/
theorem unify_of_nested_objects :
    let inner : List (Field Key) := [⟨"x", [.primitive .number], false⟩]
    let outer : List (Field Key) :=
      [⟨"list", [.array [.object (.address (.object inner)), .primitive .null]], false⟩]
    let store := (empty.insert (.object inner)).insert (.object outer)
    let leaves : List (Leaf Key) :=
      [.object (.address (.object outer)), .primitive .string, .object (.address (.object inner))]
    store.Ordered ∧ (∀ shape ∈ store.shapes, store.LeadsToObjects shape.references) ∧
      store.LeadsToObjects (Leaf.referencesOfAll leaves) ∧
        ∃ leaves' after trees, (unify leaves).run store = (.ok leaves', after) ∧
          store.unfoldAll leaves = some trees ∧ after.unfoldAll leaves' = some (Tree.merge trees) := by
  intro inner outer store leaves
  have ordered : store.Ordered := ordered_insert_insert rfl fun _ => List.mem_singleton.mp
  have first : store.find? (.address (.object inner)) = some (.object inner) :=
    find?_insert_of_find? _ (find?_insert_self _ _)
  have second : store.find? (.address (.object outer)) = some (.object outer) :=
    find?_insert_self _ _
  have objects : ∀ shape ∈ store.shapes, store.LeadsToObjects shape.references := by
    intro shape hs ref hr
    rcases mem_insert.mp hs with hs | rfl
    · rcases mem_insert.mp hs with hs | rfl
      · cases hs
      · cases hr
    · rw [List.mem_singleton.mp hr]
      exact ⟨inner, first⟩
  have lead : store.LeadsToObjects (Leaf.referencesOfAll leaves) := by
    intro ref hr
    rcases List.mem_cons.mp hr with rfl | hr
    · exact ⟨outer, second⟩
    · rw [List.mem_singleton.mp hr]
      exact ⟨inner, first⟩
  exact ⟨ordered, objects, lead, unify_unfolds_to_merge ordered objects leaves lead⟩

end Store

end Exemplar
