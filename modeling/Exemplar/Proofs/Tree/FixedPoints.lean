import Exemplar.Proofs.Tree.Soundness

/-!
# What merging leaves alone

The alternatives of a merge are distinct. So an array that holds a merge is
merged with nothing else into itself, and so is a primitive, and an object with
plain fields whose alternatives merge into themselves.

Containers merge into containers: one for the objects among them, if there are
any, and one for the arrays.
-/

namespace Exemplar

namespace Tree

variable {trees : List Tree}

theorem kinds_of_containers (containers : ∀ tree ∈ trees, tree.kind? = none) : kinds trees = [] := by
  rw [kinds, List.filterMap_eq_nil_iff.mpr containers]
  rfl

/-- No alternative of a merge is there twice. -/
theorem nodup_merge (trees : List Tree) : (merge trees).Nodup := by
  have primitives : ((kinds trees.eraseDups).map primitive).Nodup := by
    refine List.Nodup.map ?_ (List.nodup_eraseDups _)
    intro kind kind' same
    exact Tree.primitive.inj same
  rw [merge_eq]
  by_cases ho : objects trees.eraseDups = [] <;> by_cases ha : arrays trees.eraseDups = [] <;>
    simp [ho, ha, primitives]

/-! ## Trees that merge into themselves -/

/-- A tree alone has no repetition to drop. -/
theorem merge_singleton (tree : Tree) :
    merge [tree] =
      (if objects [tree] = [] then [] else [object (mergedFields (objects [tree]))]) ++
      (if arrays [tree] = [] then [] else [array (arrays [tree]).flatten.eraseDups]) ++
      (kinds [tree]).map primitive := by
  rw [merge_eq, (List.nodup_singleton tree).eraseDups_eq]

theorem merge_primitive (kind : Kind) : merge [primitive kind] = [primitive kind] := by
  have alone := (List.nodup_singleton kind).eraseDups_eq
  simp [merge_singleton, objects, arrays, kinds, fields?, elements?, kind?, alone]

theorem merge_array {elements : List Tree} (distinct : elements.Nodup) :
    merge [array elements] = [array elements] := by
  have none : kinds [array elements] = [] := kinds_of_containers (by simp [kind?])
  simp [merge_singleton, objects, arrays, fields?, elements?, none, distinct.eraseDups_eq]

/-- An object alone keeps its fields, if each keeps its alternatives. -/
theorem mergedFields_singleton {fields : List (Member (List Tree))} (plain : Plain fields)
    (kept : ∀ field ∈ fields, merge field.type = field.type) : mergedFields [fields] = fields := by
  obtain ⟨distinct, required⟩ := plain
  have names : fieldNames [fields] = fields.map (·.name) := by
    simp [fieldNames, distinct.eraseDups_eq]
  have same : ∀ field ∈ fields, (⟨field.name, merge (candidates field.name [fields]),
      lacks field.name [fields]⟩ : Member (List Tree)) = field := by
    intro field hf
    have types : candidates field.name [fields] = field.type := by
      simp [candidates, field?_of_mem distinct hf]
    have present : lacks field.name [fields] = field.nullable := by
      have named : field.name ∈ fields.map (·.name) := List.mem_map_of_mem hf
      rw [required field hf]
      simpa [lacks] using named
    rw [types, present, kept field hf]
  rw [mergedFields, names, List.map_map]
  exact (List.map_congr_left same).trans (List.map_id _)

theorem merge_object {fields : List (Member (List Tree))} (plain : Plain fields)
    (kept : ∀ field ∈ fields, merge field.type = field.type) :
    merge [object fields] = [object fields] := by
  have none : kinds [object fields] = [] := kinds_of_containers (by simp [kind?])
  simp [merge_singleton, objects, arrays, fields?, elements?, none,
    mergedFields_singleton plain kept]

/-! ## Containers -/

/-- Containers merge into containers. -/
theorem containers_merge (containers : ∀ tree ∈ trees, tree.kind? = none) :
    ∀ tree ∈ merge trees, tree.kind? = none := by
  intro tree ht
  rcases mem_merge.mp ht with ⟨_, rfl⟩ | ⟨_, rfl⟩ | ⟨kind, hk, rfl⟩
  · rfl
  · rfl
  · exact containers _ (List.mem_eraseDups.mp (mem_kinds.mp hk))

theorem objects_eraseDups_eq_nil : objects trees.eraseDups = [] ↔ objects trees = [] := by
  simp only [objects, List.filterMap_eq_nil_iff, List.mem_eraseDups]

theorem arrays_eraseDups_eq_nil : arrays trees.eraseDups = [] ↔ arrays trees = [] := by
  simp only [arrays, List.filterMap_eq_nil_iff, List.mem_eraseDups]

/-- Containers merge into one object, if there is one among them, and one array likewise. -/
theorem length_merge_of_containers (containers : ∀ tree ∈ trees, tree.kind? = none) :
    (merge trees).length =
      (if objects trees = [] then 0 else 1) + (if arrays trees = [] then 0 else 1) := by
  have primitives : kinds trees.eraseDups = [] := by
    refine kinds_of_containers fun tree ht => ?_
    exact containers tree (List.mem_eraseDups.mp ht)
  rw [merge_eq, primitives]
  simp only [objects_eraseDups_eq_nil, arrays_eraseDups_eq_nil]
  by_cases ho : objects trees = [] <;> by_cases ha : arrays trees = [] <;> simp [ho, ha]

end Tree

end Exemplar
