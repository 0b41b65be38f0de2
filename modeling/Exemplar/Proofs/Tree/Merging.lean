import Exemplar.Proofs.Merge.Outcome
import Exemplar.Proofs.Tree

/-!
# Merging trees

`Tree.merge` merges alternatives without a store and without keys. Repetitions
are dropped by equality of trees. Unifying the leaves of trees comes to the
leaves of their merge: keys and references are a way to write trees down, and
the merge does not see them.
-/

namespace Exemplar

namespace Tree

def kind? : Tree → Option Kind
  | .primitive kind => some kind
  | _ => none

def elements? : Tree → Option (List Tree)
  | .array elements => some elements
  | _ => none

def fields? : Tree → Option (List (Member (List Tree)))
  | .object fields => some fields
  | _ => none

def objects (trees : List Tree) : List (List (Member (List Tree))) := trees.filterMap fields?

def arrays (trees : List Tree) : List (List Tree) := trees.filterMap elements?

def kinds (trees : List Tree) : List Kind := (trees.filterMap kind?).eraseDups

def fieldNames (objects : List (List (Member (List Tree)))) : List String :=
  (objects.flatten.map (·.name)).eraseDups

def field? (name : String) (fields : List (Member (List Tree))) : Option (Member (List Tree)) :=
  fields.find? (·.name = name)

def candidates (name : String) (objects : List (List (Member (List Tree)))) : List Tree :=
  (objects.filterMap (field? name)).flatMap (·.type)

def lacks (name : String) (objects : List (List (Member (List Tree)))) : Bool :=
  objects.any fun fields => name ∉ fields.map (·.name)

theorem mem_objects {fields : List (Member (List Tree))} {trees : List Tree} :
    fields ∈ objects trees ↔ Tree.object fields ∈ trees := by
  rw [objects, List.mem_filterMap]
  constructor
  · rintro ⟨tree, ht, found⟩
    cases tree <;> cases found
    exact ht
  · intro h
    exact ⟨_, h, rfl⟩

theorem mem_arrays {elements : List Tree} {trees : List Tree} :
    elements ∈ arrays trees ↔ Tree.array elements ∈ trees := by
  rw [arrays, List.mem_filterMap]
  constructor
  · rintro ⟨tree, ht, found⟩
    cases tree <;> cases found
    exact ht
  · intro h
    exact ⟨_, h, rfl⟩

theorem mem_kinds {kind : Kind} {trees : List Tree} :
    kind ∈ kinds trees ↔ Tree.primitive kind ∈ trees := by
  rw [kinds, List.mem_eraseDups, List.mem_filterMap]
  constructor
  · rintro ⟨tree, ht, found⟩
    cases tree <;> cases found
    exact ht
  · intro h
    exact ⟨_, h, rfl⟩

theorem mem_fieldNames {name : String} {objects : List (List (Member (List Tree)))} :
    name ∈ fieldNames objects ↔ ∃ fields ∈ objects, ∃ field ∈ fields, field.name = name := by
  simp only [fieldNames, List.mem_eraseDups, List.mem_map, List.mem_flatten]
  constructor
  · rintro ⟨field, ⟨fields, hf, hm⟩, same⟩
    exact ⟨fields, hf, field, hm, same⟩
  · rintro ⟨fields, hf, field, hm, same⟩
    exact ⟨field, ⟨fields, hf, hm⟩, same⟩

theorem of_field?_eq_some {name : String} {fields : List (Member (List Tree))}
    {field : Member (List Tree)} (found : field? name fields = some field) :
    field ∈ fields ∧ field.name = name := by
  have same := List.find?_some found
  exact ⟨List.mem_of_find?_eq_some found, of_decide_eq_true same⟩

theorem mem_candidates {tree : Tree} {name : String} {objects : List (List (Member (List Tree)))} :
    tree ∈ candidates name objects ↔
      ∃ fields ∈ objects, ∃ field, field? name fields = some field ∧ tree ∈ field.type := by
  simp only [candidates, List.mem_flatMap, List.mem_filterMap]
  constructor
  · rintro ⟨field, ⟨fields, hf, found⟩, ht⟩
    exact ⟨fields, hf, field, found, ht⟩
  · rintro ⟨fields, hf, field, found, ht⟩
    exact ⟨field, ⟨fields, hf, found⟩, ht⟩

/-- The alternatives of a field nest less deep than the objects that have it. -/
theorem depthOfAll_candidates_lt {trees : List Tree} (present : objects trees ≠ []) (name : String) :
    depthOfAll (candidates name (objects trees)) < depthOfAll trees := by
  obtain ⟨fields, rest, split⟩ := List.exists_cons_of_ne_nil present
  have within : ∀ fields ∈ objects trees, depthOfFields fields < depthOfAll trees := by
    intro fields hf
    exact depthOfAll_le_iff.mp (Nat.le_refl _) (.object fields) (mem_objects.mp hf)
  have positive := within fields (split ▸ List.mem_cons_self)
  refine Nat.lt_of_le_pred (by omega) (depthOfAll_le_iff.mpr fun tree ht => ?_)
  obtain ⟨fields, hf, field, found, ht⟩ := mem_candidates.mp ht
  have inField := depthOfAll_le_iff.mp (Nat.le_refl _) tree ht
  have inObject := depthOfFields_le_iff.mp (Nat.le_refl _) field (List.mem_of_find?_eq_some found)
  have := within fields hf
  exact Nat.le_pred_of_lt (by omega)

theorem depthOfAll_eraseDups_le (trees : List Tree) :
    depthOfAll trees.eraseDups ≤ depthOfAll trees := by
  refine depthOfAll_le_iff.mpr ?_
  intro tree ht
  exact depthOfAll_le_iff.mp (Nat.le_refl _) tree (List.mem_eraseDups.mp ht)

/-- Merging a field looks at alternatives that nest less deep than what is merged. -/
theorem depthOfAll_candidates_eraseDups_lt {trees : List Tree}
    (present : objects trees.eraseDups ≠ []) (name : String) :
    depthOfAll (candidates name (objects trees.eraseDups)) < depthOfAll trees :=
  Nat.lt_of_lt_of_le (depthOfAll_candidates_lt present name) (depthOfAll_eraseDups_le trees)

/-- Merge alternatives: one object with all fields, one array with all alternatives, and the
primitive kinds. -/
def merge (trees : List Tree) : List Tree :=
  let distinct := trees.eraseDups
  (if _ : objects distinct = [] then []
    else [object ((fieldNames (objects distinct)).map fun name =>
      ⟨name, merge (candidates name (objects distinct)), lacks name (objects distinct)⟩)]) ++
    (if arrays distinct = [] then [] else [array (arrays distinct).flatten.eraseDups]) ++
    (kinds distinct).map primitive
termination_by depthOfAll trees
decreasing_by exact depthOfAll_candidates_eraseDups_lt ‹_› name

/-- Induction on a merge: what is merged under each name was merged before. -/
theorem merge_induction {P : List Tree → Prop}
    (step : ∀ trees, (objects trees.eraseDups ≠ [] →
      ∀ name, P (candidates name (objects trees.eraseDups))) → P trees) (trees : List Tree) :
    P trees := by
  induction levels_eq : depthOfAll trees using Nat.strongRecOn generalizing trees with
  | ind levels ih =>
    refine step trees fun present name => ih _ ?_ _ rfl
    exact levels_eq ▸ depthOfAll_candidates_eraseDups_lt present name

def mergedFields (objects : List (List (Member (List Tree)))) : List (Member (List Tree)) :=
  (fieldNames objects).map fun name => ⟨name, merge (candidates name objects), lacks name objects⟩

theorem merge_eq (trees : List Tree) :
    merge trees =
      (if objects trees.eraseDups = [] then [] else [object (mergedFields (objects trees.eraseDups))]) ++
      (if arrays trees.eraseDups = [] then []
        else [array (arrays trees.eraseDups).flatten.eraseDups]) ++
      (kinds trees.eraseDups).map primitive := by
  rw [merge]
  rfl

/-- The alternatives of a merge: an object, an array and primitives, each if there is one. -/
theorem mem_merge {tree : Tree} {trees : List Tree} :
    tree ∈ merge trees ↔
      objects trees.eraseDups ≠ [] ∧ tree = object (mergedFields (objects trees.eraseDups)) ∨
      arrays trees.eraseDups ≠ [] ∧ tree = array (arrays trees.eraseDups).flatten.eraseDups ∨
      ∃ kind ∈ kinds trees.eraseDups, primitive kind = tree := by
  rw [merge_eq, List.mem_append, List.mem_append, List.mem_map, or_assoc]
  by_cases ho : objects trees.eraseDups = [] <;> by_cases ha : arrays trees.eraseDups = [] <;>
    simp [ho, ha]

/-! ## The leaves of a merge -/

theorem fields?_shape_toLeaf (tree : Tree) :
    tree.toLeaf.shape.fields? = tree.fields?.map (·.map toField) := by
  cases tree with
  | primitive kind => rfl
  | array elements => rfl
  | object fields => exact congrArg some (toFields_eq_map fields)

theorem elements?_shape_toLeaf (tree : Tree) :
    tree.toLeaf.shape.elements? = tree.elements?.map (·.map toLeaf) := by
  cases tree with
  | primitive kind => rfl
  | array elements => exact congrArg some (toLeaves_eq_map elements)
  | object fields => rfl

theorem kind?_shape_toLeaf (tree : Tree) : tree.toLeaf.shape.kind? = tree.kind? := by
  cases tree <;> rfl

theorem fieldNames_toField (objects : List (List (Member (List Tree)))) :
    Merge.fieldNames (objects.map (·.map toField)) = fieldNames objects := by
  have names : (objects.map (·.map toField)).flatten.map Field.name = objects.flatten.map (·.name) := by
    rw [← List.map_flatten, List.map_map]
    rfl
  exact congrArg List.eraseDups names

theorem field?_toField (name : String) (fields : List (Member (List Tree))) :
    Merge.field? name (fields.map toField) = (field? name fields).map toField := by
  rw [Merge.field?, field?, List.find?_map]
  rfl

theorem candidates_toField (name : String) (objects : List (List (Member (List Tree)))) :
    Merge.candidates name (objects.map (·.map toField)) = (candidates name objects).map toLeaf := by
  have found : (objects.map (·.map toField)).filterMap (Merge.field? name) =
      (objects.filterMap (field? name)).map toField := by
    rw [List.filterMap_map, List.map_filterMap]
    exact List.filterMap_congr fun fields _ => field?_toField name fields
  rw [Merge.candidates, candidates, found, List.flatMap_map, List.map_flatMap]
  rfl

theorem isNone_field? (name : String) (fields : List (Member (List Tree))) :
    (field? name fields).isNone = decide (name ∉ fields.map (·.name)) := by
  rw [Bool.eq_iff_iff, Option.isNone_iff_eq_none, field?, List.find?_eq_none]
  simp

theorem lacks_toField (name : String) (objects : List (List (Member (List Tree)))) :
    Merge.lacks name (objects.map (·.map toField)) = lacks name objects := by
  rw [Merge.lacks, lacks, List.any_map]
  refine congrArg (objects.any ·) (funext fun fields => ?_)
  rw [Function.comp, field?_toField, Option.isNone_map, isNone_field?]

theorem pool_toLeaf (arrays : List (List Tree)) :
    pool (arrays.map (·.map toLeaf)) = arrays.flatten.eraseDups.map toLeaf := by
  rw [pool, ← List.map_flatten, List.eraseDups_map toLeaf_injective]

theorem objects_toLeaf (trees : List Tree) :
    ((trees.map toLeaf).map Leaf.shape).filterMap Shape.fields? =
      (objects trees).map (·.map toField) := by
  rw [List.map_map, List.filterMap_map, objects, List.map_filterMap]
  exact List.filterMap_congr fun tree _ => fields?_shape_toLeaf tree

theorem arrays_toLeaf (trees : List Tree) :
    ((trees.map toLeaf).map Leaf.shape).filterMap Shape.elements? =
      (arrays trees).map (·.map toLeaf) := by
  rw [List.map_map, List.filterMap_map, arrays, List.map_filterMap]
  exact List.filterMap_congr fun tree _ => elements?_shape_toLeaf tree

theorem primitives_toLeaf (trees : List Tree) :
    ((trees.map toLeaf).map Leaf.shape).filterMap Shape.kind? = trees.filterMap kind? := by
  rw [List.map_map, List.filterMap_map]
  exact List.filterMap_congr fun tree _ => kind?_shape_toLeaf tree

theorem unifiedWithin_toLeaf (levels : Nat) (trees : List Tree) (within : depthOfAll trees < levels) :
    Merge.unifiedWithin levels (trees.map toLeaf) = (merge trees).map toLeaf := by
  induction levels generalizing trees with
  | zero => omega
  | succ levels ih =>
    have depth := depthOfAll_eraseDups_le trees
    have merged : objects trees.eraseDups ≠ [] →
        Merge.mergedObject (Merge.unifiedWithin levels)
          ((objects trees.eraseDups).map (·.map toField)) =
        (mergedFields (objects trees.eraseDups)).map toField := by
      intro present
      rw [Merge.mergedObject, mergedFields, fieldNames_toField, List.map_map]
      refine List.map_congr_left ?_
      intro name _
      have below := depthOfAll_candidates_lt present name
      rw [candidates_toField, lacks_toField, ih _ (by omega)]
      rfl
    rw [Merge.unifiedWithin, List.eraseDups_map toLeaf_injective, Merge.alternatives, merge_eq,
      List.map_append, List.map_append]
    simp only [objects_toLeaf, arrays_toLeaf, primitives_toLeaf, pool_toLeaf]
    congr 1
    · congr 1
      · by_cases none : objects trees.eraseDups = []
        · simp [none]
        · simp [none, merged none, toLeaf, toFields_eq_map]
      · by_cases none : arrays trees.eraseDups = []
        · simp [none]
        · simp [none, toLeaf, toLeaves_eq_map]
    · rw [kinds, List.map_map]
      rfl

/-- Unifying the leaves of trees comes to the leaves of their merge. -/
theorem unified_toLeaf (trees : List Tree) :
    Merge.unified (trees.map toLeaf) = (merge trees).map toLeaf := by
  refine unifiedWithin_toLeaf _ trees ?_
  rw [← toLeaves_eq_map, depthOfLeaves_toLeaves]
  exact Nat.lt_succ_self _

end Tree

end Exemplar
