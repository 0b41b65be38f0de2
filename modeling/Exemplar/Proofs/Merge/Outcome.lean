import Exemplar.Merge
import Exemplar.Proofs.Repetition
import Exemplar.Proofs.Store.Order

/-!
# What unifying comes to

Keys hold the content of shapes, so what unifying returns can be said without a
store: `Merge.unified` follows references into the keys themselves. In an ordered
store that has all references of its input, `unify` returns just that, and the
store keeps its shapes and its order.
-/

namespace Exemplar

/-- A leaf with its reference followed one step into the key. -/
def Leaf.shape : Leaf Key → Shape Key
  | .primitive kind => .primitive kind
  | .array elements => .array elements
  | .object ref => ref.shape.toShape

def Shape.references {κ : Type} : Shape κ → List κ
  | .primitive _ => []
  | .array elements => Leaf.referencesOfAll elements
  | .object fields => Field.referencesOfAll fields

theorem Composite.references_toShape (shape : Composite Key) :
    shape.toShape.references = shape.references := by
  cases shape <;> rfl

theorem Saving.runs_shapeOf {store : Store} {leaf : Leaf Key} (ordered : store.Ordered)
    (there : store.Holds leaf.references) :
    Runs Shape.references (shapeOf leaf) store (.ok leaf.shape) := by
  have ran : (shapeOf leaf).run store = (store.shapeOf leaf, store) := rfl
  refine ⟨store, ?_, store.le_refl, ordered, ?_⟩
  · rw [ran]
    cases leaf with
    | primitive kind => rfl
    | array elements => rfl
    | object ref =>
      have found := Store.find?_of_contains (there ref List.mem_cons_self)
      simp only [Store.shapeOf, Store.resolve, found]
      rfl
  · intro shape same
    cases same
    cases leaf with
    | primitive kind => exact Store.holds_nil
    | array elements => exact there
    | object ref =>
      have := ordered.holds_references_of_contains (there ref List.mem_cons_self)
      rwa [Leaf.shape, Composite.references_toShape]

namespace Merge

def mergedObject (unifyTypes : List (Leaf Key) → List (Leaf Key))
    (objects : List (List (Field Key))) : List (Field Key) :=
  (fieldNames objects).map fun name =>
    ⟨name, unifyTypes (candidates name objects), lacks name objects⟩

/-- The alternatives that some shapes merge into. -/
def alternatives (unifyTypes : List (Leaf Key) → List (Leaf Key)) (shapes : List (Shape Key)) :
    List (Leaf Key) :=
  let objects := shapes.filterMap (·.fields?)
  let arrays := shapes.filterMap (·.elements?)
  let kinds := shapes.filterMap (·.kind?)
  (if objects.isEmpty then []
    else [Leaf.object (.address (.object (mergedObject unifyTypes objects)))]) ++
    (if arrays.isEmpty then [] else [Leaf.array (pool arrays)]) ++
    kinds.eraseDups.map Leaf.primitive

/-- The alternatives that leaves unify into, where objects nest fewer than `levels` deep. -/
def unifiedWithin : (levels : Nat) → List (Leaf Key) → List (Leaf Key)
  | 0, _ => []
  | levels + 1, leaves => alternatives (unifiedWithin levels) (leaves.eraseDups.map Leaf.shape)

def unified (leaves : List (Leaf Key)) : List (Leaf Key) :=
  unifiedWithin (Key.depthOfLeaves leaves + 1) leaves

/-- One way to unify comes to another, in every ordered store that has the references. -/
def ComesTo (unifyTypes : List (Leaf Key) → Saving Fault (List (Leaf Key)))
    (result : List (Leaf Key) → List (Leaf Key)) : Prop :=
  ∀ leaves store, store.Ordered → store.Holds (Leaf.referencesOfAll leaves) →
    Saving.Runs Leaf.referencesOfAll (unifyTypes leaves) store (.ok (result leaves))

variable {unifyTypes : List (Leaf Key) → Saving Fault (List (Leaf Key))}
  {result : List (Leaf Key) → List (Leaf Key)} {store : Store}

theorem mem_candidates {leaf : Leaf Key} {name : String} {objects : List (List (Field Key))} :
    leaf ∈ candidates name objects ↔
      ∃ fields ∈ objects, ∃ field, field? name fields = some field ∧ leaf ∈ field.types := by
  simp only [candidates, List.mem_flatMap, List.mem_filterMap]
  constructor
  · rintro ⟨field, ⟨fields, hf, found⟩, hl⟩
    exact ⟨fields, hf, field, found, hl⟩
  · rintro ⟨fields, hf, field, found, hl⟩
    exact ⟨field, ⟨fields, hf, found⟩, hl⟩

/-- The alternatives of a field refer to what its object refers to. -/
theorem holds_candidates {objects : List (List (Field Key))}
    (there : ∀ fields ∈ objects, store.Holds (Field.referencesOfAll fields)) (name : String) :
    store.Holds (Leaf.referencesOfAll (candidates name objects)) := by
  intro ref hr
  obtain ⟨leaf, hl, hr⟩ := Leaf.mem_referencesOfAll.mp hr
  obtain ⟨fields, hf, field, found, hl⟩ := mem_candidates.mp hl
  refine there fields hf ref (List.mem_flatMap.mpr ⟨field, List.mem_of_find?_eq_some found, ?_⟩)
  exact Leaf.mem_referencesOfAll.mpr ⟨leaf, hl, hr⟩

theorem runs_objectsWith (comes : ComesTo unifyTypes result) {objects : List (List (Field Key))}
    (ordered : store.Ordered)
    (there : ∀ fields ∈ objects, store.Holds (Field.referencesOfAll fields)) :
    Saving.Runs Leaf.references (objectsWith unifyTypes objects) store
      (.ok (.object (.address (.object (mergedObject result objects))))) := by
  have fields : Saving.Runs Field.referencesOfAll
      ((fieldNames objects).mapM fun name => do
        let types ← unifyTypes (candidates name objects)
        return ⟨name, types, lacks name objects⟩)
      store (.ok (mergedObject result objects)) := by
    refine Saving.runs_mapM _ ordered ?_
    intro name _ after le ordered'
    have types := comes (candidates name objects) after ordered'
      ((holds_candidates there name).of_le le)
    exact types.andThen fun _ _ ordered'' there' => Saving.runs_pure ordered'' there'
  exact fields.andThen fun _ _ ordered' there' => Saving.runs_saveObject ordered' there'

theorem holds_pool {arrays : List (List (Leaf Key))}
    (there : ∀ elements ∈ arrays, store.Holds (Leaf.referencesOfAll elements)) :
    store.Holds (Leaf.referencesOfAll (pool arrays)) := by
  intro ref hr
  obtain ⟨leaf, hl, hr⟩ := Leaf.mem_referencesOfAll.mp hr
  obtain ⟨elements, he, hl⟩ := List.mem_flatten.mp (List.mem_eraseDups.mp hl)
  exact there elements he ref (Leaf.mem_referencesOfAll.mpr ⟨leaf, hl, hr⟩)

theorem holds_primitives (kinds : List Kind) :
    store.Holds (Leaf.referencesOfAll (kinds.map Leaf.primitive)) := by
  intro ref hr
  obtain ⟨leaf, hl, hr⟩ := Leaf.mem_referencesOfAll.mp hr
  obtain ⟨kind, _, rfl⟩ := List.mem_map.mp hl
  cases hr

/-- The objects among some shapes refer to what the shapes refer to. -/
theorem holds_objects {shapes : List (Shape Key)}
    (there : ∀ shape ∈ shapes, store.Holds shape.references) :
    ∀ fields ∈ shapes.filterMap (·.fields?), store.Holds (Field.referencesOfAll fields) := by
  intro fields hf
  obtain ⟨shape, hs, found⟩ := List.mem_filterMap.mp hf
  cases shape <;> cases found
  exact there _ hs

theorem runs_shapesWith (comes : ComesTo unifyTypes result) {shapes : List (Shape Key)}
    (ordered : store.Ordered) (there : ∀ shape ∈ shapes, store.Holds shape.references) :
    Saving.Runs Leaf.referencesOfAll (shapesWith unifyTypes shapes) store
      (.ok (alternatives result shapes)) := by
  have objects := holds_objects there
  have arrays : ∀ elements ∈ shapes.filterMap (·.elements?),
      store.Holds (Leaf.referencesOfAll elements) := by
    intro elements he
    obtain ⟨shape, hs, found⟩ := List.mem_filterMap.mp he
    cases shape <;> cases found
    exact there _ hs
  have finish : ∀ merged after, store ≤ after → after.Holds (Leaf.referencesOfAll merged) →
      after.Holds (Leaf.referencesOfAll (merged ++
        (if (shapes.filterMap (·.elements?)).isEmpty then []
          else [.array (pool (shapes.filterMap (·.elements?)))]) ++
        (shapes.filterMap (·.kind?)).eraseDups.map .primitive)) := by
    intro merged after le there'
    rw [Leaf.referencesOfAll_append, Leaf.referencesOfAll_append, Store.holds_append, Store.holds_append]
    refine ⟨⟨there', ?_⟩, holds_primitives _⟩
    split
    · exact Store.holds_nil
    · have := (holds_pool arrays).of_le le
      simpa [Leaf.referencesOfAll, Leaf.references] using this
  rw [shapesWith, alternatives]
  dsimp only
  split
  · have nothing : Saving.Runs Leaf.referencesOfAll (pure [] : Saving Fault _) store (.ok []) :=
      Saving.runs_pure ordered Store.holds_nil
    refine nothing.andThen ?_
    intro after le ordered' there'
    exact Saving.runs_pure ordered' (finish [] after le there')
  · have merged : Saving.Runs Leaf.referencesOfAll
        (List.singleton <$> objectsWith unifyTypes (shapes.filterMap (·.fields?))) store
        (.ok [.object (.address (.object (mergedObject result (shapes.filterMap (·.fields?)))))]) := by
      refine (runs_objectsWith comes ordered objects).map ?_
      simp [List.singleton, Leaf.referencesOfAll]
    refine merged.andThen ?_
    intro after le ordered' there'
    exact Saving.runs_pure ordered' (finish _ after le there')

/-- To follow the references of distinct leaves needs what the leaves refer to. -/
theorem runs_shapesOf {leaves : List (Leaf Key)} (ordered : store.Ordered)
    (there : store.Holds (Leaf.referencesOfAll leaves)) :
    Saving.Runs (·.flatMap Shape.references) (leaves.eraseDups.mapM Saving.shapeOf) store
      (.ok (leaves.eraseDups.map Leaf.shape)) := by
  refine Saving.runs_mapM _ ordered ?_
  intro leaf hl after le ordered'
  refine Saving.runs_shapeOf ordered' ((there.of_subset fun ref hr => ?_).of_le le)
  exact Leaf.mem_referencesOfAll.mpr ⟨leaf, List.mem_eraseDups.mp hl, hr⟩

theorem holds_references_of_mem {shapes : List (Shape Key)}
    (there : store.Holds (shapes.flatMap Shape.references)) :
    ∀ shape ∈ shapes, store.Holds shape.references := by
  intro shape hs
  exact there.of_subset fun ref hr => List.mem_flatMap.mpr ⟨shape, hs, hr⟩

theorem comesTo_unifiedWithin (levels : Nat) :
    ComesTo (leavesWithin levels) (unifiedWithin levels) := by
  induction levels with
  | zero =>
    intro leaves store ordered _
    exact Saving.runs_pure ordered Store.holds_nil
  | succ levels ih =>
    intro leaves store ordered there
    refine (runs_shapesOf ordered there).andThen ?_
    intro after _ ordered' there'
    exact runs_shapesWith ih ordered' (holds_references_of_mem there')

/-- Unifying leaves comes to their alternatives. -/
theorem comesTo_unified : ComesTo unify unified :=
  fun leaves => comesTo_unifiedWithin (Key.depthOfLeaves leaves + 1) leaves

end Merge

end Exemplar
