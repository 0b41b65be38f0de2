import Exemplar.Proofs.Merge.Variation
import Exemplar.Proofs.Store.Unfolding

/-!
# How deep unifying descends

Unifying follows references one step, takes the alternatives of each field and
descends. The alternatives nest less deep than the leaves, and what is saved on
the way does not change what they lead to, so the descent ends, and any number
of levels above the depth of the leaves is enough. What comes out is as deep as
what went in, if the objects have distinct names; else it is at most as deep.
-/

namespace Exemplar

/-- Every object that is met without entering an array is under its address and satisfies a
condition. -/
inductive Leaf.Surface (p : List (Field Key) → Prop) : Leaf Key → Prop
  | primitive (kind : Kind) : Surface p (.primitive kind)
  | array (elements : List (Leaf Key)) : Surface p (.array elements)
  | saved (elements : List (Leaf Key)) : Surface p (.object (.address (.array elements)))
  | object {fields : List (Field Key)} (holds : p fields)
      (each : ∀ field ∈ fields, ∀ leaf ∈ field.types, Surface p leaf) :
      Surface p (.object (.address (.object fields)))

/-- An object in place of which the condition holds, on the surface of its fields as well. -/
def Field.Surface (p : List (Field Key) → Prop) (fields : List (Field Key)) : Prop :=
  p fields ∧ ∀ field ∈ fields, ∀ leaf ∈ field.types, leaf.Surface p

def Field.DistinctNames (fields : List (Field Key)) : Prop := (fields.map (·.name)).Nodup

def Key.depthOfShape : Shape Key → Nat
  | .primitive _ => 0
  | .array elements => depthOfLeaves elements + 1
  | .object fields => depthOfFields fields + 1

variable {p : List (Field Key) → Prop}

theorem Leaf.Surface.depthOfShape {leaf : Leaf Key} (surface : leaf.Surface p) :
    Key.depthOfShape leaf.shape = Key.depthOfLeaf leaf := by
  cases surface <;> rfl

theorem Leaf.Surface.fields {leaf : Leaf Key} (surface : leaf.Surface p) {fields : List (Field Key)}
    (found : leaf.shape.fields? = some fields) : Field.Surface p fields := by
  cases surface with
  | primitive kind => cases found
  | array elements => cases found
  | saved elements => cases found
  | object holds each =>
    cases found
    exact ⟨holds, each⟩

namespace Merge

open Key

theorem surface_candidates {objects : List (List (Field Key))}
    (surface : ∀ fields ∈ objects, Field.Surface p fields) (name : String) :
    ∀ leaf ∈ candidates name objects, leaf.Surface p := by
  intro leaf hl
  obtain ⟨fields, hf, field, found, hl⟩ := mem_candidates.mp hl
  exact (surface fields hf).2 field (List.mem_of_find?_eq_some found) leaf hl

/-- The objects that some leaves lead to. -/
theorem surface_objects {leaves : List (Leaf Key)} (surface : ∀ leaf ∈ leaves, leaf.Surface p) :
    ∀ fields ∈ (leaves.eraseDups.map Leaf.shape).filterMap (·.fields?), Field.Surface p fields := by
  intro fields hf
  obtain ⟨_, hs, found⟩ := List.mem_filterMap.mp hf
  obtain ⟨leaf, hl, rfl⟩ := List.mem_map.mp hs
  exact (surface leaf (List.mem_eraseDups.mp hl)).fields found

theorem depthOfLeaves_candidates_le {objects : List (List (Field Key))} {n : Nat}
    (within : ∀ fields ∈ objects, depthOfFields fields ≤ n) (name : String) :
    depthOfLeaves (candidates name objects) ≤ n := by
  rw [depthOfLeaves_le_iff]
  intro leaf hl
  obtain ⟨fields, hf, field, found, hl⟩ := mem_candidates.mp hl
  have inField := depthOfLeaf_le_of_mem hl
  have inObject := depthOfLeaves_le_of_mem (List.mem_of_find?_eq_some found)
  have := within fields hf
  omega

/-- The objects that leaves lead to nest less deep than the leaves, by the one that is entered. -/
theorem depthOfFields_lt {leaves : List (Leaf Key)} (surface : ∀ leaf ∈ leaves, leaf.Surface p) :
    ∀ fields ∈ (leaves.eraseDups.map Leaf.shape).filterMap (·.fields?),
      depthOfFields fields < depthOfLeaves leaves := by
  intro fields hf
  obtain ⟨_, hs, found⟩ := List.mem_filterMap.mp hf
  obtain ⟨leaf, hl, rfl⟩ := List.mem_map.mp hs
  have hl := List.mem_eraseDups.mp hl
  have same := (surface leaf hl).depthOfShape
  have below := depthOfLeaf_le_of_mem hl
  have entered : depthOfShape leaf.shape = depthOfFields fields + 1 := by
    cases shape : leaf.shape <;> rw [shape] at found <;> cases found
    rfl
  omega

/-- Merging a field descends to leaves that nest less deep. -/
theorem depthOfLeaves_candidates_lt {leaves : List (Leaf Key)}
    (surface : ∀ leaf ∈ leaves, leaf.Surface p) {name : String}
    (hn : name ∈ fieldNames ((leaves.eraseDups.map Leaf.shape).filterMap (·.fields?))) :
    depthOfLeaves (candidates name ((leaves.eraseDups.map Leaf.shape).filterMap (·.fields?))) <
      depthOfLeaves leaves := by
  have below := depthOfFields_lt surface
  have positive : 0 < depthOfLeaves leaves := by
    obtain ⟨field, hm, _⟩ := List.mem_map.mp (List.mem_eraseDups.mp hn)
    obtain ⟨fields, hf, _⟩ := List.mem_flatten.mp hm
    exact Nat.lt_of_le_of_lt (Nat.zero_le _) (below fields hf)
  refine Nat.lt_of_le_pred positive (depthOfLeaves_candidates_le ?_ name)
  intro fields hf
  exact Nat.le_pred_of_lt (below fields hf)

/-! ## The bound on the levels -/

variable {store : Store}

/-- A store in which every object satisfies a condition leads to such objects only. -/
theorem surface_of_holds (ordered : store.Ordered)
    (each : ∀ fields, Composite.object fields ∈ store.shapes → p fields) {leaf : Leaf Key}
    (there : store.Holds leaf.references) : leaf.Surface p := by
  induction n : depthOfLeaf leaf using Nat.strongRecOn generalizing leaf with
  | ind n ih =>
    cases leaf with
    | primitive kind => exact .primitive kind
    | array elements => exact .array elements
    | object ref =>
      obtain ⟨shape, member, rfl⟩ := Store.contains_iff.mp (there ref List.mem_cons_self)
      cases shape with
      | array elements => exact .saved elements
      | object fields =>
        apply Leaf.Surface.object (each fields member)
        intro field hf leaf hl
        have inField := depthOfLeaf_le_of_mem hl
        have inObject := depthOfLeaves_le_of_mem hf
        have entered : depthOfLeaf (.object (.address (.object fields))) = depthOfFields fields + 1 :=
          rfl
        refine ih (depthOfLeaf leaf) (by omega) ?_ rfl
        refine (ordered.holds_references member).of_subset ?_
        intro ref hr
        exact List.mem_flatMap.mpr ⟨field, hf, Leaf.mem_referencesOfAll.mpr ⟨leaf, hl, hr⟩⟩

theorem surface_of_holdsAll (ordered : store.Ordered)
    (each : ∀ fields, Composite.object fields ∈ store.shapes → p fields) {leaves : List (Leaf Key)}
    (there : store.Holds (Leaf.referencesOfAll leaves)) : ∀ leaf ∈ leaves, leaf.Surface p := by
  intro leaf hl
  refine surface_of_holds ordered each (there.of_subset ?_)
  intro ref hr
  exact Leaf.mem_referencesOfAll.mpr ⟨leaf, hl, hr⟩

/-- Every number of levels that exceeds the depth of the leaves does the same. -/
theorem run_leavesWithin_congr {levels levels' : Nat} {leaves : List (Leaf Key)}
    (ordered : store.Ordered) (there : store.Holds (Leaf.referencesOfAll leaves))
    (enough : depthOfLeaves leaves < levels) (enough' : depthOfLeaves leaves < levels') :
    (leavesWithin levels leaves).run store = (leavesWithin levels' leaves).run store := by
  induction levels generalizing levels' leaves store with
  | zero => omega
  | succ levels ih =>
    obtain ⟨levels', rfl⟩ := Nat.exists_eq_add_one_of_ne_zero (Nat.ne_zero_of_lt enough')
    have surface := surface_of_holdsAll (p := fun _ => True) ordered (fun _ _ => trivial) there
    rw [leavesWithin, leavesWithin]
    apply (runs_shapesOf ordered there).run_bind_congr rfl
    rintro _ after ⟨⟩ _ ordered' there'
    have held := holds_references_of_mem there'
    apply run_shapesBy_congr (comesTo_unifiedWithin levels) ordered' held
    intro name hn
    have below := depthOfLeaves_candidates_lt surface hn
    constructor
    · rfl
    · intro later le ordered''
      have held := (holds_candidates (holds_objects held) name).of_le le
      exact ih ordered'' held (by omega) (by omega)

theorem run_leavesWithin (ordered : store.Ordered) {leaves : List (Leaf Key)}
    (there : store.Holds (Leaf.referencesOfAll leaves)) {levels : Nat}
    (enough : depthOfLeaves leaves < levels) :
    (leavesWithin levels leaves).run store = (unify leaves).run store :=
  run_leavesWithin_congr ordered there enough (Nat.lt_succ_self _)

/-- Unifying follows the references of the distinct leaves and merges the shapes, which unifies the
alternatives of each field in turn. -/
theorem run_unify_eq (ordered : store.Ordered) {leaves : List (Leaf Key)}
    (there : store.Holds (Leaf.referencesOfAll leaves)) :
    (unify leaves).run store =
      (leaves.eraseDups.mapM Saving.shapeOf >>= mergeShapes).run store := by
  have surface := surface_of_holdsAll (p := fun _ => True) ordered (fun _ _ => trivial) there
  rw [unify, leavesWithin]
  apply (runs_shapesOf ordered there).run_bind_congr rfl
  rintro _ after ⟨⟩ _ ordered' there'
  have held := holds_references_of_mem there'
  apply run_shapesBy_congr (comesTo_unifiedWithin _) ordered' held
  intro name hn
  have below := depthOfLeaves_candidates_lt surface hn
  constructor
  · rfl
  · intro later le ordered''
    exact run_leavesWithin ordered'' ((holds_candidates (holds_objects held) name).of_le le) below

/-! ## The depth of the outcome -/

variable {result : List (Leaf Key) → List (Leaf Key)}

/-- What shapes merge into: an object, an array and primitives, each if there is one. -/
theorem mem_alternatives {leaf : Leaf Key} {shapes : List (Shape Key)} :
    leaf ∈ alternatives result shapes ↔
      shapes.filterMap (·.fields?) ≠ [] ∧
        leaf = .object (.address (.object (mergedObject result (shapes.filterMap (·.fields?))))) ∨
      shapes.filterMap (·.elements?) ≠ [] ∧ leaf = .array (pool (shapes.filterMap (·.elements?))) ∨
      ∃ kind ∈ (shapes.filterMap (·.kind?)).eraseDups, .primitive kind = leaf := by
  rw [alternatives, List.mem_append, List.mem_append, List.mem_map, or_assoc]
  by_cases ho : shapes.filterMap (·.fields?) = [] <;>
    by_cases ha : shapes.filterMap (·.elements?) = [] <;> simp [ho, ha]

theorem depthOfLeaves_pool_le_iff {arrays : List (List (Leaf Key))} {n : Nat} :
    depthOfLeaves (pool arrays) ≤ n ↔ ∀ elements ∈ arrays, depthOfLeaves elements ≤ n := by
  simp only [depthOfLeaves_le_iff, pool, List.mem_eraseDups, List.mem_flatten]
  constructor
  · intro within elements he leaf hl
    exact within leaf ⟨elements, he, hl⟩
  · rintro within leaf ⟨elements, he, hl⟩
    exact within elements he leaf hl

/-- Merging objects makes nothing deeper, if unifying does not. -/
theorem depthOfFields_mergedObject_le {objects : List (List (Field Key))} {n : Nat}
    (shallow : ∀ name, depthOfLeaves (result (candidates name objects)) ≤
      depthOfLeaves (candidates name objects))
    (within : ∀ fields ∈ objects, depthOfFields fields ≤ n) :
    depthOfFields (mergedObject result objects) ≤ n := by
  rw [depthOfFields_le_iff]
  intro field hf
  obtain ⟨name, _, rfl⟩ := List.mem_map.mp hf
  exact Nat.le_trans (shallow name) (depthOfLeaves_candidates_le within name)

/-- Merging objects with distinct names loses no depth, if unifying does not. -/
theorem depthOfFields_le_mergedObject {objects : List (List (Field Key))}
    (distinct : ∀ fields ∈ objects, Field.DistinctNames fields)
    (deep : ∀ name ∈ fieldNames objects, depthOfLeaves (candidates name objects) ≤
      depthOfLeaves (result (candidates name objects)))
    {fields : List (Field Key)} (hf : fields ∈ objects) :
    depthOfFields fields ≤ depthOfFields (mergedObject result objects) := by
  rw [depthOfFields_le_iff]
  intro field hm
  have named : field.name ∈ fieldNames objects := by
    refine List.mem_eraseDups.mpr (List.mem_map_of_mem ?_)
    exact List.mem_flatten.mpr ⟨fields, hf, hm⟩
  have among : depthOfLeaves field.types ≤ depthOfLeaves (candidates field.name objects) := by
    rw [depthOfLeaves_le_iff]
    intro leaf hl
    apply depthOfLeaf_le_of_mem
    exact mem_candidates.mpr ⟨fields, hf, field, List.find?_of_nodup_map (distinct fields hf) hm, hl⟩
  have merged : (⟨field.name, result (candidates field.name objects), lacks field.name objects⟩ :
      Field Key) ∈ mergedObject result objects := List.mem_map_of_mem named
  have inMerged := depthOfLeaves_le_of_mem merged
  have := deep field.name named
  dsimp only at inMerged
  omega

theorem depthOfLeaves_alternatives_le {shapes : List (Shape Key)} {n : Nat}
    (shallow : ∀ name, depthOfLeaves (result (candidates name (shapes.filterMap (·.fields?)))) ≤
      depthOfLeaves (candidates name (shapes.filterMap (·.fields?))))
    (within : ∀ shape ∈ shapes, depthOfShape shape ≤ n) :
    depthOfLeaves (alternatives result shapes) ≤ n := by
  rw [depthOfLeaves_le_iff]
  intro leaf hl
  rcases mem_alternatives.mp hl with ⟨present, rfl⟩ | ⟨present, rfl⟩ | ⟨kind, _, rfl⟩
  · obtain ⟨fields, hf⟩ := List.exists_mem_of_ne_nil _ present
    have each : ∀ fields ∈ shapes.filterMap (·.fields?), depthOfFields fields + 1 ≤ n := by
      intro fields hf
      obtain ⟨shape, hs, found⟩ := List.mem_filterMap.mp hf
      cases shape <;> cases found
      exact within _ hs
    have positive := each fields hf
    have := depthOfFields_mergedObject_le (n := n - 1) shallow fun fields hf => by
      have := each fields hf
      omega
    change depthOfFields _ + 1 ≤ n
    omega
  · obtain ⟨elements, he⟩ := List.exists_mem_of_ne_nil _ present
    have each : ∀ elements ∈ shapes.filterMap (·.elements?), depthOfLeaves elements + 1 ≤ n := by
      intro elements he
      obtain ⟨shape, hs, found⟩ := List.mem_filterMap.mp he
      cases shape <;> cases found
      exact within _ hs
    have positive := each elements he
    have := depthOfLeaves_pool_le_iff (n := n - 1).mpr fun elements he => by
      have := each elements he
      omega
    rw [depthOfLeaf]
    omega
  · exact Nat.zero_le n

theorem depthOfShape_le_alternatives {shapes : List (Shape Key)}
    (distinct : ∀ fields ∈ shapes.filterMap (·.fields?), Field.DistinctNames fields)
    (deep : ∀ name ∈ fieldNames (shapes.filterMap (·.fields?)),
      depthOfLeaves (candidates name (shapes.filterMap (·.fields?))) ≤
        depthOfLeaves (result (candidates name (shapes.filterMap (·.fields?)))))
    {shape : Shape Key} (hs : shape ∈ shapes) :
    depthOfShape shape ≤ depthOfLeaves (alternatives result shapes) := by
  cases shape with
  | primitive kind => exact Nat.zero_le _
  | array elements =>
    have he : elements ∈ shapes.filterMap (·.elements?) := List.mem_filterMap.mpr ⟨_, hs, rfl⟩
    have pooled := depthOfLeaves_pool_le_iff.mp (Nat.le_refl _) elements he
    have member : .array (pool (shapes.filterMap (·.elements?))) ∈ alternatives result shapes :=
      mem_alternatives.mpr (.inr (.inl ⟨List.ne_nil_of_mem he, rfl⟩))
    have merged := depthOfLeaf_le_of_mem member
    rw [depthOfLeaf] at merged
    exact Nat.le_trans (Nat.succ_le_succ pooled) merged
  | object fields =>
    have hf : fields ∈ shapes.filterMap (·.fields?) := List.mem_filterMap.mpr ⟨_, hs, rfl⟩
    have entered := depthOfFields_le_mergedObject distinct deep hf
    have member : .object (.address (.object (mergedObject result (shapes.filterMap (·.fields?))))) ∈
        alternatives result shapes := mem_alternatives.mpr (.inl ⟨List.ne_nil_of_mem hf, rfl⟩)
    have merged := depthOfLeaf_le_of_mem member
    exact Nat.le_trans (Nat.succ_le_succ entered) merged

/-- Unifying makes nothing deeper. -/
theorem depthOfLeaves_unifiedWithin_le {leaves : List (Leaf Key)}
    (surface : ∀ leaf ∈ leaves, leaf.Surface p) (levels : Nat) :
    depthOfLeaves (unifiedWithin levels leaves) ≤ depthOfLeaves leaves := by
  induction levels generalizing leaves with
  | zero => exact Nat.zero_le _
  | succ levels ih =>
    apply depthOfLeaves_alternatives_le
    · intro name
      exact ih (surface_candidates (surface_objects surface) name)
    · intro shape hs
      obtain ⟨leaf, hl, rfl⟩ := List.mem_map.mp hs
      have hl := List.mem_eraseDups.mp hl
      rw [(surface leaf hl).depthOfShape]
      exact depthOfLeaf_le_of_mem hl

/-- Unifying loses no depth, where names are distinct. -/
theorem depthOfLeaves_le_unifiedWithin {leaves : List (Leaf Key)} {levels : Nat}
    (surface : ∀ leaf ∈ leaves, leaf.Surface Field.DistinctNames)
    (enough : depthOfLeaves leaves < levels) :
    depthOfLeaves leaves ≤ depthOfLeaves (unifiedWithin levels leaves) := by
  induction levels generalizing leaves with
  | zero => omega
  | succ levels ih =>
    have objects := surface_objects surface
    rw [depthOfLeaves_le_iff]
    intro leaf hl
    rw [← (surface leaf hl).depthOfShape]
    apply depthOfShape_le_alternatives
    · intro fields hf
      exact (objects fields hf).1
    · intro name hn
      have below := depthOfLeaves_candidates_lt surface hn
      exact ih (surface_candidates objects name) (by omega)
    · exact List.mem_map_of_mem (List.mem_eraseDups.mpr hl)

theorem depthOfLeaves_unified {leaves : List (Leaf Key)}
    (surface : ∀ leaf ∈ leaves, leaf.Surface Field.DistinctNames) :
    depthOfLeaves (unified leaves) = depthOfLeaves leaves :=
  Nat.le_antisymm (depthOfLeaves_unifiedWithin_le surface _)
    (depthOfLeaves_le_unifiedWithin surface (Nat.lt_succ_self _))

/-- Merging keeps the depth of shapes, where names are distinct. -/
theorem depthOfLeaves_alternatives_le_iff {shapes : List (Shape Key)} {n : Nat}
    (surface : ∀ fields ∈ shapes.filterMap (·.fields?), Field.Surface Field.DistinctNames fields) :
    depthOfLeaves (alternatives unified shapes) ≤ n ↔ ∀ shape ∈ shapes, depthOfShape shape ≤ n := by
  have kept : ∀ name, depthOfLeaves (unified (candidates name (shapes.filterMap (·.fields?)))) =
      depthOfLeaves (candidates name (shapes.filterMap (·.fields?))) := by
    intro name
    exact depthOfLeaves_unified (surface_candidates surface name)
  constructor
  · intro within shape hs
    refine Nat.le_trans (depthOfShape_le_alternatives ?_ ?_ hs) within
    · exact fun fields hf => (surface fields hf).1
    · exact fun name _ => Nat.le_of_eq (kept name).symm
  · exact depthOfLeaves_alternatives_le fun name => Nat.le_of_eq (kept name)

/-- Objects alone merge into one object. -/
theorem alternatives_objects {objects : List (List (Field Key))} (nonempty : objects ≠ []) :
    alternatives result (objects.map Shape.object) =
      [.object (.address (.object (mergedObject result objects)))] := by
  have fields : (objects.map Shape.object).filterMap (·.fields?) = objects := by
    rw [List.filterMap_map]
    exact List.filterMap_some
  have arrays : (objects.map (Shape.object (κ := Key))).filterMap (·.elements?) = [] := by
    rw [List.filterMap_map, List.filterMap_eq_nil_iff]
    exact fun _ _ => rfl
  have kinds : (objects.map (Shape.object (κ := Key))).filterMap (·.kind?) = [] := by
    rw [List.filterMap_map, List.filterMap_eq_nil_iff]
    exact fun _ _ => rfl
  simp [alternatives, fields, arrays, kinds, nonempty]

end Merge

/-! ## Depth as seen through the store -/

def Key.treeOfShape : Shape Key → Tree
  | .primitive kind => .primitive kind
  | .array elements => treeOfComposite (.array elements)
  | .object fields => treeOfComposite (.object fields)

namespace Store

def DistinctNames (store : Store) : Prop :=
  ∀ fields, Composite.object fields ∈ store.shapes → Field.DistinctNames fields

/-- A shape with every reference replaced by what the store has for it. -/
def unfoldShape (store : Store) : Shape Key → Option Tree
  | .primitive kind => some (.primitive kind)
  | .array elements => store.unfoldComposite (.array elements)
  | .object fields => store.unfoldComposite (.object fields)

def unfoldShapes (store : Store) : List (Shape Key) → Option (List Tree)
  | [] => some []
  | shape :: rest => do
    let tree ← store.unfoldShape shape
    return tree :: (← store.unfoldShapes rest)

/-- Run in a store, a computation returns, only adds to the store, and returns leaves as deep as its
input. The input unfolds in the store as it was, the leaves in the store that is left. -/
def KeepsDepth {α : Type} (store : Store) (act : Saving Fault α) (leaves : α → List (Leaf Key))
    (input : Option (List Tree)) : Prop :=
  ∃ a after trees trees', act.run store = (.ok a, after) ∧ store ≤ after ∧ input = some trees ∧
    after.unfoldAll (leaves a) = some trees' ∧ Tree.depthOfAll trees' = Tree.depthOfAll trees

variable {store : Store}

theorem distinctNames_empty : empty.DistinctNames := fun _ member => nomatch member

theorem DistinctNames.insert (distinct : store.DistinctNames) {fields : List (Field Key)}
    (names : Field.DistinctNames fields) : (store.insert (.object fields)).DistinctNames := by
  intro other ho
  rcases mem_insert.mp ho with saved | same
  · exact distinct other saved
  · cases same
    exact names

theorem unfoldShape_of_holds (ordered : store.Ordered) {shape : Shape Key}
    (there : store.Holds shape.references) :
    store.unfoldShape shape = some (Key.treeOfShape shape) ∧
      (Key.treeOfShape shape).depth = Key.depthOfShape shape := by
  cases shape with
  | primitive kind => exact ⟨rfl, rfl⟩
  | array elements =>
    constructor
    · exact unfoldComposite_of_references fun ref hr => unfoldKey_of_contains ordered (there ref hr)
    · exact depth_treeOfComposite_of_references fun ref hr => depth_tree ordered (there ref hr)
  | object fields =>
    constructor
    · exact unfoldComposite_of_references fun ref hr => unfoldKey_of_contains ordered (there ref hr)
    · exact depth_treeOfComposite_of_references fun ref hr => depth_tree ordered (there ref hr)

theorem unfoldShapes_of_holds (ordered : store.Ordered) {shapes : List (Shape Key)}
    (there : ∀ shape ∈ shapes, store.Holds shape.references) :
    store.unfoldShapes shapes = some (shapes.map Key.treeOfShape) := by
  induction shapes with
  | nil => rfl
  | cons shape rest ih =>
    obtain ⟨first, others⟩ := List.forall_mem_cons.mp there
    rw [unfoldShapes, (unfoldShape_of_holds ordered first).1, ih others]
    rfl

/-- A computation that is known by its outcome keeps the depth if the outcome has the depth. -/
theorem keepsDepth_of_runs {α : Type} {refs : α → List Key} {act : Saving Fault α}
    {leaves : α → List (Leaf Key)} {a : α} {trees : List Tree} {input : Option (List Tree)}
    (ran : Saving.Runs refs act store (.ok a)) (held : Leaf.referencesOfAll (leaves a) ⊆ refs a)
    (unfolds : input = some trees) (depth : Key.depthOfLeaves (leaves a) = Tree.depthOfAll trees) :
    store.KeepsDepth act leaves input := by
  obtain ⟨after, ran, le, ordered, there⟩ := ran
  have there := (there a rfl).of_subset held
  refine ⟨a, after, trees, _, ran, le, unfolds, unfoldAll_of_holds ordered there, ?_⟩
  rw [depthOfAll_of_holds ordered there, depth]

/-- Unifying keeps the depth of leaves. -/
theorem unify_keepsDepth (ordered : store.Ordered) (distinct : store.DistinctNames)
    {leaves : List (Leaf Key)} (there : store.Holds (Leaf.referencesOfAll leaves)) :
    store.KeepsDepth (unify leaves) id (store.unfoldAll leaves) := by
  apply keepsDepth_of_runs (Merge.comesTo_unified leaves store ordered there)
    (List.Subset.refl _) (unfoldAll_of_holds ordered there)
  rw [depthOfAll_of_holds ordered there]
  exact Merge.depthOfLeaves_unified (Merge.surface_of_holdsAll ordered distinct there)

/-- Objects with distinct names, over a store of such objects, lead to such objects only. -/
theorem surface_of_holds_fields (ordered : store.Ordered) (distinct : store.DistinctNames)
    {fields : List (Field Key)} (there : store.Holds (Field.referencesOfAll fields))
    (names : Field.DistinctNames fields) : Field.Surface Field.DistinctNames fields := by
  refine ⟨names, fun field hf => ?_⟩
  apply Merge.surface_of_holdsAll ordered distinct
  exact there.of_subset fun ref hr => List.mem_flatMap.mpr ⟨field, hf, hr⟩

theorem depthOfLeaves_alternatives (ordered : store.Ordered) (distinct : store.DistinctNames)
    {shapes : List (Shape Key)} (there : ∀ shape ∈ shapes, store.Holds shape.references)
    (names : ∀ fields, Shape.object fields ∈ shapes → Field.DistinctNames fields) :
    Key.depthOfLeaves (Merge.alternatives Merge.unified shapes) =
      Tree.depthOfAll (shapes.map Key.treeOfShape) := by
  have surface : ∀ fields ∈ shapes.filterMap (·.fields?),
      Field.Surface Field.DistinctNames fields := by
    intro fields hf
    have held := Merge.holds_objects there fields hf
    obtain ⟨shape, hs, found⟩ := List.mem_filterMap.mp hf
    cases shape <;> cases found
    exact surface_of_holds_fields ordered distinct held (names fields hs)
  apply eq_of_forall_ge_iff
  intro n
  rw [Merge.depthOfLeaves_alternatives_le_iff surface, Tree.depthOfAll_le_iff, List.forall_mem_map]
  refine forall₂_congr fun shape hs => ?_
  rw [(unfoldShape_of_holds ordered (there shape hs)).2]

/-- Merging keeps the depth of shapes. -/
theorem mergeShapes_keepsDepth (ordered : store.Ordered) (distinct : store.DistinctNames)
    {shapes : List (Shape Key)} (there : ∀ shape ∈ shapes, store.Holds shape.references)
    (names : ∀ fields, Shape.object fields ∈ shapes → Field.DistinctNames fields) :
    store.KeepsDepth (mergeShapes shapes) id (store.unfoldShapes shapes) := by
  apply keepsDepth_of_runs (Merge.runs_shapesWith Merge.comesTo_unified ordered there)
    (List.Subset.refl _) (unfoldShapes_of_holds ordered there)
  exact depthOfLeaves_alternatives ordered distinct there names

/-- Merging keeps the depth of objects, if there is one. -/
theorem mergeObjects_keepsDepth (ordered : store.Ordered) (distinct : store.DistinctNames)
    {objects : List (List (Field Key))} (nonempty : objects ≠ [])
    (there : ∀ fields ∈ objects, store.Holds (Field.referencesOfAll fields))
    (names : ∀ fields ∈ objects, Field.DistinctNames fields) :
    store.KeepsDepth (mergeObjects objects) (fun leaf => [leaf])
      (store.unfoldShapes (objects.map .object)) := by
  have held : ∀ shape ∈ objects.map Shape.object, store.Holds shape.references :=
    List.forall_mem_map.mpr there
  have depth := depthOfLeaves_alternatives ordered distinct held fun fields hs => by
    obtain ⟨_, hf, same⟩ := List.mem_map.mp hs
    cases same
    exact names fields hf
  rw [Merge.alternatives_objects nonempty] at depth
  refine keepsDepth_of_runs (Merge.runs_objectsWith Merge.comesTo_unified ordered there) ?_
    (unfoldShapes_of_holds ordered held) depth
  simp [Leaf.referencesOfAll]

/-- No objects at all merge into the object without fields. -/
theorem run_mergeObjects_nil (store : Store) :
    (mergeObjects []).run store =
      (.ok (.object (.address (.object []))), store.insert (.object [])) := rfl

end Store

end Exemplar
