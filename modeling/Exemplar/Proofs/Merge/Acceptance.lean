import Exemplar.Proofs.Merge.Depth

/-!
# Merging accepts what its inputs accept

Whether a merge makes a field nullable depends on which objects have the field,
and not on which mark it. Where every field that is marked is also lacked by some
object, no mark is dropped, and a merge accepts whatever one of its inputs
accepted. Merging does not enter arrays, so marks inside them stay in any case.

Where a mark is dropped, the merge may accept less than what is merged.
-/

namespace Exemplar

namespace Merge

open Key

variable {result : List (Leaf Key) → List (Leaf Key)}

/-- Merging some shapes drops no mark: at each field that is merged on the way, it makes no
difference whether marks count. -/
inductive KeepsMarks : List (Shape Key) → Prop
  | intro {shapes : List (Shape Key)}
      (here : ∀ name ∈ fieldNames (shapes.filterMap (·.fields?)),
        lacksOrMarks name (shapes.filterMap (·.fields?)) =
          lacks name (shapes.filterMap (·.fields?)))
      (below : ∀ name ∈ fieldNames (shapes.filterMap (·.fields?)),
        KeepsMarks ((candidates name (shapes.filterMap (·.fields?))).eraseDups.map Leaf.shape)) :
      KeepsMarks shapes

/-- Nothing is dropped where nothing is marked. -/
theorem keepsMarks_of_surface {leaves : List (Leaf Key)} (surface : ∀ leaf ∈ leaves,
      leaf.Surface fun fields => ∀ field ∈ fields, field.nullable = false) :
    KeepsMarks (leaves.eraseDups.map Leaf.shape) := by
  induction n : depthOfLeaves leaves using Nat.strongRecOn generalizing leaves with
  | ind n ih =>
    have objects := surface_objects surface
    constructor
    · intro name _
      exact lacksOrMarks_eq (fun fields hf => (objects fields hf).1) name
    · intro name hn
      have below := depthOfLeaves_candidates_lt surface hn
      exact ih _ (n ▸ below) (surface_candidates objects name) rfl

theorem treeOfShape_shape (leaf : Leaf Key) : treeOfShape leaf.shape = treeOfLeaf leaf := by
  cases leaf with
  | primitive kind => rfl
  | array elements => rfl
  | object ref =>
    obtain ⟨depth, shape⟩ := ref
    cases shape <;> rfl

/-- What one of some leaves accepts, the outcome of unifying them accepts. -/
def Keeps (result : List (Leaf Key) → List (Leaf Key)) (leaves : List (Leaf Key)) : Prop :=
  ∀ leaf ∈ leaves, ∀ value, (treeOfLeaf leaf).Accepts value →
    Tree.AcceptsAny (treesOfLeaves (result leaves)) value

theorem acceptsAny_of_mem {leaves : List (Leaf Key)} {leaf : Leaf Key} (hl : leaf ∈ leaves)
    {value : Json} (accepted : (treeOfLeaf leaf).Accepts value) :
    Tree.AcceptsAny (treesOfLeaves leaves) value := by
  rw [treesOfLeaves_eq_map]
  exact Tree.acceptsAny_iff.mpr ⟨_, List.mem_map_of_mem hl, accepted⟩

/-- A merged object accepts what one of the objects accepts, if no mark is dropped. -/
theorem accepts_mergedObject {objects : List (List (Field Key))}
    (kept : ∀ name ∈ fieldNames objects, lacksOrMarks name objects = lacks name objects)
    (keeps : ∀ name ∈ fieldNames objects, Keeps result (candidates name objects))
    {fields : List (Field Key)} (hf : fields ∈ objects) (distinct : Field.DistinctNames fields)
    {value : Json} (accepted : (Tree.object (treesOfFields fields)).Accepts value) :
    (Tree.object (treesOfFields (mergedObject result objects))).Accepts value := by
  rw [Tree.Accepts, treesOfFields_eq_map] at accepted ⊢
  refine accepted.mono ?_ ?_
  · intro name part _ inField
    obtain ⟨_, listed, rfl, inTypes⟩ := Tree.acceptsField_iff.mp inField
    obtain ⟨field, hm, rfl⟩ := List.mem_map.mp listed
    obtain ⟨_, among, accepted⟩ := Tree.acceptsAny_iff.mp inTypes
    obtain ⟨leaf, hl, rfl⟩ := List.mem_map.mp among
    have named : field.name ∈ fieldNames objects := by
      refine List.mem_eraseDups.mpr (List.mem_map_of_mem ?_)
      exact List.mem_flatten.mpr ⟨fields, hf, hm⟩
    have among : leaf ∈ candidates field.name objects :=
      mem_candidates.mpr ⟨fields, hf, field, List.find?_of_nodup_map distinct hm, hl⟩
    have accepted := keeps field.name named leaf among part accepted
    rw [treesOfLeaves_eq_map] at accepted
    exact Tree.acceptsField_iff.mpr
      ⟨_, List.mem_map_of_mem (List.mem_map_of_mem named), rfl, accepted⟩
  · rintro name ⟨_, listed, rfl, needed⟩
    obtain ⟨merged, hm, rfl⟩ := List.mem_map.mp listed
    obtain ⟨name, hn, rfl⟩ := List.mem_map.mp hm
    -- A field of the merged object is mandatory only if every object has it, and none marks it.
    have needed : lacks name objects = false := needed
    have unmarked : marks name objects = false := by
      have agree := kept name hn
      rwa [lacksOrMarks, needed, Bool.false_or] at agree
    have has : field? name fields ≠ none := by
      simpa using List.any_eq_false.mp needed fields hf
    obtain ⟨field, found⟩ := Option.ne_none_iff_exists'.mp has
    have named : field.name = name := by simpa using List.find?_some found
    have bare : field.nullable = false := by
      simpa [found] using List.any_eq_false.mp unmarked fields hf
    exact ⟨_, List.mem_map_of_mem (List.mem_of_find?_eq_some found), named, bare⟩

/-- What shapes merge into accepts what one of the shapes accepts, if no mark is dropped. -/
theorem acceptsAny_alternatives {shapes : List (Shape Key)}
    (distinct : ∀ fields ∈ shapes.filterMap (·.fields?), Field.DistinctNames fields)
    (kept : KeepsMarks shapes) (keeps : ∀ name ∈ fieldNames (shapes.filterMap (·.fields?)),
      Keeps result (candidates name (shapes.filterMap (·.fields?))))
    {shape : Shape Key} (hs : shape ∈ shapes) {value : Json}
    (accepted : (treeOfShape shape).Accepts value) :
    Tree.AcceptsAny (treesOfLeaves (alternatives result shapes)) value := by
  cases shape with
  | primitive kind =>
    have member : .primitive kind ∈ alternatives result shapes := by
      refine mem_alternatives.mpr (.inr (.inr ⟨kind, ?_, rfl⟩))
      exact List.mem_eraseDups.mpr (List.mem_filterMap.mpr ⟨_, hs, rfl⟩)
    exact acceptsAny_of_mem member accepted
  | array elements =>
    have he : elements ∈ shapes.filterMap (·.elements?) := List.mem_filterMap.mpr ⟨_, hs, rfl⟩
    have member : .array (pool (shapes.filterMap (·.elements?))) ∈ alternatives result shapes :=
      mem_alternatives.mpr (.inr (.inl ⟨List.ne_nil_of_mem he, rfl⟩))
    refine acceptsAny_of_mem member ?_
    rw [treeOfLeaf, Tree.Accepts]
    refine Json.IsArrayOf.mono accepted ?_
    intro part _ accepted
    rw [treesOfLeaves_eq_map] at accepted
    obtain ⟨_, listed, accepted⟩ := Tree.acceptsAny_iff.mp accepted
    obtain ⟨leaf, hl, rfl⟩ := List.mem_map.mp listed
    refine acceptsAny_of_mem (List.mem_eraseDups.mpr ?_) accepted
    exact List.mem_flatten.mpr ⟨elements, he, hl⟩
  | object fields =>
    have hf : fields ∈ shapes.filterMap (·.fields?) := List.mem_filterMap.mpr ⟨_, hs, rfl⟩
    have member : .object (.address (.object (mergedObject result (shapes.filterMap (·.fields?))))) ∈
        alternatives result shapes := mem_alternatives.mpr (.inl ⟨List.ne_nil_of_mem hf, rfl⟩)
    obtain ⟨here, _⟩ := kept
    exact acceptsAny_of_mem member (accepts_mergedObject here keeps hf (distinct fields hf) accepted)

/-- What leaves unify into accepts what one of the leaves accepts, if no mark is dropped. -/
theorem keeps_unifiedWithin {leaves : List (Leaf Key)} {levels : Nat}
    (surface : ∀ leaf ∈ leaves, leaf.Surface Field.DistinctNames)
    (kept : KeepsMarks (leaves.eraseDups.map Leaf.shape)) (enough : depthOfLeaves leaves < levels) :
    Keeps (unifiedWithin levels) leaves := by
  induction levels generalizing leaves with
  | zero => omega
  | succ levels ih =>
    intro leaf hl value accepted
    have objects := surface_objects surface
    rw [← treeOfShape_shape] at accepted
    refine acceptsAny_alternatives ?_ kept ?_ (List.mem_map_of_mem (List.mem_eraseDups.mpr hl)) accepted
    · exact fun fields hf => (objects fields hf).1
    · intro name hn
      obtain ⟨_, below⟩ := kept
      have shallower := depthOfLeaves_candidates_lt surface hn
      exact ih (surface_candidates objects name) (below name hn) (by omega)

theorem keeps_unified {leaves : List (Leaf Key)}
    (surface : ∀ leaf ∈ leaves, leaf.Surface Field.DistinctNames)
    (kept : KeepsMarks (leaves.eraseDups.map Leaf.shape)) : Keeps unified leaves :=
  keeps_unifiedWithin surface kept (Nat.lt_succ_self _)

end Merge

/-! ## Acceptance as seen through the store -/

/-- The values that a shape accepts, given what references accept. -/
def Shape.Accepts {κ : Type} (M : Meaning κ) : Shape κ → Json → Prop
  | .primitive kind, value => value.kind? = some kind
  | .array elements, value => (Composite.array elements).Accepts M value
  | .object fields, value => (Composite.object fields).Accepts M value

namespace Store

variable {store : Store}

/-- A shape over an ordered store accepts what its tree accepts. -/
theorem accepts_treeOfShape (ordered : store.Ordered) {shape : Shape Key}
    (there : store.Holds shape.references) (value : Json) :
    shape.Accepts store.Accepts value ↔ (Key.treeOfShape shape).Accepts value := by
  have composite : ∀ shape : Composite Key, store.Holds shape.references →
      (shape.Accepts store.Accepts value ↔ (Key.treeOfComposite shape).Accepts value) := by
    intro shape there
    rw [Key.accepts_treeOfComposite]
    exact Composite.accepts_congr fun ref hr part _ => accepts_iff_tree ordered (there ref hr) part
  cases shape with
  | primitive kind => exact Iff.rfl
  | array elements => exact composite (.array elements) there
  | object fields => exact composite (.object fields) there

/-- Leaves over an ordered store accept what their trees accept. -/
theorem acceptsAny_treesOfLeaves (ordered : store.Ordered) {leaves : List (Leaf Key)}
    (there : store.Holds (Leaf.referencesOfAll leaves)) (value : Json) :
    Leaf.AcceptsAny store.Accepts leaves value ↔
      Tree.AcceptsAny (Key.treesOfLeaves leaves) value := by
  rw [Key.acceptsAny_treesOfLeaves]
  constructor
  · intro accepted
    exact accepted.mono fun ref hr part _ => (accepts_iff_tree ordered (there ref hr) part).mp
  · intro accepted
    exact accepted.mono fun ref hr part _ => (accepts_iff_tree ordered (there ref hr) part).mpr

/-- Merging shapes without dropping a mark returns leaves that accept, in the store that is left,
what one of the shapes accepted before. -/
theorem mergeShapes_accepts (ordered : store.Ordered) (distinct : store.DistinctNames)
    {shapes : List (Shape Key)} (there : ∀ shape ∈ shapes, store.Holds shape.references)
    (names : ∀ fields, Shape.object fields ∈ shapes → Field.DistinctNames fields)
    (kept : Merge.KeepsMarks shapes) :
    ∃ leaves after, (mergeShapes shapes).run store = (.ok leaves, after) ∧
      ∀ shape ∈ shapes, ∀ value, shape.Accepts store.Accepts value →
        Leaf.AcceptsAny after.Accepts leaves value := by
  obtain ⟨after, ran, _, ordered', there'⟩ :=
    Merge.runs_shapesWith Merge.comesTo_unified ordered there
  refine ⟨_, after, ran, fun shape hs value accepted => ?_⟩
  rw [accepts_treeOfShape ordered (there shape hs)] at accepted
  rw [acceptsAny_treesOfLeaves ordered' (there' _ rfl)]
  have objects : ∀ fields ∈ shapes.filterMap (·.fields?),
      Field.Surface Field.DistinctNames fields := by
    intro fields hf
    obtain ⟨shape, hs, found⟩ := List.mem_filterMap.mp hf
    cases shape <;> cases found
    exact surface_of_holds_fields ordered distinct (there _ hs) (names fields hs)
  refine Merge.acceptsAny_alternatives (fun fields hf => (objects fields hf).1) kept ?_ hs accepted
  intro name hn
  obtain ⟨_, below⟩ := kept
  exact Merge.keeps_unified (Merge.surface_candidates objects name) (below name hn)

/-- A record with a reference, and one that marks a field which the first lacks. -/
theorem mergeShapes_accepts_of_marked_field :
    let inner : List (Field Key) := [⟨"x", [.primitive .number], false⟩]
    let store := empty.insert (.object inner)
    let shapes : List (Shape Key) :=
      [.object [⟨"at", [.object (.address (.object inner))], false⟩],
        .object [⟨"at", [.primitive .null], false⟩, ⟨"tag", [.primitive .string], true⟩]]
    store.Ordered ∧ store.DistinctNames ∧ (∀ shape ∈ shapes, store.Holds shape.references) ∧
      (∀ fields, Shape.object fields ∈ shapes → Field.DistinctNames fields) ∧
      Merge.KeepsMarks shapes ∧
      ∃ leaves after, (mergeShapes shapes).run store = (.ok leaves, after) ∧
        ∀ shape ∈ shapes, ∀ value, shape.Accepts store.Accepts value →
          Leaf.AcceptsAny after.Accepts leaves value := by
  intro inner store shapes
  have ordered : store.Ordered := ordered_empty.insert holds_nil
  have saved : ∀ fields, Composite.object fields ∈ store.shapes →
      Field.DistinctNames fields ∧ ∀ field ∈ fields, field.nullable = false := by
    intro fields hf
    rcases mem_insert.mp hf with hf | same
    · cases hf
    · cases same
      simp [Field.DistinctNames, inner]
  have distinct : store.DistinctNames := fun fields hf => (saved fields hf).1
  have there : ∀ shape ∈ shapes, store.Holds shape.references := by
    intro shape hs ref hr
    rcases List.mem_cons.mp hs with rfl | hs
    · rw [List.mem_singleton.mp hr]
      exact contains_insert _ _
    · rw [List.mem_singleton.mp hs] at hr
      cases hr
  have names : ∀ fields, Shape.object fields ∈ shapes → Field.DistinctNames fields := by
    intro fields hf
    rcases List.mem_cons.mp hf with same | hf
    · cases same
      simp [Field.DistinctNames]
    · cases List.mem_singleton.mp hf
      simp [Field.DistinctNames]
  have kept : Merge.KeepsMarks shapes := by
    constructor
    · decide
    · intro name _
      have held := Merge.holds_candidates (Merge.holds_objects there) name
      refine Merge.keepsMarks_of_surface (Merge.surface_of_holdsAll ordered ?_ held)
      exact fun fields hf => (saved fields hf).2
  exact ⟨ordered, distinct, there, names, kept, mergeShapes_accepts ordered distinct there names kept⟩

/-- An object that marks its field accepts the empty object, and what it merges into does not. -/
theorem mergeShapes_rejects_of_dropped_mark :
    let shape : Shape Key := .object [⟨"a", [.primitive .number], true⟩]
    shape.Accepts empty.Accepts (.object []) ∧
      ∃ leaves after, (mergeShapes [shape]).run empty = (.ok leaves, after) ∧
        ¬ Leaf.AcceptsAny after.Accepts leaves (.object []) := by
  intro shape
  have there : ∀ other ∈ [shape], empty.Holds other.references := by
    intro other ho ref hr
    rw [List.mem_singleton.mp ho] at hr
    cases hr
  constructor
  · rw [accepts_treeOfShape ordered_empty (there shape List.mem_cons_self)]
    decide
  · obtain ⟨after, ran, _, ordered, held⟩ :=
      Merge.runs_shapesWith Merge.comesTo_unified ordered_empty there
    refine ⟨_, after, ran, ?_⟩
    rw [acceptsAny_treesOfLeaves ordered (held _ rfl)]
    decide

end Store

end Exemplar
