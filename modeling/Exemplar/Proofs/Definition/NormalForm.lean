import Exemplar.Proofs.Definition.Normal
import Exemplar.Proofs.Definition.WellFormed
import Exemplar.Proofs.Inference.Regular

/-!
# Definitions in normal form

The definitions that are collected for a regular tree have normal bodies, whose
members have their alternatives in order, and no two of them unfold to the same.
Writing arrays in place, marking the root and naming keep all that, because they
keep unfoldings. An object is never written in place, so a reference to an object
stays one, and an array stays an array.
-/

namespace Exemplar

namespace Definition

variable {ν : Type}

/-- Definitions whose names unfold, with normal bodies and with members in order. -/
structure NormalForm (unfolding : ν → TypeExpr Empty) (isObject isArray : ν → Prop)
    (types : List (Definition ν)) : Prop where
  unfolds : Unfolds types unfolding
  normal : ∀ t ∈ types, t.body.Normal (TypeExpr.subst unfolding)
  inOrder : ∀ t ∈ types, t.body.InOrder isObject isArray

/-- The names of objects and of arrays are the names of object and of array definitions. -/
structure Tells (isObject isArray : ν → Prop) (types : List (Definition ν)) : Prop where
  objects : ∀ t ∈ types, isObject t.name → ∃ members, t.body = .object members
  arrays : ∀ t ∈ types, isArray t.name → ∃ element, t.body = .array element

def DefinesObject (types : List (Definition ν)) (name : ν) : Prop :=
  ∃ t ∈ types, t.name = name ∧ ∃ members, t.body = .object members

/-- A name of an array definition that is not the root. -/
def DefinesArray (types : List (Definition ν)) (name : ν) : Prop :=
  ∃ t ∈ types, t.name = name ∧ t.isRoot = false ∧ ∃ element, t.body = .array element

end Definition

/-! ## Collected definitions -/

namespace Collect

open Relation (ReflTransGen)
open Exemplar.Tree (toLeaf toLeaves_eq_map toFields_eq_map)

theorem exists_of_mem_references_typeOf {tree : Tree} {ref : Key}
    (hr : ref ∈ (typeOf tree.toLeaf).references) :
    ∃ shape, tree.composite? = some shape ∧ ref = .address shape := by
  cases tree with
  | primitive kind => cases hr
  | array elements => exact ⟨_, rfl, List.mem_singleton.mp hr⟩
  | object fields => exact ⟨_, rfl, List.mem_singleton.mp hr⟩

theorem exists_of_mem_needs_toLeaf {trees : List Tree} {ref : Key}
    (hr : ref ∈ needs (trees.map toLeaf)) :
    ∃ tree ∈ trees, ∃ shape, tree.composite? = some shape ∧ ref = .address shape := by
  obtain ⟨leaf, hl, hr⟩ := List.mem_flatMap.mp hr
  obtain ⟨tree, ht, rfl⟩ := List.mem_map.mp hl
  exact ⟨tree, ht, exists_of_mem_references_typeOf hr⟩

/-- What is kept for a tree refers to what is kept for its parts. -/
theorem exists_part_of_mem_references {tree : Tree} {shape : Composite Key}
    (kept : tree.composite? = some shape) {ref : Key} (hr : ref ∈ (bodyOf shape).references) :
    ∃ part ∈ tree.parts, ∃ below, part.composite? = some below ∧ ref = .address below := by
  cases tree with
  | primitive kind => cases kept
  | array elements =>
    cases kept
    have needed : ref ∈ needs (elements.map toLeaf) := by
      rwa [← toLeaves_eq_map, ← references_typeOfAll]
    exact exists_of_mem_needs_toLeaf needed
  | object fields =>
    cases kept
    rw [references_bodyOf_object, toFields_eq_map] at hr
    obtain ⟨field', hf, hr⟩ := List.mem_flatMap.mp hr
    obtain ⟨field, hm, rfl⟩ := List.mem_map.mp hf
    have needed : ref ∈ needs (field.type.map toLeaf) := hr
    obtain ⟨part, hp, found⟩ := exists_of_mem_needs_toLeaf needed
    exact ⟨part, List.mem_flatMap.mpr ⟨field, hm, hp⟩, found⟩

/-- A shape that is kept for one of some trees. -/
def KeptFor (holds : Tree → Prop) (shape : Composite Key) : Prop :=
  ∃ tree, holds tree ∧ tree.composite? = some shape

/-- If a root is kept for one of some trees that have their parts among them, so is everything that
it needs. -/
theorem keptFor_of_needed {holds : Tree → Prop}
    (parts : ∀ tree, holds tree → ∀ part ∈ tree.parts, holds part)
    {shapes : List (Composite Key)} {root : Composite Key} (kept : KeptFor holds root)
    (needed : Needed [.address root] shapes) : ∀ shape ∈ shapes, KeptFor holds shape := by
  have path : ∀ key, ReflTransGen Uses (.address root) key →
      ∃ part, key = .address part ∧ KeptFor holds part := by
    intro key path
    induction path with
    | refl => exact ⟨root, rfl, kept⟩
    | tail _ uses ih =>
      obtain ⟨_, rfl, tree, ht, kept⟩ := ih
      obtain ⟨part, hp, below, kept, same⟩ := exists_part_of_mem_references kept uses
      exact ⟨below, same, part, parts tree ht part hp, kept⟩
  intro shape hs
  obtain ⟨key, hk, reached⟩ := needed shape hs
  obtain ⟨part, same, kept⟩ := path _ (List.mem_singleton.mp hk ▸ reached)
  exact Key.address_inj.mp same ▸ kept

/-- A shape that is kept for a regular tree. -/
def Stands (shape : Composite Key) : Prop :=
  ∃ tree, Tree.Regular tree ∧ tree.composite? = some shape

/-- Everything that a regular root needs is kept for a regular tree. -/
theorem stands_of_needed {shapes : List (Composite Key)} {root : Composite Key}
    (stands : Stands root) (needed : Needed [.address root] shapes) :
    ∀ shape ∈ shapes, Stands shape :=
  keptFor_of_needed (fun _ regular => regular.parts) stands needed

theorem normal_typeOf {α : Type} (f : TypeExpr Key → α) (leaf : Leaf Key) :
    (typeOf leaf).Normal f := by
  cases leaf with
  | primitive kind => exact .primitive kind
  | array elements => exact .named _
  | object ref => exact .named _

theorem isSingle_typeOf (leaf : Leaf Key) : (typeOf leaf).isSingle = true := by
  cases leaf <;> rfl

/-- Different trees have types with different unfoldings. -/
theorem map_subst_typeOf_toLeaf (trees : List Tree) :
    ((trees.map toLeaf).map typeOf).map (TypeExpr.subst fun key => key.tree.type) =
      trees.map Tree.type := by
  rw [List.map_map, List.map_map]
  refine List.map_congr_left fun tree _ => ?_
  rw [Function.comp, Function.comp, subst_typeOf, Tree.treeOfLeaf_toLeaf]

theorem normal_typeOfAll {trees : List Tree} (distinct : trees.Nodup) (nonempty : trees ≠ []) :
    (typeOfAll (trees.map toLeaf)).Normal (TypeExpr.subst fun key => key.tree.type) := by
  have unfoldings := map_subst_typeOf_toLeaf trees
  have flat : ∀ type ∈ (trees.map toLeaf).map typeOf, type.isSingle = true :=
    List.forall_mem_map.mpr fun leaf _ => isSingle_typeOf leaf
  have each : ∀ type ∈ (trees.map toLeaf).map typeOf,
      type.Normal (TypeExpr.subst fun key => key.tree.type) :=
    List.forall_mem_map.mpr fun leaf _ => normal_typeOf _ leaf
  rcases trees with _ | ⟨first, _ | ⟨second, rest⟩⟩
  · exact absurd rfl nonempty
  · exact normal_typeOf _ _
  · refine .union ?_ ?_ flat each
    · simp
    · exact unfoldings ▸ distinct.map Tree.type_injective

def IsObject (key : Key) : Prop := ∃ fields, key.shape = .object fields

def IsArray (key : Key) : Prop := ∃ elements, key.shape = .array elements

theorem inOrder_typeOfAll {trees : List Tree} (sorted : Tree.Sorted trees) (nonempty : trees ≠ []) :
    (typeOfAll (trees.map toLeaf)).InOrder IsObject IsArray := by
  have listed : (typeOfAll (trees.map toLeaf)).alternatives = (trees.map toLeaf).map typeOf :=
    TypeExpr.alternatives_ofAlternatives
      (List.forall_mem_map.mpr fun leaf _ => isSingle_typeOf leaf)
  obtain ⟨object, array, kinds, rfl, distinct⟩ := sorted
  refine ⟨object.map fun fields => .address (.object (Tree.toFields fields)),
    array.map fun elements => .named (.address (.array (Tree.toLeaves elements))), kinds,
    ?_, ?_, ?_, distinct, ?_⟩
  · rw [listed]
    cases object <;> cases array <;> simp [toLeaf, typeOf, Function.comp_def]
  · intro key hk
    obtain ⟨fields, _, rfl⟩ := Option.map_eq_some_iff.mp hk
    exact ⟨_, rfl⟩
  · intro part hp
    obtain ⟨elements, _, rfl⟩ := Option.map_eq_some_iff.mp hp
    exact .inr ⟨_, rfl, _, rfl⟩
  · rw [listed]
    simpa using nonempty

theorem Stands.normal {shape : Composite Key} (stands : Stands shape) :
    (bodyOf shape).Normal (TypeExpr.subst fun key => key.tree.type) := by
  obtain ⟨tree, regular, kept⟩ := stands
  cases regular with
  | primitive kind => cases kept
  | @array elements distinct each =>
    cases kept
    rw [bodyOf, Body.Normal, toLeaves_eq_map]
    by_cases none : elements = []
    · rw [none]
      exact .empty
    · exact .array (normal_typeOfAll distinct none)
  | @object fields sorted nonempty each =>
    cases kept
    rw [bodyOf, Body.Normal, toFields_eq_map, List.map_map]
    refine List.forall_mem_map.mpr fun field hf => ?_
    exact normal_typeOfAll (sorted field hf).nodup (nonempty field hf)

theorem Stands.inOrder {shape : Composite Key} (stands : Stands shape) :
    (bodyOf shape).InOrder IsObject IsArray := by
  obtain ⟨tree, regular, kept⟩ := stands
  cases regular with
  | primitive kind => cases kept
  | array distinct each =>
    cases kept
    trivial
  | @object fields sorted nonempty each =>
    cases kept
    rw [bodyOf, Body.InOrder, toFields_eq_map, List.map_map]
    refine List.forall_mem_map.mpr fun field hf => ?_
    exact inOrder_typeOfAll (sorted field hf) (nonempty field hf)

/-- Definitions of regular trees are in normal form. -/
theorem normalForm_definitionOf {shapes : List (Composite Key)}
    (stands : ∀ shape ∈ shapes, Stands shape) :
    Definition.NormalForm (fun key => key.tree.type) IsObject IsArray
      (shapes.map definitionOf) := by
  refine ⟨unfolds_definitionOf shapes, ?_, ?_⟩ <;> intro t ht <;>
    obtain ⟨shape, hs, rfl⟩ := List.mem_map.mp ht
  · exact (stands shape hs).normal
  · exact (stands shape hs).inOrder

theorem tells_definitionOf (shapes : List (Composite Key)) :
    Definition.Tells IsObject IsArray (shapes.map definitionOf) := by
  constructor <;> intro t ht <;> obtain ⟨shape, _, rfl⟩ := List.mem_map.mp ht
  · rintro ⟨fields, same⟩
    cases shape <;> cases same
    exact ⟨_, rfl⟩
  · rintro ⟨elements, same⟩
    cases shape <;> cases same
    exact ⟨_, rfl⟩

/-- Shapes that are kept for trees are told apart by what they unfold to. -/
theorem Stands.eq_of_type_eq {shape shape' : Composite Key} (stands : Stands shape)
    (stands' : Stands shape')
    (same : (Key.address shape).tree.type = (Key.address shape').tree.type) : shape = shape' := by
  obtain ⟨tree, _, kept⟩ := stands
  obtain ⟨tree', _, kept'⟩ := stands'
  have trees := Tree.type_injective same
  rw [Key.tree_address, Key.tree_address, Key.treeOfComposite_of_composite? kept,
    Key.treeOfComposite_of_composite? kept'] at trees
  exact Option.some.inj (kept.symm.trans ((congrArg Tree.composite? trees).trans kept'))

/-- No two collected definitions unfold to the same. -/
theorem Settled.nodup_unfolding {shapes : List (Composite Key)} (settled : Settled shapes)
    (stands : ∀ shape ∈ shapes, Stands shape) :
    ((Definition.names (shapes.map definitionOf)).map fun key => key.tree.type).Nodup := by
  rw [names_definitionOf, List.map_map]
  refine settled.distinct.map_on fun shape hs shape' hs' same => ?_
  exact (stands shape hs).eq_of_type_eq (stands shape' hs') same

end Collect

/-! ## Arrays in place -/

namespace Inline

open Definition (NormalForm Tells)

variable {ν : Type} [DecidableEq ν] {types current : List (Definition ν)}
  {unfolding : ν → TypeExpr Empty} {isObject isArray : ν → Prop} {root : ν}

/-- Wrappers are replaced by normal arrays that unfold as they do. -/
theorem replaces_wrapper? (normalForm : NormalForm unfolding isObject isArray types) (name : ν) :
    TypeExpr.Replaces (fun name => (wrapper? types root name).getD (.named name))
      unfolding unfolding name := by
  have unfolds := subst_wrapper? normalForm.unfolds root name
  dsimp only [TypeExpr.Replaces]
  cases found : wrapper? types root name with
  | none => exact ⟨.named name, rfl, rfl⟩
  | some type =>
    rw [found] at unfolds
    obtain ⟨_, t, ht, rfl, element, body, rfl⟩ := exists_of_wrapper? found
    have normal := normalForm.normal t ht
    rw [body] at normal
    exact ⟨normal, rfl, unfolds⟩

/-- An object is no wrapper. -/
theorem wrapper?_of_isObject (tells : Tells isObject isArray types) {name : ν}
    (object : isObject name) : wrapper? types root name = none := by
  cases found : wrapper? types root name with
  | none => rfl
  | some type =>
    obtain ⟨_, t, ht, rfl, element, array, _⟩ := exists_of_wrapper? found
    obtain ⟨members, body⟩ := tells.objects t ht object
    cases array.symm.trans body

theorem isArray_wrapper? {name : ν} (array : isArray name) :
    ((wrapper? types root name).getD (.named name)).IsArray isArray := by
  cases found : wrapper? types root name with
  | none => exact .inr ⟨name, rfl, array⟩
  | some type =>
    obtain ⟨_, _, _, _, element, _, rfl⟩ := exists_of_wrapper? found
    exact .inl ⟨element, rfl⟩

theorem normalForm_expandAll (normalForm : NormalForm unfolding isObject isArray types)
    (tells : Tells isObject isArray types)
    (normalForm' : NormalForm unfolding isObject isArray current) :
    NormalForm unfolding isObject isArray (expandAll (wrapper? types root) current) := by
  refine ⟨unfolds_expandAll normalForm.unfolds root normalForm'.unfolds, ?_, ?_⟩ <;> intro t ht <;>
    obtain ⟨before, hb, rfl⟩ := List.mem_map.mp ht
  · exact (normalForm'.normal before hb).subst fun name _ => replaces_wrapper? normalForm name
  · apply (normalForm'.inOrder before hb).subst
    · exact fun name => (replaces_wrapper? normalForm name).2.1
    · intro name _ object
      rw [wrapper?_of_isObject tells object]
      exact ⟨name, rfl, object⟩
    · exact fun name _ => isArray_wrapper?

theorem normalForm_expandRounds (normalForm : NormalForm unfolding isObject isArray types)
    (tells : Tells isObject isArray types) (rounds : Nat)
    (normalForm' : NormalForm unfolding isObject isArray current) :
    NormalForm unfolding isObject isArray (expandRounds (wrapper? types root) rounds current) := by
  induction rounds generalizing current with
  | zero => exact normalForm'
  | succ rounds ih => exact ih (normalForm_expandAll normalForm tells normalForm')

/-- Writing arrays in place keeps the normal form. -/
theorem normalForm_inlineArrays (normalForm : NormalForm unfolding isObject isArray types)
    (tells : Tells isObject isArray types) :
    NormalForm unfolding isObject isArray (inlineArrays root types) := by
  have all : NormalForm unfolding isObject isArray (expanded root types) :=
    normalForm_expandRounds normalForm tells rounds normalForm
  rw [inlineArrays_eq]
  refine ⟨?_, ?_, ?_⟩ <;> intro t ht
  · exact all.unfolds t (List.mem_filter.mp ht).1
  · exact all.normal t (List.mem_filter.mp ht).1
  · exact all.inOrder t (List.mem_filter.mp ht).1

omit [DecidableEq ν] in
theorem tells_expandRounds {wrapper : ν → Option (TypeExpr ν)} (rounds : Nat)
    (tells : Tells isObject isArray types) :
    Tells isObject isArray (expandRounds wrapper rounds types) := by
  induction rounds generalizing types with
  | zero => exact tells
  | succ rounds ih =>
    apply ih
    constructor <;> intro t ht told <;> obtain ⟨before, hb, rfl⟩ := List.mem_map.mp ht
    · obtain ⟨members, body⟩ := tells.objects before hb told
      exact ⟨_, congrArg (expand wrapper) body⟩
    · obtain ⟨element, body⟩ := tells.arrays before hb told
      exact ⟨_, congrArg (expand wrapper) body⟩

theorem tells_inlineArrays (tells : Tells isObject isArray types) :
    Tells isObject isArray (inlineArrays root types) := by
  have all : Tells isObject isArray (expanded root types) := tells_expandRounds rounds tells
  rw [inlineArrays_eq]
  constructor <;> intro t ht
  · exact all.objects t (List.mem_filter.mp ht).1
  · exact all.arrays t (List.mem_filter.mp ht).1

end Inline

/-! ## The mark of the root and final names -/

namespace Definition

variable {types : List (Definition Key)} {unfolding : Key → TypeExpr Empty}
  {isObject isArray : Key → Prop}

theorem NormalForm.marked (normalForm : NormalForm unfolding isObject isArray types) (root : Key) :
    NormalForm unfolding isObject isArray (types.map (marked root)) := by
  refine ⟨?_, ?_, ?_⟩ <;> intro t ht <;> obtain ⟨before, hb, rfl⟩ := List.mem_map.mp ht
  · exact normalForm.unfolds before hb
  · exact normalForm.normal before hb
  · exact normalForm.inOrder before hb

theorem Tells.marked (tells : Tells isObject isArray types) (root : Key) :
    Tells isObject isArray (types.map (marked root)) := by
  constructor <;> intro t ht <;> obtain ⟨before, hb, rfl⟩ := List.mem_map.mp ht
  · exact tells.objects before hb
  · exact tells.arrays before hb

end Definition

namespace Naming

open Definition (NormalForm Tells DefinesObject DefinesArray Closed names mem_names)

variable {ν : Type} {types : List (Definition ν)} {unfolding : ν → TypeExpr Empty}
  {unfolding' : String → TypeExpr Empty} {isObject isArray : ν → Prop} {final : ν → String}
  {name : ν}

theorem definesObject_rename (tells : Tells isObject isArray types) (hn : name ∈ names types)
    (object : isObject name) : DefinesObject (types.map (rename final)) (final name) := by
  obtain ⟨t, ht, rfl⟩ := mem_names.mp hn
  obtain ⟨members, body⟩ := tells.objects t ht object
  exact ⟨_, List.mem_map_of_mem ht, rfl, _, congrArg (Body.subst _) body⟩

theorem definesArray_rename (tells : Tells isObject isArray types) (hn : name ∈ names types)
    (array : isArray name) (inner : ∀ t ∈ types, t.name = name → t.isRoot = false) :
    DefinesArray (types.map (rename final)) (final name) := by
  obtain ⟨t, ht, rfl⟩ := mem_names.mp hn
  obtain ⟨element, body⟩ := tells.arrays t ht array
  exact ⟨_, List.mem_map_of_mem ht, rfl, inner t ht rfl, _, congrArg (Body.subst _) body⟩

/-- Final names that unfold as the names do keep the normal form, if nothing refers to the root. -/
theorem normalForm_rename (closed : Closed types)
    (inner : ∀ t ∈ types, ∀ ref ∈ t.body.references, ∀ t' ∈ types, t'.name = ref →
      t'.isRoot = false)
    (normalForm : NormalForm unfolding isObject isArray types)
    (tells : Tells isObject isArray types)
    (same : ∀ name ∈ names types, unfolding' (final name) = unfolding name) :
    let out := types.map (rename final)
    NormalForm unfolding' (DefinesObject out) (DefinesArray out) out := by
  intro out
  refine ⟨unfolds_rename normalForm.unfolds closed same, ?_, ?_⟩ <;> intro t ht <;>
    obtain ⟨before, hb, rfl⟩ := List.mem_map.mp ht
  · apply (normalForm.normal before hb).subst
    intro ref hr
    exact ⟨.named _, rfl, same ref (closed before hb ref hr)⟩
  · apply (normalForm.inOrder before hb).subst fun _ => rfl
    · intro ref hr object
      exact ⟨_, rfl, definesObject_rename tells (closed before hb ref hr) object⟩
    · intro ref hr array
      have inner := inner before hb ref hr
      exact .inr ⟨_, rfl, definesArray_rename tells (closed before hb ref hr) array inner⟩

theorem map_unfolding_rename
    (same : ∀ name ∈ names types, unfolding' (final name) = unfolding name) :
    (names (types.map (rename final))).map unfolding' = (names types).map unfolding := by
  rw [names, names, List.map_map, List.map_map, List.map_map]
  exact List.map_congr_left fun t ht => same t.name (mem_names.mpr ⟨t, ht, rfl⟩)

end Naming

/-- Marking the root and naming keep the normal form and the unfoldings, if nothing refers to the
root. -/
theorem Definition.Serializable.normalForm_named {types : List (Definition Key)} {root : Key}
    {unfolding : Key → TypeExpr Empty} {isObject isArray : Key → Prop}
    (serializable : Serializable root types)
    (others : ∀ t ∈ types, ∀ ref ∈ t.body.references, ref ≠ root)
    (normalForm : NormalForm unfolding isObject isArray types)
    (tells : Tells isObject isArray types) (options : Options) :
    let out := Naming.named root options (types.map (marked root))
    ∃ unfolding', NormalForm unfolding' (DefinesObject out) (DefinesArray out) out ∧
      (names out).map unfolding' = (names types).map unfolding ∧
      unfolding' options.rootName = unfolding root := by
  intro out
  have distinct := Naming.nodup_names_rename
    (fun _ hn _ hn' => Naming.finalName_injOn root options hn hn') serializable.distinct_marked
  obtain ⟨unfolding', same⟩ := Naming.exists_unfolding_final unfolding distinct
  have inner : ∀ t ∈ types.map (marked root), ∀ ref ∈ t.body.references,
      ∀ t' ∈ types.map (marked root), t'.name = ref → t'.isRoot = false := by
    intro t ht ref hr t' ht' named
    obtain ⟨before, hb, rfl⟩ := List.mem_map.mp ht
    obtain ⟨before', hb', rfl⟩ := List.mem_map.mp ht'
    have other : before'.name ≠ root := fun atRoot => others before hb ref hr (named.symm.trans atRoot)
    simp [marked, serializable.unmarked before' hb', other]
  refine ⟨unfolding', ?_, ?_, ?_⟩
  · exact Naming.normalForm_rename serializable.closed_marked inner (normalForm.marked root)
      (tells.marked root) same
  · rw [← names_marked root types]
    exact Naming.map_unfolding_rename same
  · have rooted : root ∈ names (types.map (marked root)) :=
      names_marked root types ▸ serializable.root
    rw [← Naming.finalName_root root options rooted]
    exact same root rooted

/-- The definitions of a saved root that is kept for a regular tree are well-formed and in normal
form. No two of them unfold to the same, and the root unfolds to the tree. -/
theorem definitions_normalForm {store : Store} (ordered : store.Ordered) {shape : Composite Key}
    (there : store.contains (.address shape) = true) (stands : Collect.Stands shape)
    (options : Options) :
    ∃ types unfolding, definitions store (.address shape) options = .ok types ∧
      Definition.WellFormed options.rootName types ∧
      Definition.NormalForm unfolding (Definition.DefinesObject types)
        (Definition.DefinesArray types) types ∧
      ((Definition.names types).map unfolding).Nodup ∧
      unfolding options.rootName = (Key.treeOfComposite shape).type := by
  obtain ⟨shapes, ran, settled, covers, needed⟩ := Collect.collect_ok ordered there
  have stands := Collect.stands_of_needed stands needed
  have serializable := Definition.serializable_of_settled settled covers
  have layered : Definition.Layered
      (inlineArrays (.address shape) (shapes.map Collect.definitionOf)) :=
    Inline.layered_inlineArrays serializable.distinct settled.layered
  have reached := Inline.reachedFrom_inlineArrays serializable.distinct settled.layered
    serializable.root (settled.reachedFrom covers needed)
  have inlined := serializable.inlineArrays
  have tells := Collect.tells_definitionOf shapes
  obtain ⟨unfolding, normalForm, kept, rooted⟩ := inlined.normalForm_named
    (layered.ne_root inlined.distinct inlined.root reached)
    (Inline.normalForm_inlineArrays (Collect.normalForm_definitionOf stands) tells)
    (Inline.tells_inlineArrays tells) options
  have distinct := (settled.nodup_unfolding stands).sublist
    ((Inline.names_inlineArrays_sublist (.address shape) _).map _)
  exact ⟨_, unfolding, serializable.definitions_eq ran options,
    inlined.wellFormed layered reached options, normalForm, kept ▸ distinct, rooted⟩

end Exemplar
