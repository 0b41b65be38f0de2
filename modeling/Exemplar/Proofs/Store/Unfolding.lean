import Exemplar.Proofs.Store.Order
import Exemplar.Proofs.Tree
import Mathlib.Order.Nat

/-!
# Shapes resolved through a store

A store resolves references by look-up. Unfolding replaces each reference by the
shape found for it, and fails where none is found; acceptance follows references
value by value. In an ordered store that has the references, both say what the
tree of the key says.
-/

namespace Exemplar

namespace Store

mutual

/-- The shape under a key with every reference replaced by the shape that the store has for it. -/
def unfoldKey (store : Store) : Key → Option Tree
  | .of depth shape =>
    if store.contains (.of depth shape) then unfoldComposite store shape else none

def unfoldComposite (store : Store) : Composite Key → Option Tree
  | .array elements => (unfoldAll store elements).map .array
  | .object fields => (unfoldFields store fields).map .object

def unfoldFields (store : Store) : List (Field Key) → Option (List (Member (List Tree)))
  | [] => some []
  | ⟨name, types, nullable⟩ :: rest => do
    let types ← unfoldAll store types
    return ⟨name, types, nullable⟩ :: (← unfoldFields store rest)

def unfoldAll (store : Store) : List (Leaf Key) → Option (List Tree)
  | [] => some []
  | leaf :: rest => do
    let tree ← unfold store leaf
    return tree :: (← unfoldAll store rest)

def unfold (store : Store) : Leaf Key → Option Tree
  | .primitive kind => some (.primitive kind)
  | .array elements => (unfoldAll store elements).map .array
  | .object ref => unfoldKey store ref

end

variable {store : Store}

/-- A key unfolds to what is found under it, unfolded. -/
theorem unfoldKey_eq (store : Store) (key : Key) :
    store.unfoldKey key = (store.find? key).bind store.unfoldComposite := by
  obtain ⟨depth, shape⟩ := key
  rw [unfoldKey, find?]
  split <;> rfl

theorem unfoldAll_of_each {leaves : List (Leaf Key)}
    (each : ∀ leaf ∈ leaves, store.unfold leaf = some (Key.treeOfLeaf leaf)) :
    store.unfoldAll leaves = some (leaves.map Key.treeOfLeaf) := by
  induction leaves with
  | nil => rfl
  | cons leaf rest ih =>
    rw [unfoldAll, each leaf List.mem_cons_self,
      ih fun other h => each other (List.mem_cons_of_mem leaf h)]
    rfl

theorem unfold_of_references {leaf : Leaf Key}
    (each : ∀ ref ∈ leaf.references, store.unfoldKey ref = some ref.tree) :
    store.unfold leaf = some (Key.treeOfLeaf leaf) := by
  induction leaf using Leaf.inPlace_induction with
  | primitive kind => rfl
  | array elements ih =>
    have all := unfoldAll_of_each fun leaf hl => ih leaf hl fun ref hr =>
      each ref (Leaf.mem_referencesOfAll.mpr ⟨leaf, hl, hr⟩)
    rw [unfold, all, Key.treeOfLeaf, Key.treesOfLeaves_eq_map]
    rfl
  | object ref => exact each ref List.mem_cons_self

theorem unfoldAll_of_references {leaves : List (Leaf Key)}
    (each : ∀ ref ∈ Leaf.referencesOfAll leaves, store.unfoldKey ref = some ref.tree) :
    store.unfoldAll leaves = some (leaves.map Key.treeOfLeaf) :=
  unfoldAll_of_each fun leaf hl => unfold_of_references fun ref hr =>
    each ref (Leaf.mem_referencesOfAll.mpr ⟨leaf, hl, hr⟩)

theorem unfoldFields_of_references {fields : List (Field Key)}
    (each : ∀ ref ∈ Field.referencesOfAll fields, store.unfoldKey ref = some ref.tree) :
    store.unfoldFields fields = some (Key.treesOfFields fields) := by
  induction fields with
  | nil => rfl
  | cons field rest ih =>
    have types := unfoldAll_of_references fun ref hr => each ref (List.mem_append_left _ hr)
    rw [unfoldFields, types, ih fun ref hr => each ref (List.mem_append_right _ hr),
      Key.treesOfFields, Key.treesOfLeaves_eq_map]
    rfl

theorem unfoldComposite_of_references {shape : Composite Key}
    (each : ∀ ref ∈ shape.references, store.unfoldKey ref = some ref.tree) :
    store.unfoldComposite shape = some (Key.treeOfComposite shape) := by
  cases shape with
  | array elements =>
    rw [unfoldComposite, unfoldAll_of_references each, Key.treeOfComposite, Key.treesOfLeaves_eq_map]
    rfl
  | object fields =>
    rw [unfoldComposite, unfoldFields_of_references each, Key.treeOfComposite]
    rfl

/-- A saved shape unfolds to its tree: its references nest less deep and were saved. -/
theorem unfoldKey_of_contains (ordered : store.Ordered) {key : Key}
    (there : store.contains key = true) : store.unfoldKey key = some key.tree := by
  induction n : key.depth using Nat.strongRecOn generalizing key with
  | ind n ih =>
    obtain ⟨shape, member, rfl⟩ := contains_iff.mp there
    rw [unfoldKey_eq, find?_of_contains there]
    refine unfoldComposite_of_references ?_
    intro ref hr
    have below := Key.depth_lt_of_mem_references hr
    exact ih ref.depth (n ▸ below) (ordered.holds_references member ref hr) rfl

theorem unfoldAll_of_holds (ordered : store.Ordered) {leaves : List (Leaf Key)}
    (there : store.Holds (Leaf.referencesOfAll leaves)) :
    store.unfoldAll leaves = some (leaves.map Key.treeOfLeaf) :=
  unfoldAll_of_references fun ref hr => unfoldKey_of_contains ordered (there ref hr)

/-! ## The depth of what is unfolded -/

theorem depth_treeOfLeaf_of_references {leaf : Leaf Key}
    (each : ∀ ref ∈ leaf.references, ref.tree.depth = ref.depth) :
    (Key.treeOfLeaf leaf).depth = Key.depthOfLeaf leaf := by
  induction leaf using Leaf.inPlace_induction with
  | primitive kind => rfl
  | array elements ih =>
    have same : Tree.depthOfAll (elements.map Key.treeOfLeaf) = Key.depthOfLeaves elements := by
      apply eq_of_forall_ge_iff
      intro n
      rw [Tree.depthOfAll_le_iff, Key.depthOfLeaves_le_iff, List.forall_mem_map]
      refine forall₂_congr fun leaf hl => ?_
      rw [ih leaf hl fun ref hr => each ref (Leaf.mem_referencesOfAll.mpr ⟨leaf, hl, hr⟩)]
    rw [Key.treeOfLeaf, Key.treesOfLeaves_eq_map, Tree.depth, same, Key.depthOfLeaf]
  | object ref => exact each ref List.mem_cons_self

theorem depthOfAll_of_references {leaves : List (Leaf Key)}
    (each : ∀ ref ∈ Leaf.referencesOfAll leaves, ref.tree.depth = ref.depth) :
    Tree.depthOfAll (leaves.map Key.treeOfLeaf) = Key.depthOfLeaves leaves := by
  have array : (Key.treeOfLeaf (.array leaves)).depth = Key.depthOfLeaf (.array leaves) :=
    depth_treeOfLeaf_of_references each
  rw [Key.treeOfLeaf, Key.treesOfLeaves_eq_map, Tree.depth, Key.depthOfLeaf] at array
  exact Nat.succ_inj.mp array

theorem depth_treeOfComposite_of_references {shape : Composite Key}
    (each : ∀ ref ∈ shape.references, ref.tree.depth = ref.depth) :
    (Key.treeOfComposite shape).depth = Key.depthOfComposite shape := by
  cases shape with
  | array elements =>
    rw [Key.treeOfComposite, Key.treesOfLeaves_eq_map, Tree.depth, depthOfAll_of_references each,
      Key.depthOfComposite]
  | object fields =>
    have same : Tree.depthOfFields (fields.map Key.treeOfField) = Key.depthOfFields fields := by
      apply eq_of_forall_ge_iff
      intro n
      rw [Tree.depthOfFields_le_iff, Key.depthOfFields_le_iff, List.forall_mem_map]
      refine forall₂_congr fun field hf => ?_
      rw [Key.treeOfField, depthOfAll_of_references fun ref hr =>
        each ref (List.mem_flatMap.mpr ⟨field, hf, hr⟩)]
    rw [Key.treeOfComposite, Key.treesOfFields_eq_map, Tree.depth, same, Key.depthOfComposite]

/-- A saved shape is as deep as its tree. -/
theorem depth_tree (ordered : store.Ordered) {key : Key} (there : store.contains key = true) :
    key.tree.depth = key.depth := by
  induction n : key.depth using Nat.strongRecOn generalizing key with
  | ind n ih =>
    obtain ⟨shape, member, rfl⟩ := contains_iff.mp there
    rw [← n, Key.tree_address]
    apply depth_treeOfComposite_of_references
    intro ref hr
    have below := Key.depth_lt_of_mem_references hr
    exact ih ref.depth (n ▸ below) (ordered.holds_references member ref hr) rfl

theorem depthOfAll_of_holds (ordered : store.Ordered) {leaves : List (Leaf Key)}
    (there : store.Holds (Leaf.referencesOfAll leaves)) :
    Tree.depthOfAll (leaves.map Key.treeOfLeaf) = Key.depthOfLeaves leaves :=
  depthOfAll_of_references fun ref hr => depth_tree ordered (there ref hr)

end Store

/-! ## Acceptance -/

namespace Leaf

variable {κ : Type}

mutual

/-- The values that a leaf accepts, given what references accept. -/
def Accepts (M : Meaning κ) : Leaf κ → Json → Prop
  | .primitive kind, value => value.kind? = some kind
  | .array elements, value => value.IsArrayOf (AcceptsAny M elements)
  | .object ref, value => M ref value

def AcceptsAny (M : Meaning κ) : List (Leaf κ) → Json → Prop
  | [], _ => False
  | leaf :: rest, value => Accepts M leaf value ∨ AcceptsAny M rest value

end

theorem acceptsAny_iff {M : Meaning κ} {leaves : List (Leaf κ)} {value : Json} :
    AcceptsAny M leaves value ↔ ∃ leaf ∈ leaves, leaf.Accepts M value := by
  induction leaves with
  | nil => simp [AcceptsAny]
  | cons leaf rest ih => simp [AcceptsAny, ih]

/-- A leaf accepts no less when its references accept no less. -/
theorem Accepts.mono {M N : Meaning κ} {leaf : Leaf κ} {value : Json} (h : leaf.Accepts M value)
    (le : ∀ ref ∈ leaf.references, ∀ part, part.nesting ≤ value.nesting →
      M ref part → N ref part) : leaf.Accepts N value := by
  induction leaf using inPlace_induction generalizing value with
  | primitive kind => exact h
  | array elements ih =>
    refine Json.IsArrayOf.mono h ?_
    intro part below accepted
    obtain ⟨leaf, hl, accepted⟩ := acceptsAny_iff.mp accepted
    refine acceptsAny_iff.mpr ⟨leaf, hl, ih leaf hl accepted fun ref hr inner hi => ?_⟩
    exact le ref (mem_referencesOfAll.mpr ⟨leaf, hl, hr⟩) inner (by omega)
  | object ref => exact le ref List.mem_cons_self value (Nat.le_refl _) h

theorem AcceptsAny.mono {M N : Meaning κ} {leaves : List (Leaf κ)} {value : Json}
    (h : AcceptsAny M leaves value) (le : ∀ ref ∈ referencesOfAll leaves, ∀ part,
      part.nesting ≤ value.nesting → M ref part → N ref part) : AcceptsAny N leaves value := by
  obtain ⟨leaf, hl, accepted⟩ := acceptsAny_iff.mp h
  refine acceptsAny_iff.mpr ⟨leaf, hl, accepted.mono fun ref hr => le ref ?_⟩
  exact mem_referencesOfAll.mpr ⟨leaf, hl, hr⟩

end Leaf

namespace Composite

variable {κ : Type}

def Accepts (M : Meaning κ) : Composite κ → Json → Prop
  | .array elements, value => value.IsArrayOf (Leaf.AcceptsAny M elements)
  | .object fields, value =>
    value.IsRecordOf
      (fun name part => ∃ field ∈ fields, field.name = name ∧ Leaf.AcceptsAny M field.types part)
      fun name => ∃ field ∈ fields, field.name = name ∧ field.nullable = false

/-- A composite asks references about the parts of a value only. -/
theorem Accepts.mono {M N : Meaning κ} {shape : Composite κ} {value : Json}
    (h : shape.Accepts M value) (le : ∀ ref ∈ shape.references, ∀ part,
      part.nesting < value.nesting → M ref part → N ref part) : shape.Accepts N value := by
  cases shape with
  | array elements =>
    refine Json.IsArrayOf.mono h ?_
    intro part below accepted
    exact accepted.mono fun ref hr inner hi => le ref hr inner (by omega)
  | object fields =>
    rw [Accepts] at h ⊢
    refine h.mono (fun name part below => ?_) fun _ => id
    rintro ⟨field, hf, same, accepted⟩
    refine ⟨field, hf, same, accepted.mono fun ref hr inner hi => ?_⟩
    exact le ref (List.mem_flatMap.mpr ⟨field, hf, hr⟩) inner (by omega)

theorem accepts_congr {M N : Meaning κ} {shape : Composite κ} {value : Json}
    (same : ∀ ref ∈ shape.references, ∀ part, part.nesting < value.nesting →
      (M ref part ↔ N ref part)) : shape.Accepts M value ↔ shape.Accepts N value :=
  ⟨fun h => h.mono fun ref hr part hp => (same ref hr part hp).mp,
    fun h => h.mono fun ref hr part hp => (same ref hr part hp).mpr⟩

end Composite

namespace Key

/-- What a key accepts by its own content: what its tree accepts. -/
def Accepts : Meaning Key := fun key => key.tree.Accepts

theorem acceptsAny_of_each {leaves : List (Leaf Key)}
    (each : ∀ leaf ∈ leaves, (treeOfLeaf leaf).Accepts = leaf.Accepts Accepts) :
    Tree.AcceptsAny (treesOfLeaves leaves) = Leaf.AcceptsAny Accepts leaves := by
  funext value
  rw [Tree.acceptsAny_iff, Leaf.acceptsAny_iff, treesOfLeaves_eq_map, eq_iff_iff]
  constructor
  · rintro ⟨tree, ht, accepted⟩
    obtain ⟨leaf, hl, rfl⟩ := List.mem_map.mp ht
    exact ⟨leaf, hl, each leaf hl ▸ accepted⟩
  · rintro ⟨leaf, hl, accepted⟩
    exact ⟨treeOfLeaf leaf, List.mem_map_of_mem hl, each leaf hl ▸ accepted⟩

/-- The tree of a leaf accepts what the leaf accepts, its references read as keys. -/
theorem accepts_treeOfLeaf (leaf : Leaf Key) : (treeOfLeaf leaf).Accepts = leaf.Accepts Accepts := by
  induction leaf using Leaf.inPlace_induction with
  | primitive kind => rfl
  | array elements ih =>
    funext value
    rw [treeOfLeaf, Tree.Accepts, Leaf.Accepts, acceptsAny_of_each ih]
  | object ref => rfl

theorem acceptsAny_treesOfLeaves (leaves : List (Leaf Key)) :
    Tree.AcceptsAny (treesOfLeaves leaves) = Leaf.AcceptsAny Accepts leaves :=
  acceptsAny_of_each fun leaf _ => accepts_treeOfLeaf leaf

/-- The tree of a composite accepts what the composite accepts, its references read as keys. -/
theorem accepts_treeOfComposite (shape : Composite Key) :
    (treeOfComposite shape).Accepts = shape.Accepts Accepts := by
  funext value
  cases shape with
  | array elements =>
    rw [treeOfComposite, Tree.Accepts, Composite.Accepts, acceptsAny_treesOfLeaves]
  | object fields =>
    have listed : Tree.AcceptsField (treesOfFields fields) = fun name part =>
        ∃ field ∈ fields, field.name = name ∧ Leaf.AcceptsAny Accepts field.types part := by
      funext name part
      simp only [Tree.acceptsField_iff, treesOfFields_eq_map, List.mem_map, exists_exists_and_eq_and,
        treeOfField, ← acceptsAny_treesOfLeaves, treesOfLeaves_eq_map]
    have mandatory : ∀ name, (∃ field ∈ treesOfFields fields, field.name = name ∧
        field.nullable = false) ↔ ∃ field ∈ fields, field.name = name ∧ field.nullable = false := by
      intro name
      simp only [treesOfFields_eq_map, List.mem_map, exists_exists_and_eq_and, treeOfField]
    simp only [treeOfComposite, Tree.Accepts, Composite.Accepts, listed, mandatory]

end Key

namespace Store

variable {store : Store}

/-- How a store gives keys a meaning: a key accepts what the shape found under it accepts. -/
def rule (store : Store) (M : Meaning Key) : Meaning Key :=
  fun key value => ∃ shape, store.find? key = some shape ∧ shape.Accepts M value

theorem guarded_rule (store : Store) : Meaning.Guarded store.rule := by
  rintro M N key value le ⟨shape, found, accepted⟩
  exact ⟨shape, found, accepted.mono fun ref _ => le ref⟩

/-- The values that a key accepts, with references resolved through the store. -/
def Accepts (store : Store) : Meaning Key := Meaning.fixed store.rule

/-- A saved shape, resolved through the store, accepts what its tree accepts. -/
theorem accepts_iff_tree (ordered : store.Ordered) {key : Key}
    (there : store.contains key = true) (value : Json) :
    store.Accepts key value ↔ key.tree.Accepts value := by
  refine Meaning.agree (M := store.Accepts) (N := Key.Accepts)
    (fun a b => a = b ∧ store.contains a = true) ?_ ⟨rfl, there⟩ value
  rintro key _ ⟨rfl, there⟩ value same
  obtain ⟨shape, member, rfl⟩ := contains_iff.mp there
  have resolved : store.Accepts (.address shape) value ↔ shape.Accepts store.Accepts value := by
    refine (Meaning.fixed_iff store.guarded_rule _ value).trans ?_
    rw [rule, find?_of_contains there]
    constructor
    · rintro ⟨found, same, accepted⟩
      cases same
      exact accepted
    · exact fun accepted => ⟨shape, rfl, accepted⟩
  have inPlace : Key.Accepts (.address shape) value ↔ shape.Accepts Key.Accepts value := by
    rw [Key.Accepts, Key.tree_address, Key.accepts_treeOfComposite]
  rw [resolved, inPlace]
  refine Composite.accepts_congr ?_
  intro ref hr part below
  exact same ref ref ⟨rfl, ordered.holds_references member ref hr⟩ part below

end Store

end Exemplar
