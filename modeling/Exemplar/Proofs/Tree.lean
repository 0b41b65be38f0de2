import Exemplar.Definition
import Exemplar.Proofs.Shape.References
import Exemplar.Proofs.Acceptance

/-!
# Trees

A tree is a leaf without references: objects stand in place of the keys that
lead to them. Trees are what shapes mean. Every tree has a leaf, whose keys are
made from the tree alone; unfolding that leaf gives the tree back, so equal
leaves are equal trees.
-/

namespace Exemplar

/-- The shape of one value, with everything in place. -/
inductive Tree where
  | primitive (kind : Kind)
  | array (elements : List Tree)
  | object (fields : List (Member (List Tree)))

namespace Tree

mutual

/-- Induction on the parts of a tree. -/
theorem parts_induction {P : Tree → Prop} (primitive : ∀ kind, P (.primitive kind))
    (array : ∀ elements, (∀ tree ∈ elements, P tree) → P (.array elements))
    (object : ∀ fields, (∀ field ∈ fields, ∀ tree ∈ field.type, P tree) → P (.object fields))
    (tree : Tree) : P tree := by
  match tree with
  | .primitive kind => exact primitive kind
  | .array elements => exact array elements (parts_induction_all primitive array object elements)
  | .object fields => exact object fields (parts_induction_fields primitive array object fields)

theorem parts_induction_all {P : Tree → Prop} (primitive : ∀ kind, P (.primitive kind))
    (array : ∀ elements, (∀ tree ∈ elements, P tree) → P (.array elements))
    (object : ∀ fields, (∀ field ∈ fields, ∀ tree ∈ field.type, P tree) → P (.object fields))
    (trees : List Tree) : ∀ tree ∈ trees, P tree := by
  match trees with
  | [] => simp
  | tree :: rest =>
    intro other h
    rcases List.mem_cons.mp h with same | h
    · exact same ▸ parts_induction primitive array object tree
    · exact parts_induction_all primitive array object rest other h

theorem parts_induction_fields {P : Tree → Prop} (primitive : ∀ kind, P (.primitive kind))
    (array : ∀ elements, (∀ tree ∈ elements, P tree) → P (.array elements))
    (object : ∀ fields, (∀ field ∈ fields, ∀ tree ∈ field.type, P tree) → P (.object fields))
    (fields : List (Member (List Tree))) : ∀ field ∈ fields, ∀ tree ∈ field.type, P tree := by
  match fields with
  | [] => simp
  | ⟨_, types, _⟩ :: rest =>
    intro other h
    rcases List.mem_cons.mp h with same | h
    · exact same ▸ parts_induction_all primitive array object types
    · exact parts_induction_fields primitive array object rest other h

end

mutual

def Accepts : Tree → Json → Prop
  | .primitive kind, value => value.kind? = some kind
  | .array elements, value => value.IsArrayOf (AcceptsAny elements)
  | .object fields, value =>
    value.IsRecordOf (AcceptsField fields)
      fun name => ∃ field ∈ fields, field.name = name ∧ field.nullable = false

def AcceptsAny : List Tree → Json → Prop
  | [], _ => False
  | tree :: rest, value => Accepts tree value ∨ AcceptsAny rest value

def AcceptsField : List (Member (List Tree)) → String → Json → Prop
  | [], _, _ => False
  | ⟨name, types, _⟩ :: rest, key, value =>
    name = key ∧ AcceptsAny types value ∨ AcceptsField rest key value

end

theorem acceptsAny_iff {trees : List Tree} {value : Json} :
    AcceptsAny trees value ↔ ∃ tree ∈ trees, tree.Accepts value := by
  induction trees with
  | nil => simp [AcceptsAny]
  | cons tree rest ih => simp [AcceptsAny, ih]

theorem acceptsField_iff {fields : List (Member (List Tree))} {key : String} {value : Json} :
    AcceptsField fields key value ↔
      ∃ field ∈ fields, field.name = key ∧ AcceptsAny field.type value := by
  induction fields with
  | nil => simp [AcceptsField]
  | cons field rest ih => simp [AcceptsField, ih]

theorem accepts_object_iff {fields : List (Member (List Tree))} {members : List (String × Json)} :
    (Tree.object fields).Accepts (.object members) ↔
      (∀ m ∈ members, AcceptsField fields m.1 m.2) ∧
        ∀ field ∈ fields, field.nullable = false → ∃ m ∈ members, m.1 = field.name := by
  rw [Accepts, Json.isRecordOf_object]
  refine and_congr_right fun _ => ⟨fun all field hf needed => ?_, fun all name needed => ?_⟩
  · exact all field.name ⟨field, hf, rfl, needed⟩
  · obtain ⟨field, hf, rfl, needed⟩ := needed
    exact all field hf needed

mutual

/-- Whether a tree accepts a value is decidable. -/
def decideAccepts : (tree : Tree) → (value : Json) → Decidable (tree.Accepts value)
  | .primitive kind, value => inferInstanceAs (Decidable (value.kind? = some kind))
  | .array elements, .array items =>
    have := decideAcceptsAny elements
    decidable_of_iff (∀ part ∈ items, AcceptsAny elements part) Json.isArrayOf_array.symm
  | .object fields, .object _ =>
    have := decideAcceptsField fields
    decidable_of_iff _ accepts_object_iff.symm
  | .array _, .null => isFalse nofun
  | .array _, .boolean _ => isFalse nofun
  | .array _, .number _ => isFalse nofun
  | .array _, .string _ => isFalse nofun
  | .array _, .object _ => isFalse nofun
  | .object _, .null => isFalse nofun
  | .object _, .boolean _ => isFalse nofun
  | .object _, .number _ => isFalse nofun
  | .object _, .string _ => isFalse nofun
  | .object _, .array _ => isFalse nofun

def decideAcceptsAny : (trees : List Tree) → (value : Json) → Decidable (AcceptsAny trees value)
  | [], _ => isFalse id
  | tree :: rest, value =>
    have := decideAccepts tree value
    have := decideAcceptsAny rest value
    inferInstanceAs (Decidable (_ ∨ _))

def decideAcceptsField : (fields : List (Member (List Tree))) → (key : String) → (value : Json) →
    Decidable (AcceptsField fields key value)
  | [], _, _ => isFalse id
  | ⟨name, types, _⟩ :: rest, key, value =>
    have := decideAcceptsAny types value
    have := decideAcceptsField rest key value
    inferInstanceAs (Decidable (name = key ∧ _ ∨ _))

end

instance (tree : Tree) (value : Json) : Decidable (tree.Accepts value) := decideAccepts tree value

instance (trees : List Tree) (value : Json) : Decidable (AcceptsAny trees value) :=
  decideAcceptsAny trees value

/-! ## Leaves and trees -/

mutual

/-- The leaf of a tree: objects go under their keys. -/
def toLeaf : Tree → Leaf Key
  | .primitive kind => .primitive kind
  | .array elements => .array (toLeaves elements)
  | .object fields => .object (.address (.object (toFields fields)))

def toLeaves : List Tree → List (Leaf Key)
  | [] => []
  | tree :: rest => toLeaf tree :: toLeaves rest

def toFields : List (Member (List Tree)) → List (Field Key)
  | [] => []
  | ⟨name, types, nullable⟩ :: rest => ⟨name, toLeaves types, nullable⟩ :: toFields rest

end

theorem toLeaves_eq_map (trees : List Tree) : toLeaves trees = trees.map toLeaf := by
  induction trees with
  | nil => rfl
  | cons tree rest ih => rw [toLeaves, ih, List.map_cons]

def toField (field : Member (List Tree)) : Field Key :=
  ⟨field.name, field.type.map toLeaf, field.nullable⟩

theorem toFields_eq_map (fields : List (Member (List Tree))) :
    toFields fields = fields.map toField := by
  induction fields with
  | nil => rfl
  | cons field rest ih => rw [toFields, ih, List.map_cons, toLeaves_eq_map]; rfl

end Tree

namespace Key

mutual

/-- The tree of the shape under a key: the shape with its references unfolded. -/
def tree : Key → Tree
  | .of _ shape => treeOfComposite shape

def treeOfComposite : Composite Key → Tree
  | .array elements => .array (treesOfLeaves elements)
  | .object fields => .object (treesOfFields fields)

def treesOfFields : List (Field Key) → List (Member (List Tree))
  | [] => []
  | ⟨name, types, nullable⟩ :: rest => ⟨name, treesOfLeaves types, nullable⟩ :: treesOfFields rest

def treesOfLeaves : List (Leaf Key) → List Tree
  | [] => []
  | leaf :: rest => treeOfLeaf leaf :: treesOfLeaves rest

def treeOfLeaf : Leaf Key → Tree
  | .primitive kind => .primitive kind
  | .array elements => .array (treesOfLeaves elements)
  | .object ref => tree ref

end

theorem treesOfLeaves_eq_map (leaves : List (Leaf Key)) :
    treesOfLeaves leaves = leaves.map treeOfLeaf := by
  induction leaves with
  | nil => rfl
  | cons leaf rest ih => rw [treesOfLeaves, ih, List.map_cons]

def treeOfField (field : Field Key) : Member (List Tree) :=
  ⟨field.name, field.types.map treeOfLeaf, field.nullable⟩

theorem treesOfFields_eq_map (fields : List (Field Key)) :
    treesOfFields fields = fields.map treeOfField := by
  induction fields with
  | nil => rfl
  | cons field rest ih => rw [treesOfFields, ih, List.map_cons, treesOfLeaves_eq_map]; rfl

@[simp] theorem tree_address (shape : Composite Key) : (address shape).tree = treeOfComposite shape :=
  rfl

end Key

namespace Tree

/-- Unfolding the leaf of a tree gives the tree. -/
@[simp] theorem treeOfLeaf_toLeaf (tree : Tree) : Key.treeOfLeaf tree.toLeaf = tree := by
  induction tree using parts_induction with
  | primitive kind => rfl
  | array elements ih =>
    have same : (elements.map toLeaf).map Key.treeOfLeaf = elements := by
      rw [List.map_map]
      exact (List.map_congr_left ih).trans (List.map_id _)
    rw [toLeaf, Key.treeOfLeaf, toLeaves_eq_map, Key.treesOfLeaves_eq_map, same]
  | object fields ih =>
    have same : (fields.map toField).map Key.treeOfField = fields := by
      rw [List.map_map]
      refine (List.map_congr_left fun field hf => ?_).trans (List.map_id _)
      have types : (field.type.map toLeaf).map Key.treeOfLeaf = field.type := by
        rw [List.map_map]
        exact (List.map_congr_left (ih field hf)).trans (List.map_id _)
      rw [Function.comp, toField, Key.treeOfField, types, id]
    rw [toLeaf, Key.treeOfLeaf, Key.tree_address, Key.treeOfComposite, toFields_eq_map,
      Key.treesOfFields_eq_map, same]

theorem toLeaf_injective : Function.Injective toLeaf :=
  Function.LeftInverse.injective treeOfLeaf_toLeaf

instance : DecidableEq Tree := fun _ _ => decidable_of_iff _ toLeaf_injective.eq_iff

/-- Unfolding the leaves of trees gives the trees. -/
theorem map_treeOfLeaf_toLeaf (trees : List Tree) :
    (trees.map toLeaf).map Key.treeOfLeaf = trees := by
  rw [List.map_map]
  exact (List.map_congr_left fun tree _ => treeOfLeaf_toLeaf tree).trans (List.map_id _)

/-! ## Depth -/

mutual

def depth : Tree → Nat
  | .primitive _ => 0
  | .array elements => depthOfAll elements + 1
  | .object fields => depthOfFields fields + 1

def depthOfAll : List Tree → Nat
  | [] => 0
  | tree :: rest => max (depth tree) (depthOfAll rest)

def depthOfFields : List (Member (List Tree)) → Nat
  | [] => 0
  | ⟨_, types, _⟩ :: rest => max (depthOfAll types) (depthOfFields rest)

end

theorem depthOfAll_le_iff {trees : List Tree} {n : Nat} :
    depthOfAll trees ≤ n ↔ ∀ tree ∈ trees, tree.depth ≤ n := by
  induction trees with
  | nil => simp [depthOfAll]
  | cons tree rest ih => simp only [depthOfAll, Nat.max_le, ih, List.forall_mem_cons]

theorem depthOfFields_le_iff {fields : List (Member (List Tree))} {n : Nat} :
    depthOfFields fields ≤ n ↔ ∀ field ∈ fields, depthOfAll field.type ≤ n := by
  induction fields with
  | nil => simp [depthOfFields]
  | cons field rest ih => simp only [depthOfFields, Nat.max_le, ih, List.forall_mem_cons]

mutual

/-- A leaf of a tree has the depth of the tree. -/
@[simp] theorem depthOfLeaf_toLeaf (tree : Tree) : Key.depthOfLeaf tree.toLeaf = tree.depth := by
  match tree with
  | .primitive kind => rfl
  | .array elements =>
    rw [toLeaf, Key.depthOfLeaf, depthOfLeaves_toLeaves elements, depth]
  | .object fields =>
    rw [toLeaf, Key.depthOfLeaf, depth, ← depthOfFields_toFields fields]
    rfl

@[simp] theorem depthOfLeaves_toLeaves (trees : List Tree) :
    Key.depthOfLeaves (toLeaves trees) = depthOfAll trees := by
  match trees with
  | [] => rfl
  | tree :: rest =>
    rw [toLeaves, Key.depthOfLeaves, depthOfLeaf_toLeaf tree, depthOfLeaves_toLeaves rest, depthOfAll]

@[simp] theorem depthOfFields_toFields (fields : List (Member (List Tree))) :
    Key.depthOfFields (toFields fields) = depthOfFields fields := by
  match fields with
  | [] => rfl
  | ⟨_, types, _⟩ :: rest =>
    rw [toFields, Key.depthOfFields, depthOfLeaves_toLeaves types, depthOfFields_toFields rest,
      depthOfFields]

end

end Tree

end Exemplar
