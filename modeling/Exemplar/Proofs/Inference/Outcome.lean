import Exemplar.Inference
import Exemplar.Proofs.Tree.Merging

/-!
# What inference comes to

The shape inferred for a node is a tree that can be said without a store: an
array holds the merge of its items' trees, an object the trees of its members.
Inference in an ordered store returns the leaf of that tree when the containers
nest within the limit, and fails with the limit otherwise.
-/

namespace Exemplar

namespace Json

mutual

def node : Json → Node
  | .null => .primitive .null
  | .boolean _ => .primitive .boolean
  | .number _ => .primitive .number
  | .string _ => .primitive .string
  | .array items => .array (nodesOfItems items)
  | .object members => .object (nodesOfMembers members)

def nodesOfItems : List Json → List Node
  | [] => []
  | item :: rest => node item :: nodesOfItems rest

def nodesOfMembers : List (String × Json) → List (String × Node)
  | [] => []
  | (name, value) :: rest => (name, node value) :: nodesOfMembers rest

end

end Json

namespace Node

mutual

theorem ofJsonWithin_eq (room : Nat) (value : Json) :
    ofJsonWithin room value = if value.nesting ≤ room then some value.node else none := by
  match value, room with
  | .null, _ => rfl
  | .boolean _, _ => rfl
  | .number _, _ => rfl
  | .string _, _ => rfl
  | .array items, 0 => rfl
  | .object members, 0 => rfl
  | .array items, room + 1 =>
    rw [ofJsonWithin, ofItemsWithin_eq room items, Json.nesting, Json.node]
    simp only [Nat.add_le_add_iff_right]
    split <;> rfl
  | .object members, room + 1 =>
    rw [ofJsonWithin, ofMembersWithin_eq room members, Json.nesting, Json.node]
    simp only [Nat.add_le_add_iff_right]
    split <;> rfl

theorem ofItemsWithin_eq (room : Nat) (items : List Json) :
    ofItemsWithin room items =
      if Json.nestingOfItems items ≤ room then some (Json.nodesOfItems items) else none := by
  match items with
  | [] => rfl
  | item :: rest =>
    rw [ofItemsWithin, ofJsonWithin_eq room item, ofItemsWithin_eq room rest, Json.nestingOfItems,
      Json.nodesOfItems]
    simp only [Nat.max_le]
    by_cases hi : item.nesting ≤ room <;> by_cases hr : Json.nestingOfItems rest ≤ room <;>
      simp only [hi, hr, and_true, and_false, if_true, if_false] <;> rfl

theorem ofMembersWithin_eq (room : Nat) (members : List (String × Json)) :
    ofMembersWithin room members =
      if Json.nestingOfMembers members ≤ room then some (Json.nodesOfMembers members) else none := by
  match members with
  | [] => rfl
  | (name, value) :: rest =>
    rw [ofMembersWithin, ofJsonWithin_eq room value, ofMembersWithin_eq room rest,
      Json.nestingOfMembers, Json.nodesOfMembers]
    simp only [Nat.max_le]
    by_cases hv : value.nesting ≤ room <;> by_cases hr : Json.nestingOfMembers rest ≤ room <;>
      simp only [hv, hr, and_true, and_false, if_true, if_false] <;> rfl

end

theorem load_eq (limit : Nat) (value : Json) :
    load limit value = if value.nesting ≤ limit then .ok value.node else .error (.tooDeep limit) := by
  rw [load, ofJsonWithin_eq]
  by_cases fits : value.nesting ≤ limit
  · simp only [if_pos fits]
  · simp only [if_neg fits]

mutual

/-- A node nests as deep as the value that it was made from. -/
theorem nesting_node (value : Json) : value.node.nesting = value.nesting := by
  match value with
  | .null => rfl
  | .boolean _ => rfl
  | .number _ => rfl
  | .string _ => rfl
  | .array items => rw [Json.node, nesting, Json.nesting, nestingOfItems_node items]
  | .object members => rw [Json.node, nesting, Json.nesting, nestingOfMembers_node members]

theorem nestingOfItems_node (items : List Json) :
    nestingOfItems (Json.nodesOfItems items) = Json.nestingOfItems items := by
  match items with
  | [] => rfl
  | item :: rest =>
    rw [Json.nodesOfItems, nestingOfItems, Json.nestingOfItems, nesting_node item,
      nestingOfItems_node rest]

theorem nestingOfMembers_node (members : List (String × Json)) :
    nestingOfMembers (Json.nodesOfMembers members) = Json.nestingOfMembers members := by
  match members with
  | [] => rfl
  | (name, value) :: rest =>
    rw [Json.nodesOfMembers, nestingOfMembers, Json.nestingOfMembers, nesting_node value,
      nestingOfMembers_node rest]

end

theorem kind?_node (value : Json) : value.node.kind? = value.kind? := by
  cases value <;> rfl

/-! ## Trees of nodes -/

mutual

/-- The tree of a node: an array merges its items, an object lists its members. -/
def tree : Node → Tree
  | .primitive kind => .primitive kind
  | .array items => .array (Tree.merge (treesOfItems items))
  | .object members => .object (fieldsOfMembers members)

def treesOfItems : List Node → List Tree
  | [] => []
  | item :: rest => tree item :: treesOfItems rest

def fieldsOfMembers : List (String × Node) → List (Member (List Tree))
  | [] => []
  | (name, node) :: rest => ⟨name, [tree node], false⟩ :: fieldsOfMembers rest

end

mutual

/-- What holds of a node if it holds of its parts holds of every node. -/
theorem parts_induction {P : Node → Prop} (primitive : ∀ kind, P (.primitive kind))
    (array : ∀ items, (∀ item ∈ items, P item) → P (.array items))
    (object : ∀ members, (∀ m ∈ members, P m.2) → P (.object members)) (node : Node) : P node := by
  match node with
  | .primitive kind => exact primitive kind
  | .array items => exact array items (parts_induction_items primitive array object items)
  | .object members => exact object members (parts_induction_members primitive array object members)

theorem parts_induction_items {P : Node → Prop} (primitive : ∀ kind, P (.primitive kind))
    (array : ∀ items, (∀ item ∈ items, P item) → P (.array items))
    (object : ∀ members, (∀ m ∈ members, P m.2) → P (.object members)) (items : List Node) :
    ∀ item ∈ items, P item := by
  match items with
  | [] => simp
  | item :: rest =>
    intro other ho
    rcases List.mem_cons.mp ho with same | ho
    · exact same ▸ parts_induction primitive array object item
    · exact parts_induction_items primitive array object rest other ho

theorem parts_induction_members {P : Node → Prop} (primitive : ∀ kind, P (.primitive kind))
    (array : ∀ items, (∀ item ∈ items, P item) → P (.array items))
    (object : ∀ members, (∀ m ∈ members, P m.2) → P (.object members))
    (members : List (String × Node)) : ∀ m ∈ members, P m.2 := by
  match members with
  | [] => simp
  | (name, node) :: rest =>
    intro other ho
    rcases List.mem_cons.mp ho with same | ho
    · exact same ▸ parts_induction primitive array object node
    · exact parts_induction_members primitive array object rest other ho

end

theorem kind?_tree (node : Node) : node.tree.kind? = node.kind? := by
  cases node <;> rfl

theorem treesOfItems_nodesOfItems (items : List Json) :
    treesOfItems (Json.nodesOfItems items) = items.map (·.node.tree) := by
  induction items with
  | nil => rfl
  | cons item rest ih => rw [Json.nodesOfItems, treesOfItems, ih, List.map_cons]

theorem mem_fieldsOfMembers {field : Member (List Tree)} {members : List (String × Node)} :
    field ∈ fieldsOfMembers members ↔ ∃ m ∈ members, ⟨m.1, [m.2.tree], false⟩ = field := by
  induction members with
  | nil => simp [fieldsOfMembers]
  | cons m rest ih => simp [fieldsOfMembers, ih, eq_comm]

theorem forall_treesOfItems {P : Tree → Prop} {items : List Node} :
    (∀ tree ∈ treesOfItems items, P tree) ↔ ∀ item ∈ items, P item.tree := by
  induction items with
  | nil => simp [treesOfItems]
  | cons item rest ih => rw [treesOfItems, List.forall_mem_cons, ih, List.forall_mem_cons]

/-- The trees in the fields of members are those of their nodes. -/
theorem forall_fieldsOfMembers {P : Tree → Prop} {members : List (String × Node)} :
    (∀ field ∈ fieldsOfMembers members, ∀ tree ∈ field.type, P tree) ↔
      ∀ m ∈ members, P m.2.tree := by
  induction members with
  | nil => simp [fieldsOfMembers]
  | cons m rest ih => simp [fieldsOfMembers, ih]

theorem fieldsOfMembers_nodesOfMembers (members : List (String × Json)) :
    fieldsOfMembers (Json.nodesOfMembers members) =
      members.map fun m => ⟨m.1, [m.2.node.tree], false⟩ := by
  induction members with
  | nil => rfl
  | cons m rest ih => rw [Json.nodesOfMembers, fieldsOfMembers, ih, List.map_cons]

theorem names_fieldsOfMembers (members : List (String × Json)) :
    (fieldsOfMembers (Json.nodesOfMembers members)).map (·.name) = members.map (·.1) := by
  rw [fieldsOfMembers_nodesOfMembers, List.map_map]
  rfl

theorem mandatory_fieldsOfMembers {members : List (String × Json)} {m : String × Json}
    (hm : m ∈ members) : ∃ field ∈ fieldsOfMembers (Json.nodesOfMembers members),
      field.name = m.1 ∧ field.nullable = false := by
  have named : m.1 ∈ (fieldsOfMembers (Json.nodesOfMembers members)).map (·.name) := by
    rw [names_fieldsOfMembers]
    exact List.mem_map_of_mem hm
  obtain ⟨field, hf, same⟩ := List.mem_map.mp named
  obtain ⟨node, _, rfl⟩ := mem_fieldsOfMembers.mp hf
  exact ⟨_, hf, same, rfl⟩

end Node

namespace Infer

theorem runs_merging {α : Type} {store : Store} {refs : α → List Key} {act : Saving Fault α} {a : α}
    (ran : Saving.Runs refs act store (.ok a)) : Saving.Runs refs (merging act) store (.ok a) := by
  obtain ⟨after, ran, le, ordered, there⟩ := ran
  refine ⟨after, ?_, le, ordered, fun b same => there b (by cases same; rfl)⟩
  change (((act.run store).1.mapError Failure.fault), (act.run store).2) = _
  rw [ran]
  rfl

/-- Leaves of trees unify into the leaves of the merge. -/
theorem runs_unify {trees : List Tree} {store : Store} (ordered : store.Ordered)
    (there : store.Holds (Leaf.referencesOfAll (trees.map Tree.toLeaf))) :
    Saving.Runs Leaf.referencesOfAll (merging (unify (trees.map Tree.toLeaf))) store
      (.ok ((Tree.merge trees).map Tree.toLeaf)) := by
  rw [← Tree.unified_toLeaf]
  exact runs_merging (Merge.comesTo_unified _ store ordered there)

mutual

/-- A node has the leaf of its tree, if its containers nest within the room. -/
theorem runs_nodeWithin (limit room : Nat) (node : Node) {store : Store}
    (ordered : store.Ordered) :
    Saving.Runs Leaf.references (nodeWithin limit room node) store
      (if node.nesting ≤ room then .ok node.tree.toLeaf else .error (.tooDeep limit)) := by
  match node, room with
  | .primitive kind, room =>
    rw [Node.nesting, if_pos (Nat.zero_le room)]
    exact Saving.runs_pure ordered Store.holds_nil
  | .array items, 0 => exact Saving.runs_throw ordered
  | .object members, 0 => exact Saving.runs_throw ordered
  | .array items, room + 1 =>
    have leaves := runs_itemsWithin limit room items ordered
    rw [nodeWithin, entering, Node.nesting]
    simp only [Nat.add_le_add_iff_right]
    split
    next fits =>
      rw [if_pos fits] at leaves
      refine leaves.andThen ?_
      intro after _ ordered' there
      refine (runs_unify ordered' there).andThen ?_
      intro after' _ ordered'' there'
      rw [Node.tree, Tree.toLeaf, Tree.toLeaves_eq_map]
      exact Saving.runs_pure ordered'' there'
    next tooDeep =>
      rw [if_neg tooDeep] at leaves
      exact leaves.stop
  | .object members, room + 1 =>
    have fields := runs_membersWithin limit room members ordered
    rw [nodeWithin, entering, Node.nesting]
    simp only [Nat.add_le_add_iff_right]
    split
    next fits =>
      rw [if_pos fits] at fields
      refine fields.andThen ?_
      intro after _ ordered' there
      exact Saving.runs_saveObject ordered' there
    next tooDeep =>
      rw [if_neg tooDeep] at fields
      exact fields.stop

theorem runs_itemsWithin (limit room : Nat) (items : List Node) {store : Store}
    (ordered : store.Ordered) :
    Saving.Runs Leaf.referencesOfAll (itemsWithin limit room items) store
      (if Node.nestingOfItems items ≤ room then .ok ((Node.treesOfItems items).map Tree.toLeaf)
        else .error (.tooDeep limit)) := by
  match items with
  | [] =>
    rw [Node.nestingOfItems, if_pos (Nat.zero_le room)]
    exact Saving.runs_pure ordered Store.holds_nil
  | item :: rest =>
    rw [itemsWithin, Node.nestingOfItems]
    simp only [Nat.max_le]
    exact Saving.runs_both (runs_nodeWithin limit room item ordered)
      (fun _ => runs_itemsWithin limit room rest) (List.Subset.refl _)

theorem runs_membersWithin (limit room : Nat) (members : List (String × Node))
    {store : Store} (ordered : store.Ordered) :
    Saving.Runs Field.referencesOfAll (membersWithin limit room members) store
      (if Node.nestingOfMembers members ≤ room then .ok (Tree.toFields (Node.fieldsOfMembers members))
        else .error (.tooDeep limit)) := by
  match members with
  | [] =>
    rw [Node.nestingOfMembers, if_pos (Nat.zero_le room)]
    exact Saving.runs_pure ordered Store.holds_nil
  | (name, node) :: rest =>
    rw [membersWithin, Node.nestingOfMembers]
    simp only [Nat.max_le]
    refine Saving.runs_both (runs_nodeWithin limit room node ordered)
      (fun _ => runs_membersWithin limit room rest) ?_
    simp [Field.referencesOfAll, Leaf.referencesOfAll]

end

/-- The shape of a node that nests within the limit is the leaf of its tree. -/
theorem runs_node {limit : Nat} {node : Node} {store : Store} (ordered : store.Ordered)
    (fits : node.nesting ≤ limit) :
    Saving.Runs Leaf.references (Infer.node limit node) store (.ok node.tree.toLeaf) := by
  have ran := runs_nodeWithin limit limit node ordered
  rwa [if_pos fits] at ran

/-- The element alternatives of an array are the leaves of the merge of its items' trees. -/
theorem runs_elements (limit : Nat) (items : List Node) {store : Store} (ordered : store.Ordered) :
    Saving.Runs Leaf.referencesOfAll (elements limit items) store
      (if Node.nestingOfItems items < limit then
        .ok ((Tree.merge (Node.treesOfItems items)).map Tree.toLeaf)
        else .error (.tooDeep limit)) := by
  cases limit with
  | zero => exact Saving.runs_throw ordered
  | succ room =>
    have leaves := runs_itemsWithin (room + 1) room items ordered
    rw [elements, entering]
    simp only [Nat.lt_succ_iff]
    split
    next fits =>
      rw [if_pos fits] at leaves
      refine leaves.andThen ?_
      intro after _ ordered' there
      exact runs_unify ordered' there
    next tooDeep =>
      rw [if_neg tooDeep] at leaves
      exact leaves.stop

end Infer

end Exemplar
