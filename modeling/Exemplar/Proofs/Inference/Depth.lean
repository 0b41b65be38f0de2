import Exemplar.Proofs.Inference.Observations
import Exemplar.Proofs.Merge.Depth
import Exemplar.Proofs.Tree.Soundness

/-!
# The depth of what is inferred

Unifying keeps the depth of leaves, so the tree of a node is as deep as the node
nests, and the root of several samples is as deep as the deepest of them. Where
an object repeats a name, what merging drops may have been deepest; the root is
never deeper than the limit.
-/

namespace Exemplar

namespace Tree

def DistinctNames (fields : List (Member (List Tree))) : Prop := (fields.map (·.name)).Nodup

theorem surface_any (tree : Tree) : Surface (fun _ => True) tree := by
  induction tree using parts_induction with
  | primitive kind => exact .primitive kind
  | array elements _ => exact .array elements
  | object fields ih => exact .object trivial ih

theorem depthOfLeaves_map_toLeaf (trees : List Tree) :
    Key.depthOfLeaves (trees.map toLeaf) = depthOfAll trees := by
  rw [← toLeaves_eq_map, depthOfLeaves_toLeaves]

theorem depthOfAll_merge_le (trees : List Tree) : depthOfAll (merge trees) ≤ depthOfAll trees := by
  rw [← depthOfLeaves_map_toLeaf, ← depthOfLeaves_map_toLeaf, ← unified_toLeaf]
  refine Merge.depthOfLeaves_unifiedWithin_le (p := fun _ => True) ?_ _
  exact Surface.toLeaves (fun _ => id) fun tree _ => surface_any tree

/-- A merge is as deep as what is merged, where names are distinct. -/
theorem depthOfAll_merge {trees : List Tree} (distinct : ∀ tree ∈ trees, Surface DistinctNames tree) :
    depthOfAll (merge trees) = depthOfAll trees := by
  rw [← depthOfLeaves_map_toLeaf, ← depthOfLeaves_map_toLeaf, ← unified_toLeaf]
  refine Merge.depthOfLeaves_unified (Surface.toLeaves ?_ distinct)
  intro fields holds
  rw [Field.DistinctNames, List.map_map]
  exact holds

theorem depthOfAll_combine_le (trees : List Tree) : depthOfAll (combine trees) ≤ depthOfAll trees := by
  match trees with
  | [] => exact depthOfAll_merge_le []
  | [tree] => exact Nat.le_refl _
  | first :: second :: rest => exact depthOfAll_merge_le _

theorem depthOfAll_combine {trees : List Tree}
    (distinct : ∀ tree ∈ trees, Surface DistinctNames tree) :
    depthOfAll (combine trees) = depthOfAll trees := by
  match trees with
  | [] => exact depthOfAll_merge distinct
  | [tree] => rfl
  | first :: second :: rest => exact depthOfAll_merge distinct

end Tree

/-! ## Nodes -/

namespace Node

open Exemplar.Tree

mutual

def DistinctKeys : Node → Prop
  | .primitive _ => True
  | .array items => DistinctKeysOfItems items
  | .object members => (members.map (·.1)).Nodup ∧ DistinctKeysOfMembers members

def DistinctKeysOfItems : List Node → Prop
  | [] => True
  | item :: rest => DistinctKeys item ∧ DistinctKeysOfItems rest

def DistinctKeysOfMembers : List (String × Node) → Prop
  | [] => True
  | (_, node) :: rest => DistinctKeys node ∧ DistinctKeysOfMembers rest

end

theorem distinctKeysOfItems_iff {items : List Node} :
    DistinctKeysOfItems items ↔ ∀ item ∈ items, item.DistinctKeys := by
  induction items with
  | nil => simp [DistinctKeysOfItems]
  | cons item rest ih => rw [DistinctKeysOfItems, ih, List.forall_mem_cons]

theorem distinctKeysOfMembers_iff {members : List (String × Node)} :
    DistinctKeysOfMembers members ↔ ∀ m ∈ members, m.2.DistinctKeys := by
  induction members with
  | nil => simp [DistinctKeysOfMembers]
  | cons m rest ih => rw [DistinctKeysOfMembers, ih, List.forall_mem_cons]

theorem map_name_fieldsOfMembers (members : List (String × Node)) :
    (fieldsOfMembers members).map (·.name) = members.map (·.1) := by
  induction members with
  | nil => rfl
  | cons m rest ih => rw [fieldsOfMembers, List.map_cons, ih, List.map_cons]

/-- The tree of a node with distinct keys has distinct names. -/
theorem surface_tree {node : Node} (distinct : node.DistinctKeys) :
    Surface DistinctNames node.tree := by
  induction node using parts_induction with
  | primitive kind => exact .primitive kind
  | array items _ => exact .array _
  | object members ih =>
    obtain ⟨distinct, parts⟩ := distinct
    apply Surface.object
    · rwa [DistinctNames, map_name_fieldsOfMembers]
    · refine forall_fieldsOfMembers.mpr ?_
      exact fun m hm => ih m hm (distinctKeysOfMembers_iff.mp parts m hm)

theorem surface_treesOfItems {items : List Node} (distinct : DistinctKeysOfItems items) :
    ∀ tree ∈ treesOfItems items, Surface DistinctNames tree := by
  refine forall_treesOfItems.mpr ?_
  exact fun item hi => surface_tree (distinctKeysOfItems_iff.mp distinct item hi)

mutual

/-- The tree of a node is at most as deep as the node nests. -/
theorem depth_tree_le (node : Node) : node.tree.depth ≤ node.nesting := by
  match node with
  | .primitive kind => exact Nat.le_refl _
  | .array items =>
    have merged := depthOfAll_merge_le (treesOfItems items)
    have items := depthOfAll_treesOfItems_le items
    rw [tree, Tree.depth, nesting]
    omega
  | .object members => exact Nat.succ_le_succ (depthOfFields_fieldsOfMembers_le members)

theorem depthOfAll_treesOfItems_le (items : List Node) :
    depthOfAll (treesOfItems items) ≤ nestingOfItems items := by
  match items with
  | [] => exact Nat.le_refl _
  | item :: rest =>
    have first := depth_tree_le item
    have others := depthOfAll_treesOfItems_le rest
    rw [treesOfItems, depthOfAll, nestingOfItems]
    omega

theorem depthOfFields_fieldsOfMembers_le (members : List (String × Node)) :
    depthOfFields (fieldsOfMembers members) ≤ nestingOfMembers members := by
  match members with
  | [] => exact Nat.le_refl _
  | (name, node) :: rest =>
    have first := depth_tree_le node
    have others := depthOfFields_fieldsOfMembers_le rest
    rw [fieldsOfMembers, depthOfFields, depthOfAll, depthOfAll, nestingOfMembers]
    omega

end

mutual

/-- The tree of a node with distinct keys is as deep as the node nests. -/
theorem depth_tree {node : Node} (distinct : node.DistinctKeys) : node.tree.depth = node.nesting := by
  match node with
  | .primitive kind => rfl
  | .array items =>
    rw [tree, Tree.depth, depthOfAll_merge (surface_treesOfItems distinct),
      depthOfAll_treesOfItems distinct, nesting]
  | .object members =>
    rw [tree, Tree.depth, depthOfFields_fieldsOfMembers distinct.2, nesting]

theorem depthOfAll_treesOfItems {items : List Node} (distinct : DistinctKeysOfItems items) :
    depthOfAll (treesOfItems items) = nestingOfItems items := by
  match items with
  | [] => rfl
  | item :: rest =>
    rw [treesOfItems, depthOfAll, depth_tree distinct.1, depthOfAll_treesOfItems distinct.2,
      nestingOfItems]

theorem depthOfFields_fieldsOfMembers {members : List (String × Node)}
    (distinct : DistinctKeysOfMembers members) :
    depthOfFields (fieldsOfMembers members) = nestingOfMembers members := by
  match members with
  | [] => rfl
  | (name, node) :: rest =>
    rw [fieldsOfMembers, depthOfFields, depthOfAll, depthOfAll, depth_tree distinct.1,
      depthOfFields_fieldsOfMembers distinct.2, nestingOfMembers, Nat.max_zero]

end

end Node

/-! ## Sessions -/

def Observation.node : Observation → Node
  | .ofValue value => value.node
  | .ofNode node => node

theorem Observation.tree_node (call : Observation) : call.node.tree = call.tree := by
  cases call <;> rfl

theorem Observation.map_tree (calls : List Observation) :
    calls.map tree = Node.treesOfItems (calls.map node) := by
  induction calls with
  | nil => rfl
  | cons call rest ih => rw [List.map_cons, ih, List.map_cons, Node.treesOfItems, call.tree_node]

theorem Observation.nesting_le {limit : Nat} {call : Observation}
    (accepted : call.refusal? limit = none) : call.node.nesting ≤ limit := by
  have accepted : Session.nodeRefusal? limit call.node = none := by
    cases call with
    | ofValue value => exact (Session.refusal?_eq_nodeRefusal? limit value).symm.trans accepted
    | ofNode node => exact accepted
  rw [Session.nodeRefusal?] at accepted
  cases kind : call.node.kind? with
  | some kind => simp [kind] at accepted
  | none => simpa [kind] using accepted

namespace Session

variable {session : Session} {trees : List Tree} {inferred : Inferred}

/-- The root is at most as deep as the deepest sample, and just as deep where names are distinct. -/
theorem Sound.depth_root (sound : session.Sound trees) (solved : session.solve = .ok inferred) :
    inferred.store.unfoldKey inferred.root = some inferred.root.tree ∧
      inferred.root.tree.depth ≤ Tree.depthOfAll trees ∧
      ((∀ tree ∈ trees, Tree.Surface Tree.DistinctNames tree) →
        inferred.root.tree.depth = Tree.depthOfAll trees) := by
  obtain ⟨ordered, there, alone⟩ := sound.solve solved
  have depth : Tree.depthOfAll (Tree.combine trees) = inferred.root.tree.depth := by
    rw [alone, Tree.depthOfAll, Tree.depthOfAll, Nat.max_zero]
  refine ⟨Store.unfoldKey_of_contains ordered there, ?_, fun distinct => ?_⟩
  · rw [← depth]
    exact Tree.depthOfAll_combine_le trees
  · rw [← depth]
    exact Tree.depthOfAll_combine distinct

/-- The root of a session is at most as deep as its limit, and as deep as the deepest sample where
keys are distinct. -/
theorem depth_solve (limit : Nat) (calls : List Observation)
    (solved : ((start limit).after calls).solve = .ok inferred) :
    ∃ tree, inferred.store.unfoldKey inferred.root = some tree ∧ tree.depth ≤ limit ∧
      ((∀ call ∈ (start limit).successes calls, call.node.DistinctKeys) →
        tree.depth = Node.nestingOfItems (((start limit).successes calls).map Observation.node)) := by
  obtain ⟨filtered, _, sound⟩ := (sound_start limit).calls calls
  obtain ⟨unfolds, atMost, equal⟩ := sound.depth_root solved
  rw [List.nil_append] at atMost equal
  refine ⟨_, unfolds, Nat.le_trans atMost ?_, fun distinct => ?_⟩
  · rw [Tree.depthOfAll_le_iff, List.forall_mem_map, filtered]
    intro call hc
    have accepted := Option.isNone_iff_eq_none.mp (List.mem_filter.mp hc).2
    rw [← call.tree_node]
    exact Nat.le_trans call.node.depth_tree_le (Observation.nesting_le accepted)
  · have distinct := Node.distinctKeysOfItems_iff.mpr (List.forall_mem_map.mpr distinct)
    rw [Observation.map_tree] at equal
    rw [equal (Node.surface_treesOfItems distinct), Node.depthOfAll_treesOfItems distinct]

end Session

/-- Unifying, and merging shapes or objects, ends over every ordered store whose objects have
distinct names: it returns, only adds to the store, and keeps the depth. Unifying follows references
and merges, to the end: however far above the depth of the leaves the levels are, it does the same.
The root of a session is no deeper than the limit, and as deep as the deepest sample. -/
theorem unifying_keepsDepth :
    (∀ store : Store, store.Ordered → store.DistinctNames →
      (∀ leaves, store.Holds (Leaf.referencesOfAll leaves) →
        store.KeepsDepth (unify leaves) id (store.unfoldAll leaves) ∧
        (unify leaves).run store =
          (leaves.eraseDups.mapM Saving.shapeOf >>= mergeShapes).run store ∧
        ∀ trees levels, store.unfoldAll leaves = some trees → Tree.depthOfAll trees < levels →
          (Merge.leavesWithin levels leaves).run store = (unify leaves).run store) ∧
      (∀ shapes, (∀ shape ∈ shapes, store.Holds shape.references) →
        (∀ fields, .object fields ∈ shapes → Field.DistinctNames fields) →
        store.KeepsDepth (mergeShapes shapes) id (store.unfoldShapes shapes)) ∧
      (∀ objects, (∀ fields ∈ objects, store.Holds (Field.referencesOfAll fields)) →
        (∀ fields ∈ objects, Field.DistinctNames fields) → objects ≠ [] →
        store.KeepsDepth (mergeObjects objects) (fun leaf => [leaf])
          (store.unfoldShapes (objects.map .object))) ∧
      (mergeObjects []).run store =
        (.ok (.object (.address (.object []))), store.insert (.object []))) ∧
    ∀ limit calls inferred, ((Session.start limit).after calls).solve = .ok inferred →
      ∃ tree, inferred.store.unfoldKey inferred.root = some tree ∧ tree.depth ≤ limit ∧
        ((∀ call ∈ (Session.start limit).successes calls, call.node.DistinctKeys) →
          tree.depth =
            Node.nestingOfItems (((Session.start limit).successes calls).map Observation.node)) := by
  constructor
  · intro store ordered distinct
    refine ⟨fun leaves there => ⟨?_, ?_, ?_⟩, ?_, ?_, ?_⟩
    · exact Store.unify_keepsDepth ordered distinct there
    · exact Merge.run_unify_eq ordered there
    · intro trees levels unfolds enough
      cases (Store.unfoldAll_of_holds ordered there).symm.trans unfolds
      rw [Store.depthOfAll_of_holds ordered there] at enough
      exact Merge.run_leavesWithin ordered there enough
    · exact fun shapes => Store.mergeShapes_keepsDepth ordered distinct
    · exact fun objects there names nonempty =>
        Store.mergeObjects_keepsDepth ordered distinct nonempty there names
    · exact Store.run_mergeObjects_nil store
  · exact fun limit calls inferred => Session.depth_solve limit calls

/-- An object that another holds in a field and in an array, and two records, one of them deeper. -/
theorem unifying_keepsDepth_of_shared_object :
    let inner : List (Field Key) := [⟨"x", [.primitive .number], false⟩]
    let outer : List (Field Key) :=
      [⟨"list", [.array [.object (.address (.object inner))]], false⟩,
        ⟨"item", [.object (.address (.object inner))], false⟩]
    let store := (Store.empty.insert (.object inner)).insert (.object outer)
    let leaves : List (Leaf Key) :=
      [.object (.address (.object inner)), .primitive .null, .object (.address (.object outer))]
    let calls : List Observation :=
      [.ofValue (.object [("a", .array [.object []])]), .ofNode (.object [("b", .primitive .null)])]
    store.Ordered ∧ store.DistinctNames ∧ store.Holds (Leaf.referencesOfAll leaves) ∧
      store.KeepsDepth (unify leaves) id (store.unfoldAll leaves) ∧
      store.KeepsDepth (mergeShapes [.object inner, .object outer]) id
        (store.unfoldShapes [.object inner, .object outer]) ∧
      store.KeepsDepth (mergeObjects [inner, outer]) (fun leaf => [leaf])
        (store.unfoldShapes ([inner, outer].map .object)) ∧
      ∃ inferred, ((Session.start 3).after calls).solve = .ok inferred ∧
        ∃ tree, inferred.store.unfoldKey inferred.root = some tree ∧ tree.depth ≤ 3 ∧
          tree.depth =
            Node.nestingOfItems (((Session.start 3).successes calls).map Observation.node) := by
  intro inner outer store leaves calls
  have saved : store.Holds [.address (.object inner), .address (.object outer)] :=
    Store.holds_insert_insert _ _ _
  have refers : ∀ ref ∈ Field.referencesOfAll outer, ref = .address (.object inner) := by
    intro ref hr
    rcases List.mem_pair.mp hr with rfl | rfl <;> rfl
  have ordered : store.Ordered := Store.ordered_insert_insert rfl refers
  have names : ∀ fields ∈ [inner, outer], Field.DistinctNames fields := by
    simp [Field.DistinctNames, inner, outer]
  have distinct : store.DistinctNames := by
    have first := Store.distinctNames_empty.insert (names inner List.mem_cons_self)
    exact first.insert (names outer (by simp))
  have held : ∀ fields ∈ [inner, outer], store.Holds (Field.referencesOfAll fields) := by
    intro fields hf
    rcases List.mem_pair.mp hf with rfl | rfl
    · exact Store.holds_nil
    · intro ref hr
      rw [refers ref hr]
      exact saved _ List.mem_cons_self
  have keys : ∀ call ∈ (Session.start 3).successes calls, call.node.DistinctKeys := by
    intro call hc
    rcases List.mem_pair.mp (Session.mem_of_mem_successes hc) with rfl | rfl <;>
      simp [Observation.node, Json.node, Json.nodesOfMembers, Json.nodesOfItems, Node.DistinctKeys,
        Node.DistinctKeysOfItems, Node.DistinctKeysOfMembers]
  have solved : ((Session.start 3).after calls).solve.isOk = true := by decide +kernel
  cases found : ((Session.start 3).after calls).solve with
  | error failure =>
    rw [found] at solved
    cases solved
  | ok inferred =>
    obtain ⟨tree, unfolds, within, depth⟩ := unifying_keepsDepth.2 3 calls inferred found
    obtain ⟨leavesKeep, shapesKeep, objectsKeep, _⟩ := unifying_keepsDepth.1 store ordered distinct
    refine ⟨ordered, distinct, saved, (leavesKeep leaves saved).1, ?_, ?_, ?_⟩
    · exact shapesKeep ([inner, outer].map .object) (List.forall_mem_map.mpr held)
        (by simpa using names)
    · exact objectsKeep [inner, outer] held names (by simp)
    · exact ⟨inferred, rfl, tree, unfolds, within, depth keys⟩

/-- No objects at all merge into an object, which is deeper than nothing. Of an object that repeats a
name, merged with itself, only the first such field is left, so a run may lose depth. -/
theorem not_keepsDepth_of_no_objects_and_of_repeated_name :
    (Store.empty.Ordered ∧ Store.empty.DistinctNames ∧
      ¬ Store.empty.KeepsDepth (mergeObjects []) (fun leaf => [leaf])
        (Store.empty.unfoldShapes [])) ∧
    let node : Node := .object [("a", .primitive .null), ("a", .object [])]
    let calls : List Observation := [.ofNode node, .ofNode node]
    ∃ inferred, ((Session.start 256).after calls).solve = .ok inferred ∧
      ∃ tree, inferred.store.unfoldKey inferred.root = some tree ∧
        tree.depth <
          Node.nestingOfItems (((Session.start 256).successes calls).map Observation.node) := by
  constructor
  · refine ⟨Store.ordered_empty, ?_, ?_⟩
    · intro fields member
      cases member
    · rintro ⟨leaf, after, trees, trees', ran, _, unfolds, unfolds', depth⟩
      cases ran
      cases unfolds
      cases unfolds'
      cases depth
  · intro node calls
    have sound := ((Session.sound_start 256).calls calls).2.2
    have deepest :
        Node.nestingOfItems (((Session.start 256).successes calls).map Observation.node) = 2 := by
      decide +kernel
    have depth :
        ((Session.start 256).after calls).solve.toOption.map (·.root.tree.depth) = some 1 := by
      decide +kernel
    cases found : ((Session.start 256).after calls).solve with
    | error failure =>
      rw [found] at depth
      cases depth
    | ok inferred =>
      rw [found] at depth
      have depth : inferred.root.tree.depth = 1 := Option.some.inj depth
      refine ⟨inferred, rfl, _, (sound.depth_root found).1, ?_⟩
      rw [depth, deepest]
      exact Nat.lt_succ_self 1

end Exemplar
