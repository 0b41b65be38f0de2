import Exemplar.Proofs.Inference.Outcome

/-!
# Sessions and their roots

A session refuses primitives and what nests too deep, and stays as it was. Else
it holds the leaves of its samples' trees. Solving it comes to the union of those
trees: a single container becomes the root, and several have no root in common.
-/

namespace Exemplar

namespace Tree

/-- The alternatives of several samples. A single sample is taken as it is. -/
def combine : List Tree → List Tree
  | [tree] => [tree]
  | trees => merge trees

theorem combine_nil : combine [] = [] := merge_eq []

/-- What a store keeps for a tree, if the tree is a container. -/
def composite? : Tree → Option (Composite Key)
  | .primitive _ => none
  | .array elements => some (.array (toLeaves elements))
  | .object fields => some (.object (toFields fields))

theorem exists_composite {tree : Tree} (container : tree.kind? = none) :
    ∃ shape, tree.composite? = some shape := by
  cases tree with
  | primitive kind => cases container
  | array elements => exact ⟨_, rfl⟩
  | object fields => exact ⟨_, rfl⟩

end Tree

namespace Session

/-- A session that holds the leaves of some trees, over an ordered store that has their objects. -/
structure Sound (session : Session) (trees : List Tree) : Prop where
  ordered : session.store.Ordered
  samples : session.samples = trees.map Tree.toLeaf
  there : session.store.Holds (Leaf.referencesOfAll session.samples)

theorem sound_start (limit : Nat) : (start limit).Sound [] :=
  ⟨Store.ordered_empty, rfl, Store.holds_nil⟩

variable {session : Session} {trees : List Tree}

/-- Why a session with some limit refuses a value, if it does. -/
def refusal? (limit : Nat) (value : Json) : Option Failure :=
  match value.kind? with
  | some kind => some (.primitiveRoot kind)
  | none => if value.nesting ≤ limit then none else some (.tooDeep limit)

theorem refusal?_eq_none_iff {limit : Nat} {value : Json} :
    refusal? limit value = none ↔ value.kind? = none ∧ value.nesting ≤ limit := by
  rw [refusal?]
  cases value.kind? <;> simp

def nodeRefusal? (limit : Nat) (node : Node) : Option Failure :=
  match node.kind? with
  | some kind => some (.primitiveRoot kind)
  | none => if node.nesting ≤ limit then none else some (.tooDeep limit)

theorem refusal?_eq_nodeRefusal? (limit : Nat) (value : Json) :
    refusal? limit value = nodeRefusal? limit value.node := by
  rw [refusal?, nodeRefusal?, Node.kind?_node, Node.nesting_node]

theorem nodeRefusal?_ne_fault (limit : Nat) (node : Node) (fault : Fault) :
    nodeRefusal? limit node ≠ some (.fault fault) := by
  rw [nodeRefusal?]
  cases node.kind? with
  | some kind => simp
  | none => by_cases fits : node.nesting ≤ limit <;> simp [fits]

theorem refusal?_ne_fault (limit : Nat) (value : Json) (fault : Fault) :
    refusal? limit value ≠ some (.fault fault) := by
  rw [refusal?_eq_nodeRefusal?]
  exact nodeRefusal?_ne_fault limit value.node fault

/-- A node that is not refused adds its tree. -/
theorem Sound.observesNode {node : Node} (sound : session.Sound trees)
    (accepted : nodeRefusal? session.limit node = none) :
    ∃ after, session.observeNode node = (.ok (), after) ∧ after.limit = session.limit ∧
      after.Sound (trees ++ [node.tree]) := by
  rw [nodeRefusal?] at accepted
  cases primitive : node.kind? with
  | some kind =>
    rw [primitive] at accepted
    cases accepted
  | none =>
    have fits : node.nesting ≤ session.limit := by simpa [primitive] using accepted
    obtain ⟨store, ran, le, ordered, there⟩ := Infer.runs_node sound.ordered fits
    simp only [Session.observeNode, primitive, ran]
    refine ⟨_, rfl, rfl, ordered, ?_, ?_⟩
    · rw [List.map_append, ← sound.samples]
      rfl
    · rw [Leaf.referencesOfAll_append, Store.holds_append]
      refine ⟨sound.there.of_le le, ?_⟩
      simpa [Leaf.referencesOfAll] using there _ rfl

/-- A node that is refused may leave shapes of its parts, and nothing else. -/
theorem Sound.observeNode_refused {node : Node} {failure : Failure} (sound : session.Sound trees)
    (refused : nodeRefusal? session.limit node = some failure) :
    ∃ store, session.observeNode node = (.error failure, { session with store := store }) ∧
      session.store ≤ store ∧ ({ session with store := store } : Session).Sound trees := by
  rw [nodeRefusal?] at refused
  cases primitive : node.kind? with
  | some kind =>
    rw [primitive] at refused
    cases refused
    refine ⟨session.store, ?_, session.store.le_refl, sound⟩
    simp only [observeNode, primitive]
  | none =>
    rw [primitive] at refused
    by_cases fits : node.nesting ≤ session.limit
    · simp only [if_pos fits] at refused
      cases refused
    · simp only [if_neg fits] at refused
      cases refused
      obtain ⟨store, ran, le, ordered, _⟩ :=
        Infer.runs_nodeWithin session.limit session.limit node sound.ordered
      rw [if_neg fits] at ran
      refine ⟨store, ?_, le, ordered, sound.samples, sound.there.of_le le⟩
      simp only [observeNode, primitive, Infer.node, ran]

/-- A value that is refused leaves the session as it was. -/
theorem observe_refused {value : Json} {failure : Failure}
    (refused : refusal? session.limit value = some failure) :
    session.observe value = (.error failure, session) := by
  rw [refusal?, ← Node.kind?_node] at refused
  rw [Session.observe, Node.load_eq]
  cases primitive : value.node.kind? with
  | some kind =>
    have flat : value.nesting = 0 := by
      cases value <;> first | rfl | cases primitive
    rw [primitive] at refused
    cases refused
    rw [if_pos (flat ▸ Nat.zero_le _)]
    simp only [observeNode, primitive]
  | none =>
    rw [primitive] at refused
    by_cases fits : value.nesting ≤ session.limit
    · simp only [if_pos fits] at refused
      cases refused
    · simp only [if_neg fits] at refused ⊢
      cases refused
      rfl

/-- A value that is not refused adds the tree of its node. -/
theorem Sound.observes {value : Json} (sound : session.Sound trees)
    (accepted : refusal? session.limit value = none) :
    ∃ after, session.observe value = (.ok (), after) ∧ after.limit = session.limit ∧
      after.Sound (trees ++ [value.node.tree]) := by
  rw [Session.observe, Node.load_eq, if_pos (refusal?_eq_none_iff.mp accepted).2]
  rw [refusal?_eq_nodeRefusal?] at accepted
  exact sound.observesNode accepted

/-- Values of which none is refused add the trees of their nodes, in order. -/
theorem Sound.observesAll {values : List Json} (sound : session.Sound trees)
    (accepted : values.findSome? (refusal? session.limit) = none) :
    ∃ last, session.observeAll values = .ok last ∧ last.limit = session.limit ∧
      last.Sound (trees ++ values.map (·.node.tree)) := by
  induction values generalizing session trees with
  | nil =>
    rw [List.map_nil, List.append_nil]
    exact ⟨session, rfl, rfl, sound⟩
  | cons value rest ih =>
    rw [List.findSome?_cons] at accepted
    cases first : refusal? session.limit value with
    | some failure =>
      rw [first] at accepted
      cases accepted
    | none =>
      obtain ⟨after, observed, same, sound'⟩ := sound.observes first
      rw [first, ← same] at accepted
      obtain ⟨last, observed', same', sound''⟩ := ih sound' accepted
      rw [List.append_assoc] at sound''
      rw [Session.observeAll]
      simp only [observed]
      exact ⟨last, observed', same'.trans same, sound''⟩

/-- The first value that is refused stops the observation. -/
theorem Sound.observeAll_refused {values : List Json} {failure : Failure}
    (sound : session.Sound trees)
    (refused : values.findSome? (refusal? session.limit) = some failure) :
    session.observeAll values = .error failure := by
  induction values generalizing session trees with
  | nil => cases refused
  | cons value rest ih =>
    rw [List.findSome?_cons] at refused
    rw [Session.observeAll]
    cases first : refusal? session.limit value with
    | some failure' =>
      rw [first] at refused
      cases refused
      simp only [observe_refused first]
    | none =>
      obtain ⟨after, observed, same, sound'⟩ := sound.observes first
      rw [first, ← same] at refused
      simp only [observed]
      exact ih sound' refused

/-- A session that has observed some values holds the trees of their nodes. -/
theorem Sound.observeAll {values : List Json} {last : Session} (sound : session.Sound trees)
    (observed : session.observeAll values = .ok last) :
    last.limit = session.limit ∧ last.Sound (trees ++ values.map (·.node.tree)) := by
  cases refused : values.findSome? (refusal? session.limit) with
  | some failure =>
    cases (sound.observeAll_refused refused).symm.trans observed
  | none =>
    obtain ⟨last', observed', added⟩ := sound.observesAll refused
    cases observed'.symm.trans observed
    exact added

/-- A new session observes values of which none is refused, and holds their trees. -/
theorem start_observesAll {limit : Nat} {values : List Json}
    (accepted : values.findSome? (refusal? limit) = none) :
    ∃ session, (start limit).observeAll values = .ok session ∧
      session.Sound (values.map (·.node.tree)) := by
  obtain ⟨session, observed, _, sound⟩ := (sound_start limit).observesAll accepted
  rw [List.nil_append] at sound
  exact ⟨session, observed, sound⟩

theorem root_ok {store : Store} {leaves : List (Leaf Key)} {inferred : Inferred}
    (ordered : store.Ordered) (there : store.Holds (Leaf.referencesOfAll leaves))
    (found : root store leaves = .ok inferred) :
    inferred.store.Ordered ∧ inferred.store.contains inferred.root = true ∧
      leaves.map Key.treeOfLeaf = [inferred.root.tree] := by
  match leaves, found with
  | [.object ref], found =>
    cases found
    exact ⟨ordered, there ref List.mem_cons_self, rfl⟩
  | [.array elements], found =>
    cases found
    refine ⟨ordered.insert ?_, store.contains_insert _, rfl⟩
    simpa [Leaf.referencesOfAll, Leaf.references, Composite.references] using there
  | [.primitive kind], found => cases found
  | [], found => cases found
  | first :: second :: rest, found => simp [root] at found

theorem root_of_length_ne_one {store : Store} {leaves : List (Leaf Key)}
    (several : leaves.length ≠ 1) : root store leaves = .error (.incompatible leaves.length) := by
  match leaves with
  | [] => rfl
  | [_] => exact absurd rfl several
  | first :: second :: rest => simp [root]

theorem root_of_composite (store : Store) {tree : Tree} {shape : Composite Key}
    (container : tree.composite? = some shape) :
    ∃ after, root store [tree.toLeaf] = .ok ⟨after, .address shape⟩ := by
  cases tree with
  | primitive kind => cases container
  | array elements =>
    cases container
    exact ⟨_, rfl⟩
  | object fields =>
    cases container
    exact ⟨_, rfl⟩

/-- To solve a session is to take the root of the alternatives of its samples. -/
theorem Sound.solve_eq_root (sound : session.Sound trees) (nonempty : trees ≠ []) :
    ∃ store, store.Ordered ∧
      store.Holds (Leaf.referencesOfAll ((Tree.combine trees).map Tree.toLeaf)) ∧
        session.solve = root store ((Tree.combine trees).map Tree.toLeaf) := by
  have samples := sound.samples
  have there := sound.there
  rw [samples] at there
  rw [Session.solve, samples]
  match trees with
  | [] => exact absurd rfl nonempty
  | [tree] => exact ⟨session.store, sound.ordered, there, rfl⟩
  | first :: second :: rest =>
    obtain ⟨after, ran, _, ordered, there'⟩ :=
      Merge.comesTo_unified _ session.store sound.ordered there
    rw [Tree.unified_toLeaf] at ran there'
    refine ⟨after, ordered, there' _ rfl, ?_⟩
    simp only [List.map_cons] at ran ⊢
    rw [ran]
    rfl

theorem Sound.solve_nil (sound : session.Sound []) : session.solve = .error .noSamples := by
  rw [Session.solve, sound.samples]
  rfl

/-- The root of a solved session is saved, and its tree is the only alternative of the samples. -/
theorem Sound.solve {inferred : Inferred} (sound : session.Sound trees)
    (solved : session.solve = .ok inferred) :
    inferred.store.Ordered ∧ inferred.store.contains inferred.root = true ∧
      Tree.combine trees = [inferred.root.tree] := by
  by_cases empty : trees = []
  · rw [empty] at sound
    cases sound.solve_nil.symm.trans solved
  · obtain ⟨store, ordered, there, taken⟩ := sound.solve_eq_root empty
    have found := root_ok ordered there (taken.symm.trans solved)
    rwa [Tree.map_treeOfLeaf_toLeaf] at found

/-- A session whose samples have one alternative, a container, is solved by its address. -/
theorem Sound.solves {tree : Tree} {shape : Composite Key} (sound : session.Sound trees)
    (one : Tree.combine trees = [tree]) (container : tree.composite? = some shape) :
    ∃ store, session.solve = .ok ⟨store, .address shape⟩ ∧ store.Ordered ∧
      store.contains (.address shape) = true := by
  have nonempty : trees ≠ [] := by
    rintro rfl
    cases Tree.combine_nil.symm.trans one
  obtain ⟨store, _, _, taken⟩ := sound.solve_eq_root nonempty
  obtain ⟨after, found⟩ := root_of_composite store container
  rw [one] at taken
  have solved := taken.trans found
  obtain ⟨ordered, there, _⟩ := sound.solve solved
  exact ⟨after, solved, ordered, there⟩

/-- A session whose samples have several alternatives is not solved. -/
theorem Sound.solve_incompatible (sound : session.Sound trees) (nonempty : trees ≠ [])
    (several : (Tree.combine trees).length ≠ 1) :
    session.solve = .error (.incompatible (Tree.combine trees).length) := by
  obtain ⟨store, _, _, taken⟩ := sound.solve_eq_root nonempty
  rw [taken, root_of_length_ne_one, List.length_map]
  rwa [List.length_map]

end Session

end Exemplar
