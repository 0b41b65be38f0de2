import Exemplar.Definition.Collection
import Exemplar.Proofs.Definition.Itinerary
import Exemplar.Proofs.Definition.Order
import Exemplar.Proofs.Store.Unfolding

/-!
# What is collected

A walk fails at the first reference of its itinerary that is astray. Else it adds
shapes that it meets, each once and each after what its body refers to, and all
that it meets is covered then. Shapes below a shape nest less deep, so a shape is
never met inside its own parts.

In an ordered store no reference is astray, the walk from a saved key succeeds,
and the collected definitions give every key the meaning of its tree. What else
the store holds makes no difference.
-/

namespace Exemplar

namespace Collect

open Relation (ReflTransGen)

/-- The keys that the type of some alternatives refers to. -/
def needs (leaves : List (Leaf Key)) : List Key :=
  leaves.flatMap fun leaf => (typeOf leaf).references

theorem references_typeOfAll (leaves : List (Leaf Key)) :
    (typeOfAll leaves).references = needs leaves := by
  have all : ∀ leaves : List (Leaf Key),
      TypeExpr.referencesOfAll (leaves.map typeOf) = needs leaves := by
    intro leaves
    induction leaves with
    | nil => rfl
    | cons leaf rest ih => rw [List.map_cons, TypeExpr.referencesOfAll, ih]; rfl
  match leaves with
  | [] => rfl
  | [single] => exact (List.append_nil _).symm
  | first :: second :: rest => exact all (first :: second :: rest)

theorem references_bodyOf_object (fields : List (Field Key)) :
    (bodyOf (.object fields)).references = fields.flatMap fun field => needs field.types := by
  change TypeExpr.referencesOfMembers (fields.map memberOf) = _
  induction fields with
  | nil => rfl
  | cons field rest ih =>
    rw [List.map_cons, memberOf, TypeExpr.referencesOfMembers, ih, references_typeOfAll]
    rfl

/-- Shapes that were collected: each once, and each after what its body refers to. -/
structure Settled (shapes : List (Composite Key)) : Prop where
  distinct : shapes.Nodup
  partsFirst : PartsFirst (fun shape => (bodyOf shape).references) shapes

def Covers (shapes : List (Composite Key)) (keys : List Key) : Prop :=
  ∀ key ∈ keys, ∃ shape ∈ shapes, key = .address shape

def Uses (key part : Key) : Prop := part ∈ (bodyOf key.shape).references

/-- Shapes of which some key has need, directly or through others. -/
def Needed (keys : List Key) (shapes : List (Composite Key)) : Prop :=
  ∀ shape ∈ shapes, ∃ key ∈ keys, ReflTransGen Uses key (.address shape)

theorem defined_iff {shapes : List (Composite Key)} {key : Key} :
    defined (shapes.map definitionOf) key = true ↔ ∃ shape ∈ shapes, key = .address shape := by
  rw [defined, List.any_map, List.any_eq_true]
  refine exists_congr fun shape => and_congr_right ?_
  intro _
  exact decide_eq_true_iff.trans eq_comm

theorem mem_needs {key : Key} {leaves : List (Leaf Key)} :
    key ∈ needs leaves ↔ ∃ leaf ∈ leaves, key ∈ (typeOf leaf).references := List.mem_flatMap

theorem needs_append (leaves leaves' : List (Leaf Key)) :
    needs (leaves ++ leaves') = needs leaves ++ needs leaves' := List.flatMap_append

theorem references_bodyOf (shape : Composite Key) :
    (bodyOf shape).references = needs shape.leaves := by
  cases shape with
  | array elements => exact references_typeOfAll elements
  | object fields =>
    rw [references_bodyOf_object]
    exact List.flatMap_assoc.symm

variable {store : Store} {shapes : List (Composite Key)}

/-- What a covered key uses, directly or through others, is covered. -/
theorem Settled.covered (settled : Settled shapes) {key part : Key}
    (here : ∃ shape ∈ shapes, key = .address shape) (path : ReflTransGen Uses key part) :
    ∃ shape ∈ shapes, part = .address shape := by
  induction path with
  | refl => exact here
  | tail _ uses ih =>
    obtain ⟨shape, hs, rfl⟩ := ih
    exact settled.partsFirst.exists_of_mem hs uses

/-- What is met from a leaf is used by the key of the leaf, directly or through others. -/
theorem uses_of_mem_itinerary {first : Leaf Key} {key : Key}
    (met : key ∈ needs (Itinerary.leaf store first)) :
    ∃ start ∈ (typeOf first).references, ReflTransGen Uses start key := by
  obtain ⟨other, met, hk⟩ := mem_needs.mp met
  have passes : Itinerary.Passes store fun other => ∀ key ∈ (typeOf other).references,
      ∃ start ∈ (typeOf first).references, ReflTransGen Uses start key := by
    have step : ∀ {shape : Composite Key}, (∃ start ∈ (typeOf first).references,
        ReflTransGen Uses start (.address shape)) → ∀ part ∈ shape.leaves,
          ∀ key ∈ (typeOf part).references,
            ∃ start ∈ (typeOf first).references, ReflTransGen Uses start key := by
      rintro shape ⟨start, hs, path⟩ part hp key hk
      refine ⟨start, hs, path.tail ?_⟩
      change key ∈ (bodyOf shape).references
      rw [references_bodyOf]
      exact mem_needs.mpr ⟨part, hp, hk⟩
    constructor
    · exact fun elements reached => step (reached _ List.mem_cons_self)
    · intro ref there reached
      obtain ⟨shape, _, rfl⟩ := Store.contains_iff.mp there
      exact step (reached _ List.mem_cons_self)
  exact passes.leaf first (fun key hk => ⟨key, hk, .refl⟩) other met key hk

/-- Shapes of a bounded depth that are met, and are settled after those before them. With them, all
that is met is covered. -/
structure Adds (store : Store) (shapes more : List (Composite Key)) (depth : Nat)
    (met : List (Leaf Key)) : Prop where
  settled : Settled (shapes ++ more)
  shallow : ∀ shape ∈ more, (Key.address shape).depth ≤ depth
  meets : ∀ shape ∈ more, Itinerary.Meets store met shape
  covers : Covers (shapes ++ more) (needs met)

/-- A step fails at the first reference it meets that is astray, and else adds shapes. -/
def WalksAfter (store : Store) (step : Collected → Except Fault Collected) (depth : Nat)
    (met : List (Leaf Key)) (shapes : List (Composite Key)) : Prop :=
  match Itinerary.stray? store (shapes.map .address) met with
  | some key => step (shapes.map definitionOf) = .error (.missingShape key)
  | none => ∃ more, step (shapes.map definitionOf) = .ok ((shapes ++ more).map definitionOf) ∧
      Adds store shapes more depth met

/-- How a step deals with what it meets, whatever was collected before. -/
def Walks (store : Store) (step : Collected → Except Fault Collected) (depth : Nat)
    (met : List (Leaf Key)) : Prop :=
  ∀ shapes, Settled shapes → WalksAfter store step depth met shapes

theorem Settled.concat (settled : Settled shapes) {shape : Composite Key} (new : shape ∉ shapes)
    (needed : Covers shapes (bodyOf shape).references) : Settled (shapes ++ [shape]) := by
  refine ⟨List.nodup_append.mpr ⟨settled.distinct, List.nodup_singleton _, ?_⟩,
    settled.partsFirst.concat needed⟩
  intro other ho last hl same
  exact new (List.mem_singleton.mp hl ▸ same ▸ ho)

theorem Covers.append {keys : List Key} (covers : Covers shapes keys)
    (more : List (Composite Key)) : Covers (shapes ++ more) keys := by
  intro key hk
  obtain ⟨shape, hs, same⟩ := covers key hk
  exact ⟨shape, List.mem_append_left _ hs, same⟩

/-- Nothing is added where all that is met is covered. -/
theorem Adds.nothing (settled : Settled shapes) {depth : Nat} {met : List (Leaf Key)}
    (covers : Covers shapes (needs met)) : Adds store shapes [] depth met := by
  constructor
  · rwa [List.append_nil]
  · simp
  · simp
  · rwa [List.append_nil]

theorem Adds.append {more more' : List (Composite Key)} {depth depth' : Nat}
    {met met' : List (Leaf Key)} (adds : Adds store shapes more depth met)
    (adds' : Adds store (shapes ++ more) more' depth' met') :
    Adds store shapes (more ++ more') (max depth depth') (met ++ met') := by
  constructor
  · rw [← List.append_assoc]
    exact adds'.settled
  · rintro shape hs
    rcases List.mem_append.mp hs with hs | hs
    · exact Nat.le_trans (adds.shallow shape hs) (Nat.le_max_left _ _)
    · exact Nat.le_trans (adds'.shallow shape hs) (Nat.le_max_right _ _)
  · rintro shape hs
    rcases List.mem_append.mp hs with hs | hs
    · exact (adds.meets shape hs).mono (List.subset_append_left _ _)
    · exact (adds'.meets shape hs).mono (List.subset_append_right _ _)
  · rw [← List.append_assoc, needs_append]
    intro key hk
    rcases List.mem_append.mp hk with hk | hk
    · exact adds.covers.append more' key hk
    · exact adds'.covers key hk

theorem walks_nothing {depth : Nat} {met : List (Leaf Key)}
    (flat : ∀ leaf ∈ met, ∃ kind, leaf = .primitive kind) : Walks store .ok depth met := by
  intro shapes settled
  have fine : Itinerary.stray? store (shapes.map .address) met = none := by
    refine Itinerary.stray?_eq_none fun ref hr => ?_
    obtain ⟨kind, same⟩ := flat _ hr
    cases same
  have none : needs met = [] := by
    refine List.flatMap_eq_nil_iff.mpr fun leaf hl => ?_
    obtain ⟨kind, rfl⟩ := flat leaf hl
    rfl
  simp only [WalksAfter, fine]
  exact ⟨[], by rw [List.append_nil], .nothing settled (by simp [none, Covers])⟩

/-- After a walk, the keys that make a difference to what is astray later are those known before
and those met in place. -/
theorem Adds.stray?_after {more : List (Composite Key)} {depth : Nat} {met : List (Leaf Key)}
    (adds : Adds store shapes more depth met) (later : List (Leaf Key)) :
    Itinerary.stray? store ((shapes ++ more).map .address) later =
      Itinerary.stray? store (Itinerary.keysInPlace met ++ shapes.map .address) later := by
  refine Itinerary.stray?_congr fun ref _ absent => ?_
  rw [List.map_append, List.mem_append, List.mem_append, or_comm]
  constructor
  · rintro (added | known)
    · obtain ⟨shape, hs, rfl⟩ := List.mem_map.mp added
      rcases adds.meets shape hs with ⟨elements, hm, rfl⟩ | ⟨_, there⟩
      · exact .inl (Itinerary.mem_keysInPlace.mpr ⟨elements, hm, rfl⟩)
      · exact absurd there (by simp [absent])
    · exact .inr known
  · rintro (inPlace | known)
    · obtain ⟨elements, hm, rfl⟩ := Itinerary.mem_keysInPlace.mp inPlace
      obtain ⟨shape, hs, same⟩ := adds.covers _ (mem_needs.mpr ⟨_, hm, List.mem_cons_self⟩)
      rw [same]
      rcases List.mem_append.mp hs with hs | hs
      · exact .inr (List.mem_map_of_mem hs)
      · exact .inl (List.mem_map_of_mem hs)
    · exact .inr known

/-- One step after the other meets what both meet. -/
theorem Walks.andThen {first second : Collected → Except Fault Collected} {depth depth' : Nat}
    {met met' : List (Leaf Key)} (walks : Walks store first depth met)
    (walks' : Walks store second depth' met') :
    Walks store (fun collected => first collected >>= second) (max depth depth') (met ++ met') := by
  intro shapes settled
  have start := walks shapes settled
  rw [WalksAfter] at start
  rw [WalksAfter, Itinerary.stray?_append]
  cases astray : Itinerary.stray? store (shapes.map .address) met with
  | some key =>
    simp only [astray] at start
    simp only [Option.some_or, start]
    rfl
  | none =>
    simp only [astray] at start
    obtain ⟨more, ran, adds⟩ := start
    have rest := walks' (shapes ++ more) adds.settled
    rw [WalksAfter, adds.stray?_after] at rest
    simp only [Option.none_or, ran]
    cases astray' :
        Itinerary.stray? store (Itinerary.keysInPlace met ++ shapes.map .address) met' with
    | some key =>
      simp only [astray'] at rest
      exact rest
    | none =>
      simp only [astray'] at rest
      obtain ⟨more', ran', adds'⟩ := rest
      rw [List.append_assoc] at ran'
      exact ⟨more ++ more', ran', adds.append adds'⟩

/-- What is met from a leaf whose key is covered is covered, and nothing there is astray. -/
theorem Settled.covers_itinerary (settled : Settled shapes) (store : Store) {first : Leaf Key}
    (here : Covers shapes (typeOf first).references) :
    Covers shapes (needs (Itinerary.leaf store first)) ∧
      Itinerary.stray? store (shapes.map .address) (Itinerary.leaf store first) = none := by
  have covers : Covers shapes (needs (Itinerary.leaf store first)) := by
    intro key hk
    obtain ⟨start, hs, path⟩ := uses_of_mem_itinerary hk
    exact settled.covered (here start hs) path
  refine ⟨covers, Itinerary.stray?_eq_none fun ref hr => .inr ?_⟩
  obtain ⟨shape, hs, rfl⟩ := covers ref (mem_needs.mpr ⟨_, hr, List.mem_cons_self⟩)
  exact List.mem_map_of_mem hs

/-- A step that does nothing is right after the key of the leaf was covered. -/
theorem Settled.walksAfter_of_covered (settled : Settled shapes) {first : Leaf Key} {depth : Nat}
    {step : Collected → Except Fault Collected}
    (here : Covers shapes (typeOf first).references)
    (idle : step (shapes.map definitionOf) = .ok (shapes.map definitionOf)) :
    WalksAfter store step depth (Itinerary.leaf store first) shapes := by
  obtain ⟨covers, fine⟩ := settled.covers_itinerary store here
  simp only [WalksAfter, fine]
  exact ⟨[], by rw [List.append_nil, idle], .nothing settled covers⟩

/-- A leaf that leads into a shape: below the leaf are the parts of the shape, and no reference
there counts on the leaf. -/
structure Opens (store : Store) (first : Leaf Key) (shape : Composite Key)
    (below : List (Leaf Key)) : Prop where
  refers : (typeOf first).references = [.address shape]
  itinerary : Itinerary.leaf store first = first :: below
  parts : shape.leaves ⊆ below
  meets : Itinerary.Meets store [first] shape
  stray : ∀ known,
    Itinerary.stray? store known (first :: below) = Itinerary.stray? store known below

theorem opens_array (store : Store) (elements : List (Leaf Key)) :
    Opens store (.array elements) (.array elements) (Itinerary.leaves store elements) := by
  refine ⟨rfl, rfl, Itinerary.leaves_subset (.array elements),
    .inl ⟨elements, List.mem_singleton_self _, rfl⟩, ?_⟩
  -- No reference below the array leads to the array itself.
  intro known
  change Itinerary.stray? store (.address (.array elements) :: known) _ = _
  refine Itinerary.stray?_congr fun ref hr _ => ?_
  have shallow := Itinerary.depthOfLeaf_le_of_mem_leaves hr
  have other : ref ≠ .address (.array elements) := by
    rintro rfl
    exact absurd shallow (Nat.not_succ_le_self _)
  simp [other]

theorem opens_object {shape : Composite Key} (there : store.contains (.address shape) = true) :
    Opens store (.object (.address shape)) shape (Itinerary.composite store shape) := by
  refine ⟨rfl, ?_, Itinerary.leaves_subset shape, .inr ⟨List.mem_singleton_self _, there⟩, ?_⟩
  · rw [Itinerary.leaf, Key.address, Itinerary.key, ← Key.address, if_pos there]
  · intro known
    rw [Itinerary.stray?, if_pos (.inl there)]

/-- What the parts of a shape add, and the shape after it. The shape is not among its parts, which
nest less deep. -/
theorem Adds.concat {first : Leaf Key} {shape : Composite Key} {below : List (Leaf Key)}
    {more : List (Composite Key)} {depth : Nat} (adds : Adds store shapes more depth below)
    (opens : Opens store first shape below) (shallower : depth < (Key.address shape).depth)
    (new : shape ∉ shapes) :
    Adds store shapes (more ++ [shape]) (Key.address shape).depth (first :: below) := by
  have apart : shape ∉ shapes ++ more := by
    intro hs
    rcases List.mem_append.mp hs with hs | hs
    · exact new hs
    · exact absurd (adds.shallow shape hs) (Nat.not_le_of_lt shallower)
  have needed : Covers (shapes ++ more) (bodyOf shape).references := by
    intro key hk
    rw [references_bodyOf] at hk
    obtain ⟨part, hp, hk⟩ := mem_needs.mp hk
    exact adds.covers key (mem_needs.mpr ⟨part, opens.parts hp, hk⟩)
  constructor
  · rw [← List.append_assoc]
    exact adds.settled.concat apart needed
  · intro other ho
    rcases List.mem_append.mp ho with ho | ho
    · exact Nat.le_trans (adds.shallow other ho) (Nat.le_of_lt shallower)
    · exact Nat.le_of_eq (by rw [List.mem_singleton.mp ho])
  · intro other ho
    rcases List.mem_append.mp ho with ho | ho
    · exact (adds.meets other ho).mono (List.subset_cons_self _ _)
    · rw [List.mem_singleton.mp ho]
      exact opens.meets.mono (by simp)
  · intro key hk
    rw [needs, List.flatMap_cons, opens.refers, List.mem_append] at hk
    rcases hk with hk | hk
    · exact ⟨shape, by simp, List.mem_singleton.mp hk⟩
    · rw [← List.append_assoc]
      exact adds.covers.append [shape] key hk

/-- A container is added after its parts, unless it was added before. -/
theorem walks_container {shape : Composite Key} {first : Leaf Key} {depth : Nat}
    {below : List (Leaf Key)} {parts : Collected → Except Fault Collected}
    (opens : Opens store first shape below) (shallower : depth < (Key.address shape).depth)
    (walks : Walks store parts depth below) :
    Walks store (fun collected => if defined collected (.address shape) then .ok collected
        else do return (← parts collected) ++ [definitionOf shape])
      (Key.address shape).depth (Itinerary.leaf store first) := by
  intro shapes settled
  by_cases before : shape ∈ shapes
  · refine settled.walksAfter_of_covered ?_ (if_pos (defined_iff.mpr ⟨shape, before, rfl⟩))
    intro key hk
    rw [opens.refers, List.mem_singleton] at hk
    exact ⟨shape, before, hk⟩
  · have new : ¬ defined (shapes.map definitionOf) (.address shape) = true := by
      intro found
      obtain ⟨other, ho, same⟩ := defined_iff.mp found
      exact before (Key.address_inj.mp same ▸ ho)
    have start := walks shapes settled
    rw [WalksAfter] at start
    simp only [WalksAfter, opens.itinerary, opens.stray, if_neg new]
    cases astray : Itinerary.stray? store (shapes.map .address) below with
    | some key =>
      simp only [astray] at start
      simp only [start]
      rfl
    | none =>
      simp only [astray] at start
      obtain ⟨more, ran, adds⟩ := start
      refine ⟨more ++ [shape], ?_, adds.concat opens shallower before⟩
      simp only [ran, ← List.append_assoc, List.map_append]
      rfl

/-- Nothing is below a key that was not saved: it is covered, or it is astray. -/
theorem walks_unsaved {key : Key} (absent : ¬ store.contains key = true) :
    Walks store (Collect.key store key) key.depth (Itinerary.leaf store (.object key)) := by
  intro shapes settled
  obtain ⟨depth, shape⟩ := key
  by_cases known : ∃ other ∈ shapes, Key.of depth shape = .address other
  · have here : Covers shapes (typeOf (.object (.of depth shape))).references := by
      intro key hk
      rw [List.mem_singleton.mp hk]
      exact known
    refine settled.walksAfter_of_covered here ?_
    rw [Collect.key, if_pos (defined_iff.mpr known)]
  · have alone :
        Itinerary.leaf store (.object (.of depth shape)) = [.object (.of depth shape)] := by
      rw [Itinerary.leaf, Itinerary.key, if_neg absent]
    have astray : Itinerary.stray? store (shapes.map .address) [.object (.of depth shape)] =
        some (.of depth shape) := by
      rw [Itinerary.stray?, if_neg]
      rintro (saved | member)
      · exact absent saved
      · obtain ⟨other, ho, same⟩ := List.mem_map.mp member
        exact known ⟨other, ho, same.symm⟩
    simp only [WalksAfter, alone, astray]
    rw [Collect.key, if_neg (defined_iff.not.mpr known), if_neg absent]

theorem key_of_contains {shape : Composite Key} (there : store.contains (.address shape) = true) :
    Collect.key store (.address shape) = fun collected =>
      if defined collected (.address shape) then .ok collected
      else composite store shape collected := by
  funext collected
  rw [Key.address, Collect.key, ← Key.address, if_pos there]

mutual

/-- A reference is walked by way of the shape under its key, if that was saved. -/
theorem walks_key (key : Key) :
    Walks store (Collect.key store key) key.depth (Itinerary.leaf store (.object key)) := by
  match key with
  | .of depth shape =>
    by_cases there : store.contains (.of depth shape) = true
    · obtain ⟨saved, _, same⟩ := Store.contains_iff.mp there
      obtain rfl : shape = saved := congrArg Key.shape same
      rw [same] at there ⊢
      rw [key_of_contains there]
      match shape with
      | .array elements =>
        exact walks_container (opens_object there) (Nat.lt_succ_self _) (walks_leaves elements)
      | .object members =>
        exact walks_container (opens_object there) (Nat.lt_succ_self _) (walks_fields members)
    · exact walks_unsaved there

theorem walks_fields (members : List (Field Key)) :
    Walks store (fields store members) (Key.depthOfFields members)
      (Itinerary.fields store members) := by
  match members with
  | [] => exact walks_nothing (by simp [Itinerary.fields])
  | ⟨name, types, nullable⟩ :: rest => exact (walks_leaves types).andThen (walks_fields rest)

theorem walks_leaves (all : List (Leaf Key)) :
    Walks store (leaves store all) (Key.depthOfLeaves all) (Itinerary.leaves store all) := by
  match all with
  | [] => exact walks_nothing (by simp [Itinerary.leaves])
  | first :: rest => exact (walks_leaf first).andThen (walks_leaves rest)

theorem walks_leaf (first : Leaf Key) :
    Walks store (leaf store first) (Key.depthOfLeaf first) (Itinerary.leaf store first) := by
  match first with
  | .primitive kind => exact walks_nothing (by simp [Itinerary.leaf])
  | .array elements =>
    exact walks_container (opens_array store elements) (Nat.lt_succ_self _) (walks_leaves elements)
  | .object ref => exact walks_key ref

end

/-- Everything that is met from a root is collected, and nothing else, unless a reference is
astray. -/
theorem collect_eq (store : Store) (root : Key) :
    match Itinerary.stray? store [] (Itinerary.leaf store (.object root)) with
    | some key => collect store root = .error (.missingShape key)
    | none => ∃ shapes, collect store root = .ok (shapes.map definitionOf) ∧ Settled shapes ∧
        (∀ shape ∈ shapes, Itinerary.Meets store (Itinerary.leaf store (.object root)) shape) ∧
          Covers shapes (needs (Itinerary.leaf store (.object root))) := by
  have walks :
      Walks store (Collect.key store root) root.depth (Itinerary.leaf store (.object root)) :=
    walks_key root
  have walked := walks [] ⟨List.nodup_nil, PartsFirst.nil⟩
  rw [WalksAfter] at walked
  cases astray : Itinerary.stray? store [] (Itinerary.leaf store (.object root)) with
  | some key =>
    simp only [List.map_nil, astray] at walked
    exact walked
  | none =>
    simp only [List.map_nil, astray, List.nil_append] at walked
    obtain ⟨shapes, ran, adds⟩ := walked
    exact ⟨shapes, ran, adds.settled, adds.meets, adds.covers⟩

theorem mem_needs_of_meets {met : List (Leaf Key)} {shape : Composite Key}
    (meets : Itinerary.Meets store met shape) : .address shape ∈ needs met := by
  rcases meets with ⟨elements, hm, rfl⟩ | ⟨hm, _⟩
  · exact mem_needs.mpr ⟨_, hm, List.mem_cons_self⟩
  · exact mem_needs.mpr ⟨_, hm, List.mem_cons_self⟩

/-- What is met from a root is needed by the root, and the root is among it. -/
theorem needed_of_meets {root : Key}
    (meets : ∀ shape ∈ shapes, Itinerary.Meets store (Itinerary.leaf store (.object root)) shape)
    (covers : Covers shapes (needs (Itinerary.leaf store (.object root)))) :
    Covers shapes [root] ∧ Needed [root] shapes := by
  constructor
  · intro key hk
    exact covers key (mem_needs.mpr ⟨_, Itinerary.mem_leaf_self store _, hk⟩)
  · intro shape hs
    have used : ∃ start ∈ (typeOf (.object root)).references,
        ReflTransGen Uses start (.address shape) :=
      uses_of_mem_itinerary (mem_needs_of_meets (meets shape hs))
    exact used

/-- Everything that a saved root needs is collected, and nothing else. -/
theorem collect_ok (ordered : store.Ordered) {root : Key} (there : store.contains root = true) :
    ∃ shapes, collect store root = .ok (shapes.map definitionOf) ∧ Settled shapes ∧
      Covers shapes [root] ∧ Needed [root] shapes := by
  have walked := collect_eq store root
  simp only [Itinerary.stray?_of_ordered ordered there] at walked
  obtain ⟨shapes, ran, settled, meets, covers⟩ := walked
  obtain ⟨rooted, needed⟩ := needed_of_meets meets covers
  exact ⟨shapes, ran, settled, rooted, needed⟩

/-! ## The rest of the store -/

section Elsewhere

variable {other : Store}

mutual

/-- What a walk finds depends on the key alone, in ordered stores that have it. -/
theorem key_congr (ordered : store.Ordered) (ordered' : other.Ordered) (key : Key)
    (there : store.contains key = true) (there' : other.contains key = true) :
    Collect.key store key = Collect.key other key := by
  match key with
  | .of depth shape =>
    have parts := composite_congr ordered ordered' shape
      (ordered.holds_references_of_contains there) (ordered'.holds_references_of_contains there')
    funext collected
    rw [Collect.key, Collect.key, if_pos there, if_pos there', parts]

theorem composite_congr (ordered : store.Ordered) (ordered' : other.Ordered)
    (shape : Composite Key) (there : store.Holds shape.references)
    (there' : other.Holds shape.references) : composite store shape = composite other shape := by
  match shape with
  | .array elements =>
    have parts := leaves_congr ordered ordered' elements there there'
    funext collected
    rw [composite, composite, parts]
  | .object members =>
    have parts := fields_congr ordered ordered' members there there'
    funext collected
    rw [composite, composite, parts]

theorem fields_congr (ordered : store.Ordered) (ordered' : other.Ordered)
    (members : List (Field Key)) (there : store.Holds (Field.referencesOfAll members))
    (there' : other.Holds (Field.referencesOfAll members)) :
    fields store members = fields other members := by
  match members with
  | [] => rfl
  | ⟨name, types, nullable⟩ :: rest =>
    obtain ⟨there, later⟩ := Store.holds_append.mp there
    obtain ⟨there', later'⟩ := Store.holds_append.mp there'
    have first := leaves_congr ordered ordered' types there there'
    have others := fields_congr ordered ordered' rest later later'
    funext collected
    rw [fields, fields, field, field, first, others]

theorem leaves_congr (ordered : store.Ordered) (ordered' : other.Ordered)
    (all : List (Leaf Key)) (there : store.Holds (Leaf.referencesOfAll all))
    (there' : other.Holds (Leaf.referencesOfAll all)) : leaves store all = leaves other all := by
  match all with
  | [] => rfl
  | first :: rest =>
    obtain ⟨there, later⟩ := Store.holds_append.mp there
    obtain ⟨there', later'⟩ := Store.holds_append.mp there'
    have one := leaf_congr ordered ordered' first there there'
    have others := leaves_congr ordered ordered' rest later later'
    funext collected
    rw [leaves, leaves, one, others]

theorem leaf_congr (ordered : store.Ordered) (ordered' : other.Ordered) (first : Leaf Key)
    (there : store.Holds first.references) (there' : other.Holds first.references) :
    leaf store first = leaf other first := by
  match first with
  | .primitive kind => rfl
  | .array elements =>
    have parts := leaves_congr ordered ordered' elements there there'
    funext collected
    rw [leaf, leaf, parts]
  | .object ref =>
    have found := key_congr ordered ordered' ref (there ref List.mem_cons_self)
      (there' ref List.mem_cons_self)
    funext collected
    rw [leaf, leaf, found]

end

/-- What is collected for a root depends on the root alone. -/
theorem collect_congr (ordered : store.Ordered) (ordered' : other.Ordered) {root : Key}
    (there : store.contains root = true) (there' : other.contains root = true) :
    collect store root = collect other root :=
  congrFun (key_congr ordered ordered' root there there') []

end Elsewhere

/-! ## The order and the meaning of collected definitions -/

theorem names_definitionOf (shapes : List (Composite Key)) :
    Definition.names (shapes.map definitionOf) = shapes.map Key.address := by
  rw [Definition.names, List.map_map]
  rfl

theorem mem_names_definitionOf {key : Key} :
    key ∈ Definition.names (shapes.map definitionOf) ↔ ∃ shape ∈ shapes, key = .address shape := by
  rw [names_definitionOf, List.mem_map]
  exact exists_congr fun shape => and_congr_right fun _ => eq_comm

theorem Settled.nodup_names (settled : Settled shapes) :
    (Definition.names (shapes.map definitionOf)).Nodup := by
  rw [names_definitionOf]
  exact settled.distinct.map fun _ _ => Key.address_inj.mp

theorem Settled.layered (settled : Settled shapes) :
    Definition.Layered (shapes.map definitionOf) := by
  intro before t after split ref hr
  obtain ⟨front, back, rfl, rfl, rest⟩ := List.map_eq_append_iff.mp split
  obtain ⟨shape, back', rfl, rfl, _⟩ := List.map_eq_cons_iff.mp rest
  exact mem_names_definitionOf.mpr (settled.partsFirst front shape back' rfl ref hr)

theorem Settled.closed (settled : Settled shapes) :
    Definition.Closed (shapes.map definitionOf) :=
  settled.layered.closed

/-- What a collected root needs, it reaches through the collected definitions. -/
theorem Settled.reachedFrom (settled : Settled shapes) {root : Key} (covers : Covers shapes [root])
    (needed : Needed [root] shapes) :
    Definition.ReachedFrom root (shapes.map definitionOf) := by
  have path : ∀ key, ReflTransGen Uses root key →
      key ∈ Definition.names (shapes.map definitionOf) ∧
        Definition.Reaches (shapes.map definitionOf) root key := by
    intro key path
    induction path with
    | refl => exact ⟨mem_names_definitionOf.mpr (covers root List.mem_cons_self), .refl⟩
    | tail _ uses ih =>
      obtain ⟨collected, reached⟩ := ih
      obtain ⟨shape, hs, rfl⟩ := mem_names_definitionOf.mp collected
      have ht : definitionOf shape ∈ shapes.map definitionOf := List.mem_map_of_mem hs
      exact ⟨settled.closed _ ht _ uses, reached.tail ⟨_, ht, rfl, uses⟩⟩
  intro name hn
  obtain ⟨shape, hs, rfl⟩ := mem_names_definitionOf.mp hn
  obtain ⟨key, hk, uses⟩ := needed shape hs
  exact (path _ (List.mem_singleton.mp hk ▸ uses)).2

theorem accepts_typeOf (leaf : Leaf Key) (value : Json) :
    (typeOf leaf).Accepts Key.Accepts value ↔ (Key.treeOfLeaf leaf).Accepts value := by
  cases leaf <;> exact Iff.rfl

theorem accepts_ofAlternatives {ν : Type} (M : Meaning ν) (types : List (TypeExpr ν)) :
    (TypeExpr.ofAlternatives types).Accepts M = TypeExpr.AcceptsAny M types := by
  funext value
  match types with
  | [] => rfl
  | [single] => simp [TypeExpr.ofAlternatives, TypeExpr.AcceptsAny]
  | first :: second :: rest => rfl

theorem accepts_typeOfAll (leaves : List (Leaf Key)) :
    (typeOfAll leaves).Accepts Key.Accepts = Tree.AcceptsAny (Key.treesOfLeaves leaves) := by
  funext value
  rw [typeOfAll, accepts_ofAlternatives, Key.treesOfLeaves_eq_map, eq_iff_iff,
    TypeExpr.acceptsAny_iff, Tree.acceptsAny_iff]
  simp only [List.mem_map, exists_exists_and_eq_and, accepts_typeOf]

/-- A body says the same as the shape that it stands for. -/
theorem accepts_bodyOf (shape : Composite Key) (value : Json) :
    (bodyOf shape).Accepts Key.Accepts value ↔ (Key.treeOfComposite shape).Accepts value := by
  cases shape with
  | array elements =>
    rw [bodyOf, Body.Accepts, Body.type, TypeExpr.Accepts, accepts_typeOfAll]
    rfl
  | object fields =>
    have listed : TypeExpr.AcceptsMember Key.Accepts (fields.map memberOf) =
        Tree.AcceptsField (Key.treesOfFields fields) := by
      induction fields with
      | nil => rfl
      | cons field rest ih =>
        funext name part
        simp only [List.map_cons, memberOf, TypeExpr.AcceptsMember, Key.treesOfFields,
          Tree.AcceptsField, accepts_typeOfAll, ih]
    have mandatory : ∀ name,
        (∃ m ∈ fields.map memberOf, m.name = name ∧ m.nullable = false) ↔
          ∃ field ∈ Key.treesOfFields fields, field.name = name ∧ field.nullable = false := by
      intro name
      rw [Key.treesOfFields_eq_map]
      simp [memberOf, Key.treeOfField]
    rw [bodyOf, Body.Accepts, Body.type, TypeExpr.Accepts, listed]
    simp only [mandatory]
    rfl

/-- A key whose shape was collected means its tree. -/
theorem Settled.meaning_iff (settled : Settled shapes) {key : Key}
    (collected : key ∈ Definition.names (shapes.map definitionOf)) (value : Json) :
    Definition.meaning (shapes.map definitionOf) key value ↔ key.tree.Accepts value := by
  refine Meaning.agree (N := Key.Accepts)
    (fun a b => a = b ∧ a ∈ Definition.names (shapes.map definitionOf)) ?_ ⟨rfl, collected⟩ value
  rintro key _ ⟨rfl, collected⟩ value same
  obtain ⟨shape, hs, rfl⟩ := mem_names_definitionOf.mp collected
  have found : Inline.bodyOf? (shapes.map definitionOf) (.address shape) = some (bodyOf shape) :=
    Definition.bodyOf?_of_mem settled.nodup_names (List.mem_map_of_mem hs)
  refine (Definition.meaningOver_of_body found value).trans ?_
  refine Iff.trans (Body.accepts_congr fun ref hr part below => ?_) (accepts_bodyOf shape value)
  exact same ref ref ⟨rfl, settled.closed _ (List.mem_map_of_mem hs) ref hr⟩ part below

end Collect

end Exemplar
