import Exemplar.Definition.Collection
import Exemplar.Proofs.Store.Order

/-!
# What a walk through shapes meets

The itinerary of a leaf lists the leaf and, depth first, every leaf below it:
those of an array in place, and those of the shape that a reference leads to,
where that shape was saved. It repeats what is shared. What a store reaches from
a root is what the itinerary of the root meets.

A reference is astray if its shape was not saved and is not that of an array in
place that was met before.
-/

namespace Exemplar

def Composite.leaves {κ : Type} : Composite κ → List (Leaf κ)
  | .array elements => elements
  | .object fields => fields.flatMap (·.types)

theorem Composite.mem_references {κ : Type} {shape : Composite κ} {leaf : Leaf κ}
    (hl : leaf ∈ shape.leaves) {ref : κ} (hr : ref ∈ leaf.references) : ref ∈ shape.references := by
  cases shape with
  | array elements => exact Leaf.mem_referencesOfAll.mpr ⟨leaf, hl, hr⟩
  | object fields =>
    obtain ⟨field, hf, hl⟩ := List.mem_flatMap.mp hl
    exact List.mem_flatMap.mpr ⟨field, hf, Leaf.mem_referencesOfAll.mpr ⟨leaf, hl, hr⟩⟩

/-- A leaf nests less deep than the shape that holds it. -/
theorem Key.depthOfLeaf_lt_of_mem_leaves {leaf : Leaf Key} {shape : Composite Key}
    (hl : leaf ∈ shape.leaves) : depthOfLeaf leaf < (address shape).depth := by
  cases shape with
  | array elements => exact Nat.lt_succ_of_le (depthOfLeaf_le_of_mem hl)
  | object fields =>
    obtain ⟨field, hf, hl⟩ := List.mem_flatMap.mp hl
    exact Nat.lt_succ_of_le (Nat.le_trans (depthOfLeaf_le_of_mem hl) (depthOfLeaves_le_of_mem hf))

/-- The shapes that a store reaches from a root: the root's, and those that a reached shape refers
to or holds in place. -/
inductive Store.Reaches (store : Store) (root : Key) : Composite Key → Prop
  | root {shape : Composite Key} : store.find? root = some shape → Reaches store root shape
  | reference {shape target : Composite Key} {ref : Key} : Reaches store root shape →
      .object ref ∈ shape.leaves → store.find? ref = some target → Reaches store root target
  | inPlace {shape : Composite Key} {elements : List (Leaf Key)} : Reaches store root shape →
      .array elements ∈ shape.leaves → Reaches store root (.array elements)

namespace Itinerary

variable {store : Store}

mutual

/-- What is met below a key, if its shape was saved. -/
def key (store : Store) : Key → List (Leaf Key)
  | .of depth shape => if store.contains (.of depth shape) then composite store shape else []

def composite (store : Store) : Composite Key → List (Leaf Key)
  | .array elements => leaves store elements
  | .object members => fields store members

def fields (store : Store) : List (Field Key) → List (Leaf Key)
  | [] => []
  | ⟨_, types, _⟩ :: rest => leaves store types ++ fields store rest

def leaves (store : Store) : List (Leaf Key) → List (Leaf Key)
  | [] => []
  | first :: rest => leaf store first ++ leaves store rest

/-- A leaf, then what is met below it. -/
def leaf (store : Store) : Leaf Key → List (Leaf Key)
  | .primitive kind => [.primitive kind]
  | .array elements => .array elements :: leaves store elements
  | .object ref => .object ref :: key store ref

end

theorem mem_leaf_self (store : Store) (first : Leaf Key) : first ∈ leaf store first := by
  cases first <;> exact List.mem_cons_self

theorem leaves_eq_flatMap (all : List (Leaf Key)) : leaves store all = all.flatMap (leaf store) := by
  induction all with
  | nil => rfl
  | cons first rest ih => rw [leaves, ih, List.flatMap_cons]

theorem composite_eq_flatMap (shape : Composite Key) :
    composite store shape = shape.leaves.flatMap (leaf store) := by
  cases shape with
  | array elements => exact leaves_eq_flatMap elements
  | object members =>
    change fields store members = (members.flatMap (·.types)).flatMap (leaf store)
    induction members with
    | nil => rfl
    | cons member rest ih =>
      rw [fields, ih, leaves_eq_flatMap, List.flatMap_cons, List.flatMap_append]

/-- The leaves of a shape are met in it. -/
theorem leaves_subset (shape : Composite Key) : shape.leaves ⊆ composite store shape := by
  intro part hp
  rw [composite_eq_flatMap]
  exact List.mem_flatMap.mpr ⟨part, hp, mem_leaf_self store part⟩

theorem key_eq_of_contains {ref : Key} (there : store.contains ref = true) :
    key store ref = ref.shape.leaves.flatMap (leaf store) := by
  obtain ⟨depth, shape⟩ := ref
  rw [key, if_pos there]
  exact composite_eq_flatMap shape

/-- A property passes on if the elements of an array have it with the array, and the leaves of a saved
shape with each reference to it. -/
structure Passes (store : Store) (P : Leaf Key → Prop) : Prop where
  inPlace : ∀ elements, P (.array elements) → ∀ part ∈ elements, P part
  follow : ∀ ref, store.contains ref = true → P (.object ref) → ∀ part ∈ ref.shape.leaves, P part

section Passing

variable {P : Leaf Key → Prop}

mutual

/-- A property that passes on holds of everything met, if it holds where the walk begins. -/
theorem Passes.leaf (passes : Passes store P) (first : Leaf Key) (start : P first) :
    ∀ other ∈ Itinerary.leaf store first, P other := by
  match first with
  | .primitive kind =>
    intro other ho
    exact List.mem_singleton.mp ho ▸ start
  | .array elements =>
    intro other ho
    rcases List.mem_cons.mp ho with rfl | ho
    · exact start
    · exact passes.leaves elements (passes.inPlace elements start) other ho
  | .object ref =>
    intro other ho
    rcases List.mem_cons.mp ho with rfl | ho
    · exact start
    · exact passes.key ref start other ho

theorem Passes.key (passes : Passes store P) (ref : Key) (start : P (.object ref)) :
    ∀ other ∈ Itinerary.key store ref, P other := by
  match ref with
  | .of depth shape =>
    intro other ho
    by_cases there : store.contains (.of depth shape) = true
    · have parts : ∀ part ∈ shape.leaves, P part := passes.follow _ there start
      rw [Itinerary.key, if_pos there] at ho
      match shape with
      | .array elements => exact passes.leaves elements parts other ho
      | .object members => exact passes.fields members parts other ho
    · rw [Itinerary.key, if_neg there] at ho
      cases ho

theorem Passes.fields (passes : Passes store P) (members : List (Field Key))
    (start : ∀ part ∈ members.flatMap (·.types), P part) :
    ∀ other ∈ Itinerary.fields store members, P other := by
  match members with
  | [] => simp [Itinerary.fields]
  | ⟨name, types, nullable⟩ :: rest =>
    rw [List.flatMap_cons, List.forall_mem_append] at start
    intro other ho
    rcases List.mem_append.mp ho with ho | ho
    · exact passes.leaves types start.1 other ho
    · exact passes.fields rest start.2 other ho

theorem Passes.leaves (passes : Passes store P) (all : List (Leaf Key))
    (start : ∀ part ∈ all, P part) : ∀ other ∈ Itinerary.leaves store all, P other := by
  match all with
  | [] => simp [Itinerary.leaves]
  | first :: rest =>
    rw [List.forall_mem_cons] at start
    intro other ho
    rcases List.mem_append.mp ho with ho | ho
    · exact passes.leaf first start.1 other ho
    · exact passes.leaves rest start.2 other ho

end

end Passing

/-- What is met below something met is met. -/
theorem leaf_subset {first other : Leaf Key} (met : other ∈ leaf store first) :
    leaf store other ⊆ leaf store first := by
  have passes : Passes store fun other => leaf store other ⊆ leaf store first := by
    constructor
    · intro elements below part hp met hm
      refine below (List.mem_cons_of_mem _ ?_)
      rw [leaves_eq_flatMap]
      exact List.mem_flatMap.mpr ⟨part, hp, hm⟩
    · intro ref there below part hp met hm
      refine below (List.mem_cons_of_mem _ ?_)
      rw [key_eq_of_contains there]
      exact List.mem_flatMap.mpr ⟨part, hp, hm⟩
  exact passes.leaf first (List.Subset.refl _) other met

/-- What is met nests no deeper than where the walk began. -/
theorem depthOfLeaf_le {first other : Leaf Key} (met : other ∈ leaf store first) :
    Key.depthOfLeaf other ≤ Key.depthOfLeaf first := by
  have passes : Passes store fun other => Key.depthOfLeaf other ≤ Key.depthOfLeaf first := by
    constructor
    · intro elements below part hp
      have := Key.depthOfLeaf_le_of_mem hp
      rw [Key.depthOfLeaf] at below
      omega
    · intro ref there below part hp
      obtain ⟨shape, _, rfl⟩ := Store.contains_iff.mp there
      have : Key.depthOfLeaf part < (Key.address shape).depth := Key.depthOfLeaf_lt_of_mem_leaves hp
      rw [Key.depthOfLeaf] at below
      omega
  exact passes.leaf first (Nat.le_refl _) other met

theorem depthOfLeaf_le_of_mem_leaves {all : List (Leaf Key)} {other : Leaf Key}
    (met : other ∈ leaves store all) : Key.depthOfLeaf other ≤ Key.depthOfLeaves all := by
  rw [leaves_eq_flatMap] at met
  obtain ⟨part, hp, hm⟩ := List.mem_flatMap.mp met
  exact Nat.le_trans (depthOfLeaf_le hm) (Key.depthOfLeaf_le_of_mem hp)

/-! ## What the store reaches -/

/-- A shape is met in place, or by a reference under which it was saved. -/
def Meets (store : Store) (met : List (Leaf Key)) (shape : Composite Key) : Prop :=
  (∃ elements, .array elements ∈ met ∧ shape = .array elements) ∨
    .object (.address shape) ∈ met ∧ store.contains (.address shape) = true

theorem Meets.mono {met met' : List (Leaf Key)} {shape : Composite Key} (meets : Meets store met shape)
    (more : met ⊆ met') : Meets store met' shape := by
  rcases meets with ⟨elements, hm, same⟩ | ⟨hm, there⟩
  · exact .inl ⟨elements, more hm, same⟩
  · exact .inr ⟨more hm, there⟩

theorem Meets.subset {first : Leaf Key} {shape : Composite Key}
    (meets : Meets store (leaf store first) shape) : shape.leaves ⊆ leaf store first := by
  intro part hp
  rcases meets with ⟨elements, hm, rfl⟩ | ⟨hm, there⟩
  · refine leaf_subset hm (List.mem_cons_of_mem _ ?_)
    rw [leaves_eq_flatMap]
    exact List.mem_flatMap.mpr ⟨part, hp, mem_leaf_self store part⟩
  · refine leaf_subset hm (List.mem_cons_of_mem _ ?_)
    rw [key_eq_of_contains there]
    exact List.mem_flatMap.mpr ⟨part, hp, mem_leaf_self store part⟩

/-- The shapes that a leaf stands for in a store. -/
def StandsFor (store : Store) : Leaf Key → Composite Key → Prop
  | .primitive _, _ => False
  | .array elements, shape => shape = .array elements
  | .object ref, shape => store.find? ref = some shape

/-- What is reached from a root is what is met from it. -/
theorem reaches_iff_meets {root : Key} {shape : Composite Key} :
    store.Reaches root shape ↔ Meets store (leaf store (.object root)) shape := by
  have found : ∀ {ref : Key} {target : Composite Key}, store.find? ref = some target →
      ref = .address target ∧ store.contains (.address target) = true := by
    intro ref target found
    obtain ⟨rfl, member⟩ := Store.find?_eq_some_iff.mp found
    exact ⟨rfl, Store.contains_iff.mpr ⟨target, member, rfl⟩⟩
  constructor
  · intro reached
    induction reached with
    | root saved =>
      obtain ⟨rfl, there⟩ := found saved
      exact .inr ⟨mem_leaf_self store _, there⟩
    | reference _ held saved ih =>
      obtain ⟨rfl, there⟩ := found saved
      exact .inr ⟨ih.subset held, there⟩
    | inPlace _ held ih => exact .inl ⟨_, ih.subset held, rfl⟩
  · have leads : ∀ {whole : Composite Key}, store.Reaches root whole → ∀ part ∈ whole.leaves,
        ∀ shape, StandsFor store part shape → store.Reaches root shape := by
      intro whole reached part hp shape stands
      cases part with
      | primitive kind => exact stands.elim
      | array elements => exact stands ▸ reached.inPlace hp
      | object ref => exact reached.reference hp stands
    have passes : Passes store fun part =>
        ∀ shape, StandsFor store part shape → store.Reaches root shape :=
      ⟨fun elements reached => leads (reached _ rfl),
        fun ref there reached => leads (reached _ (Store.find?_of_contains there))⟩
    have all := passes.leaf (.object root) fun shape saved => .root saved
    rintro (⟨elements, hm, rfl⟩ | ⟨hm, there⟩)
    · exact all _ hm _ rfl
    · exact all _ hm _ (Store.find?_of_contains there)

/-! ## References that are astray -/

/-- The first reference met that is astray, where the shapes under some keys are known from the
start. -/
def stray? (store : Store) : (known : List Key) → List (Leaf Key) → Option Key
  | _, [] => none
  | known, .primitive _ :: rest => stray? store known rest
  | known, .array elements :: rest => stray? store (.address (.array elements) :: known) rest
  | known, .object ref :: rest =>
    if store.contains ref = true ∨ ref ∈ known then stray? store known rest else some ref

/-- The keys of the arrays in place among some leaves. -/
def keysInPlace : List (Leaf Key) → List Key
  | [] => []
  | .array elements :: rest => .address (.array elements) :: keysInPlace rest
  | _ :: rest => keysInPlace rest

theorem mem_keysInPlace {ref : Key} {met : List (Leaf Key)} :
    ref ∈ keysInPlace met ↔ ∃ elements, .array elements ∈ met ∧ ref = .address (.array elements) := by
  induction met with
  | nil => simp [keysInPlace]
  | cons first rest ih => cases first <;> simp [keysInPlace, ih, or_and_right, exists_or]

/-- Keys that make a difference are those of references that are met but lead to nothing saved. -/
theorem stray?_congr {known known' : List Key} {met : List (Leaf Key)}
    (same : ∀ ref, .object ref ∈ met → store.contains ref = false → (ref ∈ known ↔ ref ∈ known')) :
    stray? store known met = stray? store known' met := by
  induction met generalizing known known' with
  | nil => rfl
  | cons first rest ih =>
    have later : ∀ ref, .object ref ∈ rest → store.contains ref = false →
        (ref ∈ known ↔ ref ∈ known') := fun ref hr => same ref (List.mem_cons_of_mem _ hr)
    cases first with
    | primitive kind => exact ih later
    | array elements =>
      refine ih fun ref hr absent => ?_
      simp only [List.mem_cons, later ref hr absent]
    | object ref =>
      have here : (store.contains ref = true ∨ ref ∈ known) ↔
          (store.contains ref = true ∨ ref ∈ known') := by
        cases there : store.contains ref with
        | true => simp
        | false => simpa using same ref List.mem_cons_self there
      simp only [stray?, here, ih later]

theorem stray?_append (known : List Key) (met later : List (Leaf Key)) :
    stray? store known (met ++ later) =
      (stray? store known met).or (stray? store (keysInPlace met ++ known) later) := by
  induction met generalizing known with
  | nil => rfl
  | cons first rest ih =>
    cases first with
    | primitive kind => exact ih known
    | array elements =>
      rw [List.cons_append, stray?, ih, stray?, keysInPlace]
      congr 1
      exact stray?_congr fun ref _ _ => by simp [or_left_comm]
    | object ref =>
      rw [List.cons_append, stray?, stray?, ih]
      by_cases fine : store.contains ref = true ∨ ref ∈ known
      · simp only [if_pos fine, keysInPlace]
      · simp only [if_neg fine, Option.some_or]

/-- Nothing is astray exactly if every reference was saved, is known, or was met in place before. -/
theorem stray?_eq_none_iff {known : List Key} {met : List (Leaf Key)} :
    stray? store known met = none ↔ ∀ before ref after, met = before ++ .object ref :: after →
      store.contains ref = true ∨ ref ∈ keysInPlace before ++ known := by
  constructor
  · rintro none before ref after rfl
    rw [stray?_append, Option.or_eq_none_iff] at none
    by_contra astray
    have last := none.2
    rw [stray?, if_neg astray] at last
    cases last
  · intro fine
    induction met generalizing known with
    | nil => rfl
    | cons first rest ih =>
      cases first with
      | primitive kind =>
        refine ih fun before ref after split => ?_
        exact fine (.primitive kind :: before) ref after (split ▸ rfl)
      | array elements =>
        refine ih fun before ref after split => ?_
        have := fine (.array elements :: before) ref after (split ▸ rfl)
        simpa [keysInPlace, or_left_comm] using this
      | object ref =>
        have here : store.contains ref = true ∨ ref ∈ known := fine [] ref rest rfl
        rw [stray?, if_pos here]
        refine ih fun before other after split => ?_
        exact fine (.object ref :: before) other after (split ▸ rfl)

theorem stray?_eq_none {known : List Key} {met : List (Leaf Key)}
    (fine : ∀ ref, .object ref ∈ met → store.contains ref = true ∨ ref ∈ known) :
    stray? store known met = none := by
  refine stray?_eq_none_iff.mpr ?_
  rintro before ref after rfl
  rcases fine ref (by simp) with there | member
  · exact .inl there
  · exact .inr (List.mem_append_right _ member)

/-- In an ordered store no reference is astray that is met from a saved key. -/
theorem stray?_of_ordered (ordered : store.Ordered) {root : Key}
    (there : store.contains root = true) (known : List Key) :
    stray? store known (leaf store (.object root)) = none := by
  have passes : Passes store fun part => store.Holds part.references := by
    constructor
    · intro elements all part hp ref hr
      exact all ref (Leaf.mem_referencesOfAll.mpr ⟨part, hp, hr⟩)
    · intro ref there _ part hp inner hi
      exact ordered.holds_references_of_contains there inner (Composite.mem_references hp hi)
  have held := passes.leaf (.object root) fun ref hr => List.mem_singleton.mp hr ▸ there
  exact stray?_eq_none fun ref met => .inl (held _ met ref List.mem_cons_self)

end Itinerary

end Exemplar
