import Exemplar.Proofs.Tree.Merging

/-!
# Trees that values attest

A tree describes some values if each of its alternatives, at any depth, goes
back to parts of these values, and if a field is nullable only where one of the
objects behind it lacks it. Merging keeps that: what a merged object goes back
to is the union of what its inputs go back to. The tree of a value describes the
value. A competing type with one object and one array per position has no
choice on parts of values that it covers, so it accepts whatever a tree that
describes such values accepts.
-/

namespace Exemplar

def ItemOf (values : Json → Prop) (part : Json) : Prop :=
  ∃ items, values (.array items) ∧ part ∈ items

def MemberOf (values : Json → Prop) (name : String) (part : Json) : Prop :=
  ∃ members, values (.object members) ∧ (name, part) ∈ members

def HasName (name : String) (value : Json) : Prop :=
  ∃ members, value = .object members ∧ ∃ m ∈ members, m.1 = name

namespace Tree

mutual

/-- A tree that describes some values. -/
def Describes : Tree → (Json → Prop) → Prop
  | .primitive kind, values => ∀ value, values value → value.kind? = some kind
  | .array elements, values =>
    (∀ value, values value → ∃ items, value = .array items) ∧ Attested elements (ItemOf values)
  | .object fields, values =>
    (∀ value, values value → ∃ members, value = .object members) ∧
      (∀ name, (∀ value, values value → HasName name value) →
        ∃ field ∈ fields, field.name = name ∧ field.nullable = false) ∧
      AttestedFields fields (MemberOf values)

/-- Trees, each of which describes some of the values, and at least one. -/
def Attested : List Tree → (Json → Prop) → Prop
  | [], _ => True
  | tree :: rest, values =>
    (∃ source : Json → Prop, (∃ value, source value) ∧ (∀ value, source value → values value) ∧
      Describes tree source) ∧ Attested rest values

/-- Fields whose alternatives are attested by the values under their names. -/
def AttestedFields : List (Member (List Tree)) → (String → Json → Prop) → Prop
  | [], _ => True
  | ⟨name, types, _⟩ :: rest, parts => Attested types (parts name) ∧ AttestedFields rest parts

end

/-- A tree that describes some of the values, and at least one. -/
def AttestedBy (values : Json → Prop) (tree : Tree) : Prop :=
  ∃ source : Json → Prop, (∃ value, source value) ∧ (∀ value, source value → values value) ∧
    Describes tree source

theorem attested_iff {trees : List Tree} {values : Json → Prop} :
    Attested trees values ↔ ∀ tree ∈ trees, AttestedBy values tree := by
  induction trees with
  | nil => simp [Attested]
  | cons tree rest ih => rw [Attested, ih, List.forall_mem_cons]; rfl

theorem attestedFields_iff {fields : List (Member (List Tree))} {parts : String → Json → Prop} :
    AttestedFields fields parts ↔ ∀ field ∈ fields, Attested field.type (parts field.name) := by
  induction fields with
  | nil => simp [AttestedFields]
  | cons field rest ih => rw [AttestedFields, ih, List.forall_mem_cons]

theorem AttestedBy.mono {values more : Json → Prop} {tree : Tree} (h : AttestedBy values tree)
    (le : ∀ value, values value → more value) : AttestedBy more tree := by
  obtain ⟨source, there, within, describes⟩ := h
  exact ⟨source, there, fun value hv => le value (within value hv), describes⟩

/-! ## Types without a choice -/

/-- The alternatives that fields give to a name. -/
def alternativesAt (name : String) (fields : List (Member (List Tree))) : List Tree :=
  (fields.filter (·.name = name)).flatMap (·.type)

/-- At every position, all object alternatives are one, and so are all array alternatives. -/
inductive Narrow : List Tree → Prop
  | intro {types : List Tree}
      (object : ∀ fields fields', .object fields ∈ types → .object fields' ∈ types → fields = fields')
      (array : ∀ elements elements', .array elements ∈ types → .array elements' ∈ types →
        elements = elements')
      (members : ∀ fields, .object fields ∈ types → ∀ name, Narrow (alternativesAt name fields))
      (items : ∀ elements, .array elements ∈ types → Narrow elements) : Narrow types

/-- Primitives leave no choice. -/
theorem narrow_primitives (kinds : List Kind) : Narrow (kinds.map .primitive) := by
  constructor <;> simp

theorem acceptsField_iff_alternativesAt {fields : List (Member (List Tree))} {name : String}
    {value : Json} :
    AcceptsField fields name value ↔ AcceptsAny (alternativesAt name fields) value := by
  rw [acceptsField_iff, acceptsAny_iff]
  constructor
  · rintro ⟨field, hf, same, accepted⟩
    obtain ⟨tree, ht, accepted⟩ := acceptsAny_iff.mp accepted
    refine ⟨tree, List.mem_flatMap.mpr ⟨field, ?_, ht⟩, accepted⟩
    exact List.mem_filter.mpr ⟨hf, decide_eq_true same⟩
  · rintro ⟨tree, ht, accepted⟩
    obtain ⟨field, hf, ht⟩ := List.mem_flatMap.mp ht
    obtain ⟨hf, same⟩ := List.mem_filter.mp hf
    exact ⟨field, hf, of_decide_eq_true same, acceptsAny_iff.mpr ⟨tree, ht, accepted⟩⟩

theorem primitive_of_accepts {tree : Tree} {value : Json} {kind : Kind}
    (accepted : tree.Accepts value) (isKind : value.kind? = some kind) : tree = .primitive kind := by
  cases tree with
  | primitive other => rw [Option.some.inj (accepted.symm.trans isKind)]
  | array elements =>
    obtain ⟨items, rfl, _⟩ := accepted
    cases isKind
  | object fields =>
    obtain ⟨members, rfl, _⟩ := accepted
    cases isKind

theorem array_of_accepts {tree : Tree} {items : List Json} (accepted : tree.Accepts (.array items)) :
    ∃ elements, tree = .array elements ∧ ∀ part ∈ items, AcceptsAny elements part := by
  cases tree with
  | primitive kind => cases accepted
  | array elements => exact ⟨elements, rfl, Json.isArrayOf_array.mp accepted⟩
  | object fields =>
    obtain ⟨_, same, _⟩ := accepted
    cases same

theorem object_of_accepts {tree : Tree} {members : List (String × Json)}
    (accepted : tree.Accepts (.object members)) :
    ∃ fields, tree = .object fields ∧ (∀ m ∈ members, AcceptsField fields m.1 m.2) ∧
      ∀ name, (∃ field ∈ fields, field.name = name ∧ field.nullable = false) →
        ∃ m ∈ members, m.1 = name := by
  cases tree with
  | primitive kind => cases accepted
  | array elements =>
    obtain ⟨_, same, _⟩ := accepted
    cases same
  | object fields => exact ⟨fields, rfl, Json.isRecordOf_object.mp accepted⟩

/-- Arrays that a type without a choice covers are all covered by one alternative. -/
theorem Narrow.covers_items {types expected : List Tree} (narrow : Narrow types)
    (choice : .array expected ∈ types) {values : Json → Prop}
    (covers : ∀ value, values value → AcceptsAny types value) {part : Json}
    (item : ItemOf values part) : AcceptsAny expected part := by
  obtain ⟨_, oneArray, _, _⟩ := narrow
  obtain ⟨items, hs, hp⟩ := item
  obtain ⟨type, ht, accepts⟩ := acceptsAny_iff.mp (covers _ hs)
  obtain ⟨other, rfl, each⟩ := array_of_accepts accepts
  rw [oneArray _ _ choice ht]
  exact each part hp

/-- Objects that a type without a choice covers are all covered by one alternative. -/
theorem Narrow.covers_members {types : List Tree} {expected : List (Member (List Tree))}
    (narrow : Narrow types) (choice : .object expected ∈ types) {members : List (String × Json)}
    (accepted : AcceptsAny types (.object members)) :
    (∀ m ∈ members, AcceptsField expected m.1 m.2) ∧
      ∀ name, (∃ field ∈ expected, field.name = name ∧ field.nullable = false) →
        ∃ m ∈ members, m.1 = name := by
  obtain ⟨oneObject, _, _, _⟩ := narrow
  obtain ⟨type, ht, accepts⟩ := acceptsAny_iff.mp accepted
  obtain ⟨other, rfl, each⟩ := object_of_accepts accepts
  rwa [oneObject _ _ choice ht]

/-- A type without a choice accepts what a tree accepts that describes values it covers. -/
theorem accepts_of_attested {tree : Tree} {types : List Tree} (narrow : Narrow types)
    {values : Json → Prop} (attested : AttestedBy values tree)
    (covers : ∀ value, values value → AcceptsAny types value) {value : Json}
    (accepted : tree.Accepts value) : AcceptsAny types value := by
  induction tree using parts_induction generalizing types values value with
  | primitive kind =>
    obtain ⟨source, ⟨first, there⟩, within, describes⟩ := attested
    obtain ⟨type, ht, accepts⟩ := acceptsAny_iff.mp (covers first (within first there))
    have same := primitive_of_accepts accepts (describes first there)
    exact acceptsAny_iff.mpr ⟨type, ht, same ▸ accepted⟩
  | array elements ih =>
    obtain ⟨source, ⟨first, there⟩, within, arrays, parts⟩ := attested
    obtain ⟨items, rfl⟩ := arrays first there
    obtain ⟨type, ht, accepts⟩ := acceptsAny_iff.mp (covers _ (within _ there))
    obtain ⟨expected, rfl, _⟩ := array_of_accepts accepts
    -- Every array behind the tree was accepted by this one alternative.
    have covered : ∀ part, ItemOf source part → AcceptsAny expected part := by
      intro part item
      exact narrow.covers_items ht (fun value hs => covers value (within value hs)) item
    obtain ⟨_, _, _, narrowItems⟩ := narrow
    refine acceptsAny_iff.mpr ⟨_, ht, ?_⟩
    rw [Accepts] at accepted ⊢
    refine accepted.mono ?_
    intro part _ accepted
    obtain ⟨tree, hm, accepted⟩ := acceptsAny_iff.mp accepted
    exact ih tree hm (narrowItems _ ht) (attested_iff.mp parts tree hm) covered accepted
  | object fields ih =>
    obtain ⟨source, ⟨first, there⟩, within, objects, mandatory, parts⟩ := attested
    obtain ⟨members, rfl⟩ := objects first there
    obtain ⟨type, ht, accepts⟩ := acceptsAny_iff.mp (covers _ (within _ there))
    obtain ⟨expected, rfl, _, _⟩ := object_of_accepts accepts
    -- Every object behind the tree was accepted by this one alternative.
    have accepting := fun members (hs : source (.object members)) =>
      narrow.covers_members ht (covers _ (within _ hs))
    obtain ⟨_, _, narrowMembers, _⟩ := narrow
    refine acceptsAny_iff.mpr ⟨_, ht, ?_⟩
    rw [Accepts] at accepted ⊢
    refine accepted.mono (fun name part _ accepted => ?_) fun name needed => ?_
    · obtain ⟨field, hf, rfl, listed⟩ := acceptsField_iff.mp accepted
      obtain ⟨tree, hm, accepted⟩ := acceptsAny_iff.mp listed
      have described := attested_iff.mp (attestedFields_iff.mp parts field hf) tree hm
      rw [acceptsField_iff_alternativesAt]
      refine ih field hf tree hm (narrowMembers _ ht field.name) described ?_ accepted
      rintro part ⟨members, hs, hp⟩
      exact acceptsField_iff_alternativesAt.mp ((accepting members hs).1 _ hp)
    · refine mandatory name ?_
      intro value hs
      obtain ⟨members, rfl⟩ := objects value hs
      exact ⟨members, rfl, (accepting members hs).2 name needed⟩

/-! ## Merging -/

/-- All values that go back to some trees, each of which describes some of the values. -/
def Behind (trees : List Tree) (values : Json → Prop) (value : Json) : Prop :=
  ∃ tree ∈ trees, ∃ source : Json → Prop, source value ∧ (∀ value, source value → values value) ∧
    Describes tree source

theorem behind_of_attested {tree : Tree} {trees : List Tree} {values : Json → Prop}
    (ht : tree ∈ trees) (attested : AttestedBy values tree) : ∃ value, Behind trees values value := by
  obtain ⟨source, ⟨value, there⟩, within, describes⟩ := attested
  exact ⟨value, tree, ht, source, there, within, describes⟩

theorem Behind.within {trees : List Tree} {values : Json → Prop} {value : Json}
    (behind : Behind trees values value) : values value := by
  obtain ⟨_, _, source, there, within, _⟩ := behind
  exact within value there

/-- The arrays behind some array trees attest the alternatives of each. -/
theorem attested_pool {arrays : List (List Tree)} {values : Json → Prop}
    (attested : ∀ elements ∈ arrays, AttestedBy values (.array elements)) :
    Attested arrays.flatten.eraseDups (ItemOf (Behind (arrays.map .array) values)) := by
  refine attested_iff.mpr ?_
  intro tree ht
  obtain ⟨elements, he, ht⟩ := List.mem_flatten.mp (List.mem_eraseDups.mp ht)
  obtain ⟨source, there, within, arrays', parts⟩ := attested elements he
  refine (attested_iff.mp parts tree ht).mono ?_
  rintro part ⟨items, hs, hp⟩
  exact ⟨items, ⟨_, List.mem_map_of_mem he, source, hs, within, arrays', parts⟩, hp⟩

/-- The objects behind some object trees attest what each gives to a name. -/
theorem attested_candidates {objects : List (List (Member (List Tree)))} {values : Json → Prop}
    (attested : ∀ fields ∈ objects, AttestedBy values (.object fields)) (name : String) :
    Attested (candidates name objects) (MemberOf (Behind (objects.map .object) values) name) := by
  refine attested_iff.mpr ?_
  intro tree ht
  obtain ⟨fields, hf, field, found, inType⟩ := mem_candidates.mp ht
  obtain ⟨source, there, within, objects', mandatory, parts⟩ := attested fields hf
  obtain ⟨hm, rfl⟩ := of_field?_eq_some found
  have parts' := attestedFields_iff.mp parts field hm
  refine (attested_iff.mp parts' tree inType).mono ?_
  rintro part ⟨members, hs, hp⟩
  exact ⟨members, ⟨_, List.mem_map_of_mem hf, source, hs, within, objects', mandatory, parts⟩, hp⟩

/-- A name that all objects behind some trees have is mandatory in each of these. -/
theorem lacks_eq_false {objects : List (List (Member (List Tree)))} {values : Json → Prop}
    (attested : ∀ fields ∈ objects, AttestedBy values (.object fields)) {name : String}
    (all : ∀ value, Behind (objects.map .object) values value → HasName name value) :
    lacks name objects = false := by
  refine List.any_eq_false.mpr ?_
  intro fields hf
  obtain ⟨source, there, within, objects', mandatory, parts⟩ := attested fields hf
  obtain ⟨field, hm, same, _⟩ := mandatory name fun value hs =>
    all value ⟨_, List.mem_map_of_mem hf, source, hs, within, objects', mandatory, parts⟩
  simpa using ⟨field, hm, same⟩

/-- Merging keeps that alternatives are attested. -/
theorem Attested.merge {trees : List Tree} {values : Json → Prop} (attested : Attested trees values) :
    Attested (merge trees) values := by
  induction trees using merge_induction generalizing values with
  | step trees ih =>
    have each : ∀ tree ∈ trees.eraseDups, AttestedBy values tree := by
      intro tree ht
      exact attested_iff.mp attested tree (List.mem_eraseDups.mp ht)
    refine attested_iff.mpr ?_
    intro tree ht
    rcases mem_merge.mp ht with ⟨present, rfl⟩ | ⟨present, rfl⟩ | ⟨kind, hk, rfl⟩
    · have inputs : ∀ fields ∈ objects trees.eraseDups, AttestedBy values (.object fields) :=
        fun fields hf => each _ (mem_objects.mp hf)
      obtain ⟨first, hf⟩ := List.exists_mem_of_ne_nil _ present
      -- The merged object goes back to everything that any of its inputs goes back to.
      refine ⟨Behind ((objects trees.eraseDups).map .object) values,
        behind_of_attested (List.mem_map_of_mem hf) (inputs first hf), fun _ => Behind.within,
        ?_, fun name all => ?_, ?_⟩
      · rintro value ⟨_, hm, source, there, _, describes⟩
        obtain ⟨fields, _, rfl⟩ := List.mem_map.mp hm
        exact describes.1 value there
      · have lacking := lacks_eq_false inputs all
        have listed : name ∈ fieldNames (objects trees.eraseDups) := by
          have has := List.any_eq_false.mp lacking first hf
          obtain ⟨field, hm, same⟩ : ∃ field ∈ first, field.name = name := by simpa using has
          exact mem_fieldNames.mpr ⟨first, hf, field, hm, same⟩
        exact ⟨_, List.mem_map_of_mem listed, rfl, lacking⟩
      · refine attestedFields_iff.mpr ?_
        intro field hm
        obtain ⟨name, _, rfl⟩ := List.mem_map.mp hm
        exact ih present name (attested_candidates inputs name)
    · have inputs : ∀ elements ∈ arrays trees.eraseDups, AttestedBy values (.array elements) :=
        fun elements he => each _ (mem_arrays.mp he)
      obtain ⟨first, he⟩ := List.exists_mem_of_ne_nil _ present
      refine ⟨Behind ((arrays trees.eraseDups).map .array) values,
        behind_of_attested (List.mem_map_of_mem he) (inputs first he), fun _ => Behind.within,
        ?_, attested_pool inputs⟩
      rintro value ⟨_, hm, source, there, _, describes⟩
      obtain ⟨elements, _, rfl⟩ := List.mem_map.mp hm
      exact describes.1 value there
    · exact each _ (mem_kinds.mp hk)

end Tree

end Exemplar
