import Exemplar.Proofs.Tree.Soundness

/-!
# Trees below others

A tree lies below another if each of its parts has a counterpart there, and if
each field that the other requires is required in it. Order and repetition of
alternatives and fields do not count. What lies below accepts no more.

Merging respects this relation, although repetitions are dropped by equality only:
what is above needs distinct names and no nullable field in the objects that
are merged, what is below needs nothing.
-/

namespace Exemplar

namespace Tree

/-- Whether some fields require a name. -/
def Requires (fields : List (Member (List Tree))) (name : String) : Prop :=
  ∃ field ∈ fields, field.name = name ∧ field.nullable = false

mutual

/-- Each part of a tree has a counterpart in another, whose fields require no more. -/
def Le : Tree → Tree → Prop
  | .primitive kind, other => other = .primitive kind
  | .array elements, other => ∃ elements', other = .array elements' ∧ AllLe elements elements'
  | .object fields, other => ∃ fields', other = .object fields' ∧ FieldsLe fields fields' ∧
      ∀ name, Requires fields' name → Requires fields name

/-- Each of some trees has a counterpart among others. -/
def AllLe : List Tree → List Tree → Prop
  | [], _ => True
  | tree :: rest, others => (∃ other ∈ others, Le tree other) ∧ AllLe rest others

/-- Each of some fields has a counterpart of the same name, with counterparts of its alternatives. -/
def FieldsLe : List (Member (List Tree)) → List (Member (List Tree)) → Prop
  | [], _ => True
  | ⟨name, types, _⟩ :: rest, others =>
    (∃ other ∈ others, other.name = name ∧ AllLe types other.type) ∧ FieldsLe rest others

end

theorem allLe_iff {trees others : List Tree} :
    AllLe trees others ↔ ∀ tree ∈ trees, ∃ other ∈ others, tree.Le other := by
  induction trees with
  | nil => simp [AllLe]
  | cons tree rest ih => rw [AllLe, ih, List.forall_mem_cons]

theorem fieldsLe_iff {fields others : List (Member (List Tree))} :
    FieldsLe fields others ↔
      ∀ field ∈ fields, ∃ other ∈ others, other.name = field.name ∧ AllLe field.type other.type := by
  induction fields with
  | nil => simp [FieldsLe]
  | cons field rest ih => rw [FieldsLe, ih, List.forall_mem_cons]

/-- One object lies below another if its fields do, and require all that the other requires. -/
theorem le_object_iff {fields fields' : List (Member (List Tree))} :
    (object fields).Le (object fields') ↔
      FieldsLe fields fields' ∧ ∀ name, Requires fields' name → Requires fields name := by
  constructor
  · rintro ⟨_, same, below⟩
    cases same
    exact below
  · exact fun below => ⟨fields', rfl, below⟩

theorem le_refl (tree : Tree) : tree.Le tree := by
  induction tree using parts_induction with
  | primitive kind => rfl
  | array elements ih => exact ⟨elements, rfl, allLe_iff.mpr fun tree ht => ⟨tree, ht, ih tree ht⟩⟩
  | object fields ih =>
    refine le_object_iff.mpr ⟨fieldsLe_iff.mpr fun field hf => ?_, fun _ => id⟩
    exact ⟨field, hf, rfl, allLe_iff.mpr fun tree ht => ⟨tree, ht, ih field hf tree ht⟩⟩

/-- Trees that are all among others lie below them. -/
theorem allLe_of_subset {trees others : List Tree} (sub : trees ⊆ others) : AllLe trees others :=
  allLe_iff.mpr fun tree ht => ⟨tree, sub ht, tree.le_refl⟩

theorem AllLe.acceptsAny_of_each {trees others : List Tree} {value : Json} (le : AllLe trees others)
    (each : ∀ tree ∈ trees, ∀ other, tree.Le other → tree.Accepts value → other.Accepts value)
    (accepted : AcceptsAny trees value) : AcceptsAny others value := by
  obtain ⟨tree, ht, accepted⟩ := acceptsAny_iff.mp accepted
  obtain ⟨other, ho, below⟩ := allLe_iff.mp le tree ht
  exact acceptsAny_iff.mpr ⟨other, ho, each tree ht other below accepted⟩

/-- What lies below accepts no more. -/
theorem Le.accepts {tree other : Tree} (le : tree.Le other) {value : Json}
    (accepted : tree.Accepts value) : other.Accepts value := by
  induction tree using parts_induction generalizing other value with
  | primitive kind => exact le ▸ accepted
  | array elements ih =>
    obtain ⟨elements', rfl, parts⟩ := le
    rw [Accepts] at accepted ⊢
    refine accepted.mono ?_
    intro part _
    exact parts.acceptsAny_of_each fun tree ht _ below => ih tree ht below
  | object fields ih =>
    obtain ⟨fields', rfl, parts, fewer⟩ := le
    rw [Accepts] at accepted ⊢
    refine accepted.mono (fun name part _ listed => ?_) fewer
    obtain ⟨field, hf, same, listed⟩ := acceptsField_iff.mp listed
    obtain ⟨field', hf', same', types⟩ := fieldsLe_iff.mp parts field hf
    refine acceptsField_iff.mpr ⟨field', hf', same'.trans same, ?_⟩
    exact types.acceptsAny_of_each (fun tree ht _ below => ih field hf tree ht below) listed

theorem AllLe.acceptsAny {trees others : List Tree} {value : Json} (le : AllLe trees others)
    (accepted : AcceptsAny trees value) : AcceptsAny others value :=
  le.acceptsAny_of_each (fun _ _ _ below => below.accepts) accepted

/-! ## Merging -/

/-- Each of some objects lies below one of others. -/
def ObjectsLe (lower upper : List (List (Member (List Tree)))) : Prop :=
  ∀ fields ∈ lower, ∃ fields' ∈ upper, (object fields).Le (object fields')

theorem AllLe.objects {trees others : List Tree} (le : AllLe trees others) :
    ObjectsLe (objects trees) (objects others) := by
  intro fields hf
  obtain ⟨other, ho, below⟩ := allLe_iff.mp le _ (mem_objects.mp hf)
  obtain ⟨fields', rfl, _⟩ := id below
  exact ⟨fields', mem_objects.mpr ho, below⟩

theorem AllLe.eraseDups {trees others : List Tree} (le : AllLe trees others) :
    AllLe trees.eraseDups others.eraseDups := by
  refine allLe_iff.mpr fun tree ht => ?_
  obtain ⟨other, ho, below⟩ := allLe_iff.mp le tree (List.mem_eraseDups.mp ht)
  exact ⟨other, List.mem_eraseDups.mpr ho, below⟩

namespace ObjectsLe

variable {lower upper : List (List (Member (List Tree)))}

theorem mem_fieldNames (le : ObjectsLe lower upper) {name : String}
    (listed : name ∈ fieldNames lower) : name ∈ fieldNames upper := by
  obtain ⟨fields, hf, field, hm, rfl⟩ := Tree.mem_fieldNames.mp listed
  obtain ⟨fields', hf', below⟩ := le fields hf
  obtain ⟨field', hm', same, _⟩ := fieldsLe_iff.mp (le_object_iff.mp below).1 field hm
  exact Tree.mem_fieldNames.mpr ⟨fields', hf', field', hm', same⟩

/-- Where names are distinct above, the alternatives of a field have counterparts. -/
theorem candidates (le : ObjectsLe lower upper) (plain : ∀ fields ∈ upper, Plain fields)
    (name : String) : AllLe (candidates name lower) (candidates name upper) := by
  refine allLe_iff.mpr fun tree ht => ?_
  obtain ⟨fields, hf, field, found, listed⟩ := mem_candidates.mp ht
  obtain ⟨hm, rfl⟩ := of_field?_eq_some found
  obtain ⟨fields', hf', below⟩ := le fields hf
  obtain ⟨field', hm', same, types⟩ := fieldsLe_iff.mp (le_object_iff.mp below).1 field hm
  obtain ⟨other, ho, below⟩ := allLe_iff.mp types tree listed
  have found' : field? field.name fields' = some field' :=
    same ▸ field?_of_mem (plain fields' hf').1 hm'
  exact ⟨other, mem_candidates.mpr ⟨fields', hf', field', found', ho⟩, below⟩

/-- A name that no object above lacks is lacking in none below. -/
theorem lacks_eq_false (le : ObjectsLe lower upper) (plain : ∀ fields ∈ upper, Plain fields)
    {name : String} (all : lacks name upper = false) : lacks name lower = false := by
  refine List.any_eq_false.mpr fun fields hf => ?_
  obtain ⟨fields', hf', below⟩ := le fields hf
  have has : name ∈ fields'.map (·.name) := by
    simpa using List.any_eq_false.mp all fields' hf'
  obtain ⟨field', hm', same⟩ := List.mem_map.mp has
  have required : Requires fields' name := ⟨field', hm', same, (plain fields' hf').2 field' hm'⟩
  obtain ⟨field, hm, same, _⟩ := (le_object_iff.mp below).2 name required
  simpa using ⟨field, hm, same⟩

/-- Objects merge into one that lies below what those above merge into, if their alternatives do. -/
theorem mergedFields (le : ObjectsLe lower upper) (plain : ∀ fields ∈ upper, Plain fields)
    (present : lower ≠ []) (each : ∀ name, AllLe (merge (Tree.candidates name lower))
      (merge (Tree.candidates name upper))) :
    (object (mergedFields lower)).Le (object (mergedFields upper)) := by
  refine le_object_iff.mpr ⟨fieldsLe_iff.mpr fun field hm => ?_, ?_⟩
  · obtain ⟨name, listed, rfl⟩ := List.mem_map.mp hm
    exact ⟨_, List.mem_map_of_mem (le.mem_fieldNames listed), rfl, each name⟩
  · rintro _ ⟨field', hm', rfl, all⟩
    obtain ⟨name, _, rfl⟩ := List.mem_map.mp hm'
    have lacking := le.lacks_eq_false plain all
    obtain ⟨first, hf⟩ := List.exists_mem_of_ne_nil _ present
    have has : name ∈ first.map (·.name) := by
      simpa using List.any_eq_false.mp lacking first hf
    obtain ⟨field, hm, same⟩ := List.mem_map.mp has
    have listed := Tree.mem_fieldNames.mpr ⟨first, hf, field, hm, same⟩
    exact ⟨_, List.mem_map_of_mem listed, rfl, lacking⟩

end ObjectsLe

theorem AllLe.exists_array {trees others : List Tree} (le : AllLe trees others)
    {elements : List Tree} (he : elements ∈ arrays trees) :
    ∃ elements' ∈ arrays others, AllLe elements elements' := by
  obtain ⟨_, ho, elements', rfl, parts⟩ := allLe_iff.mp le _ (mem_arrays.mp he)
  exact ⟨elements', mem_arrays.mpr ho, parts⟩

/-- The alternatives of all arrays have counterparts. -/
theorem AllLe.flatten_arrays {trees others : List Tree} (le : AllLe trees others) :
    AllLe (arrays trees).flatten (arrays others).flatten := by
  refine allLe_iff.mpr fun part hp => ?_
  obtain ⟨elements, he, hp⟩ := List.mem_flatten.mp hp
  obtain ⟨elements', he', parts⟩ := le.exists_array he
  obtain ⟨other, ho, below⟩ := allLe_iff.mp parts part hp
  exact ⟨other, List.mem_flatten.mpr ⟨elements', he', ho⟩, below⟩

/-- Merging keeps trees below others, where the objects above merge without loss. -/
theorem AllLe.merge {trees others : List Tree} (plain : ∀ other ∈ others, Surface Plain other)
    (le : AllLe trees others) : AllLe (merge trees) (merge others) := by
  induction trees using merge_induction generalizing others with
  | step trees ih =>
    have plain' : ∀ other ∈ others.eraseDups, Surface Plain other :=
      fun other ho => plain other (List.mem_eraseDups.mp ho)
    have distinct := le.eraseDups
    refine allLe_iff.mpr fun tree ht => ?_
    rcases mem_merge.mp ht with ⟨present, rfl⟩ | ⟨present, rfl⟩ | ⟨kind, hk, rfl⟩
    · have below := distinct.objects
      have plainObjects : ∀ fields ∈ Tree.objects others.eraseDups, Plain fields :=
        fun fields hf => (plain' _ (mem_objects.mp hf)).holds
      obtain ⟨fields, hf⟩ := List.exists_mem_of_ne_nil _ present
      obtain ⟨fields', hf', _⟩ := below fields hf
      refine ⟨_, mem_merge.mpr (.inl ⟨List.ne_nil_of_mem hf', rfl⟩), ?_⟩
      refine below.mergedFields plainObjects present fun name => ?_
      exact ih present name (surface_candidates plain' name) (below.candidates plainObjects name)
    · obtain ⟨elements, he⟩ := List.exists_mem_of_ne_nil _ present
      obtain ⟨elements', he', _⟩ := distinct.exists_array he
      refine ⟨_, mem_merge.mpr (.inr (.inl ⟨List.ne_nil_of_mem he', rfl⟩)), _, rfl, ?_⟩
      exact distinct.flatten_arrays.eraseDups
    · obtain ⟨_, ho, rfl⟩ := allLe_iff.mp distinct _ (mem_kinds.mp hk)
      exact ⟨_, mem_merge.mpr (.inr (.inr ⟨kind, mem_kinds.mpr ho, rfl⟩)), rfl⟩

end Tree

end Exemplar
