import Exemplar.Proofs.Definition.Collection
import Exemplar.Proofs.Definition.Inlining
import Exemplar.Proofs.Definition.Naming
import Exemplar.Samples

/-!
# From a root to its named definitions

Collecting, writing arrays in place, marking the root and naming each keep the
meaning of the root: first under its key, at last under the root name. In an
ordered store that has the root, none of them fails.
-/

namespace Exemplar

namespace Definition

/-- Closed definitions with distinct names, none of them marked, among them the root. -/
structure Serializable (root : Key) (types : List (Definition Key)) : Prop where
  distinct : (names types).Nodup
  closed : Closed types
  unmarked : ∀ t ∈ types, t.isRoot = false
  root : root ∈ names types

/-- What was collected for a root can be serialized. -/
theorem serializable_of_settled {shapes : List (Composite Key)} (settled : Collect.Settled shapes)
    {root : Key} (covers : Collect.Covers shapes [root]) :
    Serializable root (shapes.map Collect.definitionOf) := by
  refine ⟨settled.nodup_names, settled.closed, fun t ht => ?_, ?_⟩
  · obtain ⟨shape, _, rfl⟩ := List.mem_map.mp ht
    rfl
  · exact Collect.mem_names_definitionOf.mpr (covers root List.mem_cons_self)

theorem serializable_collect {store : Store} (ordered : store.Ordered) {root : Key}
    (there : store.contains root = true) :
    ∃ types, collect store root = .ok types ∧ Serializable root types ∧
      ∀ value, meaning types root value ↔ root.tree.Accepts value := by
  obtain ⟨shapes, collected, settled, covers, _⟩ := Collect.collect_ok ordered there
  have serializable := serializable_of_settled settled covers
  exact ⟨_, collected, serializable, settled.meaning_iff serializable.root⟩

variable {root : Key} {types : List (Definition Key)}

theorem Serializable.inlineArrays (serializable : Serializable root types) :
    Serializable root (inlineArrays root types) := by
  refine ⟨?_, Inline.closed_inlineArrays serializable.distinct serializable.closed, ?_, ?_⟩
  · exact Inline.nodup_names_inlineArrays serializable.distinct root
  · intro t ht
    obtain ⟨before, hb, _, same⟩ := Inline.isRoot_inlineArrays ht
    exact same.symm.trans (serializable.unmarked before hb)
  · exact Inline.mem_names_inlineArrays.mpr ⟨serializable.root, Inline.kept_root root types⟩

/-- A definition with the mark that it gets when the root is marked. -/
def marked (root : Key) (t : Definition Key) : Definition Key :=
  { t with isRoot := t.isRoot || t.name = root }

theorem Serializable.markRoot_ok (serializable : Serializable root types) :
    markRoot root types = .ok (types.map (marked root)) := by
  obtain ⟨t, ht, same⟩ := mem_names.mp serializable.root
  exact if_pos (List.any_eq_true.mpr ⟨t, ht, decide_eq_true same⟩)

theorem names_marked (root : Key) (types : List (Definition Key)) :
    names (types.map (marked root)) = names types := by
  rw [names, names, List.map_map]
  rfl

theorem meaning_marked (root : Key) (types : List (Definition Key)) :
    meaning (types.map (marked root)) = meaning types := by
  have found : Inline.bodyOf? (types.map (marked root)) = Inline.bodyOf? types := by
    funext name
    rw [Inline.bodyOf?, Inline.bodyOf?, List.filter_map, List.getLast?_map, Option.map_map]
    rfl
  refine Meaning.eq_fixed (guarded_rule _ _) ?_
  intro name value
  rw [rule, ← found]
  exact Meaning.fixed_iff (guarded_rule _ _) name value

theorem Serializable.distinct_marked (serializable : Serializable root types) :
    (names (types.map (marked root))).Nodup := names_marked root types ▸ serializable.distinct

theorem Serializable.closed_marked (serializable : Serializable root types) :
    Closed (types.map (marked root)) := by
  intro t ht ref hr
  obtain ⟨before, hb, rfl⟩ := List.mem_map.mp ht
  rw [names_marked]
  exact serializable.closed before hb ref hr

/-- The definition that is marked in the end is the root's. -/
theorem Serializable.find?_root (serializable : Serializable root types) (final : Key → String)
    {t : Definition Key} (ht : t ∈ types) (isRoot : t.name = root) :
    ((types.map (marked root)).map (Naming.rename final)).find? (·.isRoot) =
      some (Naming.rename final (marked root t)) := by
  cases found : ((types.map (marked root)).map (Naming.rename final)).find? (·.isRoot) with
  | none =>
    have unmarked := List.find?_eq_none.mp found _ (List.mem_map_of_mem (List.mem_map_of_mem ht))
    simp [Naming.rename, marked, isRoot] at unmarked
  | some first =>
    have mark := List.find?_some found
    obtain ⟨_, hm, rfl⟩ := List.mem_map.mp (List.mem_of_find?_eq_some found)
    obtain ⟨other, ho, rfl⟩ := List.mem_map.mp hm
    rw [Naming.rename, marked, serializable.unmarked other ho, Bool.false_or,
      decide_eq_true_eq] at mark
    rw [List.inj_on_of_nodup_map serializable.distinct ho ht (mark.trans isRoot.symm)]

/-- After naming, the marked definition means what the root meant under its key. -/
theorem Serializable.rootAccepts_iff (serializable : Serializable root types) (options : Options)
    (value : Json) :
    RootAccepts (Naming.named root options (types.map (marked root))) value ↔
      meaning types root value := by
  have injective : ∀ name ∈ names (types.map (marked root)),
      ∀ name' ∈ names (types.map (marked root)), Naming.finalName root options _ name =
        Naming.finalName root options _ name' → name = name' :=
    fun _ hn _ hn' => Naming.finalName_injOn root options hn hn'
  have distinct := serializable.distinct_marked
  obtain ⟨t, ht, isRoot⟩ := mem_names.mp serializable.root
  have member : marked root t ∈ types.map (marked root) := List.mem_map_of_mem ht
  have kept := Naming.meaning_rename injective distinct serializable.closed_marked
    (mem_names.mpr ⟨_, member, rfl⟩) value
  rw [Naming.named, rootAccepts_of_find? (serializable.find?_root _ ht isRoot)]
  refine (meaning_of_mem (Naming.nodup_names_rename injective distinct)
    (List.mem_map_of_mem member) value).symm.trans ?_
  refine kept.trans ?_
  rw [meaning_marked]
  exact iff_of_eq (congrArg (meaning types · value) isRoot)

/-- Collected definitions pass through all that follows. -/
theorem Serializable.definitions_eq {store : Store} (serializable : Serializable root types)
    (collected : collect store root = .ok types) (options : Options) :
    definitions store root options =
      .ok (Naming.named root options ((Exemplar.inlineArrays root types).map (marked root))) := by
  have inlined := serializable.inlineArrays
  have named := Naming.assignNames_ok root options inlined.closed_marked
  rw [definitions, collected]
  change (markRoot root (Exemplar.inlineArrays root types) >>= fun types =>
    (assignNames root options types).mapError Fault.unknownDefinition) = _
  rw [inlined.markRoot_ok]
  change (assignNames root options _).mapError Fault.unknownDefinition = _
  rw [named]
  rfl

end Definition

/-- The definitions of a root depend on the root alone, not on what else a store holds. -/
theorem definitions_congr {store other : Store} (ordered : store.Ordered)
    (ordered' : other.Ordered) {root : Key} (there : store.contains root = true)
    (there' : other.contains root = true) (options : Options) :
    definitions store root options = definitions other root options := by
  rw [definitions, definitions, Collect.collect_congr ordered ordered' there there']

/-- The definitions of a saved root accept what its tree accepts. -/
theorem definitions_ok {store : Store} (ordered : store.Ordered) {root : Key}
    (there : store.contains root = true) (options : Options) :
    ∃ types, definitions store root options = .ok types ∧
      ∀ value, Definition.RootAccepts types value ↔ root.tree.Accepts value := by
  obtain ⟨collected, ran, serializable, means⟩ :=
    Definition.serializable_collect ordered there
  refine ⟨_, serializable.definitions_eq ran options, fun value => ?_⟩
  rw [serializable.inlineArrays.rootAccepts_iff options, ← means]
  exact Inline.meaningOver_inlineArrays _ serializable.distinct (Inline.kept_root root collected)
    value

/-- Serialization keeps meaning: the definitions of a root accept what the root accepts in its
store. -/
theorem store_accepts_iff_rootAccepts {store : Store} (ordered : store.Ordered) {root : Key}
    (there : store.contains root = true) (options : Options) :
    ∃ types, definitions store root options = .ok types ∧
      ∀ value, store.Accepts root value ↔ Definition.RootAccepts types value := by
  obtain ⟨types, ran, means⟩ := definitions_ok ordered there options
  refine ⟨types, ran, fun value => ?_⟩
  rw [means, Store.accepts_iff_tree ordered there]

/-- A store of points, and of an object that lists points in place, two arrays deep. -/
theorem points_accept_iff_rootAccepts :
    let point : Composite Key := .object [⟨"x", [.primitive .number], false⟩]
    let points : Composite Key :=
      .object [⟨"rows", [.array [.array [.object (.address point)]], .primitive .null], true⟩]
    let store := (Store.empty.insert point).insert points
    store.Ordered ∧ store.contains (.address points) = true ∧
      ∃ types, definitions store (.address points) {} = .ok types ∧
        ∀ value, store.Accepts (.address points) value ↔ Definition.RootAccepts types value := by
  intro point points store
  have ordered : store.Ordered :=
    Store.ordered_insert_insert rfl fun _ => List.mem_singleton.mp
  have there : store.contains (.address points) = true := Store.contains_insert _ _
  exact ⟨ordered, there, store_accepts_iff_rootAccepts ordered there _⟩

end Exemplar
