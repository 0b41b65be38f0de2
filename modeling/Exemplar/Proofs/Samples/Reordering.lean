import Exemplar.Proofs.Samples.Growth

/-!
# Samples in another order

Samples are reordered by moving items of arrays and members of objects, at any
depth. Such samples have definitions together or not at all, and the definitions
accept the same values: the tree of each sample lies below that of another, in
both directions. The order of fields and alternatives may differ, and so may the
number of definitions, because only equal trees count as repetitions.
-/

namespace Exemplar

namespace Json

/-- Values that differ by moves of items in arrays and of members in objects. -/
inductive Reordered : Json → Json → Prop
  | refl (value : Json) : Reordered value value
  | trans {value between other : Json} :
      Reordered value between → Reordered between other → Reordered value other
  | moveItems {items items' : List Json} :
      items.Perm items' → Reordered (.array items) (.array items')
  | moveMembers {members members' : List (String × Json)} :
      members.Perm members' → Reordered (.object members) (.object members')
  | inItem (before : List Json) {item item' : Json} (after : List Json) : Reordered item item' →
      Reordered (.array (before ++ item :: after)) (.array (before ++ item' :: after))
  | inMember (before : List (String × Json)) (name : String) {value value' : Json}
      (after : List (String × Json)) : Reordered value value' →
      Reordered (.object (before ++ (name, value) :: after))
        (.object (before ++ (name, value') :: after))

/-- Values of one form where each part of the first has a counterpart in the second. Objects have
the same keys. -/
inductive Matched (R : Json → Json → Prop) : Json → Json → Prop
  | refl (value : Json) : Matched R value value
  | array {items items' : List Json} : (∀ item ∈ items, ∃ item' ∈ items', R item item') →
      Matched R (.array items) (.array items')
  | object {members members' : List (String × Json)} :
      (members.map (·.1)).Perm (members'.map (·.1)) →
      (∀ m ∈ members, ∃ m' ∈ members', m'.1 = m.1 ∧ R m.2 m'.2) →
      Matched R (.object members) (.object members')

theorem Matched.trans {R : Json → Json → Prop} {value between other : Json}
    (compose : ∀ {value between other}, R value between → R between other → R value other)
    (first : Matched R value between) (second : Matched R between other) :
    Matched R value other := by
  cases first with
  | refl => exact second
  | array each =>
    cases second with
    | refl => exact .array each
    | array each' =>
      refine .array fun item hi => ?_
      obtain ⟨item', hi', part⟩ := each item hi
      obtain ⟨item'', hi'', part'⟩ := each' item' hi'
      exact ⟨item'', hi'', compose part part'⟩
  | object keys each =>
    cases second with
    | refl => exact .object keys each
    | object keys' each' =>
      refine .object (keys.trans keys') fun m hm => ?_
      obtain ⟨m', hm', same, part⟩ := each m hm
      obtain ⟨m'', hm'', same', part'⟩ := each' m' hm'
      exact ⟨m'', hm'', same'.trans same, compose part part'⟩

/-- Where one element is replaced, all others are their own counterparts. -/
theorem exists_mem_replaced {α : Type} {R : α → α → Prop} (refl : ∀ a, R a a) (before after : List α)
    {a b : α} (replaced : R a b) :
    ∀ c ∈ before ++ a :: after, ∃ d ∈ before ++ b :: after, R c d := by
  intro c hc
  rcases List.mem_append.mp hc with hc | hc
  · exact ⟨c, List.mem_append_left _ hc, refl c⟩
  · rcases List.mem_cons.mp hc with rfl | hc
    · exact ⟨b, List.mem_append_right _ List.mem_cons_self, replaced⟩
    · exact ⟨c, List.mem_append_right _ (List.mem_cons_of_mem _ hc), refl c⟩

namespace Reordered

variable {value other : Json}

theorem symm (reordered : Reordered value other) : Reordered other value := by
  induction reordered with
  | refl value => exact .refl value
  | trans _ _ first second => exact second.trans first
  | moveItems moved => exact .moveItems moved.symm
  | moveMembers moved => exact .moveMembers moved.symm
  | inItem before after _ part => exact .inItem before after part
  | inMember before name after _ part => exact .inMember before name after part

/-- The parts of a reordered value are the parts of the value, themselves reordered. -/
theorem matched (reordered : Reordered value other) : Matched Reordered value other := by
  induction reordered with
  | refl value => exact .refl value
  | trans _ _ first second => exact first.trans .trans second
  | moveItems moved => exact .array fun item hi => ⟨item, moved.subset hi, .refl item⟩
  | moveMembers moved =>
    exact .object (moved.map _) fun m hm => ⟨m, moved.subset hm, rfl, .refl m.2⟩
  | inItem before after part _ => exact .array (exists_mem_replaced .refl before after part)
  | inMember before name after part _ =>
    refine .object (.of_eq ?_) (exists_mem_replaced ?_ before after ⟨rfl, part⟩)
    · simp only [List.map_append, List.map_cons]
    · exact fun m => ⟨rfl, .refl m.2⟩

/-- Induction on the parts of reordered values, which need not be traced back to single moves. -/
theorem parts_induction {motive : Json → Json → Prop}
    (step : ∀ {value other}, Matched motive value other → motive value other) {value other : Json}
    (reordered : Reordered value other) : motive value other := by
  match value, other, reordered.matched with
  | value, _, .refl _ => exact step (.refl value)
  | .array items, .array items', .array each =>
    refine step (.array fun item hi => ?_)
    obtain ⟨item', hi', part⟩ := each item hi
    have smaller := nesting_le_of_mem_items hi
    exact ⟨item', hi', parts_induction step part⟩
  | .object members, .object members', .object keys each =>
    refine step (.object keys fun m hm => ?_)
    obtain ⟨m', hm', same, part⟩ := each m hm
    have smaller := nesting_le_of_mem_members hm
    exact ⟨m', hm', same, parts_induction step part⟩
termination_by value.nesting
decreasing_by all_goals exact Nat.lt_succ_of_le smaller

theorem kind?_eq (reordered : Reordered value other) : value.kind? = other.kind? := by
  cases reordered.matched <;> rfl

theorem isArray_eq (reordered : Reordered value other) : value.isArray = other.isArray := by
  cases reordered.matched <;> rfl

theorem isObject_eq (reordered : Reordered value other) : value.isObject = other.isObject := by
  cases reordered.matched <;> rfl

theorem nesting_le (reordered : Reordered value other) : value.nesting ≤ other.nesting := by
  refine parts_induction (motive := fun value other => value.nesting ≤ other.nesting)
    (fun matched => ?_) reordered
  cases matched with
  | refl => exact Nat.le_refl _
  | array each =>
    refine Nat.succ_le_succ (nestingOfItems_le fun item hi => ?_)
    obtain ⟨item', hi', le⟩ := each item hi
    exact Nat.le_trans le (nesting_le_of_mem_items hi')
  | object keys each =>
    refine Nat.succ_le_succ (nestingOfMembers_le fun m hm => ?_)
    obtain ⟨m', hm', _, le⟩ := each m hm
    exact Nat.le_trans le (nesting_le_of_mem_members hm')

theorem nesting_eq (reordered : Reordered value other) : value.nesting = other.nesting :=
  Nat.le_antisymm reordered.nesting_le reordered.symm.nesting_le

theorem refusal?_eq (reordered : Reordered value other) (limit : Nat) :
    Session.refusal? limit value = Session.refusal? limit other := by
  rw [Session.refusal?, Session.refusal?, reordered.kind?_eq, reordered.nesting_eq]

theorem distinctKeys (reordered : Reordered value other) :
    other.DistinctKeys → value.DistinctKeys := by
  refine parts_induction (motive := fun value other => other.DistinctKeys → value.DistinctKeys)
    (fun matched distinct => ?_) reordered
  cases matched with
  | refl => exact distinct
  | array each =>
    rw [DistinctKeys, distinctKeysOfItems_iff] at distinct ⊢
    intro item hi
    obtain ⟨item', hi', back⟩ := each item hi
    exact back (distinct item' hi')
  | object keys each =>
    rw [DistinctKeys, distinctKeysOfMembers_iff] at distinct ⊢
    refine ⟨keys.nodup_iff.mpr distinct.1, fun m hm => ?_⟩
    obtain ⟨m', hm', _, back⟩ := each m hm
    exact back (distinct.2 m' hm')

end Reordered

end Json

namespace Node

open Exemplar.Tree

/-- The tree of an array lies below another if the trees of its items have counterparts. -/
theorem le_tree_array {items items' : List Json} (distinct : Json.DistinctKeysOfItems items')
    (each : ∀ item ∈ items, ∃ item' ∈ items', item.node.tree.Le item'.node.tree) :
    (Json.array items).node.tree.Le (Json.array items').node.tree := by
  have le : AllLe (treesOfItems (Json.nodesOfItems items))
      (treesOfItems (Json.nodesOfItems items')) := by
    rw [treesOfItems_nodesOfItems, treesOfItems_nodesOfItems, allLe_iff]
    intro tree ht
    obtain ⟨item, hi, rfl⟩ := List.mem_map.mp ht
    obtain ⟨item', hi', below⟩ := each item hi
    exact ⟨_, List.mem_map_of_mem hi', below⟩
  exact ⟨_, rfl, le.merge (plain_treesOfItems distinct)⟩

/-- The tree of an object lies below another if their keys are the same, and the trees of its
members have counterparts. -/
theorem le_tree_object {members members' : List (String × Json)}
    (keys : (members.map (·.1)).Perm (members'.map (·.1)))
    (each : ∀ m ∈ members, ∃ m' ∈ members', m'.1 = m.1 ∧ m.2.node.tree.Le m'.2.node.tree) :
    (Json.object members).node.tree.Le (Json.object members').node.tree := by
  refine le_object_iff.mpr ⟨fieldsLe_iff.mpr fun field hf => ?_, fun name required => ?_⟩
  · rw [fieldsOfMembers_nodesOfMembers] at hf ⊢
    obtain ⟨m, hm, rfl⟩ := List.mem_map.mp hf
    obtain ⟨m', hm', same, below⟩ := each m hm
    refine ⟨_, List.mem_map_of_mem hm', same, allLe_iff.mpr fun tree ht => ?_⟩
    cases List.mem_singleton.mp ht
    exact ⟨_, List.mem_singleton_self _, below⟩
  · obtain ⟨field', hf', rfl, _⟩ := required
    have listed := List.mem_map_of_mem (f := (·.name)) hf'
    rw [names_fieldsOfMembers] at listed
    obtain ⟨m, hm, same⟩ := List.mem_map.mp (keys.mem_iff.mpr listed)
    exact same ▸ mandatory_fieldsOfMembers hm

/-- The tree of a value lies below that of a reordered value. -/
theorem le_tree_of_reordered {value other : Json} (reordered : value.Reordered other) :
    other.DistinctKeys → value.node.tree.Le other.node.tree := by
  refine Json.Reordered.parts_induction (motive := fun value other =>
    other.DistinctKeys → value.node.tree.Le other.node.tree) (fun matched distinct => ?_) reordered
  cases matched with
  | refl => exact le_refl _
  | array each =>
    refine le_tree_array distinct fun item hi => ?_
    obtain ⟨item', hi', below⟩ := each item hi
    exact ⟨item', hi', below (Json.distinctKeysOfItems_iff.mp distinct item' hi')⟩
  | object keys each =>
    refine le_tree_object keys fun m hm => ?_
    obtain ⟨m', hm', same, below⟩ := each m hm
    exact ⟨m', hm', same, below (Json.distinctKeysOfMembers_iff.mp distinct.2 m' hm')⟩

end Node

/-- Samples that change places and are then reordered one by one. -/
def ReorderedSamples (samples samples' : List Json) : Prop :=
  ∃ between, samples.Perm between ∧ List.Forall₂ Json.Reordered between samples'

namespace ReorderedSamples

variable {samples samples' : List Json} {limit : Nat}

theorem symm (reordered : ReorderedSamples samples samples') : ReorderedSamples samples' samples := by
  obtain ⟨between, moved, each⟩ := reordered
  have back : Relation.Comp (List.Forall₂ Json.Reordered) List.Perm samples' samples :=
    ⟨between, each.flip.imp fun _ _ part => part.symm, moved.symm⟩
  rwa [List.forall₂_comp_perm_eq_perm_comp_forall₂] at back

theorem exists_mem (reordered : ReorderedSamples samples samples') :
    ∀ value ∈ samples, ∃ value' ∈ samples', value.Reordered value' := by
  obtain ⟨between, moved, each⟩ := reordered
  have counterpart : ∀ value ∈ between, ∃ value' ∈ samples', value.Reordered value' := by
    induction each generalizing samples with
    | nil => simp
    | cons part rest ih =>
      rw [List.forall_mem_cons]
      refine ⟨⟨_, List.mem_cons_self, part⟩, fun value hv => ?_⟩
      obtain ⟨value', hv', part⟩ := ih (.refl _) value hv
      exact ⟨value', List.mem_cons_of_mem _ hv', part⟩
  exact fun value hv => counterpart value (moved.subset hv)

theorem distinctKeys (reordered : ReorderedSamples samples samples')
    (distinct : ∀ value ∈ samples', value.DistinctKeys) : ∀ value ∈ samples, value.DistinctKeys := by
  intro value hv
  obtain ⟨value', hv', part⟩ := reordered.exists_mem value hv
  exact part.distinctKeys (distinct value' hv')

theorem allLe (reordered : ReorderedSamples samples samples')
    (distinct : ∀ value ∈ samples', value.DistinctKeys) :
    Tree.AllLe (samples.map (·.node.tree)) (samples'.map (·.node.tree)) := by
  refine Tree.allLe_iff.mpr fun tree ht => ?_
  obtain ⟨value, hv, rfl⟩ := List.mem_map.mp ht
  obtain ⟨value', hv', part⟩ := reordered.exists_mem value hv
  exact ⟨_, List.mem_map_of_mem hv', Node.le_tree_of_reordered part (distinct value' hv')⟩

theorem any_eq_true (reordered : ReorderedSamples samples samples') {form : Json → Bool}
    (same : ∀ {value value' : Json}, value.Reordered value' → form value = form value')
    (has : samples.any form = true) : samples'.any form = true := by
  obtain ⟨value, hv, formed⟩ := List.any_eq_true.mp has
  obtain ⟨value', hv', part⟩ := reordered.exists_mem value hv
  exact List.any_eq_true.mpr ⟨value', hv', same part ▸ formed⟩

/-- Samples that have no failure have none in another order. -/
theorem failure?_eq_none (reordered : ReorderedSamples samples samples')
    (clear : failure? limit samples' = none) : failure? limit samples = none := by
  obtain ⟨nonempty, accepted, uniform⟩ := failure?_eq_none_iff.mp clear
  refine failure?_eq_none_iff.mpr ⟨?_, fun value hv => ?_, fun mixed => uniform ?_⟩
  · obtain ⟨value', hv'⟩ := List.exists_mem_of_ne_nil _ nonempty
    obtain ⟨value, hv, _⟩ := reordered.symm.exists_mem value' hv'
    exact List.ne_nil_of_mem hv
  · obtain ⟨value', hv', part⟩ := reordered.exists_mem value hv
    exact (part.refusal?_eq limit).trans (accepted value' hv')
  · exact ⟨reordered.any_eq_true (·.isArray_eq) mixed.1,
      reordered.any_eq_true (·.isObject_eq) mixed.2⟩

end ReorderedSamples

/-- Samples have definitions exactly if they have definitions in another order, and these accept
the same values. -/
theorem rootAccepts_iff_of_reordered {samples samples' : List Json} (options : Options)
    (distinct : ∀ value ∈ samples, value.DistinctKeys)
    (reordered : ReorderedSamples samples samples') :
    ((∃ types, definitionsOfSamples options samples = .ok types) ↔
      ∃ types', definitionsOfSamples options samples' = .ok types') ∧
    ∀ types types', definitionsOfSamples options samples = .ok types →
      definitionsOfSamples options samples' = .ok types' →
        ∀ value, Definition.RootAccepts types value ↔ Definition.RootAccepts types' value := by
  have distinct' := reordered.symm.distinctKeys distinct
  refine ⟨?_, fun types types' ok ok' value => ⟨?_, ?_⟩⟩
  · rw [exists_definitionsOfSamples_iff, exists_definitionsOfSamples_iff]
    exact ⟨reordered.symm.failure?_eq_none, reordered.failure?_eq_none⟩
  · exact rootAccepts_of_allLe distinct distinct' (reordered.allLe distinct') ok ok'
  · exact rootAccepts_of_allLe distinct' distinct (reordered.symm.allLe distinct) ok' ok

/-- Two samples whose records list their keys in different orders. In the same order these are
repetitions, so there is a definition less. -/
theorem rootAccepts_iff_of_reordered_records :
    let sample (record : List (String × Json)) : Json := .object [("l", .array [.object record])]
    let first : List (String × Json) := [("a", .number (.integer 1)), ("b", .null)]
    let second : List (String × Json) := [("b", .null), ("a", .number (.integer 2))]
    let samples := [sample first, sample second]
    let samples' := [sample second.reverse, sample first]
    (∀ value ∈ samples, value.DistinctKeys) ∧ ReorderedSamples samples samples' ∧
      ∃ types types', definitionsOfSamples {} samples = .ok types ∧
        definitionsOfSamples {} samples' = .ok types' ∧ types.length = 3 ∧ types'.length = 2 ∧
          ∀ value, Definition.RootAccepts types value ↔ Definition.RootAccepts types' value := by
  intro sample first second samples samples'
  have distinct : ∀ value ∈ samples, value.DistinctKeys := by
    simp [samples, sample, first, second, Json.DistinctKeys, Json.DistinctKeysOfItems,
      Json.DistinctKeysOfMembers]
  have records : (sample second).Reordered (sample second.reverse) :=
    .inMember [] "l" [] (.inItem [] [] (.moveMembers (.swap _ _ [])))
  have reordered : ReorderedSamples samples samples' :=
    ⟨[sample second, sample first], .swap _ _ [], .cons records (.cons (.refl _) .nil)⟩
  obtain ⟨types, ok⟩ : ∃ types, definitionsOfSamples {} samples = .ok types :=
    exists_definitionsOfSamples_iff.mpr rfl
  have accepts := rootAccepts_iff_of_reordered {} distinct reordered
  obtain ⟨types', ok'⟩ := accepts.1.mp ⟨types, ok⟩
  have three : (definitionsOfSamples {} samples).map (·.length) = .ok 3 := by decide +kernel
  have two : (definitionsOfSamples {} samples').map (·.length) = .ok 2 := by decide +kernel
  rw [ok] at three
  rw [ok'] at two
  exact ⟨distinct, reordered, types, types', ok, ok', Except.ok.inj three, Except.ok.inj two,
    accepts.2 types types' ok ok'⟩

end Exemplar
