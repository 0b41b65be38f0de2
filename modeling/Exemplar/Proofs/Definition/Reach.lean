import Exemplar.Proofs.Definition.Collection

/-!
# Definitions of all that is reached

Collecting fails exactly if the walk from the root comes to a reference that is
astray: its shape was not saved, and no array in place that was met before has
the shape. Arrays in place travel with the shape that holds them and need not be
saved. Else there is one definition for each shape that the store reaches from
the root, and the root's comes last.
-/

namespace Exemplar

/-- The walk from a root comes to a reference whose shape was not saved and was not met in place
before. -/
def Store.StraysAt (store : Store) (root key : Key) : Prop :=
  ∃ before after, Itinerary.leaf store (.object root) = before ++ .object key :: after ∧
    store.find? key = none ∧ ∀ elements, .array elements ∈ before → key ≠ .address (.array elements)

/-- One definition for each shape that a store reaches from a root, parts first. -/
structure Definition.Describes (store : Store) (root : Key) (types : List (Definition Key)) :
    Prop where
  named : ∀ key, key ∈ names types ↔ ∃ shape, store.Reaches root shape ∧ key = .address shape
  distinct : (names types).Nodup
  translated : ∀ t ∈ types, ∃ shape, store.Reaches root shape ∧ t = Collect.definitionOf shape
  layered : Layered types
  rootLast : ∃ front last, types = front ++ [last] ∧ last.name = root

variable {store : Store} {root : Key}

theorem Store.find?_eq_none_iff {key : Key} :
    store.find? key = none ↔ store.contains key = false := by
  rw [find?]
  by_cases there : store.contains key = true <;> simp [there]

/-- A reference is astray on a walk exactly if there is a first one. -/
theorem Itinerary.straysAt_iff :
    (∃ key, store.StraysAt root key) ↔ stray? store [] (leaf store (.object root)) ≠ none := by
  rw [ne_eq, stray?_eq_none_iff]
  constructor
  · rintro ⟨key, before, after, split, absent, apart⟩ fine
    rcases fine before key after split with there | known
    · exact absurd there (by simp [Store.find?_eq_none_iff.mp absent])
    · rw [List.append_nil] at known
      obtain ⟨elements, hm, same⟩ := mem_keysInPlace.mp known
      exact apart elements hm same
  · intro astray
    push Not at astray
    obtain ⟨before, key, after, split, absent, unknown⟩ := astray
    refine ⟨key, before, after, split, ?_, ?_⟩
    · exact Store.find?_eq_none_iff.mpr (Bool.eq_false_iff.mpr absent)
    · rintro elements hm rfl
      exact unknown (List.mem_append_left _ (mem_keysInPlace.mpr ⟨elements, hm, rfl⟩))

namespace Collect

variable {shapes : List (Composite Key)}

/-- What is collected without a fault is everything that is reached. -/
theorem mem_iff_reaches
    (meets : ∀ shape ∈ shapes, Itinerary.Meets store (Itinerary.leaf store (.object root)) shape)
    (covers : Covers shapes (needs (Itinerary.leaf store (.object root))))
    (shape : Composite Key) : shape ∈ shapes ↔ store.Reaches root shape := by
  rw [Itinerary.reaches_iff_meets]
  constructor
  · exact meets shape
  · intro met
    obtain ⟨other, ho, same⟩ := covers _ (mem_needs_of_meets met)
    exact Key.address_inj.mp same ▸ ho

theorem Settled.describes (settled : Settled shapes)
    (meets : ∀ shape ∈ shapes, Itinerary.Meets store (Itinerary.leaf store (.object root)) shape)
    (covers : Covers shapes (needs (Itinerary.leaf store (.object root)))) :
    Definition.Describes store root (shapes.map definitionOf) := by
  have member := mem_iff_reaches meets covers
  obtain ⟨rooted, needed⟩ := needed_of_meets meets covers
  have defined : root ∈ Definition.names (shapes.map definitionOf) :=
    mem_names_definitionOf.mpr (rooted root List.mem_cons_self)
  constructor
  · intro key
    simp only [mem_names_definitionOf, member]
  · exact settled.nodup_names
  · intro t ht
    obtain ⟨shape, hs, rfl⟩ := List.mem_map.mp ht
    exact ⟨shape, (member shape).mp hs, rfl⟩
  · exact settled.layered
  · exact settled.layered.root_last settled.nodup_names defined (settled.reachedFrom rooted needed)

end Collect

/-- Collecting fails exactly if a reference on the walk is astray, and else describes all that is
reached. -/
theorem collect_outcome (store : Store) (root : Key) :
    ((∃ fault, collect store root = .error fault) ↔ ∃ key, store.StraysAt root key) ∧
      ((∃ key, store.StraysAt root key) ∨
        ∃ types, collect store root = .ok types ∧ Definition.Describes store root types) := by
  have walked := Collect.collect_eq store root
  rw [Itinerary.straysAt_iff]
  cases astray : Itinerary.stray? store [] (Itinerary.leaf store (.object root)) with
  | some key =>
    simp only [astray] at walked
    simp [walked]
  | none =>
    simp only [astray] at walked
    obtain ⟨shapes, ran, settled, meets, covers⟩ := walked
    refine ⟨by simp [ran], .inr ⟨_, ran, settled.describes meets covers⟩⟩

namespace Collect

def numbers : Composite Key := .array [.primitive .number]

/-- An array that holds an array of numbers in place. -/
def nested : Composite Key := .array [.array [.primitive .number]]

/-- An array that holds an array of numbers in place, then a reference to the shape of that. -/
def twice : Composite Key := .array [.array [.primitive .number], .object (.address numbers)]

/-- Of what is reached, neither an array in place need be saved, nor what has the same shape and is
referred to later. Nothing saved refers to anything saved in these stores. -/
theorem collect_ok_without_saved_parts :
    ((∀ ref ∈ nested.references, (⟨[nested]⟩ : Store).find? ref = none) ∧
      (⟨[nested]⟩ : Store).Reaches (.address nested) numbers ∧
      (⟨[nested]⟩ : Store).find? (.address numbers) = none ∧
      collect ⟨[nested]⟩ (.address nested) = .ok [definitionOf numbers, definitionOf nested]) ∧
    ((∀ ref ∈ twice.references, (⟨[twice]⟩ : Store).find? ref = none) ∧
      (⟨[twice]⟩ : Store).Reaches (.address twice) twice ∧
      .object (.address numbers) ∈ twice.leaves ∧
      (⟨[twice]⟩ : Store).find? (.address numbers) = none ∧
      collect ⟨[twice]⟩ (.address twice) = .ok [definitionOf numbers, definitionOf twice]) := by
  have saved : ∀ shape : Composite Key, (⟨[shape]⟩ : Store).Reaches (.address shape) shape := by
    intro shape
    exact .root (Store.find?_eq_some_iff.mpr ⟨rfl, List.mem_singleton_self _⟩)
  have unsaved : (⟨[twice]⟩ : Store).find? (.address numbers) = none := rfl
  constructor
  · refine ⟨?_, (saved nested).inPlace List.mem_cons_self, rfl, rfl⟩
    intro ref hr
    cases hr
  · refine ⟨?_, saved twice, by simp [twice, Composite.leaves], unsaved, by cbv⟩
    intro ref hr
    exact List.mem_singleton.mp hr ▸ unsaved

end Collect

end Exemplar
