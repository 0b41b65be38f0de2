import Exemplar.Proofs.Acceptance
import Mathlib.Data.List.Nodup

/-!
# Definitions by name

In a list with distinct names, a definition is what its name leads to. A list is
closed if no reference in it dangles.
-/

namespace Exemplar

namespace Definition

variable {ν : Type}

def names (types : List (Definition ν)) : List ν := types.map (·.name)

/-- Every reference leads to a definition. -/
def Closed (types : List (Definition ν)) : Prop :=
  ∀ t ∈ types, ∀ ref ∈ t.body.references, ref ∈ names types

/-- Some definition refers to a name that none defines. -/
def Dangles (types : List (Definition ν)) (name : ν) : Prop :=
  name ∉ names types ∧ ∃ t ∈ types, name ∈ t.body.references

theorem closed_iff {types : List (Definition ν)} :
    Closed types ↔ ∀ name, ¬Dangles types name := by
  constructor
  · rintro closed name ⟨missing, t, ht, hr⟩
    exact missing (closed t ht name hr)
  · intro none t ht ref hr
    by_contra missing
    exact none ref ⟨missing, t, ht, hr⟩

theorem mem_names {types : List (Definition ν)} {name : ν} :
    name ∈ names types ↔ ∃ t ∈ types, t.name = name := List.mem_map

variable [DecidableEq ν] {types : List (Definition ν)} {name : ν}

theorem exists_of_bodyOf? {body : Body ν} (found : Inline.bodyOf? types name = some body) :
    ∃ t ∈ types, t.name = name ∧ t.body = body := by
  obtain ⟨t, last, same⟩ := Option.map_eq_some_iff.mp found
  obtain ⟨ht, hn⟩ := List.mem_filter.mp (List.mem_of_getLast? last)
  exact ⟨t, ht, of_decide_eq_true hn, same⟩

theorem bodyOf?_eq_none_iff : Inline.bodyOf? types name = none ↔ name ∉ names types := by
  rw [Inline.bodyOf?, Option.map_eq_none_iff, List.getLast?_eq_none_iff, List.filter_eq_nil_iff,
    mem_names]
  simp

/-- Where names are distinct, a definition is what is found under its name. -/
theorem bodyOf?_of_mem (distinct : (names types).Nodup) {t : Definition ν} (ht : t ∈ types) :
    Inline.bodyOf? types t.name = some t.body := by
  cases found : Inline.bodyOf? types t.name with
  | none => exact absurd (mem_names.mpr ⟨t, ht, rfl⟩) (bodyOf?_eq_none_iff.mp found)
  | some body =>
    obtain ⟨other, ho, same, rfl⟩ := exists_of_bodyOf? found
    rw [List.inj_on_of_nodup_map distinct ho ht same]

theorem meaning_of_mem (distinct : (names types).Nodup) {t : Definition ν} (ht : t ∈ types)
    (value : Json) : meaning types t.name value ↔ t.body.Accepts (meaning types) value :=
  meaningOver_of_body (bodyOf?_of_mem distinct ht) value

theorem rootAccepts_of_find? {t : Definition ν} (found : types.find? (·.isRoot) = some t)
    (value : Json) : RootAccepts types value ↔ t.body.Accepts (meaning types) value := by
  rw [RootAccepts, found]
  constructor
  · rintro ⟨root, same, accepted⟩
    cases same
    exact accepted
  · exact fun accepted => ⟨t, rfl, accepted⟩

/-- Bodies that are all worked on in one way are found as before, and then worked on. -/
theorem bodyOf?_map (f : Body ν → Body ν) (types : List (Definition ν)) (name : ν) :
    Inline.bodyOf? (types.map fun t => { t with body := f t.body }) name =
      (Inline.bodyOf? types name).map f := by
  rw [Inline.bodyOf?, Inline.bodyOf?, List.filter_map, List.getLast?_map, Option.map_map,
    Option.map_map]
  rfl

/-- Definitions that are kept by name are found as before. -/
theorem bodyOf?_filter {p : Definition ν → Bool} {q : ν → Bool} (byName : ∀ t, p t = q t.name)
    (types : List (Definition ν)) (name : ν) :
    Inline.bodyOf? (types.filter p) name =
      if q name then Inline.bodyOf? types name else none := by
  rw [Inline.bodyOf?, Inline.bodyOf?, List.filter_filter]
  by_cases kept : q name = true
  · rw [if_pos kept]
    congr 2
    refine List.filter_congr ?_
    intro t _
    by_cases same : t.name = name
    · simp [same, byName, kept]
    · simp [same]
  · rw [if_neg kept, Option.map_eq_none_iff, List.getLast?_eq_none_iff, List.filter_eq_nil_iff]
    intro t _ both
    simp only [Bool.and_eq_true, decide_eq_true_eq, byName] at both
    exact kept (both.1 ▸ both.2)

end Definition

end Exemplar
