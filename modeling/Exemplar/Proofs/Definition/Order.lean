import Exemplar.Proofs.Definition.Substitution
import Exemplar.Proofs.Definition.Lookup
import Mathlib.Data.List.Induction
import Mathlib.Logic.Relation

/-!
# Definitions in order

A list of definitions is layered if each refers to definitions before it only.
Then nothing dangles, no definition needs itself, and a name from which all
others are reached stands last. Renaming keeps layers and what is reached, and
so does dropping definitions that nothing kept refers to.
-/

namespace Exemplar

namespace Definition

open Relation (ReflTransGen)

variable {ν μ : Type}

/-- Each definition refers only to definitions that stand before it. -/
def Layered (types : List (Definition ν)) : Prop :=
  ∀ before t after, types = before ++ t :: after → ∀ ref ∈ t.body.references, ref ∈ names before

def Refers (types : List (Definition ν)) (name ref : ν) : Prop :=
  ∃ t ∈ types, t.name = name ∧ ref ∈ t.body.references

/-- The one name leads to the other by following references. -/
def Reaches (types : List (Definition ν)) : ν → ν → Prop := ReflTransGen (Refers types)

/-- Definitions of which each is reached from a root. -/
def ReachedFrom (root : ν) (types : List (Definition ν)) : Prop :=
  ∀ name ∈ names types, Reaches types root name

variable {types : List (Definition ν)}

theorem names_append (before after : List (Definition ν)) :
    names (before ++ after) = names before ++ names after := List.map_append

theorem Layered.closed (layered : Layered types) : Closed types := by
  intro t ht ref hr
  obtain ⟨before, after, split⟩ := List.append_of_mem ht
  have earlier := layered before t after split ref hr
  rw [split, names_append]
  exact List.mem_append_left _ earlier

/-- What holds of a name if it holds of all names that its definition refers to holds of all
names. -/
theorem Layered.induction {P : ν → Prop} (layered : Layered types)
    (step : ∀ t ∈ types, (∀ ref ∈ t.body.references, P ref) → P t.name) :
    ∀ name ∈ names types, P name := by
  have prefixes : ∀ before after, types = before ++ after → ∀ t ∈ before, P t.name := by
    intro before
    induction before using List.reverseRecOn with
    | nil => simp
    | append_singleton front last ih =>
      intro after split t ht
      have split : types = front ++ last :: after := by simpa using split
      rcases List.mem_append.mp ht with inFront | isLast
      · exact ih (last :: after) split t inFront
      · cases List.mem_singleton.mp isLast
        refine step last (by simp [split]) ?_
        intro ref hr
        obtain ⟨earlier, he, rfl⟩ := mem_names.mp (layered front last after split ref hr)
        exact ih (last :: after) split earlier he
  intro name hn
  obtain ⟨t, ht, rfl⟩ := mem_names.mp hn
  exact prefixes types [] (List.append_nil _).symm t ht

section Position

variable [DecidableEq ν]

def position (types : List (Definition ν)) (name : ν) : Nat := (names types).idxOf name

theorem position_lt_length {name : ν} (hn : name ∈ names types) :
    position types name < types.length := by
  have := List.idxOf_lt_length_of_mem hn
  rwa [names, List.length_map] at this

/-- Where names are distinct, a definition is as far from the start as its name. -/
theorem position_of_split (distinct : (names types).Nodup) {before after : List (Definition ν)}
    {t : Definition ν} (split : types = before ++ t :: after) :
    position types t.name = before.length := by
  have apart : t.name ∉ names before := by
    rw [split, names_append] at distinct
    intro inBefore
    refine (List.nodup_append.mp distinct).2.2 _ inBefore t.name ?_ rfl
    exact mem_names.mpr ⟨t, List.mem_cons_self, rfl⟩
  rw [position, split, names_append, List.idxOf_append_of_notMem apart]
  simp [names]

theorem mem_names_iff_position_lt {before after : List (Definition ν)} {ref : ν} :
    ref ∈ names before ↔ position (before ++ after) ref < before.length := by
  have count : (names before).length = before.length := List.length_map _
  rw [position, names_append]
  by_cases member : ref ∈ names before
  · rw [List.idxOf_append_of_mem member, ← count]
    exact iff_of_true member (List.idxOf_lt_length_of_mem member)
  · rw [List.idxOf_append_of_notMem member]
    exact iff_of_false member (by omega)

/-- Where names are distinct, layers are seen from the places of names. -/
theorem layered_iff (distinct : (names types).Nodup) :
    Layered types ↔ ∀ name ref, Refers types name ref → position types ref < position types name := by
  constructor
  · rintro layered _ ref ⟨t, ht, rfl, hr⟩
    obtain ⟨before, after, split⟩ := List.append_of_mem ht
    have earlier := layered before t after split ref hr
    rw [position_of_split distinct split, split]
    exact mem_names_iff_position_lt.mp earlier
  · intro lower before t after split ref hr
    have below := lower t.name ref ⟨t, by simp [split], rfl, hr⟩
    rw [position_of_split distinct split, split] at below
    exact mem_names_iff_position_lt.mpr below

/-- A root from which all names are reached is defined last: nothing refers to the last name. -/
theorem Layered.root_last {root : ν} (layered : Layered types) (distinct : (names types).Nodup)
    (rooted : root ∈ names types) (reached : ReachedFrom root types) :
    ∃ front last, types = front ++ [last] ∧ last.name = root := by
  rcases List.eq_nil_or_concat' types with rfl | ⟨front, last, split⟩
  · cases rooted
  · refine ⟨front, last, split, ?_⟩
    have path := reached last.name (mem_names.mpr ⟨last, by simp [split], rfl⟩)
    rcases ReflTransGen.cases_tail path with same | ⟨name, _, refers⟩
    · exact same
    · have later := (layered_iff distinct).mp layered name last.name refers
      obtain ⟨t, ht, rfl, _⟩ := refers
      have bound := position_lt_length (mem_names.mpr ⟨t, ht, rfl⟩)
      rw [position_of_split distinct split] at later
      rw [split, List.length_append, List.length_singleton] at bound
      rw [split] at later
      omega

/-- No definition refers to a root that is defined last. -/
theorem Layered.ne_root {root : ν} (layered : Layered types) (distinct : (names types).Nodup)
    (rooted : root ∈ names types) (reached : ReachedFrom root types) :
    ∀ t ∈ types, ∀ ref ∈ t.body.references, ref ≠ root := by
  obtain ⟨front, last, split, rfl⟩ := layered.root_last distinct rooted reached
  rintro t ht _ hr rfl
  have later := (layered_iff distinct).mp layered t.name last.name ⟨t, ht, rfl, hr⟩
  have bound := position_lt_length (mem_names.mpr ⟨t, ht, rfl⟩)
  have length : types.length = front.length + 1 := by simp [split]
  rw [position_of_split distinct split] at later
  omega

end Position

/-! ## Dropping and renaming -/

section Dropping

variable {keep : ν → Bool}
  (closed : ∀ t ∈ types, keep t.name = true → ∀ ref ∈ t.body.references, keep ref = true)
include closed

theorem Layered.filter (layered : Layered types) :
    Layered (types.filter fun t => keep t.name) := by
  intro before t after split ref hr
  obtain ⟨front, back, rfl, kept, rest⟩ := List.filter_eq_append_iff.mp split
  obtain ⟨dropped, back', rfl, gone, has, _⟩ := List.filter_eq_cons_iff.mp rest
  have named : ref ∈ names (front ++ dropped) :=
    layered (front ++ dropped) t back' (List.append_assoc _ _ _).symm ref hr
  obtain ⟨earlier, he, rfl⟩ := mem_names.mp named
  have keeps : keep earlier.name = true := closed t (by simp) has earlier.name hr
  refine mem_names.mpr ⟨earlier, ?_, rfl⟩
  rcases List.mem_append.mp he with inFront | inDropped
  · exact kept ▸ List.mem_filter.mpr ⟨inFront, keeps⟩
  · exact absurd keeps (gone earlier inDropped)

theorem Reaches.filter {name name' : ν} (path : Reaches types name name')
    (keeps : keep name = true) : Reaches (types.filter fun t => keep t.name) name name' := by
  induction path using ReflTransGen.head_induction_on with
  | refl => exact .refl
  | head step _ ih =>
    obtain ⟨t, ht, rfl, hr⟩ := step
    refine ReflTransGen.head ⟨t, List.mem_filter.mpr ⟨ht, keeps⟩, rfl, hr⟩ ?_
    exact ih (closed t ht keeps _ hr)

end Dropping

section Renaming

variable {f : ν → μ} {g : Definition ν → Definition μ}
  (renames : ∀ t, (g t).name = f t.name ∧ (g t).body.references = t.body.references.map f)
include renames

theorem names_map (types : List (Definition ν)) : names (types.map g) = (names types).map f := by
  rw [names, names, List.map_map, List.map_map]
  exact List.map_congr_left fun t _ => (renames t).1

theorem Layered.map (layered : Layered types) : Layered (types.map g) := by
  intro before t after split ref hr
  obtain ⟨front, back, rfl, rfl, rest⟩ := List.map_eq_append_iff.mp split
  obtain ⟨original, back', rfl, rfl, _⟩ := List.map_eq_cons_iff.mp rest
  rw [(renames original).2] at hr
  obtain ⟨inner, hi, rfl⟩ := List.mem_map.mp hr
  rw [names_map renames]
  exact List.mem_map_of_mem (layered front original back' rfl inner hi)

theorem Reaches.map {name name' : ν} (path : Reaches types name name') :
    Reaches (types.map g) (f name) (f name') := by
  refine path.lift f ?_
  rintro _ ref ⟨t, ht, rfl, hr⟩
  refine ⟨g t, List.mem_map_of_mem ht, (renames t).1, ?_⟩
  rw [(renames t).2]
  exact List.mem_map_of_mem hr

theorem ReachedFrom.map {root : ν} (reached : ReachedFrom root types) :
    ReachedFrom (f root) (types.map g) := by
  intro name hn
  rw [names_map renames] at hn
  obtain ⟨original, ho, rfl⟩ := List.mem_map.mp hn
  exact (reached original ho).map renames

end Renaming

end Definition

end Exemplar
