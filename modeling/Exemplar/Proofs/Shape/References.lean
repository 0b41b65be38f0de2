import Exemplar.Shape.Key
import Mathlib.Order.Basic

/-!
# References in shapes

The references of a leaf are those it holds itself, at any depth of arrays in
place, and not those of the shapes they lead to. A reference nests less deep
than the shape that holds it, so shapes can be followed by induction on depth.
-/

namespace Exemplar

namespace Leaf

variable {κ : Type}

mutual

def references : Leaf κ → List κ
  | .primitive _ => []
  | .array elements => referencesOfAll elements
  | .object ref => [ref]

def referencesOfAll : List (Leaf κ) → List κ
  | [] => []
  | leaf :: rest => references leaf ++ referencesOfAll rest

end

theorem mem_referencesOfAll {ref : κ} {leaves : List (Leaf κ)} :
    ref ∈ referencesOfAll leaves ↔ ∃ leaf ∈ leaves, ref ∈ leaf.references := by
  induction leaves with
  | nil => simp [referencesOfAll]
  | cons leaf rest ih => simp [referencesOfAll, ih]

theorem referencesOfAll_append (leaves leaves' : List (Leaf κ)) :
    referencesOfAll (leaves ++ leaves') = referencesOfAll leaves ++ referencesOfAll leaves' := by
  induction leaves with
  | nil => rfl
  | cons leaf rest ih => rw [List.cons_append, referencesOfAll, referencesOfAll, ih, List.append_assoc]

mutual

/-- Induction on the arrays in place. -/
theorem inPlace_induction {P : Leaf κ → Prop} (primitive : ∀ kind, P (.primitive kind))
    (array : ∀ elements, (∀ leaf ∈ elements, P leaf) → P (.array elements))
    (object : ∀ ref, P (.object ref)) (leaf : Leaf κ) : P leaf := by
  match leaf with
  | .primitive kind => exact primitive kind
  | .array elements => exact array elements (inPlace_induction_all primitive array object elements)
  | .object ref => exact object ref

theorem inPlace_induction_all {P : Leaf κ → Prop} (primitive : ∀ kind, P (.primitive kind))
    (array : ∀ elements, (∀ leaf ∈ elements, P leaf) → P (.array elements))
    (object : ∀ ref, P (.object ref)) (leaves : List (Leaf κ)) : ∀ leaf ∈ leaves, P leaf := by
  match leaves with
  | [] => simp
  | leaf :: rest =>
    intro other h
    rcases List.mem_cons.mp h with same | h
    · exact same ▸ inPlace_induction primitive array object leaf
    · exact inPlace_induction_all primitive array object rest other h

end

end Leaf

def Field.referencesOfAll {κ : Type} (fields : List (Field κ)) : List κ :=
  fields.flatMap fun field => Leaf.referencesOfAll field.types

def Composite.references {κ : Type} : Composite κ → List κ
  | .array elements => Leaf.referencesOfAll elements
  | .object fields => Field.referencesOfAll fields

namespace Key

theorem depthOfLeaves_le_iff {leaves : List (Leaf Key)} {n : Nat} :
    depthOfLeaves leaves ≤ n ↔ ∀ leaf ∈ leaves, depthOfLeaf leaf ≤ n := by
  induction leaves with
  | nil => simp [depthOfLeaves]
  | cons leaf rest ih => simp only [depthOfLeaves, Nat.max_le, ih, List.forall_mem_cons]

theorem depthOfFields_le_iff {fields : List (Field Key)} {n : Nat} :
    depthOfFields fields ≤ n ↔ ∀ field ∈ fields, depthOfLeaves field.types ≤ n := by
  induction fields with
  | nil => simp [depthOfFields]
  | cons field rest ih => simp only [depthOfFields, Nat.max_le, ih, List.forall_mem_cons]

theorem depthOfLeaf_le_of_mem {leaf : Leaf Key} {leaves : List (Leaf Key)} (h : leaf ∈ leaves) :
    depthOfLeaf leaf ≤ depthOfLeaves leaves :=
  depthOfLeaves_le_iff.mp (Nat.le_refl _) leaf h

theorem depthOfLeaves_le_of_mem {field : Field Key} {fields : List (Field Key)}
    (h : field ∈ fields) : depthOfLeaves field.types ≤ depthOfFields fields :=
  depthOfFields_le_iff.mp (Nat.le_refl _) field h

theorem depth_le_of_mem_references {ref : Key} {leaf : Leaf Key} (h : ref ∈ leaf.references) :
    ref.depth ≤ depthOfLeaf leaf := by
  induction leaf using Leaf.inPlace_induction with
  | primitive kind => cases h
  | array elements ih =>
    obtain ⟨leaf, hl, hr⟩ := Leaf.mem_referencesOfAll.mp h
    have := ih leaf hl hr
    have := depthOfLeaf_le_of_mem hl
    rw [depthOfLeaf]
    omega
  | object held =>
    exact Nat.le_of_eq (congrArg depth (List.mem_singleton.mp h))

theorem depth_le_of_mem_referencesOfAll {ref : Key} {leaves : List (Leaf Key)}
    (h : ref ∈ Leaf.referencesOfAll leaves) : ref.depth ≤ depthOfLeaves leaves := by
  obtain ⟨leaf, hl, hr⟩ := Leaf.mem_referencesOfAll.mp h
  exact Nat.le_trans (depth_le_of_mem_references hr) (depthOfLeaf_le_of_mem hl)

/-- A reference nests less deep than the shape that holds it. -/
theorem depth_lt_of_mem_references {ref : Key} {shape : Composite Key}
    (h : ref ∈ shape.references) : ref.depth < (address shape).depth := by
  cases shape with
  | array elements => exact Nat.lt_succ_of_le (depth_le_of_mem_referencesOfAll h)
  | object fields =>
    obtain ⟨field, hf, hr⟩ := List.mem_flatMap.mp h
    have := depth_le_of_mem_referencesOfAll hr
    have := depthOfLeaves_le_of_mem hf
    exact Nat.lt_succ_of_le (by omega)

end Key

end Exemplar
