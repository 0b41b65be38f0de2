import Exemplar.Proofs.Definition.Unfolding

/-!
# Types in normal form

In a normal type, unions are flat and have several alternatives, all different,
objects are referred to, and `never` stands for nothing but the element of an
array. Replacements could spoil that: two references may be replaced by the same
type. So alternatives are told apart by what they unfold to, and a replacement
that keeps unfoldings keeps them different.
-/

namespace Exemplar

namespace TypeExpr

variable {ν μ α : Type}

/-- Types whose unions are flat, with several alternatives that a function tells apart, without
objects in place, and with `never` as a whole element only. -/
inductive Normal (f : TypeExpr ν → α) : TypeExpr ν → Prop
  | primitive (kind : Kind) : Normal f (.primitive kind)
  | named (name : ν) : Normal f (.named name)
  | empty : Normal f (.array .never)
  | array {element : TypeExpr ν} (normal : Normal f element) : Normal f (.array element)
  | union {alternatives : List (TypeExpr ν)} (several : 2 ≤ alternatives.length)
      (distinct : (alternatives.map f).Nodup) (flat : ∀ type ∈ alternatives, type.isSingle = true)
      (each : ∀ type ∈ alternatives, Normal f type) : Normal f (.union alternatives)

/-- The names in a type are replaced by single normal types that unfold as the names do. -/
def Replaces (g : ν → TypeExpr μ) (unfolding : ν → TypeExpr Empty) (unfolding' : μ → TypeExpr Empty)
    (name : ν) : Prop :=
  (g name).Normal (subst unfolding') ∧ (g name).isSingle = true ∧
    (g name).subst unfolding' = unfolding name

theorem isSingle_subst {g : ν → TypeExpr μ} {type : TypeExpr ν} (single : type.isSingle = true)
    (names : ∀ name ∈ type.references, (g name).isSingle = true) :
    (type.subst g).isSingle = true := by
  cases type with
  | named name => exact names name List.mem_cons_self
  | never => cases single
  | union alternatives => cases single
  | primitive kind => rfl
  | object members => rfl
  | array element => rfl

/-- A replacement that keeps unfoldings keeps types normal. -/
theorem Normal.subst {g : ν → TypeExpr μ} {unfolding : ν → TypeExpr Empty}
    {unfolding' : μ → TypeExpr Empty} {type : TypeExpr ν} (normal : type.Normal (subst unfolding))
    (replaces : ∀ name ∈ type.references, Replaces g unfolding unfolding' name) :
    (type.subst g).Normal (TypeExpr.subst unfolding') := by
  induction normal with
  | primitive kind => exact .primitive kind
  | named name => exact (replaces name List.mem_cons_self).1
  | empty => exact .empty
  | array _ ih => exact .array (ih replaces)
  | @union alternatives several distinct flat _ ih =>
    have within : ∀ type ∈ alternatives, ∀ name ∈ type.references,
        Replaces g unfolding unfolding' name := by
      intro type ht name hn
      exact replaces name (mem_referencesOfAll.mpr ⟨type, ht, hn⟩)
    have same : (alternatives.map (TypeExpr.subst g)).map (TypeExpr.subst unfolding') =
        alternatives.map (TypeExpr.subst unfolding) := by
      rw [List.map_map]
      refine List.map_congr_left fun type ht => ?_
      rw [Function.comp, subst_subst]
      exact subst_congr fun name hn => (within type ht name hn).2.2
    rw [TypeExpr.subst, substAll_eq_map]
    apply Normal.union
    · rwa [List.length_map]
    · rwa [same]
    · refine List.forall_mem_map.mpr fun type ht => ?_
      exact isSingle_subst (flat type ht) fun name hn => (within type ht name hn).2.1
    · exact List.forall_mem_map.mpr fun type ht => ih type ht (within type ht)

/-- Alternatives that are told apart by a function are different. -/
theorem Normal.distinct {f : TypeExpr ν → α} {type : TypeExpr ν} (normal : type.Normal f) :
    type.Normal id := by
  induction normal with
  | primitive kind => exact .primitive kind
  | named name => exact .named name
  | empty => exact .empty
  | array _ ih => exact .array ih
  | union several distinct flat _ ih =>
    refine .union several ?_ flat ih
    rw [List.map_id]
    exact distinct.of_map f

/-- An array in place, or a reference to one. -/
def IsArray (isArray : ν → Prop) (type : TypeExpr ν) : Prop :=
  (∃ element, type = .array element) ∨ ∃ name, type = .named name ∧ isArray name

/-- The alternatives are at most one reference to an object, then at most one array, then distinct
primitive kinds, and there is one. -/
def InOrder (isObject isArray : ν → Prop) (type : TypeExpr ν) : Prop :=
  ∃ (object : Option ν) (array : Option (TypeExpr ν)) (kinds : List Kind),
    type.alternatives = object.toList.map .named ++ array.toList ++ kinds.map .primitive ∧
      (∀ name ∈ object, isObject name) ∧ (∀ part ∈ array, part.IsArray isArray) ∧ kinds.Nodup ∧
        type.alternatives ≠ []

/-- A reference to an object, if there is one, stays one. -/
theorem exists_named_object {g : ν → TypeExpr μ} {isObject' : μ → Prop} {object : Option ν}
    (each : ∀ name ∈ object, ∃ name', g name = .named name' ∧ isObject' name') :
    ∃ object' : Option μ, object.toList.map g = object'.toList.map .named ∧
      ∀ name ∈ object', isObject' name := by
  cases object with
  | none => exact ⟨none, rfl, by simp⟩
  | some name =>
    obtain ⟨name', same, holds⟩ := each name rfl
    exact ⟨some name', by simp [same], by simpa using holds⟩

/-- An array, in place or by reference, stays one. -/
theorem IsArray.subst {g : ν → TypeExpr μ} {isArray : ν → Prop} {isArray' : μ → Prop}
    {type : TypeExpr ν} (array : type.IsArray isArray)
    (arrays : ∀ name ∈ type.references, isArray name → (g name).IsArray isArray') :
    (type.subst g).IsArray isArray' := by
  rcases array with ⟨element, rfl⟩ | ⟨name, rfl, isArray⟩
  · exact .inl ⟨_, rfl⟩
  · exact arrays name List.mem_cons_self isArray

/-- A replacement that keeps references to objects, and arrays, keeps the order. -/
theorem InOrder.subst {g : ν → TypeExpr μ} {isObject isArray : ν → Prop}
    {isObject' isArray' : μ → Prop} {type : TypeExpr ν} (inOrder : type.InOrder isObject isArray)
    (single : ∀ name, (g name).isSingle = true)
    (objects : ∀ name ∈ type.references, isObject name →
      ∃ name', g name = .named name' ∧ isObject' name')
    (arrays : ∀ name ∈ type.references, isArray name → (g name).IsArray isArray') :
    (type.subst g).InOrder isObject' isArray' := by
  obtain ⟨object, array, kinds, listed, refers, inArray, distinct, nonempty⟩ := inOrder
  have within : ∀ part ∈ type.alternatives, part.references ⊆ type.references :=
    fun part hp _ hn => mem_references_of_mem_alternatives hp hn
  rw [listed] at within
  have refersOn : ∀ name ∈ object, ∃ name', g name = .named name' ∧ isObject' name' := by
    intro name hn
    refine objects name (within (.named name) ?_ List.mem_cons_self) (refers name hn)
    simp [Option.mem_def.mp hn]
  obtain ⟨object', same, refers'⟩ := exists_named_object refersOn
  refine ⟨object', array.map (TypeExpr.subst g), kinds, ?_, refers', ?_, distinct, ?_⟩
  · rw [alternatives_subst single, listed, List.map_append, List.map_append, List.map_map,
      List.map_map, ← same]
    cases array <;> rfl
  · intro part' hp
    obtain ⟨part, found, rfl⟩ := Option.map_eq_some_iff.mp hp
    refine (inArray part found).subst fun name hn => arrays name (within part ?_ hn)
    simp [found]
  · rw [alternatives_subst single]
    exact List.map_eq_nil_iff.not.mpr nonempty

end TypeExpr

namespace Body

variable {ν μ α : Type} {body : Body ν} {g : ν → TypeExpr μ}

def Normal (f : TypeExpr ν → α) : Body ν → Prop
  | .object members => ∀ m ∈ members, m.type.Normal f
  | .array element => (TypeExpr.array element).Normal f

theorem Normal.subst {unfolding : ν → TypeExpr Empty} {unfolding' : μ → TypeExpr Empty}
    (normal : body.Normal (TypeExpr.subst unfolding))
    (replaces : ∀ name ∈ body.references, TypeExpr.Replaces g unfolding unfolding' name) :
    (body.subst g).Normal (TypeExpr.subst unfolding') := by
  cases body with
  | object members =>
    rw [Body.subst, TypeExpr.substMembers_eq_map]
    refine List.forall_mem_map.mpr fun m hm => (normal m hm).subst fun name hn => ?_
    exact replaces name (TypeExpr.mem_referencesOfMembers.mpr ⟨m, hm, hn⟩)
  | array element => exact TypeExpr.Normal.subst normal replaces

theorem Normal.distinct {f : TypeExpr ν → α} (normal : body.Normal f) : body.Normal id := by
  cases body with
  | object members => exact fun m hm => (normal m hm).distinct
  | array element => exact TypeExpr.Normal.distinct normal

def InOrder (isObject isArray : ν → Prop) : Body ν → Prop
  | .object members => ∀ m ∈ members, m.type.InOrder isObject isArray
  | .array _ => True

theorem InOrder.subst {isObject isArray : ν → Prop} {isObject' isArray' : μ → Prop}
    (inOrder : body.InOrder isObject isArray) (single : ∀ name, (g name).isSingle = true)
    (objects : ∀ name ∈ body.references, isObject name →
      ∃ name', g name = .named name' ∧ isObject' name')
    (arrays : ∀ name ∈ body.references, isArray name → (g name).IsArray isArray') :
    (body.subst g).InOrder isObject' isArray' := by
  cases body with
  | array element => trivial
  | object members =>
    rw [Body.subst, TypeExpr.substMembers_eq_map]
    refine List.forall_mem_map.mpr fun m hm => ?_
    have within : ∀ name ∈ m.type.references, name ∈ (Body.object members).references :=
      fun name hn => TypeExpr.mem_referencesOfMembers.mpr ⟨m, hm, hn⟩
    apply (inOrder m hm).subst single
    · exact fun name hn => objects name (within name hn)
    · exact fun name hn => arrays name (within name hn)

end Body

end Exemplar
