import Exemplar.Definition

/-!
# Types in the place of names

What a type refers to after names were replaced is what the replacements of its
names refer to. The names that a type refers to matter to a replacement, each of
them, and no others do. Names put for themselves change nothing, and two
replacements, one after the other, are one. The same holds of bodies.
-/

namespace Exemplar

namespace TypeExpr

variable {ν μ : Type}

mutual

/-- Induction on the parts of a type. -/
theorem parts_induction {P : TypeExpr ν → Prop} (never : P .never)
    (primitive : ∀ kind, P (.primitive kind)) (named : ∀ name, P (.named name))
    (object : ∀ members, (∀ m ∈ members, P m.type) → P (.object members))
    (array : ∀ element, P element → P (.array element))
    (union : ∀ alternatives, (∀ type ∈ alternatives, P type) → P (.union alternatives))
    (type : TypeExpr ν) : P type := by
  match type with
  | .never => exact never
  | .primitive kind => exact primitive kind
  | .named name => exact named name
  | .object members =>
    exact object members
      (parts_induction_members never primitive named object array union members)
  | .array element =>
    exact array element (parts_induction never primitive named object array union element)
  | .union alternatives =>
    exact union alternatives
      (parts_induction_all never primitive named object array union alternatives)

theorem parts_induction_all {P : TypeExpr ν → Prop} (never : P .never)
    (primitive : ∀ kind, P (.primitive kind)) (named : ∀ name, P (.named name))
    (object : ∀ members, (∀ m ∈ members, P m.type) → P (.object members))
    (array : ∀ element, P element → P (.array element))
    (union : ∀ alternatives, (∀ type ∈ alternatives, P type) → P (.union alternatives))
    (types : List (TypeExpr ν)) : ∀ type ∈ types, P type := by
  match types with
  | [] => simp
  | type :: rest =>
    intro other ho
    rcases List.mem_cons.mp ho with same | ho
    · exact same ▸ parts_induction never primitive named object array union type
    · exact parts_induction_all never primitive named object array union rest other ho

theorem parts_induction_members {P : TypeExpr ν → Prop} (never : P .never)
    (primitive : ∀ kind, P (.primitive kind)) (named : ∀ name, P (.named name))
    (object : ∀ members, (∀ m ∈ members, P m.type) → P (.object members))
    (array : ∀ element, P element → P (.array element))
    (union : ∀ alternatives, (∀ type ∈ alternatives, P type) → P (.union alternatives))
    (members : List (Member (TypeExpr ν))) : ∀ m ∈ members, P m.type := by
  match members with
  | [] => simp
  | ⟨_, type, _⟩ :: rest =>
    intro other ho
    rcases List.mem_cons.mp ho with same | ho
    · exact same ▸ parts_induction never primitive named object array union type
    · exact parts_induction_members never primitive named object array union rest other ho

end

theorem mem_referencesOfAll {name : ν} {types : List (TypeExpr ν)} :
    name ∈ referencesOfAll types ↔ ∃ type ∈ types, name ∈ type.references := by
  induction types with
  | nil => simp [referencesOfAll]
  | cons type rest ih => simp [referencesOfAll, ih]

theorem mem_referencesOfMembers {name : ν} {members : List (Member (TypeExpr ν))} :
    name ∈ referencesOfMembers members ↔ ∃ m ∈ members, name ∈ m.type.references := by
  induction members with
  | nil => simp [referencesOfMembers]
  | cons m rest ih => simp [referencesOfMembers, ih]

theorem substAll_eq_map (f : ν → TypeExpr μ) (types : List (TypeExpr ν)) :
    substAll f types = types.map (subst f) := by
  induction types with
  | nil => rfl
  | cons type rest ih => rw [substAll, ih, List.map_cons]

theorem substMembers_eq_map (f : ν → TypeExpr μ) (members : List (Member (TypeExpr ν))) :
    substMembers f members = members.map fun m => ⟨m.name, m.type.subst f, m.nullable⟩ := by
  induction members with
  | nil => rfl
  | cons m rest ih => rw [substMembers, ih, List.map_cons]

mutual

/-- The names after a replacement are the names of the replacements, in order. -/
theorem references_subst (f : ν → TypeExpr μ) (type : TypeExpr ν) :
    (type.subst f).references = type.references.flatMap fun name => (f name).references := by
  match type with
  | .never => rfl
  | .primitive kind => rfl
  | .named name => exact (List.append_nil _).symm
  | .object members => exact references_substMembers f members
  | .array element => exact references_subst f element
  | .union alternatives => exact references_substAll f alternatives

theorem references_substAll (f : ν → TypeExpr μ) (types : List (TypeExpr ν)) :
    referencesOfAll (substAll f types) =
      (referencesOfAll types).flatMap fun name => (f name).references := by
  match types with
  | [] => rfl
  | type :: rest =>
    rw [substAll, referencesOfAll, references_subst f type, references_substAll f rest,
      referencesOfAll, List.flatMap_append]

theorem references_substMembers (f : ν → TypeExpr μ) (members : List (Member (TypeExpr ν))) :
    referencesOfMembers (substMembers f members) =
      (referencesOfMembers members).flatMap fun name => (f name).references := by
  match members with
  | [] => rfl
  | ⟨_, type, _⟩ :: rest =>
    rw [substMembers, referencesOfMembers, references_subst f type, references_substMembers f rest,
      referencesOfMembers, List.flatMap_append]

end

/-- A replacement is determined by the names that a type refers to. -/
theorem subst_congr {f g : ν → TypeExpr μ} {type : TypeExpr ν}
    (same : ∀ name ∈ type.references, f name = g name) : type.subst f = type.subst g := by
  induction type using parts_induction with
  | never => rfl
  | primitive kind => rfl
  | named name => exact same name List.mem_cons_self
  | object members ih =>
    rw [subst, subst, substMembers_eq_map, substMembers_eq_map]
    refine congrArg object (List.map_congr_left fun m hm => ?_)
    rw [ih m hm fun name hn => same name (mem_referencesOfMembers.mpr ⟨m, hm, hn⟩)]
  | array element ih =>
    rw [subst, subst, ih same]
  | union alternatives ih =>
    rw [subst, subst, substAll_eq_map, substAll_eq_map]
    refine congrArg union (List.map_congr_left fun type ht => ?_)
    exact ih type ht fun name hn => same name (mem_referencesOfAll.mpr ⟨type, ht, hn⟩)

/-- Replacements that give the same type replace each name that it refers to alike. -/
theorem eq_of_subst_eq {f g : ν → TypeExpr μ} {type : TypeExpr ν}
    (same : type.subst f = type.subst g) : ∀ name ∈ type.references, f name = g name := by
  induction type using parts_induction with
  | never => exact fun _ hn => absurd hn List.not_mem_nil
  | primitive kind => exact fun _ hn => absurd hn List.not_mem_nil
  | named name =>
    intro other ho
    cases List.mem_singleton.mp ho
    exact same
  | object members ih =>
    intro name hn
    obtain ⟨m, hm, hn⟩ := mem_referencesOfMembers.mp hn
    have parts := object.inj same
    rw [substMembers_eq_map, substMembers_eq_map] at parts
    exact ih m hm (congrArg Member.type (List.map_inj_left.mp parts m hm)) name hn
  | array element ih => exact ih (array.inj same)
  | union alternatives ih =>
    intro name hn
    obtain ⟨type, ht, hn⟩ := mem_referencesOfAll.mp hn
    have parts := union.inj same
    rw [substAll_eq_map, substAll_eq_map] at parts
    exact ih type ht (List.map_inj_left.mp parts type ht) name hn

theorem subst_eq_subst_iff {f g : ν → TypeExpr μ} {type : TypeExpr ν} :
    type.subst f = type.subst g ↔ ∀ name ∈ type.references, f name = g name :=
  ⟨eq_of_subst_eq, subst_congr⟩

/-- Names put for themselves change nothing. -/
theorem subst_named (type : TypeExpr ν) : type.subst named = type := by
  induction type using parts_induction with
  | never => rfl
  | primitive kind => rfl
  | named name => rfl
  | object members ih =>
    rw [subst, substMembers_eq_map]
    refine congrArg object ((List.map_congr_left fun m hm => ?_).trans (List.map_id members))
    rw [ih m hm]
    rfl
  | array element ih => exact congrArg array ih
  | union alternatives ih =>
    rw [subst, substAll_eq_map]
    exact congrArg union ((List.map_congr_left ih).trans (List.map_id alternatives))

theorem subst_subst {ξ : Type} (f : ν → TypeExpr μ) (g : μ → TypeExpr ξ) (type : TypeExpr ν) :
    (type.subst f).subst g = type.subst fun name => (f name).subst g := by
  induction type using parts_induction with
  | never => rfl
  | primitive kind => rfl
  | named name => rfl
  | object members ih =>
    simp only [subst, substMembers_eq_map, List.map_map]
    refine congrArg object (List.map_congr_left fun m hm => ?_)
    rw [Function.comp, ih m hm]
  | array element ih =>
    rw [subst, subst, subst, ih]
  | union alternatives ih =>
    simp only [subst, substAll_eq_map, List.map_map]
    exact congrArg union (List.map_congr_left ih)

theorem subst_ofAlternatives (f : ν → TypeExpr μ) (types : List (TypeExpr ν)) :
    (ofAlternatives types).subst f = ofAlternatives (types.map (subst f)) := by
  match types with
  | [] => rfl
  | [single] => rfl
  | first :: second :: rest => exact congrArg union (substAll_eq_map f (first :: second :: rest))

/-! ## Alternatives -/

/-- The alternatives of a type. A type that is neither a union nor `never` is its only one. -/
def alternatives : TypeExpr ν → List (TypeExpr ν)
  | .never => []
  | .union alternatives => alternatives
  | type => [type]

/-- Whether a type is an alternative: neither a union nor `never`. -/
def isSingle : TypeExpr ν → Bool
  | .never => false
  | .union _ => false
  | _ => true

theorem alternatives_of_isSingle {type : TypeExpr ν} (single : type.isSingle = true) :
    type.alternatives = [type] := by
  cases type <;> first | rfl | cases single

/-- Alternatives can be told from the type that is made of them. -/
theorem alternatives_ofAlternatives {types : List (TypeExpr ν)}
    (single : ∀ type ∈ types, type.isSingle = true) : (ofAlternatives types).alternatives = types := by
  match types with
  | [] => rfl
  | [type] => exact alternatives_of_isSingle (single type List.mem_cons_self)
  | first :: second :: rest => rfl

theorem mem_references_of_mem_alternatives {type part : TypeExpr ν} (hp : part ∈ type.alternatives)
    {name : ν} (hn : name ∈ part.references) : name ∈ type.references := by
  cases type with
  | never => cases hp
  | union parts => exact mem_referencesOfAll.mpr ⟨part, hp, hn⟩
  | primitive kind => exact List.mem_singleton.mp hp ▸ hn
  | named name => exact List.mem_singleton.mp hp ▸ hn
  | object members => exact List.mem_singleton.mp hp ▸ hn
  | array element => exact List.mem_singleton.mp hp ▸ hn

/-- A replacement works on each alternative, if names are replaced by single types. -/
theorem alternatives_subst {f : ν → TypeExpr μ} (single : ∀ name, (f name).isSingle = true)
    (type : TypeExpr ν) : (type.subst f).alternatives = type.alternatives.map (subst f) := by
  cases type with
  | named name => exact alternatives_of_isSingle (single name)
  | union parts => exact substAll_eq_map f parts
  | never => rfl
  | primitive kind => rfl
  | object members => rfl
  | array element => rfl

end TypeExpr

/-! ## Bodies -/

namespace Body

variable {ν μ ξ : Type}

/-- The names of a body after a replacement. -/
theorem references_subst (f : ν → TypeExpr μ) (body : Body ν) :
    (body.subst f).references = body.references.flatMap fun name => (f name).references := by
  cases body with
  | object members => exact TypeExpr.references_substMembers f members
  | array element => exact TypeExpr.references_subst f element

theorem subst_eq_subst_iff {f g : ν → TypeExpr μ} {body : Body ν} :
    body.subst f = body.subst g ↔ ∀ name ∈ body.references, f name = g name := by
  cases body with
  | object members =>
    have inside : (TypeExpr.object members).subst f = (TypeExpr.object members).subst g ↔
        ∀ name ∈ (TypeExpr.object members).references, f name = g name :=
      TypeExpr.subst_eq_subst_iff
    rw [TypeExpr.subst, TypeExpr.subst, TypeExpr.object.injEq] at inside
    rw [subst, subst, object.injEq]
    exact inside
  | array element =>
    rw [subst, subst, array.injEq]
    exact TypeExpr.subst_eq_subst_iff

theorem subst_named (body : Body ν) : body.subst .named = body := by
  cases body with
  | object members =>
    exact congrArg object (TypeExpr.object.inj (TypeExpr.subst_named (.object members)))
  | array element => exact congrArg array (TypeExpr.subst_named element)

theorem subst_subst (f : ν → TypeExpr μ) (g : μ → TypeExpr ξ) (body : Body ν) :
    (body.subst f).subst g = body.subst fun name => (f name).subst g := by
  cases body with
  | object members =>
    exact congrArg object (TypeExpr.object.inj (TypeExpr.subst_subst f g (.object members)))
  | array element => exact congrArg array (TypeExpr.subst_subst f g element)

end Body

/-- To replace names is to substitute: names put for themselves change nothing, and two
replacements, one after the other, are one. The references are the free names: those of the result
are those of the replacements, in order, and two replacements give one result exactly if they agree
on every reference. -/
theorem replacement_substitutes {ν μ ξ : Type} (f f' : ν → TypeExpr μ) (g : μ → TypeExpr ξ) :
    (∀ type : TypeExpr ν,
      type.subst .named = type ∧
      (type.subst f).subst g = type.subst (fun name => (f name).subst g) ∧
      (type.subst f).references = type.references.flatMap (fun name => (f name).references) ∧
      (type.subst f = type.subst f' ↔ ∀ name ∈ type.references, f name = f' name)) ∧
    ∀ body : Body ν,
      body.subst .named = body ∧
      (body.subst f).subst g = body.subst (fun name => (f name).subst g) ∧
      (body.subst f).references = body.references.flatMap (fun name => (f name).references) ∧
      (body.subst f = body.subst f' ↔ ∀ name ∈ body.references, f name = f' name) := by
  constructor
  · intro type
    exact ⟨type.subst_named, type.subst_subst f g, type.references_subst f,
      TypeExpr.subst_eq_subst_iff⟩
  · intro body
    exact ⟨body.subst_named, body.subst_subst f g, body.references_subst f,
      Body.subst_eq_subst_iff⟩

end Exemplar
