import Exemplar.Proofs.Samples.NormalForm

/-!
# Definitions made from samples are shared

No two definitions unfold to the same. So a definition is found by what it
unfolds to, and references that lead to the same type are the same name. Objects
never stand in place. Hence every object of the samples' union, wherever it is
met, has one definition, which all references to it lead to.
-/

namespace Exemplar

namespace TypeExpr

variable {ν μ α : Type}

mutual

/-- The objects in a type, the type itself among them if it is one. -/
def objects : TypeExpr ν → List (TypeExpr ν)
  | .never => []
  | .primitive _ => []
  | .named _ => []
  | .object members => .object members :: objectsOfMembers members
  | .array element => objects element
  | .union alternatives => objectsOfAll alternatives

def objectsOfAll : List (TypeExpr ν) → List (TypeExpr ν)
  | [] => []
  | type :: rest => objects type ++ objectsOfAll rest

def objectsOfMembers : List (Member (TypeExpr ν)) → List (TypeExpr ν)
  | [] => []
  | ⟨_, type, _⟩ :: rest => objects type ++ objectsOfMembers rest

end

theorem mem_objectsOfAll {object : TypeExpr ν} {types : List (TypeExpr ν)} :
    object ∈ objectsOfAll types ↔ ∃ type ∈ types, object ∈ type.objects := by
  induction types with
  | nil => simp [objectsOfAll]
  | cons type rest ih => simp [objectsOfAll, ih]

theorem mem_objectsOfMembers {object : TypeExpr ν} {members : List (Member (TypeExpr ν))} :
    object ∈ objectsOfMembers members ↔ ∃ m ∈ members, object ∈ m.type.objects := by
  induction members with
  | nil => simp [objectsOfMembers]
  | cons m rest ih => simp [objectsOfMembers, ih]

/-- In a normal type, no object stands in place. -/
theorem Normal.objects_eq_nil {f : TypeExpr ν → α} {type : TypeExpr ν} (normal : type.Normal f) :
    type.objects = [] := by
  induction normal with
  | primitive kind => rfl
  | named name => rfl
  | empty => rfl
  | array _ ih => exact ih
  | union _ _ _ _ ih =>
    rw [objects, List.eq_nil_iff_forall_not_mem]
    intro object ho
    obtain ⟨type, ht, ho⟩ := mem_objectsOfAll.mp ho
    rw [ih type ht] at ho
    cases ho

/-- The objects in a normal type, after a replacement, are in what its names were replaced by. -/
theorem Normal.exists_of_mem_objects_subst {f : TypeExpr ν → α} {type : TypeExpr ν}
    (normal : type.Normal f) {g : ν → TypeExpr μ} {object : TypeExpr μ}
    (ho : object ∈ (type.subst g).objects) :
    ∃ name ∈ type.references, object ∈ (g name).objects := by
  induction normal with
  | primitive kind => cases ho
  | named name => exact ⟨name, List.mem_cons_self, ho⟩
  | empty => cases ho
  | array _ ih => exact ih ho
  | union _ _ _ _ ih =>
    rw [TypeExpr.subst, objects, substAll_eq_map] at ho
    obtain ⟨_, hm, ho⟩ := mem_objectsOfAll.mp ho
    obtain ⟨type, ht, rfl⟩ := List.mem_map.mp hm
    obtain ⟨name, hn, ho⟩ := ih type ht ho
    exact ⟨name, mem_referencesOfAll.mpr ⟨type, ht, hn⟩, ho⟩

end TypeExpr

namespace Definition

variable {ν α : Type} {types : List (Definition ν)} {unfolding : ν → TypeExpr Empty}

/-- A normal body holds no object in place but what it is itself. -/
theorem eq_of_mem_objects {f : TypeExpr ν → α} {body : Body ν} (normal : body.Normal f)
    {object : TypeExpr ν} (ho : object ∈ body.type.objects) : object = body.type := by
  cases body with
  | array element =>
    rw [Body.type, TypeExpr.Normal.objects_eq_nil normal] at ho
    cases ho
  | object members =>
    rcases List.mem_cons.mp ho with same | ho
    · exact same
    · obtain ⟨m, hm, ho⟩ := TypeExpr.mem_objectsOfMembers.mp ho
      rw [(normal m hm).objects_eq_nil] at ho
      cases ho

/-- In layered definitions with normal bodies, each object of an unfolding has a definition. -/
theorem exists_of_mem_objects (layered : Layered types) (unfolds : Unfolds types unfolding)
    {f : TypeExpr ν → α} (normal : ∀ t ∈ types, t.body.Normal f) :
    ∀ name ∈ names types, ∀ object ∈ (unfolding name).objects,
      ∃ t ∈ types, unfolding t.name = object := by
  refine layered.induction ?_
  intro t ht below object ho
  have normal := normal t ht
  have unfolds := unfolds t ht
  have referred : ∀ name ∈ t.body.references, object ∈ (unfolding name).objects →
      ∃ t ∈ types, unfolding t.name = object := fun name hn => below name hn object
  rw [unfolds] at ho
  cases body : t.body with
  | array element =>
    rw [body] at normal ho referred
    obtain ⟨name, hn, ho⟩ := TypeExpr.Normal.exists_of_mem_objects_subst normal ho
    exact referred name hn ho
  | object members =>
    rw [body] at normal ho referred unfolds
    rcases List.mem_cons.mp ho with same | ho
    · exact ⟨t, ht, unfolds.trans same.symm⟩
    · rw [TypeExpr.substMembers_eq_map] at ho
      obtain ⟨_, hm', ho⟩ := TypeExpr.mem_objectsOfMembers.mp ho
      obtain ⟨m, hm, rfl⟩ := List.mem_map.mp hm'
      obtain ⟨name, hn, ho⟩ := (normal m hm).exists_of_mem_objects_subst ho
      exact referred name (TypeExpr.mem_referencesOfMembers.mpr ⟨m, hm, hn⟩) ho

/-- Definitions that unfold in one way, no two of them to the same. An object stands in place only
as a whole body, and each object of an unfolding is what exactly one definition unfolds to.
References that unfold to the same are the same name. -/
structure Shares (types : List (Definition ν)) (unfolding : ν → TypeExpr Empty) : Prop where
  unfolds : Unfolds types unfolding
  unique : ∀ unfolding', Unfolds types unfolding' →
    ∀ name ∈ names types, unfolding' name = unfolding name
  distinct : (types.map fun t => unfolding t.name).Nodup
  inPlace : ∀ t ∈ types, ∀ object ∈ t.body.type.objects, object = t.body.type
  objects : ∀ t ∈ types, ∀ object ∈ (unfolding t.name).objects,
    ∃! d, d ∈ types ∧ unfolding d.name = object
  references : ∀ t ∈ types, ∀ ref ∈ t.body.references, ∀ t' ∈ types, ∀ ref' ∈ t'.body.references,
    unfolding ref = unfolding ref' → ref = ref'

/-- Layered definitions in normal form share, if no two of them unfold to the same. -/
theorem NormalForm.shares {isObject isArray : ν → Prop}
    (normalForm : NormalForm unfolding isObject isArray types) (layered : Layered types)
    (distinct : ((names types).map unfolding).Nodup) : Shares types unfolding := by
  have told : (types.map fun t => unfolding t.name).Nodup := by
    rwa [names, List.map_map] at distinct
  constructor
  case unfolds => exact normalForm.unfolds
  case unique => exact fun unfolding' => layered.unfolds_unique normalForm.unfolds
  case distinct => exact told
  case inPlace => exact fun t ht _ => eq_of_mem_objects (normalForm.normal t ht)
  case objects =>
    intro t ht object ho
    obtain ⟨d, hd, same⟩ := exists_of_mem_objects layered normalForm.unfolds normalForm.normal
      t.name (mem_names.mpr ⟨t, ht, rfl⟩) object ho
    refine ⟨d, ⟨hd, same⟩, ?_⟩
    rintro d' ⟨hd', same'⟩
    exact List.inj_on_of_nodup_map told hd' hd (same'.trans same.symm)
  case references =>
    intro t ht ref hr t' ht' ref' hr' same
    have there := layered.closed t ht ref hr
    have there' := layered.closed t' ht' ref' hr'
    exact List.inj_on_of_nodup_map distinct there there' same

end Definition

variable {options : Options} {samples : List Json} {types : List (Definition String)}

/-- The definitions made from samples share. The root is one of them and unfolds to the union of the
samples, so each object of the union, wherever and as often as it is met, is what exactly one
definition unfolds to. -/
theorem definitionsOfSamples_shares (ok : definitionsOfSamples options samples = .ok types) :
    ∃ unfolding tree, Definition.Shares types unfolding ∧
      Tree.combine (samples.map (·.node.tree)) = [tree] ∧
      options.rootName ∈ Definition.names types ∧ unfolding options.rootName = tree.type ∧
      ∀ object ∈ tree.type.objects, ∃! d, d ∈ types ∧ unfolding d.name = object := by
  obtain ⟨wellFormed, unfolding, tree, normalForm, distinct, alone, rooted⟩ :=
    definitionsOfSamples_normalForm ok
  have shares := normalForm.shares wellFormed.layered distinct
  refine ⟨unfolding, tree, shares, alone, wellFormed.root_mem, rooted, fun object ho => ?_⟩
  obtain ⟨root, hr, named⟩ := Definition.mem_names.mp wellFormed.root_mem
  refine shares.objects root hr object ?_
  rwa [named, rooted]

/-- Equal objects under two keys, in an array and in deep arrays of which none is the root. -/
theorem definitionsOfSamples_shares_of_equal_objects :
    let image : Json := .object [("href", .string "x")]
    let deep : Json := .array [.array [.array [.array [.array [.array [.array [image]]]]]]]
    let samples : List Json :=
      [.object [("image", image), ("episodes", .array [.object [("image", image)]]),
          ("deep", deep)],
        .object [("deeper", .array [deep])]]
    ∃ types, definitionsOfSamples {} samples = .ok types ∧
      ∃ unfolding tree, Definition.Shares types unfolding ∧
        Tree.combine (samples.map (·.node.tree)) = [tree] ∧
        "Root" ∈ Definition.names types ∧ unfolding "Root" = tree.type ∧
        ∀ object ∈ tree.type.objects, ∃! d, d ∈ types ∧ unfolding d.name = object := by
  intro image deep samples
  have succeeds : (definitionsOfSamples {} samples).isOk = true := by decide +kernel
  cases ok : definitionsOfSamples {} samples with
  | error failure => rw [ok] at succeeds; cases succeeds
  | ok types => exact ⟨types, rfl, definitionsOfSamples_shares ok⟩

end Exemplar
