import Exemplar.Proofs.Definition.Serialization

/-!
# Definitions unfolded

To unfold a definition is to put, in the place of each reference, the unfolding
of the definition that it leads to. Layered definitions can be unfolded in one
way only. Collected definitions unfold to the trees of their keys, written as
types, and that a tree is written as a type loses nothing. Writing arrays in
place, marking and renaming change no unfolding.
-/

namespace Exemplar

theorem Body.references_type {ν : Type} (body : Body ν) :
    body.type.references = body.references := by
  cases body <;> rfl

theorem Body.type_subst {ν μ : Type} (f : ν → TypeExpr μ) (body : Body ν) :
    (body.subst f).type = body.type.subst f := by
  cases body <;> rfl

namespace Definition

variable {ν : Type}

/-- Every name unfolds to the body of its definition with references unfolded. -/
def Unfolds (types : List (Definition ν)) (unfolding : ν → TypeExpr Empty) : Prop :=
  ∀ t ∈ types, unfolding t.name = t.body.type.subst unfolding

/-- Layered definitions unfold in one way only. -/
theorem Layered.unfolds_unique {types : List (Definition ν)} (layered : Layered types)
    {unfolding unfolding' : ν → TypeExpr Empty} (unfolds : Unfolds types unfolding)
    (unfolds' : Unfolds types unfolding') :
    ∀ name ∈ names types, unfolding' name = unfolding name := by
  refine layered.induction ?_
  intro t ht same
  rw [unfolds t ht, unfolds' t ht]
  apply TypeExpr.subst_congr
  rwa [Body.references_type]

end Definition

/-! ## Trees as types -/

namespace Tree

mutual

/-- A tree written as a type, with everything in place. -/
def type : Tree → TypeExpr Empty
  | .primitive kind => .primitive kind
  | .array elements => .array (.ofAlternatives (types elements))
  | .object fields => .object (members fields)

def types : List Tree → List (TypeExpr Empty)
  | [] => []
  | tree :: rest => type tree :: types rest

def members : List (Member (List Tree)) → List (Member (TypeExpr Empty))
  | [] => []
  | ⟨name, trees, nullable⟩ :: rest =>
    ⟨name, .ofAlternatives (types trees), nullable⟩ :: members rest

end

theorem types_eq_map (trees : List Tree) : types trees = trees.map type := by
  induction trees with
  | nil => rfl
  | cons tree rest ih => rw [types, ih, List.map_cons]

def member (field : Member (List Tree)) : Member (TypeExpr Empty) :=
  ⟨field.name, .ofAlternatives (field.type.map type), field.nullable⟩

theorem members_eq_map (fields : List (Member (List Tree))) :
    members fields = fields.map member := by
  induction fields with
  | nil => rfl
  | cons field rest ih => rw [members, ih, List.map_cons, types_eq_map]; rfl

theorem isSingle_type (tree : Tree) : tree.type.isSingle = true := by
  cases tree <;> rfl

/-- Lists have the same image only if they are equal, where each entry is told by its image. -/
theorem eq_of_map_eq {α β : Type} {f : α → β} {xs ys : List α}
    (each : ∀ x ∈ xs, ∀ y, f x = f y → x = y) (same : xs.map f = ys.map f) : xs = ys := by
  induction xs generalizing ys with
  | nil => exact (List.map_eq_nil_iff.mp same.symm).symm
  | cons x rest ih =>
    obtain ⟨y, rest', rfl, first, others⟩ := List.map_eq_cons_iff.mp same.symm
    obtain ⟨head, tail⟩ := List.forall_mem_cons.mp each
    rw [head y first.symm, ih tail others.symm]

/-- Alternatives that are written as one type are found in it again. -/
theorem eq_of_ofAlternatives_eq {trees trees' : List Tree}
    (each : ∀ tree ∈ trees, ∀ tree', tree.type = tree'.type → tree = tree')
    (same : TypeExpr.ofAlternatives (trees.map type) = TypeExpr.ofAlternatives (trees'.map type)) :
    trees = trees' := by
  have single : ∀ trees : List Tree, ∀ part ∈ trees.map type, part.isSingle = true := by
    intro trees
    exact List.forall_mem_map.mpr fun tree _ => isSingle_type tree
  have same := congrArg TypeExpr.alternatives same
  rw [TypeExpr.alternatives_ofAlternatives (single trees),
    TypeExpr.alternatives_ofAlternatives (single trees')] at same
  exact eq_of_map_eq each same

/-- Different trees are written as different types. -/
theorem type_injective : Function.Injective type := by
  intro tree
  induction tree using parts_induction with
  | primitive kind =>
    intro tree' same
    cases tree' <;> cases same
    rfl
  | array elements ih =>
    intro tree' same
    cases tree' with
    | primitive kind => cases same
    | object fields => cases same
    | array elements' =>
      simp only [type, types_eq_map, TypeExpr.array.injEq] at same
      rw [eq_of_ofAlternatives_eq (fun tree ht tree' => @ih tree ht tree') same]
  | object fields ih =>
    have each : ∀ field ∈ fields, ∀ field', member field = member field' → field = field' := by
      rintro ⟨name, trees, nullable⟩ hf ⟨name', trees', nullable'⟩ same
      simp only [member, Member.mk.injEq] at same
      obtain ⟨rfl, same, rfl⟩ := same
      have types : trees = trees' :=
        eq_of_ofAlternatives_eq (fun tree ht tree' => @ih _ hf tree ht tree') same
      rw [types]
    intro tree' same
    cases tree' with
    | primitive kind => cases same
    | array elements => cases same
    | object fields' =>
      simp only [type, members_eq_map, TypeExpr.object.injEq] at same
      rw [eq_of_map_eq each same]

end Tree

/-! ## What definitions unfold to -/

namespace Collect

theorem subst_typeOf (leaf : Leaf Key) :
    (typeOf leaf).subst (fun key => key.tree.type) = (Key.treeOfLeaf leaf).type := by
  cases leaf <;> rfl

theorem subst_typeOfAll (leaves : List (Leaf Key)) :
    (typeOfAll leaves).subst (fun key => key.tree.type) =
      .ofAlternatives ((leaves.map Key.treeOfLeaf).map Tree.type) := by
  rw [typeOfAll, TypeExpr.subst_ofAlternatives, List.map_map, List.map_map]
  exact congrArg _ (List.map_congr_left fun leaf _ => subst_typeOf leaf)

/-- A collected body unfolds to the tree of the shape that it stands for. -/
theorem subst_bodyOf (shape : Composite Key) :
    (bodyOf shape).type.subst (fun key => key.tree.type) = (Key.treeOfComposite shape).type := by
  cases shape with
  | array elements =>
    rw [bodyOf, Body.type, TypeExpr.subst, subst_typeOfAll, Key.treeOfComposite, Tree.type,
      Tree.types_eq_map, Key.treesOfLeaves_eq_map]
  | object fields =>
    rw [bodyOf, Body.type, TypeExpr.subst, TypeExpr.substMembers_eq_map, Key.treeOfComposite,
      Tree.type, Tree.members_eq_map, Key.treesOfFields_eq_map, List.map_map, List.map_map]
    refine congrArg _ (List.map_congr_left fun field _ => ?_)
    rw [Function.comp, memberOf, subst_typeOfAll]
    rfl

theorem unfolds_definitionOf (shapes : List (Composite Key)) :
    Definition.Unfolds (shapes.map definitionOf) fun key => key.tree.type := by
  intro t ht
  obtain ⟨shape, _, rfl⟩ := List.mem_map.mp ht
  exact (subst_bodyOf shape).symm

end Collect

namespace Inline

variable {ν : Type} [DecidableEq ν] {types current : List (Definition ν)}
  {unfolding : ν → TypeExpr Empty}

/-- What replaces a wrapper unfolds to what the wrapper unfolds to. -/
theorem subst_wrapper? (unfolds : Definition.Unfolds types unfolding) (root name : ν) :
    ((wrapper? types root name).getD (.named name)).subst unfolding = unfolding name := by
  cases found : wrapper? types root name with
  | none => rfl
  | some type =>
    obtain ⟨_, t, ht, rfl, element, body, rfl⟩ := exists_of_wrapper? found
    rw [unfolds t ht, body]
    rfl

theorem unfolds_expandAll (unfolds : Definition.Unfolds types unfolding) (root : ν)
    (unfolds' : Definition.Unfolds current unfolding) :
    Definition.Unfolds (expandAll (wrapper? types root) current) unfolding := by
  intro t ht
  obtain ⟨before, hb, rfl⟩ := List.mem_map.mp ht
  have same :
      (fun name => ((wrapper? types root name).getD (.named name)).subst unfolding) = unfolding :=
    funext (subst_wrapper? unfolds root)
  rw [expand, Body.type_subst, TypeExpr.subst_subst, same]
  exact unfolds' before hb

end Inline

namespace Naming

variable {ν : Type} {types : List (Definition ν)} {unfolding : ν → TypeExpr Empty}
  {final : ν → String}

/-- Final names unfold to what the names unfold to, if no two get the same. -/
theorem exists_unfolding_final (unfolding : ν → TypeExpr Empty)
    (distinct : (Definition.names (types.map (rename final))).Nodup) :
    ∃ unfolding' : String → TypeExpr Empty,
      ∀ name ∈ Definition.names types, unfolding' (final name) = unfolding name := by
  rw [Definition.names, List.map_map] at distinct
  refine ⟨fun name =>
    ((types.find? fun t => final t.name = name).map fun t => unfolding t.name).getD .never, ?_⟩
  intro name hn
  obtain ⟨t, ht, rfl⟩ := Definition.mem_names.mp hn
  have found : types.find? (fun other => final other.name = final t.name) = some t :=
    List.find?_of_nodup_map distinct ht
  simp only [found, Option.map_some, Option.getD_some]

theorem unfolds_rename (unfolds : Definition.Unfolds types unfolding)
    (closed : Definition.Closed types) {unfolding' : String → TypeExpr Empty}
    (same : ∀ name ∈ Definition.names types, unfolding' (final name) = unfolding name) :
    Definition.Unfolds (types.map (rename final)) unfolding' := by
  intro t ht
  obtain ⟨before, hb, rfl⟩ := List.mem_map.mp ht
  rw [rename, Body.type_subst, TypeExpr.subst_subst, same _ (Definition.mem_names.mpr ⟨_, hb, rfl⟩),
    unfolds before hb]
  apply TypeExpr.subst_congr
  intro ref hr
  rw [Body.references_type] at hr
  exact (same ref (closed before hb ref hr)).symm

end Naming

end Exemplar
