import Exemplar.Proofs.Definition.TypeNames
import Exemplar.Proofs.Inference.Tightness
import Exemplar.Proofs.Samples.NormalForm

/-!
# Where type names come from

A definition made from samples is called like the root, like the placeholder, or
like a key under which a container was found in a sample. Nothing checks such a
key: if its capital form is no name that a type can have, the definition may get
it all the same. With that exception the names can be used, and if all can, the
text of the definitions can be read back.
-/

namespace Exemplar

namespace Json

/-- The parts of a value, the value among them. -/
inductive Part (value : Json) : Json → Prop
  | self : Part value value
  | item {items : List Json} {item : Json} (inside : Part value (.array items))
      (hi : item ∈ items) : Part value item
  | member {members : List (String × Json)} {name : String} {part : Json}
      (inside : Part value (.object members)) (hm : (name, part) ∈ members) : Part value part

/-- A key of an object in a value, under which there is an array or an object. -/
def NamesContainer (value : Json) (key : String) : Prop :=
  ∃ members part, Part value (.object members) ∧ (key, part) ∈ members ∧ part.kind? = none

end Json

variable {samples : List Json} {options : Options} {types : List (Definition String)}

def PartOf (samples : List Json) (part : Json) : Prop := ∃ sample ∈ samples, sample.Part part

/-- A key of an object in some sample, under which there is an array or an object. -/
def NamesContainer (samples : List Json) (key : String) : Prop :=
  ∃ sample ∈ samples, sample.NamesContainer key

theorem partOf_of_itemOf {part : Json} (item : ItemOf (PartOf samples) part) :
    PartOf samples part := by
  obtain ⟨items, ⟨sample, hs, inside⟩, hi⟩ := item
  exact ⟨sample, hs, inside.item hi⟩

theorem partOf_of_memberOf {name : String} {part : Json}
    (member : MemberOf (PartOf samples) name part) : PartOf samples part := by
  obtain ⟨members, ⟨sample, hs, inside⟩, hm⟩ := member
  exact ⟨sample, hs, inside.member hm⟩

namespace Tree

/-- The parts of a tree that parts of samples attest are attested by parts of samples. -/
theorem AttestedBy.parts {tree : Tree} (attested : AttestedBy (PartOf samples) tree) :
    ∀ part ∈ tree.parts, AttestedBy (PartOf samples) part := by
  obtain ⟨source, _, within, describes⟩ := attested
  cases tree with
  | primitive kind => exact nofun
  | array elements =>
    intro part hp
    refine (attested_iff.mp describes.2 part hp).mono fun value item => ?_
    obtain ⟨items, hs, hi⟩ := item
    exact partOf_of_itemOf ⟨items, within _ hs, hi⟩
  | object fields =>
    intro part hp
    obtain ⟨field, hf, hp⟩ := List.mem_flatMap.mp hp
    have each := attestedFields_iff.mp describes.2.2 field hf
    refine (attested_iff.mp each part hp).mono fun value member => ?_
    obtain ⟨members, hs, hm⟩ := member
    exact partOf_of_memberOf ⟨members, within _ hs, hm⟩

theorem kind?_of_describes {tree : Tree} {values : Json → Prop} (describes : Describes tree values)
    {value : Json} (hv : values value) : value.kind? = tree.kind? := by
  cases tree with
  | primitive kind => exact describes value hv
  | array elements =>
    obtain ⟨items, rfl⟩ := describes.1 value hv
    rfl
  | object fields =>
    obtain ⟨members, rfl⟩ := describes.1 value hv
    rfl

/-- A field with a container among its alternatives has the name of a container in a sample. -/
theorem AttestedBy.namesContainer {fields : List (Member (List Tree))}
    (attested : AttestedBy (PartOf samples) (.object fields)) {field : Member (List Tree)}
    (hf : field ∈ fields) {tree : Tree} (ht : tree ∈ field.type) (container : tree.kind? = none) :
    NamesContainer samples field.name := by
  obtain ⟨source, _, within, _, _, fieldsAttested⟩ := attested
  obtain ⟨parts, ⟨part, hp⟩, withinParts, describes⟩ :=
    attested_iff.mp (attestedFields_iff.mp fieldsAttested field hf) tree ht
  obtain ⟨members, hs, hm⟩ := withinParts part hp
  obtain ⟨sample, sampled, inside⟩ := within _ hs
  exact ⟨sample, sampled, members, part, inside, hm,
    (kind?_of_describes describes hp).trans container⟩

end Tree

/-! ## Members that refer to something -/

/-- Members of an object that refer to something have names of some kind. -/
def Body.Lenders {ν : Type} (names : String → Prop) : Body ν → Prop
  | .object members => ∀ m ∈ members, m.type.references ≠ [] → names m.name
  | .array _ => True

/-- A replacement gives references to members that had some only. -/
theorem Body.Lenders.subst {ν μ : Type} {names : String → Prop} {body : Body ν}
    (lenders : body.Lenders names) (g : ν → TypeExpr μ) : (body.subst g).Lenders names := by
  cases body with
  | array element => trivial
  | object members =>
    rw [Body.subst, TypeExpr.substMembers_eq_map]
    refine List.forall_mem_map.mpr fun m hm refers => lenders m hm fun none => refers ?_
    rw [TypeExpr.references_subst, none, List.flatMap_nil]

theorem Inline.lenders_iterate {ν : Type} {wrapper : ν → Option (TypeExpr ν)}
    {names : String → Prop} (rounds : Nat) {body : Body ν} (lenders : body.Lenders names) :
    ((expand wrapper)^[rounds] body).Lenders names := by
  induction rounds generalizing body with
  | zero => exact lenders
  | succ rounds ih => exact ih (lenders.subst _)

/-- What is kept for a tree that samples attest has members named like containers. -/
theorem Collect.KeptFor.lenders {shape : Composite Key}
    (kept : KeptFor (Tree.AttestedBy (PartOf samples)) shape) :
    (bodyOf shape).Lenders (NamesContainer samples) := by
  obtain ⟨tree, attested, kept⟩ := kept
  cases tree with
  | primitive kind => cases kept
  | array elements =>
    cases kept
    trivial
  | object fields =>
    cases kept
    rw [bodyOf, Tree.toFields_eq_map, List.map_map]
    refine List.forall_mem_map.mpr fun field hf refers => ?_
    obtain ⟨ref, hr⟩ := List.exists_mem_of_ne_nil _ refers
    change ref ∈ (typeOfAll (field.type.map Tree.toLeaf)).references at hr
    rw [references_typeOfAll] at hr
    obtain ⟨tree, ht, shape, kept, _⟩ := exists_of_mem_needs_toLeaf hr
    refine attested.namesContainer hf ht ?_
    cases tree with
    | primitive kind => cases kept
    | array elements => rfl
    | object fields => rfl

/-- A member that lends its name has the name of a container in a sample. -/
theorem Naming.namesContainer_of_lends {ν : Type} {types : List (Definition ν)}
    (lenders : ∀ t ∈ types, t.body.Lenders (NamesContainer samples)) {member : Member (TypeExpr ν)}
    (hm : member ∈ membersOf types) {name : ν} (lends : Lends member name) :
    NamesContainer samples member.name := by
  obtain ⟨members, listed, hm⟩ := List.mem_flatten.mp hm
  obtain ⟨t, ht, body⟩ := List.mem_filterMap.mp listed
  have lenders := lenders t ht
  cases found : t.body with
  | array element => rw [found] at body; cases body
  | object others =>
    rw [found] at body lenders
    cases body
    exact lenders member hm (List.ne_nil_of_mem lends.2.1)

/-! ## Final names -/

/-- The trees of samples go back to parts of the samples. -/
theorem attestedBy_combine : ∀ tree ∈ Tree.combine (samples.map (·.node.tree)),
    Tree.AttestedBy (PartOf samples) tree := by
  refine Tree.attested_iff.mp (Tree.Attested.combine (Tree.attested_iff.mpr ?_))
  refine List.forall_mem_map.mpr fun sample hs => ?_
  refine ⟨(· = sample), ⟨sample, rfl⟩, fun _ same => ?_, Node.describes_tree sample⟩
  exact ⟨sample, hs, same ▸ .self⟩

/-- Definitions made from samples are named definitions whose members lend names of containers. -/
theorem exists_named_of_definitionsOfSamples (ok : definitionsOfSamples options samples = .ok types) :
    ∃ (root : Key) (unnamed : List (Definition Key)), (Definition.names unnamed).Nodup ∧
      root ∈ Definition.names unnamed ∧
      (∀ t ∈ unnamed, t.body.Lenders (NamesContainer samples)) ∧
      types = Naming.named root options unnamed := by
  obtain ⟨session, inferred, observed, solved, named⟩ := stages_of_definitionsOfSamples ok
  obtain ⟨_, sound⟩ := (Session.sound_start options.maxDepth).observeAll observed
  obtain ⟨ordered, there, _⟩ := sound.solve solved
  obtain ⟨tree, shape, alone, kept, root⟩ := sound.root_eq solved
  have attested : Tree.AttestedBy (PartOf samples) tree := by
    refine attestedBy_combine tree ?_
    rw [← List.nil_append (samples.map (·.node.tree)), alone]
    exact List.mem_cons_self
  rw [root] at there named
  obtain ⟨shapes, ran, settled, covers, needed⟩ := Collect.collect_ok ordered there
  have keptFor := Collect.keptFor_of_needed (fun _ attested => attested.parts)
    ⟨tree, attested, kept⟩ needed
  have serializable := Definition.serializable_of_settled settled covers
  have inlined := serializable.inlineArrays
  cases named.symm.trans (serializable.definitions_eq ran options)
  refine ⟨_, _, inlined.distinct_marked, ?_, ?_, rfl⟩
  · rw [Definition.names_marked]
    exact inlined.root
  · refine List.forall_mem_map.mpr fun t ht => ?_
    rw [Inline.inlineArrays_eq_map] at ht
    obtain ⟨before, hb, rfl⟩ := List.mem_map.mp ht
    obtain ⟨shape, hs, rfl⟩ := List.mem_map.mp (List.mem_filter.mp hb).1
    exact Inline.lenders_iterate _ (keptFor shape hs).lenders

/-- A name that no type can have, borrowed from a key under which a sample has a container. -/
def BorrowsUnusable (samples : List Json) (name : String) : Prop :=
  ∃ key capital, NamesContainer samples key ∧ Uppercase.capitalize? key = some capital ∧
    Naming.Spoils capital name

/-- With default options, a definition made from samples has a name that a type can have, or else
a borrowed one. -/
theorem isTypeName_or_borrowsUnusable (ok : definitionsOfSamples {} samples = .ok types) :
    ∀ name ∈ Definition.names types, Render.IsTypeName name ∨ BorrowsUnusable samples name := by
  obtain ⟨root, unnamed, distinct, rooted, lenders, rfl⟩ := exists_named_of_definitionsOfSamples ok
  intro name hn
  obtain ⟨_, hr, rfl⟩ := Definition.mem_names.mp hn
  obtain ⟨t, ht, rfl⟩ := List.mem_map.mp hr
  change Render.IsTypeName (Naming.finalName root {} unnamed t.name) ∨ _
  have known : t.name ∈ Definition.names unnamed := Definition.mem_names.mpr ⟨t, ht, rfl⟩
  by_cases isRoot : t.name = root
  · rw [isRoot, Naming.finalName_root root {} rooted]
    exact .inl (by decide)
  · have other := Naming.mem_others.mpr ⟨known, isRoot⟩
    refine (Naming.isTypeName_or_spoils distinct other).imp_right fun spoils => ?_
    rcases Naming.baseName_cases {} unnamed t.name with placeholder | ⟨member, hm, lends, capital⟩
    · rw [placeholder] at spoils
      exact absurd (by decide) spoils.1
    · exact ⟨member.name, _, Naming.namesContainer_of_lends lenders hm lends, capital, spoils⟩

/-- Where every name is one that a type can have, definitions made from samples can be read off
their text. -/
theorem legible_of_definitionsOfSamples (ok : definitionsOfSamples options samples = .ok types)
    (usable : ∀ name ∈ Definition.names types, Render.IsTypeName name) :
    ∀ t ∈ types, t.Legible := by
  obtain ⟨wellFormed, _, _, normalForm, _⟩ := definitionsOfSamples_normalForm ok
  intro t ht
  refine ⟨(usable t.name (Definition.mem_names.mpr ⟨t, ht, rfl⟩)).isName, ?_⟩
  refine (normalForm.normal t ht).legible fun ref hr => ?_
  exact (usable ref (wellFormed.layered.closed t ht ref hr)).isName

/-- With default options, every definition made from samples has a name that a type can have, unless
it borrowed one that no type can have. References are to names of definitions. If all names are names
that a type can have, the definitions can be read back from their text. -/
theorem definitionsOfSamples_typeNames (ok : definitionsOfSamples {} samples = .ok types) :
    (∀ name ∈ Definition.names types, Render.IsTypeName name ∨ BorrowsUnusable samples name) ∧
    (∀ t ∈ types, ∀ ref ∈ t.body.references, ref ∈ Definition.names types) ∧
    ((∀ name ∈ Definition.names types, Render.IsTypeName name) → (∀ t ∈ types, t.Legible) ∧
      ∀ other : List (Definition String), (∀ t ∈ other, t.Legible) → render other = render types →
        other.map (fun t => (t.name, t.body)) = types.map fun t => (t.name, t.body)) := by
  obtain ⟨wellFormed, _⟩ := definitionsOfSamples_normalForm ok
  refine ⟨isTypeName_or_borrowsUnusable ok, wellFormed.layered.closed, fun usable => ?_⟩
  have legible := legible_of_definitionsOfSamples ok usable
  refine ⟨legible, fun other legible' same => ?_⟩
  exact Render.laterText_inj legible' legible (Render.laterText_eq_of_render_eq same)

/-- A key with a hyphen over an object, and a key that capitalises to the word for arrays: both
definitions get a name that no type can have. -/
theorem definitionsOfSamples_borrows_unusable :
    let sample : Json := .object [("my-key", .object [("a", .null)]),
      ("array", .object [("b", .null)])]
    (definitionsOfSamples {} [sample]).toOption.map Definition.names =
        some ["My-key", "Array", "Root"] ∧
      ¬Render.IsTypeName "My-key" ∧ ¬Render.IsTypeName "Array" := by
  decide +kernel

/-- Names that types can have: borrowed, borrowed with a number, and that of the root. -/
theorem definitionsOfSamples_typeNames_of_usable_keys :
    let sample : Json := .object [("user", .object [("id", .null)]),
      ("root", .object [("at", .array [.object [], .object [("root", .object [("x", .null)])]])])]
    ∃ types, definitionsOfSamples {} [sample] = .ok types ∧
      (∀ name ∈ Definition.names types, Render.IsTypeName name) ∧
      (∀ t ∈ types, t.Legible) ∧
      ∀ other : List (Definition String), (∀ t ∈ other, t.Legible) → render other = render types →
        other.map (fun t => (t.name, t.body)) = types.map fun t => (t.name, t.body) := by
  intro sample
  have names : (definitionsOfSamples {} [sample]).toOption.map Definition.names =
      some ["User", "Root1", "At", "Root2", "Root"] := by decide +kernel
  cases ok : definitionsOfSamples {} [sample] with
  | error failure => rw [ok] at names; cases names
  | ok types =>
    rw [ok] at names
    have usable : ∀ name ∈ Definition.names types, Render.IsTypeName name := by
      rw [Option.some.inj names]
      decide
    exact ⟨types, rfl, usable, (definitionsOfSamples_typeNames ok).2.2 usable⟩

end Exemplar
