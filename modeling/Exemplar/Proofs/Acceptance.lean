import Exemplar.Definition.Inlining
import Exemplar.Json
import Exemplar.Proofs.Definition.Substitution
import Mathlib.Order.Basic

/-!
# Which values a type accepts

Types are read as sets of JSON values. Records are closed: an object may only
have listed members, and must have those that are not nullable. What a name
accepts is a parameter, so that one reading serves every list of definitions.

A body accepts only containers, and looks names up for their parts. The meaning
of all names together is therefore a recursion on the nesting of values, also
when definitions refer to each other in a circle.
-/

namespace Exemplar

namespace Json

def kind? : Json → Option Kind
  | .null => some .null
  | .boolean _ => some .boolean
  | .number _ => some .number
  | .string _ => some .string
  | .array _ => none
  | .object _ => none

/-- Arrays, all of whose items pass. -/
def IsArrayOf (item : Json → Prop) (value : Json) : Prop :=
  ∃ items, value = .array items ∧ ∀ part ∈ items, item part

/-- Objects, all of whose members are listed, and that have the mandatory ones. -/
def IsRecordOf (listed : String → Json → Prop) (mandatory : String → Prop) (value : Json) : Prop :=
  ∃ members, value = .object members ∧ (∀ m ∈ members, listed m.1 m.2) ∧
    ∀ name, mandatory name → ∃ m ∈ members, m.1 = name

theorem isArrayOf_array {item : Json → Prop} {items : List Json} :
    (Json.array items).IsArrayOf item ↔ ∀ part ∈ items, item part := by
  constructor
  · rintro ⟨_, same, each⟩
    cases same
    exact each
  · exact fun each => ⟨items, rfl, each⟩

theorem isRecordOf_object {listed : String → Json → Prop} {mandatory : String → Prop}
    {members : List (String × Json)} : (Json.object members).IsRecordOf listed mandatory ↔
      (∀ m ∈ members, listed m.1 m.2) ∧ ∀ name, mandatory name → ∃ m ∈ members, m.1 = name := by
  constructor
  · rintro ⟨_, same, each⟩
    cases same
    exact each
  · exact fun each => ⟨members, rfl, each⟩

theorem nesting_le_of_mem_items {part : Json} {items : List Json} (h : part ∈ items) :
    part.nesting ≤ nestingOfItems items := by
  induction items with
  | nil => cases h
  | cons first rest ih =>
    rw [nestingOfItems]
    rcases List.mem_cons.mp h with rfl | h
    · exact Nat.le_max_left _ _
    · exact Nat.le_trans (ih h) (Nat.le_max_right _ _)

theorem nesting_le_of_mem_members {m : String × Json} {members : List (String × Json)}
    (h : m ∈ members) : m.2.nesting ≤ nestingOfMembers members := by
  induction members with
  | nil => cases h
  | cons first rest ih =>
    rw [nestingOfMembers]
    rcases List.mem_cons.mp h with rfl | h
    · exact Nat.le_max_left _ _
    · exact Nat.le_trans (ih h) (Nat.le_max_right _ _)

theorem IsArrayOf.mono {p q : Json → Prop} {value : Json} (h : value.IsArrayOf p)
    (le : ∀ part, part.nesting < value.nesting → p part → q part) : value.IsArrayOf q := by
  obtain ⟨items, rfl, each⟩ := h
  refine ⟨items, rfl, fun part hp => le part ?_ (each part hp)⟩
  exact Nat.lt_succ_of_le (nesting_le_of_mem_items hp)

theorem IsRecordOf.mono {p q : String → Json → Prop} {needed needed' : String → Prop}
    {value : Json} (h : value.IsRecordOf p needed)
    (le : ∀ name part, part.nesting < value.nesting → p name part → q name part)
    (fewer : ∀ name, needed' name → needed name) : value.IsRecordOf q needed' := by
  obtain ⟨members, rfl, each, all⟩ := h
  refine ⟨members, rfl, fun m hm => le m.1 m.2 ?_ (each m hm), fun name hn => ?_⟩
  · exact Nat.lt_succ_of_le (nesting_le_of_mem_members hm)
  · exact all name (fewer name hn)

end Json

abbrev Meaning (ν : Type) := ν → Json → Prop

namespace Meaning

variable {ν μ : Type}

/-- The meaning that a rule gives to names. The rule says which values a name accepts, from what
names accept among the values that nest less deep. -/
def fixed (rule : Meaning ν → Meaning ν) (name : ν) (value : Json) : Prop :=
  rule (fun inner part => ∃ _ : part.nesting < value.nesting, fixed rule inner part) name value
termination_by value.nesting

/-- A rule that asks about values of less nesting only. -/
def Guarded (rule : Meaning ν → Meaning ν) : Prop :=
  ∀ (M N : Meaning ν) (name : ν) (value : Json),
    (∀ inner part, part.nesting < value.nesting → M inner part → N inner part) →
      rule M name value → rule N name value

/-- A guarded rule holds of its meaning without the bound on nesting. -/
theorem fixed_iff {rule : Meaning ν → Meaning ν} (guarded : Guarded rule) (name : ν)
    (value : Json) : fixed rule name value ↔ rule (fixed rule) name value := by
  rw [fixed]
  constructor
  · exact guarded _ _ name value fun _ _ _ h => h.2
  · exact guarded _ _ name value fun _ _ below h => ⟨below, h⟩

/-- Two meanings agree on related names if they agree on a value whenever they agree, on related
names, on all values of less nesting. -/
theorem agree {M : Meaning ν} {N : Meaning μ} (related : ν → μ → Prop)
    (step : ∀ a b, related a b → ∀ value,
      (∀ a' b', related a' b' → ∀ part, part.nesting < value.nesting → (M a' part ↔ N b' part)) →
        (M a value ↔ N b value))
    {a : ν} {b : μ} (h : related a b) (value : Json) : M a value ↔ N b value := by
  induction n : value.nesting using Nat.strongRecOn generalizing a b value with
  | ind n ih =>
    refine step a b h value ?_
    intro a' b' h' part below
    exact ih part.nesting (n ▸ below) h' part rfl

/-- A guarded rule holds of one meaning only. -/
theorem eq_fixed {rule : Meaning ν → Meaning ν} (guarded : Guarded rule) {M : Meaning ν}
    (holds : ∀ name value, M name value ↔ rule M name value) : M = fixed rule := by
  funext name value
  rw [eq_iff_iff]
  refine agree (fun a b => a = b) ?_ rfl value
  rintro name _ rfl value same
  rw [holds, fixed_iff guarded]
  constructor
  · exact guarded _ _ name value fun inner part below => (same inner inner rfl part below).mp
  · exact guarded _ _ name value fun inner part below => (same inner inner rfl part below).mpr

end Meaning

namespace TypeExpr

variable {ν μ : Type}

mutual

/-- The values that a type accepts, given what names accept. -/
def Accepts (M : Meaning ν) : TypeExpr ν → Json → Prop
  | .never, _ => False
  | .primitive kind, value => value.kind? = some kind
  | .named name, value => M name value
  | .object members, value =>
    value.IsRecordOf (AcceptsMember M members)
      fun name => ∃ m ∈ members, m.name = name ∧ m.nullable = false
  | .array element, value => value.IsArrayOf (Accepts M element)
  | .union alternatives, value => AcceptsAny M alternatives value

def AcceptsAny (M : Meaning ν) : List (TypeExpr ν) → Json → Prop
  | [], _ => False
  | type :: rest, value => Accepts M type value ∨ AcceptsAny M rest value

def AcceptsMember (M : Meaning ν) : List (Member (TypeExpr ν)) → String → Json → Prop
  | [], _, _ => False
  | ⟨name, type, _⟩ :: rest, key, value =>
    name = key ∧ Accepts M type value ∨ AcceptsMember M rest key value

end

theorem acceptsAny_iff {M : Meaning ν} {types : List (TypeExpr ν)} {value : Json} :
    AcceptsAny M types value ↔ ∃ type ∈ types, type.Accepts M value := by
  induction types with
  | nil => simp [AcceptsAny]
  | cons type rest ih => simp [AcceptsAny, ih]

mutual

/-- A type accepts no less when the names it refers to accept no less. -/
theorem Accepts.mono {M N : Meaning ν} (type : TypeExpr ν) (value : Json)
    (le : ∀ name ∈ type.references, ∀ part, part.nesting ≤ value.nesting →
      M name part → N name part) (h : type.Accepts M value) : type.Accepts N value := by
  match type with
  | .never => exact h
  | .primitive kind => exact h
  | .named name => exact le name (by simp [references]) value (Nat.le_refl _) h
  | .object members =>
    refine Json.IsRecordOf.mono h (fun key part below => ?_) fun _ => id
    refine AcceptsMember.mono members key part ?_
    intro name hn inner hi
    exact le name (by simpa [references] using hn) inner (by omega)
  | .array element =>
    refine Json.IsArrayOf.mono h ?_
    intro part below
    refine Accepts.mono element part ?_
    intro name hn inner hi
    exact le name (by simpa [references] using hn) inner (by omega)
  | .union alternatives =>
    exact AcceptsAny.mono alternatives value
      (fun name hn => le name (by simpa [references] using hn)) h

theorem AcceptsAny.mono {M N : Meaning ν} (types : List (TypeExpr ν)) (value : Json)
    (le : ∀ name ∈ referencesOfAll types, ∀ part, part.nesting ≤ value.nesting →
      M name part → N name part) (h : AcceptsAny M types value) : AcceptsAny N types value := by
  match types with
  | [] => exact h
  | type :: rest =>
    rcases h with h | h
    · refine Or.inl (Accepts.mono type value (fun name hn => le name ?_) h)
      exact List.mem_append_left _ hn
    · refine Or.inr (AcceptsAny.mono rest value (fun name hn => le name ?_) h)
      exact List.mem_append_right _ hn

theorem AcceptsMember.mono {M N : Meaning ν} (members : List (Member (TypeExpr ν)))
    (key : String) (value : Json)
    (le : ∀ name ∈ referencesOfMembers members, ∀ part, part.nesting ≤ value.nesting →
      M name part → N name part)
    (h : AcceptsMember M members key value) : AcceptsMember N members key value := by
  match members with
  | [] => exact h
  | ⟨name, type, _⟩ :: rest =>
    rcases h with ⟨same, h⟩ | h
    · refine Or.inl ⟨same, Accepts.mono type value (fun name hn => le name ?_) h⟩
      exact List.mem_append_left _ hn
    · refine Or.inr (AcceptsMember.mono rest key value (fun name hn => le name ?_) h)
      exact List.mem_append_right _ hn

end

/-- Which members are mandatory does not depend on their types. -/
theorem mandatory_substMembers (f : ν → TypeExpr μ) (members : List (Member (TypeExpr ν)))
    (name : String) :
    (∃ m ∈ substMembers f members, m.name = name ∧ m.nullable = false) ↔
      ∃ m ∈ members, m.name = name ∧ m.nullable = false := by
  simp [substMembers_eq_map]

mutual

/-- To put types in the place of names is to let the names accept what the types do. -/
theorem accepts_subst (f : ν → TypeExpr μ) (M : Meaning μ) (type : TypeExpr ν) :
    (type.subst f).Accepts M = type.Accepts fun name => (f name).Accepts M := by
  funext value
  match type with
  | .never => rfl
  | .primitive kind => rfl
  | .named name => rfl
  | .object members =>
    simp only [subst, Accepts, acceptsMember_subst f M members, mandatory_substMembers]
  | .array element =>
    simp only [subst, Accepts, accepts_subst f M element]
  | .union alternatives =>
    simp only [subst, Accepts, acceptsAny_subst f M alternatives]

theorem acceptsAny_subst (f : ν → TypeExpr μ) (M : Meaning μ) (types : List (TypeExpr ν)) :
    AcceptsAny M (substAll f types) = AcceptsAny (fun name => (f name).Accepts M) types := by
  funext value
  match types with
  | [] => rfl
  | type :: rest =>
    simp only [substAll, AcceptsAny, accepts_subst f M type, acceptsAny_subst f M rest]

theorem acceptsMember_subst (f : ν → TypeExpr μ) (M : Meaning μ)
    (members : List (Member (TypeExpr ν))) :
    AcceptsMember M (substMembers f members) =
      AcceptsMember (fun name => (f name).Accepts M) members := by
  funext key value
  match members with
  | [] => rfl
  | ⟨name, type, _⟩ :: rest =>
    simp only [substMembers, AcceptsMember, accepts_subst f M type, acceptsMember_subst f M rest]

end

end TypeExpr

namespace Body

variable {ν μ : Type}

/-- The type that a body writes out. -/
def type : Body ν → TypeExpr ν
  | .object members => .object members
  | .array element => .array element

def Accepts (M : Meaning ν) (body : Body ν) (value : Json) : Prop := body.type.Accepts M value

/-- A body asks names about the parts of a value only. -/
theorem Accepts.mono {M N : Meaning ν} {body : Body ν} {value : Json}
    (h : body.Accepts M value) (le : ∀ name ∈ body.references, ∀ part,
      part.nesting < value.nesting → M name part → N name part) : body.Accepts N value := by
  cases body with
  | object members =>
    refine Json.IsRecordOf.mono h (fun key part below => ?_) fun _ => id
    refine TypeExpr.AcceptsMember.mono members key part ?_
    intro name hn inner hi
    exact le name hn inner (by omega)
  | array element =>
    refine Json.IsArrayOf.mono h ?_
    intro part below
    refine TypeExpr.Accepts.mono element part ?_
    intro name hn inner hi
    exact le name hn inner (by omega)

theorem accepts_congr {M N : Meaning ν} {body : Body ν} {value : Json}
    (same : ∀ name ∈ body.references, ∀ part, part.nesting < value.nesting →
      (M name part ↔ N name part)) : body.Accepts M value ↔ body.Accepts N value :=
  ⟨fun h => h.mono fun name hn part hp => (same name hn part hp).mp,
    fun h => h.mono fun name hn part hp => (same name hn part hp).mpr⟩

theorem accepts_subst (f : ν → TypeExpr μ) (M : Meaning μ) (body : Body ν) :
    (body.subst f).Accepts M = body.Accepts fun name => (f name).Accepts M := by
  cases body with
  | object members => exact TypeExpr.accepts_subst f M (.object members)
  | array element => exact TypeExpr.accepts_subst f M (.array element)

end Body

namespace Definition

variable {ν : Type} [DecidableEq ν]

/-- How definitions give names a meaning: a name accepts what its body accepts. What names without
a definition accept is given from outside. -/
def rule (outside : Meaning ν) (types : List (Definition ν)) (M : Meaning ν) : Meaning ν :=
  fun name value =>
    match Inline.bodyOf? types name with
    | some body => body.Accepts M value
    | none => outside name value

theorem guarded_rule (outside : Meaning ν) (types : List (Definition ν)) :
    Meaning.Guarded (rule outside types) := by
  intro M N name value le h
  rw [rule] at h ⊢
  cases found : Inline.bodyOf? types name with
  | none => simpa only [found] using h
  | some body =>
    simp only [found] at h ⊢
    exact h.mono fun inner _ part below => le inner part below

/-- What names accept, where those without a definition get their meaning from outside. -/
def meaningOver (outside : Meaning ν) (types : List (Definition ν)) : Meaning ν :=
  Meaning.fixed (rule outside types)

/-- What names accept, where those without a definition accept nothing. -/
def meaning (types : List (Definition ν)) : Meaning ν := meaningOver (fun _ _ => False) types

theorem meaningOver_of_body {outside : Meaning ν} {types : List (Definition ν)} {name : ν}
    {body : Body ν} (found : Inline.bodyOf? types name = some body) (value : Json) :
    meaningOver outside types name value ↔ body.Accepts (meaningOver outside types) value := by
  refine (Meaning.fixed_iff (guarded_rule outside types) name value).trans ?_
  simp only [rule, found]
  exact Iff.rfl

theorem meaningOver_of_none {outside : Meaning ν} {types : List (Definition ν)} {name : ν}
    (missing : Inline.bodyOf? types name = none) (value : Json) :
    meaningOver outside types name value ↔ outside name value := by
  refine (Meaning.fixed_iff (guarded_rule outside types) name value).trans ?_
  simp only [rule, missing]

/-- The values that the root of some definitions accepts. -/
def RootAccepts (types : List (Definition ν)) (value : Json) : Prop :=
  ∃ root, types.find? (·.isRoot) = some root ∧ root.body.Accepts (meaning types) value

end Definition

end Exemplar
