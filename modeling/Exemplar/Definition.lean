import Exemplar.Kind

/-!
# Type definitions

The result of an inference is a list of named definitions. Their bodies are
objects or arrays; the types inside may refer to definitions by name. The type
of names is a parameter: definitions are collected under keys and leave under
strings.

`subst` replaces every reference by a type, and `references` lists exactly the
names that `subst` replaces, in the same order.
-/

namespace Exemplar

structure Member (τ : Type) where
  name : String
  type : τ
  nullable : Bool
deriving DecidableEq

/-- A type. `never` has no values; it is the element type of an array that held nothing. -/
inductive TypeExpr (ν : Type) where
  | never
  | primitive (kind : Kind)
  | named (name : ν)
  | object (members : List (Member (TypeExpr ν)))
  | array (element : TypeExpr ν)
  | union (alternatives : List (TypeExpr ν))

inductive Body (ν : Type) where
  | object (members : List (Member (TypeExpr ν)))
  | array (element : TypeExpr ν)

structure Definition (ν : Type) where
  name : ν
  body : Body ν
  isRoot : Bool

namespace TypeExpr

variable {ν μ : Type}

/-- The type of some alternatives: a union is only needed for two or more. -/
def ofAlternatives : List (TypeExpr ν) → TypeExpr ν
  | [] => .never
  | [single] => single
  | alternatives => .union alternatives

mutual

/-- Replace every reference by a type. -/
def subst (f : ν → TypeExpr μ) : TypeExpr ν → TypeExpr μ
  | .never => .never
  | .primitive kind => .primitive kind
  | .named name => f name
  | .object members => .object (substMembers f members)
  | .array element => .array (subst f element)
  | .union alternatives => .union (substAll f alternatives)

def substAll (f : ν → TypeExpr μ) : List (TypeExpr ν) → List (TypeExpr μ)
  | [] => []
  | type :: rest => subst f type :: substAll f rest

def substMembers (f : ν → TypeExpr μ) :
    List (Member (TypeExpr ν)) → List (Member (TypeExpr μ))
  | [] => []
  | ⟨name, type, nullable⟩ :: rest => ⟨name, subst f type, nullable⟩ :: substMembers f rest

end

mutual

/-- The names a type refers to, in order and with repeats. -/
def references : TypeExpr ν → List ν
  | .never => []
  | .primitive _ => []
  | .named name => [name]
  | .object members => referencesOfMembers members
  | .array element => references element
  | .union alternatives => referencesOfAll alternatives

def referencesOfAll : List (TypeExpr ν) → List ν
  | [] => []
  | type :: rest => references type ++ referencesOfAll rest

def referencesOfMembers : List (Member (TypeExpr ν)) → List ν
  | [] => []
  | ⟨_, type, _⟩ :: rest => references type ++ referencesOfMembers rest

end

end TypeExpr

namespace Body

variable {ν μ : Type}

def subst (f : ν → TypeExpr μ) : Body ν → Body μ
  | .object members => .object (TypeExpr.substMembers f members)
  | .array element => .array (element.subst f)

def references : Body ν → List ν
  | .object members => TypeExpr.referencesOfMembers members
  | .array element => element.references

def element? : Body ν → Option (TypeExpr ν)
  | .array element => some element
  | .object _ => none

def members? : Body ν → Option (List (Member (TypeExpr ν)))
  | .object members => some members
  | .array _ => none

end Body

end Exemplar
