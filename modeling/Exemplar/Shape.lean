import Exemplar.Kind

/-!
# Shapes

A leaf describes one JSON value. Arrays are described in place; objects are
described by reference, so that equal objects are described once. The type of
references is a parameter: the engine refers to a shape by its `Key`, the
canonical encoding by a digest.

The alternatives of an array element or of a field are a list of leaves, in
the order in which they were first seen.
-/

namespace Exemplar

/-- The shape of one value, with objects by reference. -/
inductive Leaf (κ : Type) where
  | primitive (kind : Kind)
  | array (elements : List (Leaf κ))
  | object (ref : κ)

/-- A field of an object shape. `nullable` says that some object lacked the field. -/
structure Field (κ : Type) where
  name : String
  types : List (Leaf κ)
  nullable : Bool

/-- The shape of a container: what a store keeps. -/
inductive Composite (κ : Type) where
  | array (elements : List (Leaf κ))
  | object (fields : List (Field κ))

/-- A leaf whose reference, if it is one, has been followed one step. -/
inductive Shape (κ : Type) where
  | primitive (kind : Kind)
  | array (elements : List (Leaf κ))
  | object (fields : List (Field κ))

def Composite.toShape {κ : Type} : Composite κ → Shape κ
  | .array elements => .array elements
  | .object fields => .object fields

namespace Shape

variable {κ : Type}

def kind? : Shape κ → Option Kind
  | .primitive kind => some kind
  | _ => none

def elements? : Shape κ → Option (List (Leaf κ))
  | .array elements => some elements
  | _ => none

def fields? : Shape κ → Option (List (Field κ))
  | .object fields => some fields
  | _ => none

end Shape

section Equality

variable {κ : Type} [DecidableEq κ]

mutual

/-- Equality of leaves is decidable where equality of references is. -/
def Leaf.decEq : (a b : Leaf κ) → Decidable (a = b)
  | .primitive k, .primitive l => decidable_of_iff (k = l) (by simp)
  | .array as, .array bs =>
    have := Leaf.decEqList as bs
    decidable_of_iff (as = bs) (by simp)
  | .object r, .object s => decidable_of_iff (r = s) (by simp)
  | .primitive _, .array _ => isFalse (by simp)
  | .primitive _, .object _ => isFalse (by simp)
  | .array _, .primitive _ => isFalse (by simp)
  | .array _, .object _ => isFalse (by simp)
  | .object _, .primitive _ => isFalse (by simp)
  | .object _, .array _ => isFalse (by simp)

def Leaf.decEqList : (as bs : List (Leaf κ)) → Decidable (as = bs)
  | [], [] => isTrue rfl
  | [], _ :: _ => isFalse (by simp)
  | _ :: _, [] => isFalse (by simp)
  | a :: as, b :: bs =>
    have := Leaf.decEq a b
    have := Leaf.decEqList as bs
    decidable_of_iff (a = b ∧ as = bs) (by simp)

end

instance : DecidableEq (Leaf κ) := Leaf.decEq

deriving instance DecidableEq for Field, Composite, Shape

end Equality

end Exemplar
