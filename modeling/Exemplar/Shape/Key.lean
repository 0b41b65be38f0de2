import Exemplar.Shape

/-!
# Keys

A key names a composite by its whole content: the references inside are keys
again, so a key is the collision-free address of a shape. Keys nest finitely
deep, so no shape can refer to itself, and functions recurse on keys.

A key also carries the depth of its shape. `address` makes keys with the right
depth out of composites, and two composites have the same address exactly when
they are equal. Depths are compared before contents, so keys of shapes of
unequal depth are told apart at once.
-/

namespace Exemplar

/-- The address of a composite: its depth, and the composite itself, down to its last part. -/
inductive Key where
  | of (depth : Nat) (shape : Composite Key)

namespace Key

/-- How many containers lie on the deepest path into the shape under a key. -/
def depth : Key → Nat
  | .of depth _ => depth

def shape : Key → Composite Key
  | .of _ shape => shape

mutual

def depthOfLeaf : Leaf Key → Nat
  | .primitive _ => 0
  | .array elements => depthOfLeaves elements + 1
  | .object ref => ref.depth

def depthOfLeaves : List (Leaf Key) → Nat
  | [] => 0
  | leaf :: rest => max (depthOfLeaf leaf) (depthOfLeaves rest)

end

def depthOfFields : List (Field Key) → Nat
  | [] => 0
  | field :: rest => max (depthOfLeaves field.types) (depthOfFields rest)

/-- The depth of a composite: one more than its deepest part. -/
def depthOfComposite : Composite Key → Nat
  | .array elements => depthOfLeaves elements + 1
  | .object fields => depthOfFields fields + 1

def address (shape : Composite Key) : Key := .of (depthOfComposite shape) shape

/-- Whether a key carries the depth of its shape, and so is the shape's address. -/
def isAddress (key : Key) : Bool := key.depth = depthOfComposite key.shape

@[simp] theorem shape_address (shape : Composite Key) : (address shape).shape = shape := rfl

@[simp] theorem isAddress_address (shape : Composite Key) : (address shape).isAddress = true :=
  decide_eq_true rfl

/-- Only equal composites have the same address. -/
theorem address_inj {s t : Composite Key} : address s = address t ↔ s = t :=
  ⟨fun h => congrArg shape h, congrArg address⟩

theorem isAddress_iff {key : Key} : key.isAddress = true ↔ address key.shape = key := by
  obtain ⟨depth, shape⟩ := key
  refine decide_eq_true_iff.trans ⟨fun h => congrArg (Key.of · shape) h.symm, fun h => ?_⟩
  exact (congrArg Key.depth h).symm

mutual

/-- Equality of keys is decidable. Keys that share their representation are seen equal at once. -/
def decEq : (a b : Key) → Decidable (a = b)
  | .of d s, .of e t =>
    withPtrEqDecEq (Key.of d s) (Key.of e t) fun _ =>
      if h : d = e then
        have := decEqComposite s t
        decidable_of_iff (s = t) (by simp [h])
      else isFalse (by simp [h])
decreasing_by
  clear h
  decreasing_tactic

def decEqComposite : (s t : Composite Key) → Decidable (s = t)
  | .array as, .array bs =>
    have := decEqLeaves as bs
    decidable_of_iff (as = bs) (by simp)
  | .object fs, .object gs =>
    have := decEqFields fs gs
    decidable_of_iff (fs = gs) (by simp)
  | .array _, .object _ => isFalse (by simp)
  | .object _, .array _ => isFalse (by simp)

def decEqFields : (fs gs : List (Field Key)) → Decidable (fs = gs)
  | [], [] => isTrue rfl
  | [], _ :: _ => isFalse (by simp)
  | _ :: _, [] => isFalse (by simp)
  | f :: fs, g :: gs =>
    have := decEqField f g
    have := decEqFields fs gs
    decidable_of_iff (f = g ∧ fs = gs) (by simp)

def decEqField : (f g : Field Key) → Decidable (f = g)
  | ⟨n, ts, x⟩, ⟨m, us, y⟩ =>
    have := decEqLeaves ts us
    decidable_of_iff (n = m ∧ ts = us ∧ x = y) (by simp)

def decEqLeaves : (as bs : List (Leaf Key)) → Decidable (as = bs)
  | [], [] => isTrue rfl
  | [], _ :: _ => isFalse (by simp)
  | _ :: _, [] => isFalse (by simp)
  | a :: as, b :: bs =>
    have := decEqLeaf a b
    have := decEqLeaves as bs
    decidable_of_iff (a = b ∧ as = bs) (by simp)

def decEqLeaf : (a b : Leaf Key) → Decidable (a = b)
  | .primitive k, .primitive l => decidable_of_iff (k = l) (by simp)
  | .array as, .array bs =>
    have := decEqLeaves as bs
    decidable_of_iff (as = bs) (by simp)
  | .object r, .object s =>
    have := decEq r s
    decidable_of_iff (r = s) (by simp)
  | .primitive _, .array _ => isFalse (by simp)
  | .primitive _, .object _ => isFalse (by simp)
  | .array _, .primitive _ => isFalse (by simp)
  | .array _, .object _ => isFalse (by simp)
  | .object _, .primitive _ => isFalse (by simp)
  | .object _, .array _ => isFalse (by simp)

end

instance : DecidableEq Key := decEq

end Key

end Exemplar
