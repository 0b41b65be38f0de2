import Exemplar.Failure

/-!
# The store of shapes

A store holds composites in the order in which they were first saved, each
under its key. Keys address content exactly, so saving a shape again changes
nothing, and what a key leads to never changes.

`Saving` is a computation that may save shapes and may stop early. What was
saved before it stopped stays saved.
-/

namespace Exemplar

/-- The shapes saved so far, in order. -/
structure Store where
  shapes : List (Composite Key)

namespace Store

def empty : Store := ⟨[]⟩

instance : Inhabited Store := ⟨empty⟩

def size (store : Store) : Nat := store.shapes.length

/-- Whether a key is the address of a shape that was saved. -/
def contains (store : Store) (key : Key) : Bool :=
  key.isAddress && decide (key.shape ∈ store.shapes)

def find? (store : Store) (key : Key) : Option (Composite Key) :=
  if store.contains key then some key.shape else none

/-- Save a shape, at the end if it is new. -/
def insert (store : Store) (shape : Composite Key) : Store :=
  if shape ∈ store.shapes then store else ⟨store.shapes ++ [shape]⟩

/-- The shape under a key, or the fault of a reference that leads nowhere. -/
def resolve (store : Store) (key : Key) : Except Fault (Composite Key) :=
  match store.find? key with
  | some shape => .ok shape
  | none => .error (.missingShape key)

/-- A leaf with its reference followed one step. -/
def shapeOf (store : Store) : Leaf Key → Except Fault (Shape Key)
  | .primitive kind => .ok (.primitive kind)
  | .array elements => .ok (.array elements)
  | .object ref => (store.resolve ref).map Composite.toShape

theorem find?_eq_some_iff {store : Store} {key : Key} {found : Composite Key} :
    store.find? key = some found ↔ key = .address found ∧ found ∈ store.shapes := by
  simp only [find?, contains, Bool.and_eq_true, Key.isAddress_iff, decide_eq_true_eq,
    Option.ite_none_right_eq_some, Option.some.injEq]
  constructor
  · rintro ⟨⟨hk, hm⟩, rfl⟩
    exact ⟨hk.symm, hm⟩
  · rintro ⟨rfl, hm⟩
    exact ⟨⟨rfl, hm⟩, rfl⟩

theorem mem_insert {store : Store} {shape other : Composite Key} :
    other ∈ (store.insert shape).shapes ↔ other ∈ store.shapes ∨ other = shape := by
  unfold insert
  split <;> simp_all

/-- A shape just saved is found under its key. -/
theorem find?_insert_self (store : Store) (shape : Composite Key) :
    (store.insert shape).find? (.address shape) = some shape :=
  find?_eq_some_iff.2 ⟨rfl, mem_insert.2 (.inr rfl)⟩

/-- Saving changes nothing that was found before. -/
theorem find?_insert_of_find? {store : Store} {key : Key} {found : Composite Key}
    (shape : Composite Key) (h : store.find? key = some found) :
    (store.insert shape).find? key = some found :=
  have ⟨hk, hm⟩ := find?_eq_some_iff.1 h
  find?_eq_some_iff.2 ⟨hk, mem_insert.2 (.inl hm)⟩

end Store

/-- A computation over a store that may stop with `ε`. -/
abbrev Saving (ε : Type) := ExceptT ε (StateM Store)

namespace Saving

variable {ε : Type}

def save (shape : Composite Key) : Saving ε Key := do
  modify (·.insert shape)
  return .address shape

/-- Save an object shape and return the leaf that refers to it. -/
def saveObject (fields : List (Field Key)) : Saving ε (Leaf Key) :=
  return .object (← save (.object fields))

/-- Follow a leaf's reference one step in the store as it is now. -/
def shapeOf (leaf : Leaf Key) : Saving Fault (Shape Key) := do
  liftM ((← get).shapeOf leaf)

end Saving

end Exemplar
