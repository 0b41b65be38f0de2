import Exemplar.Kind

/-!
# JSON values

Objects keep their members in document order. A reader stores a repeated key
once, at its first position and with its last value, so the members of a value
that was read have distinct keys; the type itself does not ask for it.
-/

namespace Exemplar

/-- A JSON number: exact when it is an integer of at most 64 bits, else a double. -/
inductive Number where
  | integer (value : Int)
  | float (value : Float)

inductive Json where
  | null
  | boolean (value : Bool)
  | number (value : Number)
  | string (value : String)
  | array (items : List Json)
  | object (members : List (String × Json))

namespace Json

/-- Set a member: a known key keeps its place, a new one goes to the end. -/
def setMember {α : Type} (members : List (String × α)) (key : String) (value : α) :
    List (String × α) :=
  match members with
  | [] => [(key, value)]
  | (k, v) :: rest =>
    if k = key then (k, value) :: rest else (k, v) :: setMember rest key value

def member? (key : String) : Json → Option Json
  | .object members => members.lookup key
  | _ => none

mutual

/-- How many containers lie on the deepest path into a value. -/
def nesting : Json → Nat
  | .array items => nestingOfItems items + 1
  | .object members => nestingOfMembers members + 1
  | _ => 0

def nestingOfItems : List Json → Nat
  | [] => 0
  | item :: rest => max (nesting item) (nestingOfItems rest)

def nestingOfMembers : List (String × Json) → Nat
  | [] => 0
  | (_, value) :: rest => max (nesting value) (nestingOfMembers rest)

end

end Json

end Exemplar
