import Exemplar.Failure
import Exemplar.Json

/-!
# Nodes

A node is a JSON value with its literals forgotten: only their kinds remain.
Loading refuses a value whose containers nest deeper than a limit. A node may
also be built by hand, and then an object may repeat a member name.
-/

namespace Exemplar

/-- A JSON value without its literals. -/
inductive Node where
  | primitive (kind : Kind)
  | array (items : List Node)
  | object (members : List (String × Node))

namespace Node

def kind? : Node → Option Kind
  | .primitive kind => some kind
  | _ => none

mutual

/-- Forget literals, with room for so many more levels of containers. -/
def ofJsonWithin (room : Nat) : Json → Option Node
  | .null => some (.primitive .null)
  | .boolean _ => some (.primitive .boolean)
  | .number _ => some (.primitive .number)
  | .string _ => some (.primitive .string)
  | .array items =>
    match room with
    | 0 => none
    | room + 1 => (ofItemsWithin room items).map .array
  | .object members =>
    match room with
    | 0 => none
    | room + 1 => (ofMembersWithin room members).map .object

def ofItemsWithin (room : Nat) : List Json → Option (List Node)
  | [] => some []
  | item :: rest => do
    let node ← ofJsonWithin room item
    return node :: (← ofItemsWithin room rest)

def ofMembersWithin (room : Nat) : List (String × Json) → Option (List (String × Node))
  | [] => some []
  | (name, value) :: rest => do
    let node ← ofJsonWithin room value
    return (name, node) :: (← ofMembersWithin room rest)

end

/-- Forget the literals of a value whose containers nest at most `limit` deep. -/
def load (limit : Nat) (value : Json) : Except Failure Node :=
  match ofJsonWithin limit value with
  | some node => .ok node
  | none => .error (.tooDeep limit)

mutual

def nesting : Node → Nat
  | .primitive _ => 0
  | .array items => nestingOfItems items + 1
  | .object members => nestingOfMembers members + 1

def nestingOfItems : List Node → Nat
  | [] => 0
  | item :: rest => max (nesting item) (nestingOfItems rest)

def nestingOfMembers : List (String × Node) → Nat
  | [] => 0
  | (_, node) :: rest => max (nesting node) (nestingOfMembers rest)

end

end Node

end Exemplar
