import Exemplar.Definition
import Exemplar.Json

/-!
# Definitions as JSON

Every part of a definition becomes an object that says its kind.
-/

namespace Exemplar

namespace Schema

/-- A value of a kind, with one more member. -/
def tagged (kind part : String) (value : Json) : Json :=
  .object [("kind", .string kind), (part, value)]

mutual

def type : TypeExpr String → Json
  | .never => tagged "primitive" "type" (.string "never")
  | .primitive kind => tagged "primitive" "type" (.string kind.text)
  | .named name => tagged "named" "name" (.string name)
  | .object members => tagged "object" "fields" (.array (memberList members))
  | .array element => tagged "array" "type" (type element)
  | .union alternatives => tagged "union" "types" (.array (types alternatives))

def types : List (TypeExpr String) → List Json
  | [] => []
  | first :: rest => type first :: types rest

def memberList : List (Member (TypeExpr String)) → List Json
  | [] => []
  | ⟨name, t, nullable⟩ :: rest =>
    .object [("name", .string name), ("type", type t), ("nullable", .boolean nullable)] ::
      memberList rest

end

def body : Body String → Json
  | .object members => tagged "object" "fields" (.array (memberList members))
  | .array element => tagged "array" "type" (type element)

def definition (t : Definition String) : Json :=
  .object [("name", .string t.name), ("type", body t.body), ("isRoot", .boolean t.isRoot)]

end Schema

def schema (types : List (Definition String)) : Json :=
  .array (types.map Schema.definition)

end Exemplar
