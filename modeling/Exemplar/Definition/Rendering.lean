import Exemplar.Definition
import Exemplar.Json.Quoted

/-!
# Writing definitions as text

Each definition is one block `type Name = ...;`, and blocks are separated by an
empty line. A member name that is not an identifier is written as a JSON string.
-/

namespace Exemplar

namespace Render

/-- Letters, the underscore and the dollar sign begin an identifier. -/
def isIdentifierStart (c : Char) : Bool :=
  c.isAlpha || c = '_' || c = '$'

def isIdentifierPart (c : Char) : Bool :=
  isIdentifierStart c || c.isDigit

/-- Whether a name can be written without quotes. -/
def isIdentifier (name : String) : Bool :=
  match name.toList with
  | [] => false
  | first :: rest => isIdentifierStart first && rest.all isIdentifierPart

/-- A member name, quoted where it has to be. -/
def memberName (name : String) : String :=
  if isIdentifier name then name else Json.quote name

def member (name : String) (nullable : Bool) (type : String) : String :=
  memberName name ++ (if nullable then "?" else "") ++ ": " ++ type

def array (element : String) : String :=
  "Array<" ++ element ++ ">"

mutual

def type : TypeExpr String → String
  | .never => "never"
  | .primitive kind => kind.text
  | .named name => name
  | .array element => array (type element)
  | .union alternatives => " | ".intercalate (types alternatives)
  | .object [] => "\x7b\x7d"
  | .object (first :: rest) => "\x7b " ++ String.join (inlineMembers (first :: rest)) ++ "\x7d"

def types : List (TypeExpr String) → List String
  | [] => []
  | first :: rest => type first :: types rest

def inlineMembers : List (Member (TypeExpr String)) → List String
  | [] => []
  | ⟨name, t, nullable⟩ :: rest => (member name nullable (type t) ++ "; ") :: inlineMembers rest

end

def line (m : Member (TypeExpr String)) : String :=
  "  " ++ member m.name m.nullable (type m.type) ++ ";\n"

def body : Body String → String
  | .object members => "\x7b\n" ++ String.join (members.map line) ++ "\x7d"
  | .array element => array (type element)

def definition (t : Definition String) : String :=
  "type " ++ t.name ++ " = " ++ body t.body ++ ";\n"

end Render

def render (types : List (Definition String)) : String :=
  "\n".intercalate (types.map Render.definition)

end Exemplar
