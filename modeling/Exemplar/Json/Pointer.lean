import Exemplar.Json

/-!
# Pointers into values

A pointer is empty, or a sequence of tokens that each follow a slash. In a token
`~1` stands for a slash and `~0` for a tilde. A token is a key of an object, or
the position of an item in decimal, without a sign or a leading zero.
-/

namespace Exemplar.Json.Pointer

def unescape : List Char → List Char
  | [] => []
  | '~' :: '1' :: rest => '/' :: unescape rest
  | '~' :: '0' :: rest => '~' :: unescape rest
  | c :: rest => c :: unescape rest

def tokens? (pointer : String) : Option (List String) :=
  match pointer.toList.splitOn '/' with
  | [[]] => some []
  | [] :: parts => some (parts.map fun part => String.ofList (unescape part))
  | _ => none

def position? (token : String) : Option Nat :=
  match token.toList with
  | ['0'] => some 0
  | [] => none
  | '0' :: _ => none
  | digits =>
    if digits.all Char.isDigit then
      some (digits.foldl (fun n d => 10 * n + (d.toNat - '0'.toNat)) 0)
    else none

def step (token : String) : Json → Option Json
  | .object members => members.lookup token
  | .array items => (position? token).bind fun position => items[position]?
  | _ => none

def follow : List String → Json → Option Json
  | [], value => some value
  | token :: rest, value => (step token value).bind (follow rest)

end Pointer

def find? (pointer : String) (value : Json) : Option Json :=
  (Pointer.tokens? pointer).bind fun tokens => Pointer.follow tokens value

end Exemplar.Json
