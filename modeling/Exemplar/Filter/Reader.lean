import Exemplar.Filter
import Exemplar.Filter.Lexeme

/-!
# Reading filters

A filter is a pipe of alternatives between commas, each a term with steps after
it. A term may begin with a step to a member, which is a step from the input. The
values in a record are pipes without commas, and a comma may follow the last of
them. A name that stands for no filter is refused.
-/

namespace Exemplar.Filter

/-- What is left of lexemes after some of them. -/
abbrev Remainder (input : List Lexeme) := { rest : List Lexeme // rest.length < input.length }

/-- The filter that a name stands for by itself. -/
def named? : String → Option Filter
  | "true" => some (.constant (.boolean true))
  | "false" => some (.constant (.boolean false))
  | "null" => some (.constant .null)
  | "empty" => some .empty
  | "error" => some (.fail .identity)
  | "keys" => some .keys
  | "length" => some .length
  | _ => none

/-- The filter that a name stands for with an argument. -/
def applied? (argument : Filter) : String → Option Filter
  | "map" => some (.list (.pipe (.path .identity [(.every, false)]) argument))
  | "select" => some (.select argument)
  | "error" => some (.fail argument)
  | _ => none

def member (name : String) : Filter := .path .identity [(.member name, false)]

def along (base : Filter) (steps : List (Step × Bool)) : Filter :=
  if steps.isEmpty then base else .path base steps

def key? : Lexeme → Option String
  | .word name | .text name => some name
  | _ => none

def skip? (text : String) : (input : List Lexeme) → Option (Remainder input)
  | .mark first :: rest => if first = text then some ⟨rest, Nat.lt_succ_self _⟩ else none
  | _ => none

/-- The name in a step to a member that comes first, and the lexemes after it. -/
def skipMember? : (input : List Lexeme) → Option (String × Remainder input)
  | .field name :: rest => some (name, ⟨rest, Nat.lt_succ_self _⟩)
  | .mark "." :: .text name :: rest =>
    some (name, ⟨rest, Nat.lt_succ_of_lt (Nat.lt_succ_self _)⟩)
  | _ => none

/-- Whether question marks come first, and the lexemes after them. -/
def skipOptional : (input : List Lexeme) →
    Bool × { rest : List Lexeme // rest.length ≤ input.length }
  | .mark "?" :: rest =>
    let (_, ⟨after, h⟩) := skipOptional rest
    (true, ⟨after, Nat.le_succ_of_le h⟩)
  | input => (false, ⟨input, Nat.le_refl _⟩)

mutual

/-- Read a pipe. Without commas, its parts are single terms. -/
def readPipe? (commas : Bool) (input : List Lexeme) : Option (Filter × Remainder input) :=
  match readAlternatives? commas input with
  | none => none
  | some (first, ⟨rest, h⟩) =>
    match skip? "|" rest with
    | none => some (first, ⟨rest, h⟩)
    | some ⟨next, hn⟩ =>
      match readPipe? commas next with
      | none => none
      | some (second, ⟨after, ha⟩) => some (.pipe first second, ⟨after, by omega⟩)
termination_by 5 * input.length + 3

def readAlternatives? (commas : Bool) (input : List Lexeme) :
    Option (Filter × Remainder input) :=
  match readTerm? input with
  | none => none
  | some (first, ⟨rest, h⟩) =>
    match if commas then skip? "," rest else none with
    | none => some (first, ⟨rest, h⟩)
    | some ⟨next, hn⟩ =>
      match readAlternatives? commas next with
      | none => none
      | some (second, ⟨after, ha⟩) => some (.both first second, ⟨after, by omega⟩)
termination_by 5 * input.length + 2

def readTerm? (input : List Lexeme) : Option (Filter × Remainder input) :=
  match skip? "-" input with
  | some ⟨rest, hr⟩ =>
    match readTerm? rest with
    | none => none
    | some (body, ⟨after, h⟩) => some (.negate body, ⟨after, by omega⟩)
  | none =>
    match skipMember? input with
    | some (name, ⟨rest, hr⟩) =>
      let (isOptional, ⟨next, hn⟩) := skipOptional rest
      match readSteps? next with
      | none => none
      | some (steps, ⟨after, h⟩) =>
        some (.path .identity ((.member name, isOptional) :: steps), ⟨after, by omega⟩)
    | none =>
      match readAtom? input with
      | none => none
      | some (atom, ⟨rest, hr⟩) =>
        let (isOptional, ⟨next, hn⟩) := skipOptional rest
        match readSteps? next with
        | none => none
        | some (steps, ⟨after, h⟩) =>
          some ((if isOptional then .optional atom else atom).along steps, ⟨after, by omega⟩)
termination_by 5 * input.length + 1

def readClosed? (close : String) (input : List Lexeme) : Option (Filter × Remainder input) :=
  match readPipe? true input with
  | none => none
  | some (filter, ⟨rest, h⟩) =>
    match skip? close rest with
    | none => none
    | some ⟨after, ha⟩ => some (filter, ⟨after, by omega⟩)
termination_by 5 * input.length + 4

/-- Read a term without the steps after it. -/
def readAtom? (input : List Lexeme) : Option (Filter × Remainder input) :=
  match input with
  | .mark "." :: rest => some (.identity, ⟨rest, Nat.lt_succ_self _⟩)
  | .mark ".." :: rest => some (.everything, ⟨rest, Nat.lt_succ_self _⟩)
  | .text value :: rest => some (.constant (.string value), ⟨rest, Nat.lt_succ_self _⟩)
  | .number value :: rest => some (.constant (.number value), ⟨rest, Nat.lt_succ_self _⟩)
  | .word name :: .mark "(" :: rest =>
    match readClosed? ")" rest with
    | none => none
    | some (argument, ⟨after, h⟩) =>
      (applied? argument name).map fun filter =>
        (filter, ⟨after, Nat.lt_succ_of_lt (Nat.lt_succ_of_lt h)⟩)
  | .word name :: rest =>
    (named? name).map fun filter => (filter, ⟨rest, Nat.lt_succ_self _⟩)
  | .mark "(" :: rest =>
    match readClosed? ")" rest with
    | none => none
    | some (filter, ⟨after, h⟩) => some (filter, ⟨after, Nat.lt_succ_of_lt h⟩)
  | .mark "[" :: rest =>
    match skip? "]" rest with
    | some ⟨after, h⟩ => some (.constant (.array []), ⟨after, Nat.lt_succ_of_lt h⟩)
    | none =>
      match readClosed? "]" rest with
      | none => none
      | some (body, ⟨after, h⟩) => some (.list body, ⟨after, Nat.lt_succ_of_lt h⟩)
  | .mark "\x7b" :: rest =>
    match skip? "\x7d" rest with
    | some ⟨after, h⟩ => some (.record [], ⟨after, Nat.lt_succ_of_lt h⟩)
    | none =>
      match readMembers? rest with
      | none => none
      | some (members, ⟨after, h⟩) => some (.record members, ⟨after, Nat.lt_succ_of_lt h⟩)
  | _ => none
termination_by 5 * input.length

def readSteps? (input : List Lexeme) :
    Option (List (Step × Bool) × { rest : List Lexeme // rest.length ≤ input.length }) :=
  match readStep? input with
  | none => none
  | some none => some ([], ⟨input, Nat.le_refl _⟩)
  | some (some (step, ⟨rest, hr⟩)) =>
    let (isOptional, ⟨next, hn⟩) := skipOptional rest
    match readSteps? next with
    | none => none
    | some (steps, ⟨after, h⟩) => some ((step, isOptional) :: steps, ⟨after, by omega⟩)
termination_by 5 * input.length + 1

def readStep? (input : List Lexeme) : Option (Option (Step × Remainder input)) :=
  match skipMember? input with
  | some (name, rest) => some (some (.member name, rest))
  | none =>
    match skip? "[" input with
    | none => some none
    | some ⟨rest, hr⟩ =>
      match readBracket? rest with
      | none => none
      | some (step, ⟨after, h⟩) => some (some (step, ⟨after, by omega⟩))
termination_by 5 * input.length

/-- Read a step in brackets, after the opening one. -/
def readBracket? (input : List Lexeme) : Option (Step × Remainder input) :=
  match skip? "]" input with
  | some rest => some (.every, rest)
  | none =>
    match skip? ":" input with
    | some ⟨rest, hr⟩ =>
      match readClosed? "]" rest with
      | none => none
      | some (last, ⟨after, h⟩) => some (.slice none (some last), ⟨after, by omega⟩)
    | none =>
      match readPipe? true input with
      | none => none
      | some (first, ⟨rest, hr⟩) =>
        match skip? "]" rest with
        | some ⟨after, h⟩ => some (.index first, ⟨after, by omega⟩)
        | none =>
          match skip? ":" rest with
          | none => none
          | some ⟨more, hm⟩ =>
            match skip? "]" more with
            | some ⟨after, h⟩ => some (.slice (some first) none, ⟨after, by omega⟩)
            | none =>
              match readClosed? "]" more with
              | none => none
              | some (last, ⟨after, h⟩) =>
                some (.slice (some first) (some last), ⟨after, by omega⟩)
termination_by 5 * input.length + 4

/-- Read the members of a record, of which there is at least one, and the closing brace. -/
def readMembers? (input : List Lexeme) : Option (List (Filter × Filter) × Remainder input) :=
  match readMember? input with
  | none => none
  | some (first, ⟨rest, hr⟩) =>
    match skip? "," rest with
    | some ⟨next, hn⟩ =>
      match skip? "\x7d" next with
      | some ⟨after, h⟩ => some ([first], ⟨after, by omega⟩)
      | none =>
        match readMembers? next with
        | none => none
        | some (others, ⟨after, h⟩) => some (first :: others, ⟨after, by omega⟩)
    | none =>
      match skip? "\x7d" rest with
      | none => none
      | some ⟨after, h⟩ => some ([first], ⟨after, by omega⟩)
termination_by 5 * input.length + 2

/-- Read a member of a record. A key alone stands for the input's member of that key. -/
def readMember? (input : List Lexeme) : Option ((Filter × Filter) × Remainder input) :=
  match input with
  | [] => none
  | .mark "(" :: rest =>
    match readClosed? ")" rest with
    | none => none
    | some (key, ⟨more, hm⟩) =>
      match readMemberValue? more with
      | some (some value, ⟨after, h⟩) =>
        some ((key, value), ⟨after, Nat.lt_succ_of_le (by omega)⟩)
      | _ => none
  | lexeme :: rest =>
    match key? lexeme with
    | none => none
    | some key =>
      match readMemberValue? rest with
      | none => none
      | some (value, ⟨after, h⟩) =>
        some ((.constant (.string key), value.getD (member key)),
          ⟨after, Nat.lt_succ_of_le h⟩)
termination_by 5 * input.length + 1

/-- Read a colon and the value of a member, if a colon comes first. -/
def readMemberValue? (input : List Lexeme) :
    Option (Option Filter × { rest : List Lexeme // rest.length ≤ input.length }) :=
  match skip? ":" input with
  | none => some (none, ⟨input, Nat.le_refl _⟩)
  | some ⟨rest, hr⟩ =>
    match readPipe? false rest with
    | none => none
    | some (value, ⟨after, h⟩) => some (some value, ⟨after, by omega⟩)
termination_by 5 * input.length

end

def ofText? (text : String) : Option Filter :=
  match lexemes? text.toList with
  | none => none
  | some input =>
    match readPipe? true input with
    | some (filter, ⟨[], _⟩) => some filter
    | _ => none

end Exemplar.Filter
