import Exemplar.Filter.Value
import Exemplar.Json.Printer

/-!
# Filters

A filter puts out any number of values for a value, and may fail in between. A
failure is an output of its own: what comes after it still counts, until someone
looks for the values only.

A path is a base and steps into its outputs. What the steps depend on is taken
from the input of the whole path, for all steps before any of them is made, so a
path is made of alternatives, each with its places fixed. A step into a value of
the wrong kind fails unless it is marked as optional.

Where two filters are combined, every output of the first meets every output of
the second; if the second puts out nothing, no failure of the first shows.
-/

namespace Exemplar

mutual

inductive Filter where
  | identity
  | everything
  | constant (value : Filter.Value)
  | empty
  | fail (reason : Filter)
  | keys
  | length
  | negate (body : Filter)
  | list (body : Filter)
  | record (members : List (Filter × Filter))
  | select (condition : Filter)
  | optional (body : Filter)
  | pipe (first second : Filter)
  | both (first second : Filter)
  | path (base : Filter) (steps : List (Step × Bool))

/-- A step into the parts of a value. -/
inductive Step where
  | every
  | index (position : Filter)
  | slice (first last : Option Filter)

end

def Step.member (name : String) : Step := .index (.constant (.string name))

namespace Filter

/-- What is put out: values and failures, in order. -/
abbrev Outputs (α : Type) := List (Option α)

namespace Outputs

variable {α β γ : Type}

/-- The outputs for every value among outputs. Failures stay. -/
def bind (f : α → Outputs β) (outputs : Outputs α) : Outputs β :=
  outputs.flatMap fun
    | some value => f value
    | none => [none]

/-- Every output with every other. A combination with a failure fails. -/
def combine (f : α → β → Option γ) (first : Outputs α) (second : Outputs β) : Outputs γ :=
  first.flatMap fun x => second.map fun y => do f (← x) (← y)

/-- The values before the first failure. -/
def untilFailure (outputs : Outputs α) : Outputs α := outputs.takeWhile Option.isSome

def values (outputs : Outputs α) : Outputs α := outputs.filter Option.isSome

def toList? (outputs : Outputs α) : Option (List α) := outputs.mapM id

end Outputs

/-- A step whose places are fixed. -/
inductive Place where
  | every
  | index (position : Value)
  | slice (first last : Option Value)

def Place.parts (value : Value) : Place → Outputs Value
  | .every =>
    match value.parts? with
    | some parts => parts.map some
    | none => [none]
  | .index position => [value.part? position]
  | .slice first last => [value.slice? first last]

/-- Go from a value to places one after the other; those marked as optional may be missing. -/
def follow : List (Place × Bool) → Value → Outputs Value
  | [], value => [some value]
  | (place, isOptional) :: rest, value =>
    let parts := place.parts value
    Outputs.bind (follow rest) (if isOptional then Outputs.values parts else parts)

/-- An object with one more member, if the key is a string. -/
def withMember? (members : Value) (member : Value × Value) : Option Value :=
  match members, member with
  | .object members, (.string key, value) => some (.object (Json.setMember members key value))
  | _, _ => none

mutual

def run (input : Value) : Filter → Outputs Value
  | identity => [some input]
  | everything => input.everything.map some
  | constant value => [some value]
  | empty => []
  | fail reason => if (run input reason).isEmpty then [some input] else [none]
  | keys => [input.keys?]
  | length => [input.length?]
  | negate body => (run input body).map (·.bind Value.negate?)
  | list body => [(Outputs.toList? (run input body)).map .array]
  | record members => runMembers input members [some (.object [])]
  | select condition =>
    Outputs.bind (fun value => if value.holds then [some input] else []) (run input condition)
  | optional body => Outputs.untilFailure (run input body)
  | pipe first second => Outputs.bind (fun value => run value second) (run input first)
  | both first second => run input first ++ run input second
  | path base steps =>
    let ways := places input steps
    Outputs.bind (fun value => Outputs.bind (fun way => follow way value) ways) (run input base)

def runMembers (input : Value) : List (Filter × Filter) → Outputs Value → Outputs Value
  | [], objects => objects
  | (key, value) :: rest, objects =>
    let members := Outputs.combine (fun k v => some (k, v)) (run input key) (run input value)
    runMembers input rest (Outputs.combine withMember? objects members)

/-- The places that steps may mean, in every combination. -/
def places (input : Value) : List (Step × Bool) → Outputs (List (Place × Bool))
  | [] => [some []]
  | (step, isOptional) :: rest =>
    Outputs.bind (fun place => (places input rest).map (·.map ((place, isOptional) :: ·)))
      (placesOf input step)

/-- The places that a step may mean. -/
def placesOf (input : Value) : Step → Outputs Place
  | .every => [some .every]
  | .index position => (run input position).map (·.map .index)
  | .slice first last =>
    Outputs.combine (fun a b => some (.slice a b)) (bounds input first) (bounds input last)

def bounds (input : Value) : Option Filter → Outputs (Option Value)
  | none => [some none]
  | some bound => (run input bound).map (·.map some)

end

def outputTexts (filter : Filter) (input : Json) : List (Except String String) :=
  (run (.ofJson input) filter).map fun output =>
    match output.bind Value.toJson? with
    | some json => .ok json.compact
    | none => .error "no value"

end Filter

end Exemplar
