import Exemplar.Json

/-!
# Values in filters

A filter works on the values of JSON, but tells numbers apart by what they are
good for. A signed integer of 64 bits can be a position. Any other number can
only be measured, and measuring it gives a double. A literal in a filter may
moreover be written as JSON does not write numbers; it can be measured, too, but
it can not be put out.

A value that came from JSON is put out as it was.
-/

namespace Exemplar.Filter

inductive Quantity where
  | position (value : Int64)
  | measure (value : Number)
  | unwritten (value : Float)

namespace Quantity

def ofNumber : Number → Quantity
  | .integer n =>
    if Int64.minValue.toInt ≤ n && n ≤ Int64.maxValue.toInt then .position (.ofInt n)
    else .measure (.integer n)
  | .float x => .measure (.float x)

/-- The JSON value that a quantity is put out as. What is not finite becomes `null`. -/
def toJson? : Quantity → Option Json
  | .position n => some (.number (.integer n.toInt))
  | .measure (.integer n) => some (.number (.integer n))
  | .measure (.float x) => some (if x.isFinite then .number (.float x) else .null)
  | .unwritten _ => none

/-- Change a quantity, as a position if it can be one, else as a double. -/
def change (onPosition : Int64 → Int64) (onDouble : Float → Float) : Quantity → Quantity
  | .position n => .position (onPosition n)
  | .measure (.integer n) => .measure (.float (onDouble (.ofInt n)))
  | .measure (.float x) => .measure (.float (onDouble x))
  | .unwritten x => .measure (.float (onDouble x))

/-- The quantity on the other side of zero. The least position stays where it is. -/
def negate (quantity : Quantity) : Quantity := quantity.change (- ·) (- ·)

/-- How far a quantity is from zero. -/
def size (quantity : Quantity) : Quantity := quantity.change Int64.abs Float.abs

end Quantity

inductive Value where
  | null
  | boolean (value : Bool)
  | number (value : Quantity)
  | string (value : String)
  | array (items : List Value)
  | object (members : List (String × Value))

namespace Value

def count (n : Nat) : Value := .number (.position (.ofNat n))

mutual

def ofJson : Json → Value
  | .null => .null
  | .boolean value => .boolean value
  | .number value => .number (.ofNumber value)
  | .string value => .string value
  | .array items => .array (ofItems items)
  | .object members => .object (ofMembers members)

def ofItems : List Json → List Value
  | [] => []
  | item :: rest => ofJson item :: ofItems rest

def ofMembers : List (String × Json) → List (String × Value)
  | [] => []
  | (key, value) :: rest => (key, ofJson value) :: ofMembers rest

end

mutual

/-- The JSON value that a value is put out as, if there is one. -/
def toJson? : Value → Option Json
  | .null => some .null
  | .boolean value => some (.boolean value)
  | .number value => value.toJson?
  | .string value => some (.string value)
  | .array items => (itemsToJson? items).map .array
  | .object members => (membersToJson? members).map .object

def itemsToJson? : List Value → Option (List Json)
  | [] => some []
  | item :: rest => do
    let json ← toJson? item
    return json :: (← itemsToJson? rest)

def membersToJson? : List (String × Value) → Option (List (String × Json))
  | [] => some []
  | (key, value) :: rest => do
    let json ← toJson? value
    return (key, json) :: (← membersToJson? rest)

end

def holds : Value → Bool
  | .null => false
  | .boolean value => value
  | _ => true

/-- The place that a position means among so many, counted from the end if it is negative. -/
def place? (position : Int64) (length : Nat) : Option Nat :=
  if 0 ≤ position then some position.toInt.toNat
  else
    let back := (-position.toInt).toNat
    if back ≤ length then some (length - back) else none

/-- The part of a container under a key or at a position; `null` where there is none. -/
def part? : Value → Value → Option Value
  | .object members, .string key => some ((members.lookup key).getD .null)
  | .array items, .number (.position n) =>
    some (((place? n items.length).bind fun i => items[i]?).getD .null)
  | _, _ => none

def parts? : Value → Option (List Value)
  | .array items => some items
  | .object members => some (members.map (·.2))
  | _ => none

/-- The place that a bound means in a sequence, or a default where there is no bound. -/
def bound? (length default : Nat) : Option Value → Option Nat
  | none => some default
  | some (.number (.position n)) => some (min ((place? n length).getD 0) length)
  | some _ => none

def between? {α : Type} (first last : Option Value) (items : List α) : Option (List α) := do
  let start ← bound? items.length 0 first
  let stop ← bound? items.length items.length last
  return (items.take stop).drop start

def slice? (first last : Option Value) : Value → Option Value
  | .array items => (between? first last items).map .array
  | .string text => (between? first last text.toList).map fun cs => .string (String.ofList cs)
  | _ => none

def keys? : Value → Option Value
  | .object members =>
    let sorted := (members.map (·.1)).mergeSort fun a b => decide (a ≤ b)
    some (.array (sorted.map .string))
  | .array items => some (.array ((List.range items.length).map count))
  | _ => none

/-- The length of a value: of a number, how far it is from zero. -/
def length? : Value → Option Value
  | .null => some (count 0)
  | .boolean _ => none
  | .number value => some (.number value.size)
  | .string text => some (count text.length)
  | .array items => some (count items.length)
  | .object members => some (count members.length)

def negate? : Value → Option Value
  | .number value => some (.number value.negate)
  | _ => none

mutual

/-- A value and all its parts, wholes before their parts. -/
def everything : Value → List Value
  | .array items => .array items :: everythingInItems items
  | .object members => .object members :: everythingInMembers members
  | value => [value]

def everythingInItems : List Value → List Value
  | [] => []
  | item :: rest => everything item ++ everythingInItems rest

def everythingInMembers : List (String × Value) → List Value
  | [] => []
  | (_, value) :: rest => everything value ++ everythingInMembers rest

end

end Value

end Exemplar.Filter
