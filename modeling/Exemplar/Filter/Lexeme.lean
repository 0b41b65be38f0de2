import Exemplar.Filter.Value
import Exemplar.Json.Scalar
import Exemplar.Text.WhiteSpace

/-!
# The lexemes of filters

Names, strings, numbers and marks, with white space and comments between them. A
name that follows a point directly is a field. Marks of operators that follow
each other are one mark, and so are two points.

A string may hold any character but a quote and a backslash, and an escape stands
for a character by itself. A number may begin with zeros and end in a point.
-/

namespace Exemplar.Filter

/-- The smallest part of a filter's text that has a meaning. -/
inductive Lexeme where
  | field (name : String)
  | word (name : String)
  | text (value : String)
  | number (value : Quantity)
  | mark (text : String)

def isNameStart (c : Char) : Bool := c.isAlpha || c = '_'

def isNamePart (c : Char) : Bool := c.isAlphanum || c = '_'

def isOperator (c : Char) : Bool := "|=!<>+-*/%".toList.contains c

/-- The characters that are marks by themselves. -/
def singleMarks : List Char := ['.', ',', ':', '?', '(', ')', '[', ']', '\x7b', '\x7d']

/-! ## Comments -/

/-- The text after a comment. A line that ends in an odd number of backslashes is continued. -/
def afterComment (isContinued : Bool) : List Char → List Char
  | [] => []
  | '\n' :: rest => if isContinued then afterComment false rest else rest
  | '\r' :: '\n' :: rest => if isContinued then afterComment false rest else rest
  | '\\' :: rest => afterComment (!isContinued) rest
  | _ :: rest => afterComment false rest

theorem length_afterComment_le (isContinued : Bool) (text : List Char) :
    (afterComment isContinued text).length ≤ text.length := by
  fun_induction afterComment isContinued text <;> grind

/-! ## Strings -/

/-- The character that four hexadecimal digits stand for, unless they are half of a pair. -/
def charOfHex? (digits : List Char) : Option Char := do
  let values ← digits.mapM Json.hexValue?
  let code := values.foldl (fun n d => 16 * n + d) 0
  if 0xD800 ≤ code && code ≤ 0xDFFF then none else some (Char.ofNat code)

/-- The characters of a string after its opening quote, and the text after its closing one. -/
def readText? : List Char → Option (List Char × List Char)
  | [] => none
  | '"' :: rest => some ([], rest)
  | '\\' :: 'u' :: a :: b :: c :: d :: rest => do
    let meant ← charOfHex? [a, b, c, d]
    let (characters, after) ← readText? rest
    return (meant :: characters, after)
  | '\\' :: c :: rest => do
    let meant ← Json.unescape? c
    let (characters, after) ← readText? rest
    return (meant :: characters, after)
  | '\\' :: [] => none
  | c :: rest => do
    let (characters, after) ← readText? rest
    return (c :: characters, after)

theorem length_of_readText?_eq_some {text characters after : List Char}
    (h : readText? text = some (characters, after)) : after.length < text.length := by
  fun_induction readText? text generalizing characters with
  | case1 => cases h
  | case2 rest => cases h; simp
  | case5 => cases h
  | _ =>
    simp only [bind, Option.bind_eq_some_iff, pure, Option.some.injEq, Prod.mk.injEq] at h
    grind

/-! ## Numbers -/

/-- The parts of a number as they are written. An exponent has its letter and its sign. -/
structure Numeral where
  whole : List Char
  fraction : Option (List Char)
  exponent : List Char

namespace Numeral

def sign (text : List Char) : List Char := (text.take 1).filter fun c => c = '+' || c = '-'

/-- The exponent at the beginning of a text: empty if there is none, nothing if it has no digits. -/
def exponent? : List Char → Option (List Char)
  | [] => some []
  | letter :: rest =>
    if letter = 'e' || letter = 'E' then
      let digits := (rest.drop (sign rest).length).takeWhile Char.isDigit
      if digits.isEmpty then none else some (letter :: sign rest ++ digits)
    else some []

def fraction? : List Char → Option (List Char)
  | '.' :: rest => some (rest.takeWhile Char.isDigit)
  | _ => none

def decimalText (numeral : Numeral) : List Char :=
  numeral.whole ++ (numeral.fraction.map ('.' :: ·)).getD []

def text (numeral : Numeral) : List Char := numeral.decimalText ++ numeral.exponent

def ofText? (text : List Char) : Option Numeral := do
  let whole := text.takeWhile Char.isDigit
  let numeral : Numeral := ⟨whole, fraction? (text.drop whole.length), []⟩
  let exponent ← exponent? (text.drop numeral.decimalText.length)
  return { numeral with exponent }

def read? (text : List Char) : Option Number :=
  match Json.readNumber ⟨text, ⟨1, 0⟩⟩ with
  | .ok (number, after) => if after.rest.isEmpty then some number else none
  | .error _ => none

/-- The value of a number that is written with a digit on each side of a point. -/
def double (numeral : Numeral) : Float :=
  let whole := '0' :: numeral.whole.dropWhile (· = '0')
  let whole := if whole.length = 1 then whole else whole.drop 1
  let fraction := (numeral.fraction.getD []) ++ ['0']
  match read? (whole ++ '.' :: fraction ++ numeral.exponent) with
  | some (.float x) => x
  | _ => 1 / 0

/-- The position that a number without fraction and exponent stands for. -/
def position? (numeral : Numeral) : Option Int64 :=
  let value := numeral.whole.foldl (fun n d => 10 * n + (d.toNat - '0'.toNat)) 0
  if numeral.fraction.isNone && numeral.exponent.isEmpty && value ≤ Int64.maxValue.toInt.toNat then
    some (.ofNat value)
  else none

def quantity (numeral : Numeral) : Quantity :=
  match numeral.position? with
  | some position => .position position
  | none =>
    match read? numeral.text with
    | some number => .measure number
    | none => .unwritten numeral.double

end Numeral

/-! ## Lexemes -/

/-- The mark at the beginning of a text: its first character, and what goes on with it. -/
def mark? : List Char → Option (List Char)
  | [] => none
  | c :: rest =>
    if isOperator c then some (c :: rest.takeWhile isOperator)
    else if c = '.' && rest.head? = some '.' then some ['.', '.']
    else if singleMarks.contains c then some [c]
    else none

/-- The lexemes of a text, unless it holds something else. -/
def lexemes? : List Char → Option (List Lexeme)
  | [] => some []
  | c :: rest =>
    if Text.isWhiteSpace c then lexemes? rest
    else if c = '#' then
      have := length_afterComment_le false rest
      lexemes? (afterComment false rest)
    else if c = '"' then
      match h : readText? rest with
      | some (characters, after) =>
        have := length_of_readText?_eq_some h
        (lexemes? after).map (.text (String.ofList characters) :: ·)
      | none => none
    else if c.isDigit then
      match Numeral.ofText? (c :: rest) with
      | some numeral =>
        (lexemes? (rest.drop (numeral.text.length - 1))).map (.number numeral.quantity :: ·)
      | none => none
    else if isNameStart c then
      have := (List.dropWhile_sublist isNamePart (l := rest)).length_le
      (lexemes? (rest.dropWhile isNamePart)).map
        (.word (String.ofList (c :: rest.takeWhile isNamePart)) :: ·)
    else if c = '.' && rest.head?.any isNameStart then
      have := (List.dropWhile_sublist isNamePart (l := rest)).length_le
      (lexemes? (rest.dropWhile isNamePart)).map
        (.field (String.ofList (rest.takeWhile isNamePart)) :: ·)
    else
      match mark? (c :: rest) with
      | some mark =>
        (lexemes? (rest.drop (mark.length - 1))).map (.mark (String.ofList mark) :: ·)
      | none => none
termination_by text => text.length
decreasing_by all_goals simp only [List.length_cons, List.length_drop] at *; omega

end Exemplar.Filter
