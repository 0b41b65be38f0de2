/-!
# Reading positions

A cursor is the text left to read and the place where it begins. Lines count
from one. A column counts the bytes of the UTF-8 form since the last line break;
the line break itself is column zero of the next line.

A syntax error names its cause and a place: either where the cursor stands, or
one byte further, when the byte at the cursor is the offending one.
-/

namespace Exemplar.Json

inductive SyntaxCause where
  | eofList
  | eofObject
  | eofString
  | eofValue
  | expectedColon
  | expectedListSeparator
  | expectedObjectSeparator
  | expectedIdent
  | expectedValue
  | invalidEscape
  | invalidNumber
  | numberOutOfRange
  | controlCharacter
  | keyNotString
  | loneSurrogate
  | trailingComma
  | trailingCharacters
  | unfinishedSurrogate
  | nestingLimit
deriving DecidableEq, Repr

def SyntaxCause.message : SyntaxCause → String
  | .eofList => "EOF while parsing a list"
  | .eofObject => "EOF while parsing an object"
  | .eofString => "EOF while parsing a string"
  | .eofValue => "EOF while parsing a value"
  | .expectedColon => "expected `:`"
  | .expectedListSeparator => "expected `,` or `]`"
  | .expectedObjectSeparator => "expected `,` or `\x7d`"
  | .expectedIdent => "expected ident"
  | .expectedValue => "expected value"
  | .invalidEscape => "invalid escape"
  | .invalidNumber => "invalid number"
  | .numberOutOfRange => "number out of range"
  | .controlCharacter => "control character (\\u0000-\\u001F) found while parsing a string"
  | .keyNotString => "key must be a string"
  | .loneSurrogate => "lone leading surrogate in hex escape"
  | .trailingComma => "trailing comma"
  | .trailingCharacters => "trailing characters"
  | .unfinishedSurrogate => "unexpected end of hex escape"
  | .nestingLimit => "recursion limit exceeded"

structure Place where
  line : Nat
  column : Nat
deriving DecidableEq, Repr

def Place.text (place : Place) : String :=
  "line " ++ toString place.line ++ " column " ++ toString place.column

/-- The place one byte after another, where the byte is the first of a character. -/
def Place.afterByte (place : Place) (c : Char) : Place :=
  if c = '\n' then ⟨place.line + 1, 0⟩ else ⟨place.line, place.column + 1⟩

def Place.afterChar (place : Place) (c : Char) : Place :=
  if c = '\n' then ⟨place.line + 1, 0⟩ else ⟨place.line, place.column + c.utf8Size⟩

/-- The place so many bytes further into a text, at most at its end. -/
def Place.afterBytes (place : Place) : (bytes : Nat) → List Char → Place
  | 0, _ => place
  | _, [] => place
  | bytes + 1, c :: rest =>
    if c.utf8Size ≤ bytes + 1 then
      (place.afterChar c).afterBytes (bytes + 1 - c.utf8Size) rest
    else ⟨place.line, place.column + (bytes + 1)⟩
termination_by _ text => text.length

structure SyntaxError where
  cause : SyntaxCause
  place : Place
deriving DecidableEq, Repr

def SyntaxError.message (error : SyntaxError) : String :=
  error.cause.message ++ " at " ++ error.place.text

/-- The text left to read, and where it begins. -/
structure Cursor where
  rest : List Char
  place : Place

namespace Cursor

def start (text : String) : Cursor := ⟨text.toList, ⟨1, 0⟩⟩

def peek? (c : Cursor) : Option Char := c.rest.head?

def next (c : Cursor) : Cursor :=
  match c.rest with
  | [] => c
  | char :: rest => ⟨rest, c.place.afterChar char⟩

def errorHere (c : Cursor) (cause : SyntaxCause) : SyntaxError := ⟨cause, c.place⟩

/-- An error at the byte that follows, or at the end of the text. -/
def errorAtNext (c : Cursor) (cause : SyntaxCause) : SyntaxError :=
  match c.rest with
  | [] => ⟨cause, c.place⟩
  | char :: _ => ⟨cause, c.place.afterByte char⟩

/-- Spaces, tabs and line breaks may stand between tokens. -/
def isBlank (c : Char) : Bool := c = ' ' || c = '\n' || c = '\t' || c = '\r'

/-- The cursor after the blanks of a text that begins at a place. -/
def skipBlanksFrom (place : Place) : List Char → Cursor
  | [] => ⟨[], place⟩
  | char :: rest =>
    if isBlank char then skipBlanksFrom (place.afterChar char) rest else ⟨char :: rest, place⟩

def skipBlanks (c : Cursor) : Cursor := skipBlanksFrom c.place c.rest

def left (c : Cursor) : Nat := c.rest.length

theorem left_skipBlanksFrom (place : Place) (text : List Char) :
    (skipBlanksFrom place text).left ≤ text.length := by
  induction text generalizing place with
  | nil => simp [skipBlanksFrom, left]
  | cons char rest ih =>
    rw [skipBlanksFrom]
    split
    · exact Nat.le_succ_of_le (ih _)
    · simp [left]

theorem left_skipBlanks (c : Cursor) : c.skipBlanks.left ≤ c.left :=
  left_skipBlanksFrom c.place c.rest

theorem left_next {c : Cursor} {char : Char} (h : c.peek? = some char) :
    c.next.left < c.left := by
  unfold next peek? left at *
  cases hc : c.rest <;> simp_all

end Cursor

/-- A cursor with less to read than another. -/
abbrev Cursor.After (c : Cursor) := { d : Cursor // d.left < c.left }

/-- What a reader that consumes something returns. -/
abbrev Reading (α : Type) (c : Cursor) := Except SyntaxError (α × c.After)

end Exemplar.Json
