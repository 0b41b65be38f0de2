import Exemplar.Json.Reader
import Exemplar.Options
import Exemplar.Options.Issue

/-!
# Reading options

Options are an object with any of three members, each at most once, or an array
of up to three values in the order of the members. What is left out keeps its
default. The text after the value is not looked at.
-/

namespace Exemplar

open Json (Cursor SyntaxError)

structure OptionsDraft where
  rootName : Option String := none
  placeholderName : Option String := none
  maxDepth : Option Nat := none

/-- The options of a draft: defaults for what is missing. -/
def OptionsDraft.toOptions (draft : OptionsDraft) : Options :=
  let default : Options := {}
  { rootName := draft.rootName.getD default.rootName
    placeholderName := draft.placeholderName.getD default.placeholderName
    maxDepth := draft.maxDepth.getD default.maxDepth }

inductive OptionsField where
  | rootName
  | placeholderName
  | maxDepth
deriving DecidableEq, Repr

namespace OptionsField

def key : OptionsField → String
  | .rootName => "rootName"
  | .placeholderName => "placeholderName"
  | .maxDepth => "maxDepth"

def ofKey? (key : String) : Option OptionsField :=
  [rootName, placeholderName, maxDepth].find? (·.key = key)

def isSet (draft : OptionsDraft) : OptionsField → Bool
  | .rootName => draft.rootName.isSome
  | .placeholderName => draft.placeholderName.isSome
  | .maxDepth => draft.maxDepth.isSome

end OptionsField

namespace OptionsReader

def syntaxIssue (path : OptionsPath) (error : SyntaxError) : OptionsIssue :=
  ⟨path, .syntaxError error.cause, error.place⟩

/-- The issue of a value of the wrong type. A container is not read, other values are. -/
def wrongType (path : OptionsPath) (expected : Expected) (c : Cursor) : OptionsIssue :=
  match c.peek? with
  | some '[' => ⟨path, .invalidType (.array []) expected, c.place⟩
  | some '\x7b' => ⟨path, .invalidType (.object []) expected, c.place⟩
  | _ =>
    match Json.readScalar c with
    | .ok (found, d) => ⟨path, .invalidType found expected, d.place⟩
    | .error error => syntaxIssue path error

def readName (path : OptionsPath) (c : Cursor) : Except OptionsIssue (String × Cursor) :=
  match c.peek? with
  | none => .error (syntaxIssue path (c.errorAtNext .eofValue))
  | some '"' => (Json.readString c.next).mapError (syntaxIssue path)
  | some _ => .error (wrongType path .string c)

def readCount (path : OptionsPath) (c : Cursor) : Except OptionsIssue (Nat × Cursor) :=
  match c.peek? with
  | none => .error (syntaxIssue path (c.errorAtNext .eofValue))
  | some char =>
    if char = '-' || char.isDigit then
      match Json.readNumber c with
      | .error error => .error (syntaxIssue path error)
      | .ok (.integer value, d) =>
        if value < 0 then .error ⟨path, .negative value, d.place⟩ else .ok (value.toNat, d)
      | .ok (.float value, d) =>
        .error ⟨path, .invalidType (.number (.float value)) .count, d.place⟩
    else .error (wrongType path .count c)

def readField (draft : OptionsDraft) (path : OptionsPath) (field : OptionsField) (c : Cursor) :
    Except OptionsIssue (OptionsDraft × Cursor) :=
  match field with
  | .rootName =>
    (readName path c).map fun (name, d) => ({ draft with rootName := some name }, d)
  | .placeholderName =>
    (readName path c).map fun (name, d) => ({ draft with placeholderName := some name }, d)
  | .maxDepth =>
    (readCount path c).map fun (count, d) => ({ draft with maxDepth := some count }, d)

/-- Where reading stops after a key that is refused: blanks and a closing brace are read. -/
def placeAfterKey (c : Cursor) : Json.Place :=
  let s := c.skipBlanks
  if s.peek? = some '\x7d' then s.next.place else s.place

theorem left_readName {path : OptionsPath} {c d : Cursor} {name : String}
    (h : readName path c = .ok (name, d)) : d.left ≤ c.left := by
  unfold readName at h
  split at h
  · cases h
  · cases hs : Json.readString c.next <;> rw [hs] at h <;> cases h
    exact Nat.le_trans (Nat.le_of_lt (Json.left_readString hs)) (Json.left_next_le c)
  · cases h

theorem left_readCount {path : OptionsPath} {c d : Cursor} {count : Nat}
    (h : readCount path c = .ok (count, d)) : d.left ≤ c.left := by
  unfold readCount at h
  split at h
  · cases h
  · split at h
    · split at h
      · cases h
      · rename_i hn
        split at h <;> cases h
        exact Nat.le_of_lt (Json.left_readNumber hn)
      · cases h
    · cases h

theorem left_readField {draft next : OptionsDraft} {path : OptionsPath} {field : OptionsField}
    {c d : Cursor} (h : readField draft path field c = .ok (next, d)) : d.left ≤ c.left := by
  unfold readField at h
  split at h
  · obtain ⟨⟨_, _⟩, hr, h⟩ := Json.map_eq_ok.1 h
    cases h
    exact left_readName hr
  · obtain ⟨⟨_, _⟩, hr, h⟩ := Json.map_eq_ok.1 h
    cases h
    exact left_readName hr
  · obtain ⟨⟨_, _⟩, hr, h⟩ := Json.map_eq_ok.1 h
    cases h
    exact left_readCount hr

def readMembers (draft : OptionsDraft) (first : Bool) (c : Cursor) :
    Except OptionsIssue OptionsDraft :=
  match hk : Json.nextKey first c with
  | .error error => .error (syntaxIssue .unknown error)
  | .ok (.done _) => .ok draft
  | .ok (.item s) =>
    match hs : Json.readString s with
    | .error error => .error (syntaxIssue .unknown error)
    | .ok (key, d) =>
      match OptionsField.ofKey? key with
      | none => .error ⟨.member key, .unknownField key, placeAfterKey d⟩
      | some field =>
        if field.isSet draft then .error ⟨.root, .duplicateField key, placeAfterKey d⟩
        else
          match hc : Json.readColon d with
          | .error error => .error (syntaxIssue .root error)
          | .ok e =>
            match hf : readField draft (.member key) field e.skipBlanks with
            | .error issue => .error issue
            | .ok (next, f) =>
              have := Json.left_nextKey_item hk
              have := Json.left_readString hs
              have := Json.left_readColon hc
              have := Cursor.left_skipBlanks e
              have := left_readField hf
              readMembers next false f
termination_by c.left

/-- Read the end of an array that is full. -/
def readEnd (c : Cursor) : Except OptionsIssue Unit :=
  let s := c.skipBlanks
  match s.peek? with
  | none => .error (syntaxIssue .root (s.errorAtNext .eofList))
  | some ']' => .ok ()
  | some ',' =>
    let t := s.next.skipBlanks
    if t.peek? = some ']' then .error (syntaxIssue .root (t.errorAtNext .trailingComma))
    else .error (syntaxIssue .root (t.errorAtNext .trailingCharacters))
  | some _ => .error (syntaxIssue .root (s.errorAtNext .trailingCharacters))

/-- Read the values of an array for members in order, and its closing bracket. -/
def readItems (draft : OptionsDraft) (position : Nat) (c : Cursor) :
    List OptionsField → Except OptionsIssue OptionsDraft
  | [] => (readEnd c).map fun _ => draft
  | field :: rest =>
    match Json.nextItem (position = 0) c with
    | .error error => .error (syntaxIssue .root error)
    | .ok (.done _) => .ok draft
    | .ok (.item s) =>
      match readField draft (.index position) field s with
      | .error issue => .error issue
      | .ok (next, d) => readItems next (position + 1) d rest

def read (text : String) : Except OptionsIssue OptionsDraft :=
  let c := (Cursor.start text).skipBlanks
  match c.peek? with
  | none => .error (syntaxIssue .root (c.errorAtNext .eofValue))
  | some '[' => readItems {} 0 c.next [.rootName, .placeholderName, .maxDepth]
  | some '\x7b' => readMembers {} true c.next
  | some _ => .error (wrongType .root .options c)

end OptionsReader

def Options.ofText (text : String) : Except OptionsIssue Options :=
  (OptionsReader.read text).map OptionsDraft.toOptions

end Exemplar
