/-!
# Patterns for names

A pattern is written with `?` for any character, `*` for any sequence of
characters, and `[…]` for any character of a set, or with `[!…]` of none in it.
A set lists characters and ranges such as `a-z`. The whole component `**` stands
for any sequence of directories.
-/

namespace Exemplar.Glob

structure Range where
  first : Char
  last : Char
deriving DecidableEq, Repr

/-- A part of a pattern. -/
inductive Token where
  | char (c : Char)
  | anyChar
  | anySequence
  | anyDepth
  | within (ranges : List Range)
  | except (ranges : List Range)
deriving DecidableEq, Repr

inductive Cause where
  | wildcards
  | recursiveWildcards
  | range
deriving DecidableEq, Repr

def Cause.message : Cause → String
  | .wildcards => "wildcards are either regular `*` or recursive `**`"
  | .recursiveWildcards => "recursive wildcards must form a single path component"
  | .range => "invalid range pattern"

/-- A cause, and a position in characters. -/
structure PatternError where
  position : Nat
  cause : Cause
deriving DecidableEq, Repr

def PatternError.message (error : PatternError) : String :=
  "Pattern syntax error near position " ++ toString error.position ++ ": " ++ error.cause.message

/-- The ranges that a set lists. A hyphen at either end stands for itself. -/
def ranges : List Char → List Range
  | first :: '-' :: last :: rest => ⟨first, last⟩ :: ranges rest
  | c :: rest => ⟨c, c⟩ :: ranges rest
  | [] => []

def hold (ranges : List Range) (c : Char) : Bool :=
  ranges.any fun range => decide (range.first ≤ c) && decide (c ≤ range.last)

/-- The characters before a closing bracket, and those after it. -/
def closing? : List Char → Option (List Char × List Char)
  | [] => none
  | c :: rest =>
    if c = ']' then some ([], rest)
    else (closing? rest).map fun (inside, after) => (c :: inside, after)

theorem length_of_closing?_eq_some {text inside after : List Char}
    (h : closing? text = some (inside, after)) : inside.length + after.length + 1 = text.length := by
  induction text generalizing inside with
  | nil => simp [closing?] at h
  | cons c rest ih =>
    unfold closing? at h
    split at h
    · cases h; simp
    · obtain ⟨⟨i, a⟩, hr, he⟩ := Option.map_eq_some_iff.1 h
      cases he
      have := ih hr
      simp only [List.length_cons]
      omega

/-- The parts of a pattern that goes on at a position, after a character if there is one. -/
def tokensFrom (position : Nat) (previous : Option Char) :
    List Char → Except PatternError (List Token)
  | [] => .ok []
  | '?' :: rest => (tokensFrom (position + 1) (some '?') rest).map (.anyChar :: ·)
  | '*' :: '*' :: '*' :: _ => .error ⟨position + 2, .wildcards⟩
  | '*' :: '*' :: rest =>
    if previous = none || previous = some '/' then
      match rest with
      | [] => .ok [.anyDepth]
      | '/' :: below => (tokensFrom (position + 3) (some '/') below).map (.anyDepth :: ·)
      | _ => .error ⟨position + 2, .recursiveWildcards⟩
    else .error ⟨position - 1, .recursiveWildcards⟩
  | '*' :: rest => (tokensFrom (position + 1) (some '*') rest).map (.anySequence :: ·)
  | '[' :: '!' :: c :: rest =>
    match _h : closing? rest with
    | some (inside, after) =>
      (tokensFrom (position + inside.length + 4) (some ']') after).map
        (.except (ranges (c :: inside)) :: ·)
    | none => .error ⟨position, .range⟩
  | '[' :: c :: rest =>
    if c = '!' then .error ⟨position, .range⟩
    else
      match _h : closing? rest with
      | some (inside, after) =>
        (tokensFrom (position + inside.length + 3) (some ']') after).map
          (.within (ranges (c :: inside)) :: ·)
      | none => .error ⟨position, .range⟩
  | '[' :: [] => .error ⟨position, .range⟩
  | c :: rest => (tokensFrom (position + 1) (some c) rest).map (.char c :: ·)
termination_by text => text.length
decreasing_by
  all_goals simp only [List.length_cons]
  all_goals try have := length_of_closing?_eq_some _h
  all_goals omega

def tokens (pattern : String) : Except PatternError (List Token) :=
  tokensFrom 0 none pattern.toList

/-- Whether a name is of the form that parts ask for. -/
def accepts : List Token → List Char → Bool
  | [], name => name.isEmpty
  | .anySequence :: rest, [] => accepts rest []
  | .anySequence :: rest, c :: name =>
    accepts rest (c :: name) || accepts (.anySequence :: rest) name
  | .anyDepth :: rest, [] => accepts rest []
  | .anyDepth :: rest, c :: name => accepts rest (c :: name) || accepts (.anyDepth :: rest) name
  | _ :: _, [] => false
  | .char d :: rest, c :: name => c = d && accepts rest name
  | .anyChar :: rest, _ :: name => accepts rest name
  | .within ranges :: rest, c :: name => hold ranges c && accepts rest name
  | .except ranges :: rest, c :: name => !hold ranges c && accepts rest name
termination_by tokens name => tokens.length + name.length

inductive Component where
  | literal (name : String)
  | anyDepth
  | wild (tokens : List Token)
deriving DecidableEq, Repr

/-- The characters of parts that stand for themselves. -/
def literal? : List Token → Option (List Char)
  | [] => some []
  | .char c :: rest => (literal? rest).map (c :: ·)
  | _ => none

def Component.ofTokens (tokens : List Token) : Component :=
  if tokens = [.anyDepth] then .anyDepth
  else
    match literal? tokens with
    | some name => .literal (String.ofList name)
    | none => .wild tokens

def Component.accepts (name : String) : Component → Bool
  | .literal expected => name = expected
  | .anyDepth => true
  | .wild tokens => Glob.accepts tokens name.toList

end Glob

/-- A pattern for paths: one component for each name, from the working directory or the root. -/
structure Glob where
  absolute : Bool
  components : List Glob.Component
  directoriesOnly : Bool
deriving DecidableEq, Repr

namespace Glob

/-- The names between slashes. A slash at the end adds none. -/
def componentTexts (path : List Char) : List (List Char) :=
  let parts := path.splitOn '/'
  if parts.getLast? = some [] then parts.dropLast else parts

/-- The pattern that a text stands for. Errors of the whole come before those of components. -/
def ofText (text : String) : Except PatternError Glob := do
  let _ ← tokens text
  let absolute := text.toList.head? = some '/'
  let below := if absolute then text.toList.drop 1 else text.toList
  let components ← (componentTexts below).mapM fun part => tokensFrom 0 none part
  return {
    absolute
    components := components.map Component.ofTokens
    directoriesOnly := text.toList.getLast? = some '/' }

end Glob

end Exemplar
