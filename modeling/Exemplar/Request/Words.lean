import Exemplar.Request

/-!
# Requests in words

The first word that is no setting is a command; the settings after it belong to
the command. A setting is a flag or takes values, and has a long name after `--`
and perhaps a letter after `-`. A value is the next word, or is attached to the
name. Letters of flags may be joined.

The setting for inputs takes every word up to the next setting, and may be
repeated. No other setting may. A setting counts once all its values are known,
so what is wrong with a later name shows before what is wrong with its values.
-/

namespace Exemplar

/-- Why words make no request. The last two ask for something else. -/
inductive UsageError where
  | noWords
  | noCommand
  | unknownCommand
  | noInput
  | unknownWord
  | noValue
  | badValue
  | needlessValue
  | repeated
  | help
  | version
deriving DecidableEq, Repr

def UsageError.message : UsageError → String
  | .noWords => "a command is needed: types or schema"
  | .noCommand => "a command is needed after the flags"
  | .unknownCommand => "there is no such command"
  | .noInput => "an input is needed: --input PATH"
  | .unknownWord => "there is no such setting"
  | .noValue => "a setting lacks its value"
  | .badValue => "the greatest depth has to be a number"
  | .needlessValue => "a flag takes no value"
  | .repeated => "a setting is given twice"
  | .help => "types or schema, --input PATH..., --ndjson, --json-pointer POINTER, " ++
      "--jq-expr FILTER, --config PATH, --root-type NAME, --max-depth DEPTH, --each, --out PATH"
  | .version => "json-guess 0.1.0"

/-- Whether the caller asked for the text that answers, so that nothing went wrong. -/
def UsageError.isAnswer : UsageError → Bool
  | .help | .version => true
  | _ => false

inductive Setting where
  | verbose
  | help
  | version
  | lineByLine
  | each
  | pointer
  | filter
  | input
  | optionsFile
  | rootName
  | maxDepth
  | output
deriving DecidableEq, Repr

/-- Where a setting may stand. -/
inductive Level where
  | program
  | command
deriving DecidableEq, Repr

namespace Setting

def all : Level → List Setting
  | .program => [verbose, help, version]
  | .command =>
    [verbose, help, lineByLine, each, pointer, filter, input, optionsFile, rootName, maxDepth,
      output]

def name : Setting → String
  | verbose => "verbose"
  | help => "help"
  | version => "version"
  | lineByLine => "ndjson"
  | each => "each"
  | pointer => "json-pointer"
  | filter => "jq-expr"
  | input => "input"
  | optionsFile => "config"
  | rootName => "root-type"
  | maxDepth => "max-depth"
  | output => "out"

def letter? : Setting → Option Char
  | verbose => some 'v'
  | help => some 'h'
  | version => some 'V'
  | input => some 'i'
  | output => some 'o'
  | _ => none

def takesValue : Setting → Bool
  | verbose | help | version | lineByLine | each => false
  | _ => true

def ofName? (level : Level) (name : String) : Option Setting :=
  (all level).find? (·.name = name)

def ofLetter? (level : Level) (letter : Char) : Option Setting :=
  (all level).find? (·.letter? = some letter)

end Setting

/-- The count that a word stands for: decimal digits, perhaps after a plus sign, of a word-sized
number. -/
def count? (word : String) : Option Nat :=
  let digits := if word.toList.head? = some '+' then word.toList.drop 1 else word.toList
  if digits.isEmpty || !digits.all Char.isDigit then none
  else
    let value := digits.foldl (fun n d => 10 * n + (d.toNat - '0'.toNat)) 0
    if value < Nat.pow 2 64 then some value else none

/-- Settings with their values, in the order in which they were given. The last may be waiting
for values. -/
structure Given where
  settled : List (Setting × List String) := []
  waiting : Option (Setting × List String) := none

namespace Given

def has (given : Given) (setting : Setting) : Bool := given.settled.any (·.1 = setting)

def values (given : Given) (setting : Setting) : List String :=
  (given.settled.filter (·.1 = setting)).flatMap (·.2)

def fault? (setting : Setting) (value : String) : Option UsageError :=
  match setting with
  | .maxDepth => if (count? value).isNone then some .badValue else none
  | .optionsFile | .output => if value.isEmpty then some .noValue else none
  | _ => none

def settle (given : Given) (setting : Setting) (values : List String) :
    Except UsageError Given :=
  if setting.takesValue && values.isEmpty then .error .noValue
  else if setting ≠ .input && given.has setting then .error .repeated
  else
    match values.filterMap (fault? setting) with
    | fault :: _ => .error fault
    | [] =>
      match setting with
      | .help => .error .help
      | .version => .error .version
      | _ => .ok { given with settled := given.settled ++ [(setting, values)] }

def resolve (given : Given) : Except UsageError Given :=
  match given.waiting with
  | none => .ok given
  | some (setting, values) => { given with waiting := none }.settle setting values

def add (given : Given) (setting : Setting) (values : List String) : Except UsageError Given := do
  (← given.resolve).settle setting values

/-- Settle what is waiting, and let a setting wait for values. -/
def await (given : Given) (setting : Setting) : Except UsageError Given := do
  return { (← given.resolve) with waiting := some (setting, []) }

/-- Whether the next word can be a value: inputs may be many, others are single. -/
def isOpen (given : Given) : Bool :=
  match given.waiting with
  | some (setting, values) => setting = .input || values.isEmpty
  | none => false

def offer (given : Given) (value : String) : Given :=
  match given.waiting with
  | some (setting, values) => { given with waiting := some (setting, values ++ [value]) }
  | none => given

/-- Take a setting by its long name, with the value attached to it, if any. -/
def takeNamed (level : Level) (given : Given) (name : String) (attached : Option String) :
    Except UsageError Given :=
  match Setting.ofName? level name with
  | none => .error .unknownWord
  | some setting =>
    match attached with
    | some value =>
      if setting.takesValue then given.add setting [value] else .error .needlessValue
    | none => if setting.takesValue then given.await setting else given.add setting []

/-- Take settings by their letters. What follows the letter of a setting with values is one,
perhaps after an equals sign. -/
def takeLetters (level : Level) (given : Given) : List Char → Except UsageError Given
  | [] => .ok given
  | letter :: rest =>
    match Setting.ofLetter? level letter with
    | none => .error .unknownWord
    | some setting =>
      if setting.takesValue then
        match rest with
        | [] => given.await setting
        | '=' :: value => given.add setting [String.ofList value]
        | value => given.add setting [String.ofList value]
      else
        match given.add setting [] with
        | .ok next => takeLetters level next rest
        | .error error => .error error

/-- Take a word that is not a value: settings by name or by letters. `none` is any other word. -/
def take? (level : Level) (given : Given) (word : String) : Option (Except UsageError Given) :=
  match word.toList with
  | '-' :: '-' :: text =>
    let name := text.takeWhile (· ≠ '=')
    let attached :=
      if text.contains '=' then some (String.ofList (text.drop (name.length + 1))) else none
    some (takeNamed level given (String.ofList name) attached)
  | '-' :: c :: text => some (takeLetters level given (c :: text))
  | _ => none

def takeCommand (given : Given) : List String → Except UsageError Given
  | [] => given.resolve
  | word :: rest =>
    if word = "--" then if rest.isEmpty then given.resolve else .error .unknownWord
    else
      match given.take? .command word with
      | some (.ok next) => takeCommand next rest
      | some (.error error) => .error error
      | none => if given.isOpen then takeCommand (given.offer word) rest else .error .unknownWord

end Given

def commandNames : List String := ["types", "schema", "help"]

/-- What asks for help on commands. -/
def helpRequest : List String → UsageError
  | [] => .help
  | [name] => if commandNames.contains name then .help else .unknownCommand
  | _ => .unknownCommand

namespace Request

def ofGiven (form : Form) (given : Given) : Except UsageError Request :=
  let inputs := given.values .input
  if inputs.isEmpty then .error .noInput
  else
    .ok {
      form
      inputs
      lineByLine := given.has .lineByLine
      each := given.has .each
      pointer := (given.values .pointer).head?
      filter := (given.values .filter).head?
      optionsFile := (given.values .optionsFile).head?
      rootName := (given.values .rootName).head?
      maxDepth := (given.values .maxDepth).head?.bind count?
      output := (given.values .output).head? }

/-- The request that words make, after settings of the program. -/
def ofWordsAfter (given : Given) : List String → Except UsageError Request
  | [] => if given.settled.isEmpty then .error .noWords else .error .noCommand
  | word :: rest =>
    if word = "types" then do ofGiven .types (← Given.takeCommand {} rest)
    else if word = "schema" then do ofGiven .schema (← Given.takeCommand {} rest)
    else if word = "help" then .error (helpRequest rest)
    else if word = "--" then
      match rest with
      | [] => if given.settled.isEmpty then .error .noWords else .error .noCommand
      | next :: _ => .error (if commandNames.contains next then .unknownWord else .unknownCommand)
    else
      match given.take? .program word with
      | some (.ok next) => ofWordsAfter next rest
      | some (.error error) => .error error
      | none => .error .unknownCommand

def ofWords (words : List String) : Except UsageError Request := ofWordsAfter {} words

end Request

end Exemplar
