import Exemplar.Definition
import Exemplar.Options
import Exemplar.Text.Uppercase

/-!
# Naming definitions

A definition borrows its base name from the last member that refers to it and to
nothing else; a definition without such a member gets the placeholder. The root
has the root name to itself. A base name that several definitions share, or that
is the root name, is followed by a number; numbers that would give a name in use
are skipped.
-/

namespace Exemplar

namespace Naming

variable {ν : Type} [DecidableEq ν]

/-- The only name a type refers to, if there is just one. -/
def soleReference? (type : TypeExpr ν) : Option ν :=
  match type.references.eraseDups with
  | [name] => some name
  | _ => none

/-- The name that a member lends, and to which definition. The root does not borrow. -/
def loan? (root : ν) (member : Member (TypeExpr ν)) : Option (ν × String) := do
  let target ← soleReference? member.type
  guard (target ≠ root)
  return (target, ← Uppercase.capitalize? member.name)

def loans (root : ν) (types : List (Definition ν)) : List (ν × String) :=
  (types.filterMap (·.body.members?)).flatten.filterMap (loan? root)

def borrowed? (loans : List (ν × String)) (name : ν) : Option String :=
  ((loans.filter (·.1 = name)).map (·.2)).getLast?

/-- A definition that awaits its final name. -/
structure Claimant (ν : Type) where
  name : ν
  base : String

/-- The definitions to name apart from the root, each with its base name. -/
def claimants (root : ν) (options : Options) (types : List (Definition ν)) :
    List (Claimant ν) :=
  let lent := loans root types
  (((types.map (·.name)).eraseDups).filter (· ≠ root)).map fun name =>
    ⟨name, (borrowed? lent name).getD options.placeholderName⟩

/-- Whether a base name needs a number: it is shared, or it is the root name. -/
def needsNumber (rootName : String) (all : List (Claimant ν)) (base : String) : Bool :=
  (all.filter (·.base = base)).length > 1 || base = rootName

def numbered (base : String) (number : Nat) : String :=
  base ++ toString number

/-- The least number above `counter` whose name is free. As many numbers as names are taken may
be in use, so one more than that is looked at. -/
def freeNumber (base : String) (taken : List String) (counter : Nat) : Nat :=
  let ahead := (List.range (taken.length + 1)).find? fun skip =>
    numbered base (counter + 1 + skip) ∉ taken
  counter + 1 + ahead.getD 0

/-- Number the definitions of one base name, above `counter`. -/
def numberGroup (base : String) :
    (counter : Nat) → (taken : List String) → List ν → List (ν × String)
  | _, _, [] => []
  | counter, taken, name :: rest =>
    let number := freeNumber base taken counter
    let final := numbered base number
    (name, final) :: numberGroup base number (final :: taken) rest

def nameGroup (rootName : String) (all : List (Claimant ν)) (taken : List String)
    (base : String) : List (ν × String) :=
  let names := (all.filter (·.base = base)).map (·.name)
  if needsNumber rootName all base then numberGroup base 0 taken names
  else names.map (·, base)

/-- Name the groups one after the other; the names of one are taken for the next. -/
def nameGroups (rootName : String) (all : List (Claimant ν)) :
    (taken : List String) → (bases : List String) → List (ν × String)
  | _, [] => []
  | taken, base :: rest =>
    let group := nameGroup rootName all taken base
    group ++ nameGroups rootName all (group.map (·.2) ++ taken) rest

def finalNames (rootName : String) (all : List (Claimant ν)) : List (ν × String) :=
  let bases := (all.map (·.base)).eraseDups
  let plain := bases.filter fun base => !needsNumber rootName all base
  nameGroups rootName all (rootName :: plain) bases

def finalNamesOf (root : ν) (options : Options) (types : List (Definition ν)) :
    List (ν × String) :=
  let others := finalNames options.rootName (claimants root options types)
  if types.any (·.name = root) then (root, options.rootName) :: others else others

def rename (final : ν → String) (type : Definition ν) : Definition String :=
  ⟨final type.name, type.body.subst (fun name => .named (final name)), type.isRoot⟩

end Naming

/-- Give every definition its final name. A reference to a name without a definition is an
error that carries the name. -/
def assignNames {ν : Type} [DecidableEq ν] (root : ν) (options : Options)
    (types : List (Definition ν)) : Except ν (List (Definition String)) :=
  let final := Naming.finalNamesOf root options types
  match (types.flatMap (·.body.references)).find? fun name => (final.lookup name).isNone with
  | some dangling => .error dangling
  | none => .ok (types.map (Naming.rename fun name => (final.lookup name).getD ""))

end Exemplar
