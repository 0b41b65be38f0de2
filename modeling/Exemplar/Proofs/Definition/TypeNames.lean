import Exemplar.Proofs.Definition.NormalForm
import Exemplar.Proofs.Definition.Numbering
import Exemplar.Proofs.Definition.Rendering

/-!
# Names that a type can have

A name can be given to a type if it is an identifier and none of the words that
a type can begin with. The placeholder and the root name are such names, and a
number behind an identifier makes one. A borrowed name is a capitalised member
name without a check: it need not be an identifier, and it can be the one word
that begins with a capital.
-/

namespace Exemplar

namespace Render

/-- The words that a type can begin with. -/
def typeWords : List String := "Array" :: reserved

/-- A name that a type can have: an identifier, and no word that a type can begin with. -/
def IsTypeName (name : String) : Prop := isIdentifier name = true ∧ name ∉ typeWords

instance (name : String) : Decidable (IsTypeName name) := inferInstanceAs (Decidable (_ ∧ _))

theorem IsTypeName.isName {name : String} (isTypeName : IsTypeName name) : IsName name :=
  ⟨isTypeName.1, fun reserved => isTypeName.2 (List.mem_cons_of_mem _ reserved)⟩

theorem all_isDigit_toString (number : Nat) : ∀ c ∈ (toString number).toList, c.isDigit = true := by
  intro c hc
  rw [Nat.toString_eq_ofList_toDigits, String.toList_ofList] at hc
  exact Nat.isDigit_of_mem_toDigits (by decide) (by decide) hc

theorem isIdentifier_numbered {base : String} (identifier : isIdentifier base = true)
    (number : Nat) : isIdentifier (Naming.numbered base number) = true := by
  have digits : (toString number).toList.all isIdentifierPart = true := by
    refine List.all_eq_true.mpr fun c hc => ?_
    rw [isIdentifierPart, all_isDigit_toString number c hc, Bool.or_true]
  rw [isIdentifier] at identifier
  rw [isIdentifier, Naming.numbered, String.toList_append]
  cases chars : base.toList with
  | nil => rw [chars] at identifier; cases identifier
  | cons first rest =>
    rw [chars] at identifier
    rw [List.cons_append]
    dsimp only
    rwa [List.all_append, digits, Bool.and_true]

/-- No word of the language ends in a digit. -/
theorem numbered_not_mem_typeWords (base : String) (number : Nat) :
    Naming.numbered base number ∉ typeWords := by
  intro word
  have letters : ∀ word ∈ typeWords, word.toList.getLast?.any Char.isDigit = false := by decide
  obtain ⟨digit, last⟩ : ∃ digit, (toString number).toList.getLast? = some digit := by
    rw [Nat.toString_eq_ofList_toDigits, String.toList_ofList]
    exact Option.ne_none_iff_exists'.mp (List.getLast?_eq_none_iff.not.mpr Nat.toDigits_ne_nil)
  have isDigit := all_isDigit_toString number digit (List.mem_of_getLast? last)
  have letter := letters _ word
  rw [Naming.numbered, String.toList_append, List.getLast?_append, last] at letter
  exact Bool.false_ne_true (letter.symm.trans isDigit)

/-- A number behind an identifier makes a name that a type can have. -/
theorem isTypeName_numbered {base : String} (identifier : isIdentifier base = true)
    (number : Nat) : IsTypeName (Naming.numbered base number) :=
  ⟨isIdentifier_numbered identifier number, numbered_not_mem_typeWords base number⟩

end Render

open Render (IsTypeName)

namespace Naming

variable {ν : Type} [DecidableEq ν]
variable {types : List (Definition ν)} {root name : ν} {options : Options}

/-- A name that no type can have, with or without a number behind it, gives a final name. -/
def Spoils (base final : String) : Prop :=
  ¬IsTypeName base ∧ (final = base ∨ ∃ number, final = numbered base number)

/-- A final name is one that a type can have, unless the base name is not. -/
theorem isTypeName_or_spoils (distinct : (Definition.names types).Nodup)
    (hn : name ∈ others root types) :
    IsTypeName (finalName root options types name) ∨
      Spoils (baseName options types name) (finalName root options types name) := by
  by_cases unshared : Unshared root options types name
  · rw [finalName_of_unshared distinct hn unshared]
    by_cases usable : IsTypeName (baseName options types name)
    · exact .inl usable
    · exact .inr ⟨usable, .inl rfl⟩
  · obtain ⟨number, _, same⟩ := exists_number_of_shared distinct hn unshared
    rw [same]
    by_cases identifier : Render.isIdentifier (baseName options types name) = true
    · exact .inl (Render.isTypeName_numbered identifier number)
    · exact .inr ⟨fun usable => identifier usable.1, .inr ⟨number, rfl⟩⟩

/-- A base name is the placeholder, or lent by a member. -/
theorem baseName_cases (options : Options) (types : List (Definition ν)) (name : ν) :
    baseName options types name = options.placeholderName ∨ ∃ member ∈ membersOf types,
      Lends member name ∧
        Uppercase.capitalize? member.name = some (baseName options types name) := by
  rw [baseName]
  cases lent : (lentNames types name).getLast? with
  | none => exact .inl rfl
  | some capital =>
    obtain ⟨member, hm, same⟩ := List.mem_filterMap.mp (List.mem_of_getLast? lent)
    obtain ⟨hm, lends⟩ := List.mem_filter.mp hm
    exact .inr ⟨member, hm, of_decide_eq_true lends, same⟩

end Naming

/-! ## Types that can be read off their text -/

namespace TypeExpr

theorem isUnion_of_isSingle {ν : Type} {type : TypeExpr ν} (single : type.isSingle = true) :
    type.isUnion = false := by
  cases type with
  | union alternatives => cases single
  | never => rfl
  | primitive kind => rfl
  | named name => rfl
  | object members => rfl
  | array element => rfl

/-- A normal type can be read off its text if the names in it can. -/
theorem Normal.legible {α : Type} {f : TypeExpr String → α} {type : TypeExpr String}
    (normal : type.Normal f) (names : ∀ ref ∈ type.references, Render.IsName ref) :
    type.Legible := by
  induction normal with
  | primitive kind => exact .primitive kind
  | named name => exact .named (names name List.mem_cons_self)
  | empty => exact .array .never
  | array _ ih => exact .array (ih names)
  | union several _ flat _ ih =>
    refine .union several (fun type ht => isUnion_of_isSingle (flat type ht)) fun type ht => ?_
    exact ih type ht fun ref hr => names ref (mem_referencesOfAll.mpr ⟨type, ht, hr⟩)

end TypeExpr

theorem Body.Normal.legible {α : Type} {f : TypeExpr String → α} {body : Body String}
    (normal : body.Normal f) (names : ∀ ref ∈ body.references, Render.IsName ref) :
    body.Legible := by
  cases body with
  | object members =>
    intro m hm
    refine (normal m hm).legible fun ref hr => names ref ?_
    exact TypeExpr.mem_referencesOfMembers.mpr ⟨m, hm, hr⟩
  | array element =>
    cases TypeExpr.Normal.legible normal names with
    | array legible => exact legible

end Exemplar
