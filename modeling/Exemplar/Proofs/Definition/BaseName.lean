import Exemplar.Proofs.Definition.Naming

/-!
# Base names

The base name of a definition is the last name lent to it. A member lends its
name if it has one, and if its type refers to one definition only, however often
and wherever. A definition needs a number unless it has its base name to itself.
-/

namespace Exemplar

namespace Naming

variable {ν : Type}

/-! ## Base names -/

/-- A member lends its name to the definition that its type refers to, if to no other. -/
def Lends (member : Member (TypeExpr ν)) (name : ν) : Prop :=
  member.name ≠ "" ∧ name ∈ member.type.references ∧ ∀ ref ∈ member.type.references, ref = name

instance [DecidableEq ν] (member : Member (TypeExpr ν)) (name : ν) :
    Decidable (Lends member name) :=
  inferInstanceAs (Decidable (_ ∧ _ ∧ _))

def membersOf (types : List (Definition ν)) : List (Member (TypeExpr ν)) :=
  (types.filterMap (·.body.members?)).flatten

variable [DecidableEq ν]

/-- The capitalised names that members lend to a definition, in order. -/
def lentNames (types : List (Definition ν)) (name : ν) : List String :=
  ((membersOf types).filter (Lends · name)).filterMap fun member =>
    Uppercase.capitalize? member.name

/-- The base name of a definition: the last name lent to it, or else the placeholder. -/
def baseName (options : Options) (types : List (Definition ν)) (name : ν) : String :=
  (lentNames types name).getLast?.getD options.placeholderName

theorem soleReference?_eq_some_iff {type : TypeExpr ν} {name : ν} :
    soleReference? type = some name ↔
      name ∈ type.references ∧ ∀ ref ∈ type.references, ref = name := by
  have distinct := List.nodup_eraseDups type.references
  rw [soleReference?]
  constructor
  · intro sole
    split at sole
    next only single =>
      cases sole
      have mem : ∀ ref, ref ∈ type.references ↔ ref = name := by
        intro ref
        rw [← List.mem_eraseDups, single, List.mem_singleton]
      exact ⟨(mem name).mpr rfl, fun ref => (mem ref).mp⟩
    next => cases sole
  · rintro ⟨there, only⟩
    have single : type.references.eraseDups = [name] := by
      refine List.perm_singleton.mp ((List.perm_ext_iff_of_nodup distinct ?_).mpr fun ref => ?_)
      · exact List.nodup_singleton name
      · rw [List.mem_eraseDups, List.mem_singleton]
        exact ⟨only ref, fun same => same ▸ there⟩
    rw [single]

theorem exists_capitalize? {text : String} (named : text ≠ "") :
    ∃ capital, Uppercase.capitalize? text = some capital := by
  rw [Uppercase.capitalize?]
  split
  next empty => exact absurd (String.toList_eq_nil_iff.mp empty) named
  next => exact ⟨_, rfl⟩

theorem loan?_eq_some_iff {root name : ν} {member : Member (TypeExpr ν)} {lent : String} :
    loan? root member = some (name, lent) ↔
      name ≠ root ∧ Lends member name ∧ Uppercase.capitalize? member.name = some lent := by
  constructor
  · intro loan
    obtain ⟨target, sole, loan⟩ := Option.bind_eq_some_iff.mp loan
    obtain ⟨_, allowed, loan⟩ := Option.bind_eq_some_iff.mp loan
    obtain ⟨_, capital, same⟩ := Option.bind_eq_some_iff.mp loan
    cases same
    refine ⟨fun isRoot => ?_, ⟨fun unnamed => ?_, soleReference?_eq_some_iff.mp sole⟩, capital⟩
    · have refused : guard (name ≠ root) = (none : Option Unit) := if_neg (not_not.mpr isRoot)
      rw [refused] at allowed
      cases allowed
    · rw [unnamed] at capital
      cases capital
  · rintro ⟨other, ⟨_, sole⟩, capital⟩
    refine Option.bind_eq_some_iff.mpr ⟨name, soleReference?_eq_some_iff.mpr sole, ?_⟩
    refine Option.bind_eq_some_iff.mpr ⟨(), if_pos other, ?_⟩
    exact Option.bind_eq_some_iff.mpr ⟨lent, capital, rfl⟩

/-- A loan to a definition is the capitalised name of a member that lends it one. -/
theorem borrowed?_loans (types : List (Definition ν)) {root name : ν} (other : name ≠ root) :
    borrowed? (loans root types) name = (lentNames types name).getLast? := by
  have same : (((membersOf types).filterMap (loan? root)).filter (·.1 = name)).map (·.2) =
      lentNames types name := by
    rw [lentNames]
    induction membersOf types with
    | nil => rfl
    | cons member rest ih =>
      by_cases lends : Lends member name
      · obtain ⟨lent, capital⟩ := exists_capitalize? lends.1
        have loan := loan?_eq_some_iff.mpr ⟨other, lends, capital⟩
        simp [loan, lends, capital, ih]
      · cases loan : loan? root member with
        | none => simp [loan, lends, ih]
        | some entry =>
          obtain ⟨target, lent⟩ := entry
          have elsewhere : target ≠ name := by
            rintro rfl
            exact lends (loan?_eq_some_iff.mp loan).2.1
          simp [loan, lends, elsewhere, ih]
  rw [borrowed?, loans, ← same]
  rfl

/-! ## Groups of one base name -/

/-- The definitions that are named along with each other: all but the root. -/
def others (root : ν) (types : List (Definition ν)) : List ν :=
  (Definition.names types).filter (· ≠ root)

/-- The definitions of one base name, in order. -/
def namesakes (root : ν) (options : Options) (types : List (Definition ν)) (base : String) :
    List ν :=
  (others root types).filter (baseName options types · = base)

/-- A definition has its base name to itself: no other has it, and it is not the root name. -/
def Unshared (root : ν) (options : Options) (types : List (Definition ν)) (name : ν) : Prop :=
  baseName options types name ≠ options.rootName ∧
    ∀ other ∈ Definition.names types, other ≠ root →
      baseName options types other = baseName options types name → other = name

variable {types : List (Definition ν)} {root name : ν} {options : Options} {base : String}

theorem mem_others : name ∈ others root types ↔ name ∈ Definition.names types ∧ name ≠ root := by
  rw [others, List.mem_filter, decide_eq_true_eq]

theorem mem_namesakes : name ∈ namesakes root options types base ↔
    name ∈ others root types ∧ baseName options types name = base := by
  rw [namesakes, List.mem_filter, decide_eq_true_eq]

theorem nodup_namesakes (distinct : (Definition.names types).Nodup) (root : ν) (options : Options)
    (base : String) : (namesakes root options types base).Nodup :=
  (distinct.filter _).filter _

theorem claimants_eq (distinct : (Definition.names types).Nodup) (root : ν) (options : Options) :
    claimants root options types =
      (others root types).map fun name => ⟨name, baseName options types name⟩ := by
  have once : (types.map (·.name)).eraseDups = Definition.names types := distinct.eraseDups_eq
  rw [claimants, once]
  refine List.map_congr_left fun name hn => ?_
  rw [borrowed?_loans types (mem_others.mp hn).2, baseName]

theorem names_claimants_filter (distinct : (Definition.names types).Nodup) (root : ν)
    (options : Options) (base : String) :
    ((claimants root options types).filter (·.base = base)).map (·.name) =
      namesakes root options types base := by
  rw [claimants_eq distinct, List.filter_map, List.map_map]
  exact List.map_id _

/-- A number is needed where a base name is shared, or is the root name. -/
theorem needsNumber_eq_false_iff (distinct : (Definition.names types).Nodup)
    (hn : name ∈ others root types) :
    needsNumber options.rootName (claimants root options types) (baseName options types name) =
      false ↔ Unshared root options types name := by
  have count : ((claimants root options types).filter
      (·.base = baseName options types name)).length =
        (namesakes root options types (baseName options types name)).length := by
    rw [← names_claimants_filter distinct, List.length_map]
  have once := nodup_namesakes distinct root options (baseName options types name)
  have alone := once.length_le_one_iff (mem_namesakes.mpr ⟨hn, rfl⟩)
  rw [needsNumber, Bool.or_eq_false_iff, decide_eq_false_iff_not, decide_eq_false_iff_not, count,
    Nat.not_lt, alone, Unshared, and_comm]
  refine and_congr_right fun _ => ⟨fun only other known isOther same => ?_, fun only other ho => ?_⟩
  · exact only other (mem_namesakes.mpr ⟨mem_others.mpr ⟨known, isOther⟩, same⟩)
  · obtain ⟨member, same⟩ := mem_namesakes.mp ho
    obtain ⟨known, isOther⟩ := mem_others.mp member
    exact only other known isOther same

end Naming

end Exemplar
