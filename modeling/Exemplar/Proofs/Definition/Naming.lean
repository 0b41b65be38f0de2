import Exemplar.Definition.Naming
import Exemplar.Proofs.Definition.Lookup
import Exemplar.Proofs.Repetition
import Mathlib.Data.List.Perm.Subperm

/-!
# Final names

A list that is one longer than the names taken can not be taken as a whole, so
a free number is always found. Numbered names avoid all names taken, among them
the root name and every base name that goes unnumbered; hence no two definitions
end up under one name. Renaming by such names keeps the meaning of closed
definitions.
-/

namespace Exemplar

namespace Naming

variable {ν : Type}

/-! ## Free numbers -/

theorem numbered_injective (base : String) : Function.Injective (numbered base) := by
  intro m n same
  have digits : Nat.toDigits 10 m = Nat.toDigits 10 n := by
    rw [← Nat.toList_repr, ← Nat.toList_repr]
    exact congrArg String.toList ((String.append_right_inj base).mp same)
  have value := congrArg (fun digits => Nat.ofDigitChars 10 digits 0) digits
  simpa using value

/-- More numbers are looked at than names are taken. -/
theorem exists_free (base : String) (taken : List String) (counter : Nat) :
    ∃ skip ∈ List.range (taken.length + 1), numbered base (counter + 1 + skip) ∉ taken := by
  by_contra all
  have inside : ∀ skip ∈ List.range (taken.length + 1),
      numbered base (counter + 1 + skip) ∈ taken := by
    intro skip hs
    by_contra free
    exact all ⟨skip, hs, free⟩
  have distinct : ((List.range (taken.length + 1)).map fun skip =>
      numbered base (counter + 1 + skip)).Nodup := by
    refine List.nodup_range.map ?_
    intro m n same
    have := numbered_injective base same
    omega
  have sub : List.Subperm _ taken := distinct.subperm fun name hn => by
    obtain ⟨skip, hs, rfl⟩ := List.mem_map.mp hn
    exact inside skip hs
  have bound := sub.length_le
  rw [List.length_map, List.length_range] at bound
  omega

/-- A number is looked for upwards. The one found is free, and those passed over are not. -/
theorem freeNumber_spec (base : String) (taken : List String) (counter : Nat) :
    counter < freeNumber base taken counter ∧
      numbered base (freeNumber base taken counter) ∉ taken ∧
      ∀ k, counter < k → k < freeNumber base taken counter → numbered base k ∈ taken := by
  obtain ⟨skip, hs, free⟩ := exists_free base taken counter
  rw [freeNumber]
  cases found : (List.range (taken.length + 1)).find? fun skip =>
      numbered base (counter + 1 + skip) ∉ taken with
  | none => exact absurd (decide_eq_true free) (List.find?_eq_none.mp found skip hs)
  | some first =>
    obtain ⟨free, _, before⟩ := List.find?_range_eq_some.mp found
    rw [Option.getD_some]
    refine ⟨by omega, of_decide_eq_true free, fun k above below => ?_⟩
    have used := before (k - (counter + 1)) (by omega)
    rw [Nat.add_sub_cancel' (by omega)] at used
    simpa using used

/-! ## Groups of one base name -/

theorem names_numberGroup (base : String) (counter : Nat) (taken : List String) (names : List ν) :
    (numberGroup base counter taken names).map (·.1) = names := by
  induction names generalizing counter taken with
  | nil => rfl
  | cons name rest ih => rw [numberGroup, List.map_cons, ih]

/-- Numbered names are not taken. -/
theorem numberGroup_free (base : String) (counter : Nat) (taken : List String) (names : List ν) :
    ∀ final ∈ (numberGroup base counter taken names).map (·.2), final ∉ taken := by
  induction names generalizing counter taken with
  | nil => simp [numberGroup]
  | cons name rest ih =>
    intro final hf used
    rw [numberGroup, List.map_cons] at hf
    rcases List.mem_cons.mp hf with rfl | hf
    · exact (freeNumber_spec base taken counter).2.1 used
    · exact ih _ _ final hf (List.mem_cons_of_mem _ used)

theorem nodup_numberGroup (base : String) (counter : Nat) (taken : List String) (names : List ν) :
    ((numberGroup base counter taken names).map (·.2)).Nodup := by
  induction names generalizing counter taken with
  | nil => exact List.nodup_nil
  | cons name rest ih =>
    rw [numberGroup, List.map_cons]
    refine List.nodup_cons.mpr ⟨fun later => ?_, ih _ _⟩
    exact numberGroup_free base _ _ rest _ later List.mem_cons_self

variable {rootName : String} {all : List (Claimant ν)}

theorem names_nameGroup (taken : List String) (base : String) :
    (nameGroup rootName all taken base).map (·.1) = (all.filter (·.base = base)).map (·.name) := by
  rw [nameGroup]
  by_cases number : needsNumber rootName all base = true
  · rw [if_pos number, names_numberGroup]
  · rw [if_neg number, List.map_map]
    exact List.map_id _

/-- Without a number, a group is at most one definition under its base name. -/
theorem nameGroup_plain {base : String} (plain : needsNumber rootName all base = false)
    (taken : List String) :
    ∃ names : List ν, names.length ≤ 1 ∧ nameGroup rootName all taken base = names.map (·, base) := by
  have single : (all.filter (·.base = base)).length ≤ 1 := by
    rw [needsNumber, Bool.or_eq_false_iff, decide_eq_false_iff_not] at plain
    omega
  refine ⟨_, ?_, by rw [nameGroup, plain]; rfl⟩
  rwa [List.length_map]

/-! ## All groups -/

/-- A final name that is in use only as the base name of its own group. -/
def Allowed (rootName : String) (all : List (Claimant ν)) (taken bases : List String)
    (final : String) : Prop :=
  final ∉ taken ∨ final ∈ bases ∧ needsNumber rootName all final = false

/-- Where base names without a number are taken from the start, groups get distinct names. -/
theorem nameGroups_distinct (rootName : String) (all : List (Claimant ν)) (taken : List String)
    {bases : List String} (distinct : bases.Nodup)
    (reserved : ∀ base ∈ bases, needsNumber rootName all base = false → base ∈ taken) :
    ((nameGroups rootName all taken bases).map (·.2)).Nodup ∧
      ∀ final ∈ (nameGroups rootName all taken bases).map (·.2),
        Allowed rootName all taken bases final := by
  induction bases generalizing taken with
  | nil => exact ⟨List.nodup_nil, by simp [nameGroups]⟩
  | cons base rest ih =>
    obtain ⟨fresh, distinct⟩ := List.nodup_cons.mp distinct
    obtain ⟨restDistinct, restAllowed⟩ :=
      ih ((nameGroup rootName all taken base).map (·.2) ++ taken) distinct fun other ho plain =>
        List.mem_append_right _ (reserved other (List.mem_cons_of_mem _ ho) plain)
    rw [nameGroups, List.map_append]
    have own : ((nameGroup rootName all taken base).map (·.2)).Nodup ∧
        ∀ final ∈ (nameGroup rootName all taken base).map (·.2),
          final ∉ taken ∨ final = base ∧ needsNumber rootName all base = false := by
      by_cases number : needsNumber rootName all base = true
      · rw [nameGroup, if_pos number]
        exact ⟨nodup_numberGroup _ _ _ _, fun final hf => Or.inl (numberGroup_free _ _ _ _ final hf)⟩
      · have plain : needsNumber rootName all base = false := by simpa using number
        obtain ⟨names, single, same⟩ := nameGroup_plain plain taken
        rw [same, List.map_map]
        constructor
        · match names, single with
          | [], _ => exact List.nodup_nil
          | [name], _ => exact List.nodup_singleton _
        · intro final hf
          obtain ⟨name, _, rfl⟩ := List.mem_map.mp hf
          exact Or.inr ⟨rfl, plain⟩
    obtain ⟨ownDistinct, ownAllowed⟩ := own
    -- A later group repeats no name of this one: numbered names avoid what is taken, and a later
    -- base name without a number was taken before this group was named.
    constructor
    · refine List.nodup_append.mpr ⟨ownDistinct, restDistinct, ?_⟩
      rintro final ho _ hr rfl
      rcases restAllowed final hr with free | ⟨among, plain⟩
      · exact free (List.mem_append_left _ ho)
      · rcases ownAllowed final ho with free | ⟨rfl, _⟩
        · exact free (reserved final (List.mem_cons_of_mem _ among) plain)
        · exact fresh among
    · intro final hf
      rcases List.mem_append.mp hf with ho | hr
      · rcases ownAllowed final ho with free | ⟨rfl, plain⟩
        · exact Or.inl free
        · exact Or.inr ⟨List.mem_cons_self, plain⟩
      · rcases restAllowed final hr with free | ⟨among, plain⟩
        · exact Or.inl fun used => free (List.mem_append_right _ used)
        · exact Or.inr ⟨List.mem_cons_of_mem _ among, plain⟩

theorem mem_names_nameGroups {taken bases : List String} {claimant : Claimant ν}
    (hc : claimant ∈ all) (hb : claimant.base ∈ bases) :
    claimant.name ∈ (nameGroups rootName all taken bases).map (·.1) := by
  induction bases generalizing taken with
  | nil => cases hb
  | cons base rest ih =>
    rw [nameGroups, List.map_append]
    by_cases same : claimant.base = base
    · refine List.mem_append_left _ ?_
      rw [names_nameGroup]
      exact List.mem_map_of_mem (List.mem_filter.mpr ⟨hc, decide_eq_true same⟩)
    · refine List.mem_append_right _ (ih ?_)
      exact (List.mem_cons.mp hb).resolve_left same

theorem names_nameGroups_subset (rootName : String) (all : List (Claimant ν))
    (taken bases : List String) :
    (nameGroups rootName all taken bases).map (·.1) ⊆ all.map (·.name) := by
  induction bases generalizing taken with
  | nil => exact List.nil_subset _
  | cons base rest ih =>
    rw [nameGroups, List.map_append, names_nameGroup]
    exact List.append_subset.mpr ⟨List.map_subset _ (List.filter_subset_self _), ih _⟩

/-- The final names are distinct, and none is the root name. -/
theorem finalNames_distinct (rootName : String) (all : List (Claimant ν)) :
    (rootName :: (finalNames rootName all).map (·.2)).Nodup := by
  obtain ⟨distinct, allowed⟩ := nameGroups_distinct rootName all
    (rootName :: (all.map (·.base)).eraseDups.filter fun base => !needsNumber rootName all base)
    (List.nodup_eraseDups _) fun base hb plain =>
      List.mem_cons_of_mem _ (List.mem_filter.mpr ⟨hb, by rw [plain]; rfl⟩)
  refine List.nodup_cons.mpr ⟨fun used => ?_, distinct⟩
  rcases allowed rootName used with free | ⟨_, plain⟩
  · exact free List.mem_cons_self
  · simp [needsNumber] at plain

theorem mem_names_finalNames (rootName : String) {claimant : Claimant ν} (hc : claimant ∈ all) :
    claimant.name ∈ (finalNames rootName all).map (·.1) :=
  mem_names_nameGroups hc (List.mem_eraseDups.mpr (List.mem_map_of_mem hc))

/-! ## Renaming definitions -/

variable [DecidableEq ν] {types : List (Definition ν)}

theorem claimant_of_mem_names (options : Options) {root name : ν}
    (hn : name ∈ Definition.names types) (other : name ≠ root) :
    ∃ claimant ∈ claimants root options types, claimant.name = name := by
  refine ⟨_, List.mem_map_of_mem (List.mem_filter.mpr ⟨?_, decide_eq_true other⟩), rfl⟩
  exact List.mem_eraseDups.mpr hn

theorem mem_names_finalNamesOf (root : ν) (options : Options) {name : ν}
    (hn : name ∈ Definition.names types) :
    name ∈ (finalNamesOf root options types).map (·.1) := by
  rw [finalNamesOf]
  by_cases isRoot : name = root
  · obtain ⟨t, ht, same⟩ := Definition.mem_names.mp hn
    have there : types.any (·.name = root) = true :=
      List.any_eq_true.mpr ⟨t, ht, decide_eq_true (same.trans isRoot)⟩
    rw [if_pos there, isRoot]
    exact List.mem_cons_self
  · obtain ⟨claimant, hc, rfl⟩ := claimant_of_mem_names options hn isRoot
    have named := mem_names_finalNames options.rootName hc
    split
    · exact List.mem_cons_of_mem _ named
    · exact named

/-- Only definitions get a final name. -/
theorem names_finalNamesOf_subset (root : ν) (options : Options) (types : List (Definition ν)) :
    (finalNamesOf root options types).map (·.1) ⊆ Definition.names types := by
  have others : (finalNames options.rootName (claimants root options types)).map (·.1) ⊆
      Definition.names types := by
    intro name hn
    obtain ⟨claimant, hc, rfl⟩ := List.mem_map.mp (names_nameGroups_subset _ _ _ _ hn)
    obtain ⟨name, known, rfl⟩ := List.mem_map.mp hc
    exact List.mem_eraseDups.mp (List.mem_filter.mp known).1
  rw [finalNamesOf]
  split
  next there =>
    obtain ⟨t, ht, same⟩ := List.any_eq_true.mp there
    refine List.cons_subset.mpr ⟨?_, others⟩
    exact Definition.mem_names.mpr ⟨t, ht, of_decide_eq_true same⟩
  next => exact others

theorem nodup_finalNamesOf (root : ν) (options : Options) (types : List (Definition ν)) :
    ((finalNamesOf root options types).map (·.2)).Nodup := by
  have distinct := finalNames_distinct options.rootName (claimants root options types)
  rw [finalNamesOf]
  split
  · exact distinct
  · exact (List.nodup_cons.mp distinct).2

def finalName (root : ν) (options : Options) (types : List (Definition ν)) (name : ν) : String :=
  ((finalNamesOf root options types).lookup name).getD ""

/-- The root gets the root name. -/
theorem finalName_root (root : ν) (options : Options) (rooted : root ∈ Definition.names types) :
    finalName root options types root = options.rootName := by
  obtain ⟨t, ht, same⟩ := Definition.mem_names.mp rooted
  have there : types.any (·.name = root) = true :=
    List.any_eq_true.mpr ⟨t, ht, decide_eq_true same⟩
  rw [finalName, finalNamesOf, if_pos there, List.lookup_cons_self, Option.getD_some]

theorem lookup_finalNamesOf (root : ν) (options : Options) {name : ν}
    (hn : name ∈ Definition.names types) :
    (finalNamesOf root options types).lookup name = some (finalName root options types name) := by
  obtain ⟨entry, he, same⟩ := List.mem_map.mp (mem_names_finalNamesOf root options hn)
  cases found : (finalNamesOf root options types).lookup name with
  | none =>
    have absent := List.lookup_eq_none_iff.mp found entry he
    rw [same, bne_self_eq_false] at absent
    cases absent
  | some final => rw [finalName, found]; rfl

theorem mem_finalNamesOf (root : ν) (options : Options) {name : ν}
    (hn : name ∈ Definition.names types) :
    (name, finalName root options types name) ∈ finalNamesOf root options types := by
  obtain ⟨before, after, split, _⟩ :=
    List.lookup_eq_some_iff.mp (lookup_finalNamesOf root options hn)
  rw [split]
  simp

/-- What is not the root is named along with the other claimants. -/
theorem mem_finalNames (options : Options) {root name : ν} (hn : name ∈ Definition.names types)
    (other : name ≠ root) : (name, finalName root options types name) ∈
      finalNames options.rootName (claimants root options types) := by
  have entry := mem_finalNamesOf root options hn
  rw [finalNamesOf] at entry
  split at entry
  · refine (List.mem_cons.mp entry).resolve_left fun same => other ?_
    exact congrArg Prod.fst same
  · exact entry

/-- No two definitions get the same final name. -/
theorem finalName_injOn (root : ν) (options : Options) {name name' : ν}
    (hn : name ∈ Definition.names types) (hn' : name' ∈ Definition.names types)
    (same : finalName root options types name = finalName root options types name') :
    name = name' := by
  have both := List.inj_on_of_nodup_map (nodup_finalNamesOf root options types)
    (mem_finalNamesOf root options hn) (mem_finalNamesOf root options hn') same
  exact congrArg Prod.fst both

/-- The root has the root name to itself. -/
theorem finalName_eq_rootName_iff (root : ν) (options : Options) {name : ν}
    (hn : name ∈ Definition.names types) :
    finalName root options types name = options.rootName ↔ name = root := by
  constructor
  · intro same
    by_contra other
    have reserved := (List.nodup_cons.mp
      (finalNames_distinct options.rootName (claimants root options types))).1
    exact reserved (List.mem_map.mpr ⟨_, mem_finalNames options hn other, same⟩)
  · rintro rfl
    exact finalName_root name options hn

def named (root : ν) (options : Options) (types : List (Definition ν)) : List (Definition String) :=
  types.map (rename (finalName root options types))

/-- Closed definitions can be named. -/
theorem assignNames_ok (root : ν) (options : Options) (closed : Definition.Closed types) :
    assignNames root options types = .ok (named root options types) := by
  have none : ((types.flatMap (·.body.references)).find? fun name =>
      ((finalNamesOf root options types).lookup name).isNone) = none := by
    refine List.find?_eq_none.mpr fun name hn => ?_
    obtain ⟨t, ht, hr⟩ := List.mem_flatMap.mp hn
    rw [lookup_finalNamesOf root options (closed t ht name hr)]
    simp
  rw [assignNames, none]
  rfl

/-- What stops the naming is a reference that dangles. -/
theorem dangles_of_assignNames_error {root : ν} {options : Options} {name : ν}
    (failed : assignNames root options types = .error name) : Definition.Dangles types name := by
  rw [assignNames] at failed
  split at failed
  next dangling found =>
    cases failed
    have missing := List.find?_some found
    obtain ⟨t, ht, hr⟩ := List.mem_flatMap.mp (List.mem_of_find?_eq_some found)
    refine ⟨fun known => ?_, t, ht, hr⟩
    rw [lookup_finalNamesOf root options known] at missing
    cases missing
  next => cases failed

theorem exists_assignNames_error (root : ν) (options : Options) {name : ν}
    (dangles : Definition.Dangles types name) :
    ∃ dangling, assignNames root options types = .error dangling := by
  obtain ⟨unknown, t, ht, hr⟩ := dangles
  have missing : ((finalNamesOf root options types).lookup name).isNone = true := by
    rw [Option.isNone_iff_eq_none]
    cases found : (finalNamesOf root options types).lookup name with
    | none => rfl
    | some final =>
      obtain ⟨before, after, split, _⟩ := List.lookup_eq_some_iff.mp found
      have entry : (name, final) ∈ finalNamesOf root options types := by
        rw [split]
        simp
      have known := names_finalNamesOf_subset root options types (List.mem_map_of_mem entry)
      exact absurd known unknown
  rw [assignNames]
  split
  next dangling _ => exact ⟨dangling, rfl⟩
  next none =>
    have referred : name ∈ types.flatMap (·.body.references) := List.mem_flatMap.mpr ⟨t, ht, hr⟩
    exact absurd missing (List.find?_eq_none.mp none name referred)

section Renaming

variable {final : ν → String}
  (injective : ∀ name ∈ Definition.names types, ∀ name' ∈ Definition.names types,
    final name = final name' → name = name')
include injective

omit [DecidableEq ν] in
theorem nodup_names_rename (distinct : (Definition.names types).Nodup) :
    (Definition.names (types.map (rename final))).Nodup := by
  rw [Definition.names, List.map_map]
  have same : types.map ((·.name) ∘ rename final) = (Definition.names types).map final := by
    rw [Definition.names, List.map_map]
    rfl
  rw [same]
  exact distinct.map_on injective

/-- Closed definitions mean the same under other names. -/
theorem meaning_rename (distinct : (Definition.names types).Nodup)
    (closed : Definition.Closed types) {name : ν} (hn : name ∈ Definition.names types)
    (value : Json) :
    Definition.meaning (types.map (rename final)) (final name) value ↔
      Definition.meaning types name value := by
  refine Meaning.agree (fun a b => a = final b ∧ b ∈ Definition.names types) ?_ ⟨rfl, hn⟩ value
  rintro _ name ⟨rfl, hn⟩ value same
  obtain ⟨t, ht, rfl⟩ := Definition.mem_names.mp hn
  have renamed := Definition.meaning_of_mem (nodup_names_rename injective distinct)
    (List.mem_map_of_mem ht) value
  rw [Definition.meaning_of_mem distinct ht]
  refine renamed.trans ?_
  rw [rename, Body.accepts_subst]
  refine Body.accepts_congr ?_
  intro ref hr part below
  exact same (final ref) ref ⟨rfl, closed t ht ref hr⟩ part below

end Renaming

end Naming

/-- Naming fails exactly where a reference dangles. Otherwise it renames: definitions and references
go through one map, which tells definitions apart and gives the root name to the root alone. -/
theorem assignNames_renames {ν : Type} [DecidableEq ν] (root : ν) (options : Options)
    (types : List (Definition ν)) :
    ((∃ name, assignNames root options types = .error name) ↔
      ∃ name, Definition.Dangles types name) ∧
    (∀ name, assignNames root options types = .error name → Definition.Dangles types name) ∧
    ((∀ name, ¬Definition.Dangles types name) → ∃ final : ν → String,
      (∀ name ∈ Definition.names types, ∀ name' ∈ Definition.names types,
        final name = final name' → name = name') ∧
      (∀ name ∈ Definition.names types, final name = options.rootName ↔ name = root) ∧
      assignNames root options types = .ok (types.map (Naming.rename final))) := by
  refine ⟨⟨?_, ?_⟩, fun name => Naming.dangles_of_assignNames_error, fun none => ?_⟩
  · rintro ⟨name, failed⟩
    exact ⟨name, Naming.dangles_of_assignNames_error failed⟩
  · rintro ⟨name, dangles⟩
    exact Naming.exists_assignNames_error root options dangles
  · refine ⟨Naming.finalName root options types, ?_, ?_, ?_⟩
    · intro name hn name' hn'
      exact Naming.finalName_injOn root options hn hn'
    · intro name hn
      exact Naming.finalName_eq_rootName_iff root options hn
    · exact Naming.assignNames_ok root options (Definition.closed_iff.mpr none)

/-- Two definitions without a lent name, no root, and a root name that is the placeholder. -/
theorem assignNames_renames_of_missing_root :
    let types : List (Definition String) :=
      [⟨"point", .object [⟨"x", .primitive .number, false⟩], false⟩,
        ⟨"path", .array (.named "point"), false⟩]
    let options : Options := { rootName := "Guessed" }
    (∀ name, ¬Definition.Dangles types name) ∧
      (assignNames "root" options types).toOption.map Definition.names =
        some ["Guessed1", "Guessed2"] ∧
      ∃ final : String → String,
        (∀ name ∈ Definition.names types, ∀ name' ∈ Definition.names types,
          final name = final name' → name = name') ∧
        (∀ name ∈ Definition.names types, final name = options.rootName ↔ name = "root") ∧
        assignNames "root" options types = .ok (types.map (Naming.rename final)) := by
  intro types options
  have closed : Definition.Closed types := by
    unfold Definition.Closed
    decide
  have none := Definition.closed_iff.mp closed
  exact ⟨none, by decide +kernel, (assignNames_renames "root" options types).2.2 none⟩

end Exemplar
