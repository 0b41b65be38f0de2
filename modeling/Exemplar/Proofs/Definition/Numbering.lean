import Exemplar.Proofs.Definition.BaseName
import Mathlib.Tactic.Choose

/-!
# Numbers after base names

Groups of one base name are named one after the other, each knowing the names
taken before it. In a group the numbers grow, since each is looked for above the
one before, and a number is passed over only if its name is taken. A name is
taken if it is the root name, the base name of a definition that keeps it, or
the final name of a definition in an earlier group.
-/

namespace Exemplar

namespace Naming

variable {ν : Type} [DecidableEq ν]
variable {types : List (Definition ν)} {root name : ν} {options : Options} {base : String}

/-! ## The names taken before a group -/

/-- The names that are taken when the definitions of a base name are named. -/
def takenBefore (rootName : String) (all : List (Claimant ν)) :
    (taken bases : List String) → (base : String) → List String
  | taken, [], _ => taken
  | taken, first :: rest, base =>
    if base = first then taken
    else takenBefore rootName all
      ((nameGroup rootName all taken first).map (·.2) ++ taken) rest base

omit [DecidableEq ν] in
theorem nameGroups_eq_flatMap (rootName : String) (all : List (Claimant ν)) (taken : List String)
    {bases : List String} (distinct : bases.Nodup) :
    nameGroups rootName all taken bases = bases.flatMap fun base =>
      nameGroup rootName all (takenBefore rootName all taken bases base) base := by
  induction bases generalizing taken with
  | nil => rfl
  | cons first rest ih =>
    obtain ⟨fresh, distinct⟩ := List.nodup_cons.mp distinct
    rw [nameGroups, List.flatMap_cons, ih _ distinct, takenBefore, if_pos rfl]
    refine congrArg (nameGroup rootName all taken first ++ ·) ?_
    refine List.flatMap_congr fun base hb => ?_
    have later : base ≠ first := fun same => fresh (same ▸ hb)
    rw [takenBefore, if_neg later]

omit [DecidableEq ν] in
/-- What is taken before a group was so from the start, or is a final name. -/
theorem mem_takenBefore {rootName : String} {all : List (Claimant ν)} {taken bases : List String}
    {final : String} (used : final ∈ takenBefore rootName all taken bases base) :
    final ∈ taken ∨ final ∈ (nameGroups rootName all taken bases).map (·.2) := by
  induction bases generalizing taken with
  | nil => exact Or.inl used
  | cons first rest ih =>
    rw [takenBefore] at used
    split at used
    · exact Or.inl used
    · rw [nameGroups, List.map_append, List.mem_append]
      rcases ih used with earlier | later
      · rcases List.mem_append.mp earlier with own | before
        · exact Or.inr (Or.inl own)
        · exact Or.inl before
      · exact Or.inr (Or.inr later)

/-! ## Numbers in a group -/

theorem numbered_ne_base (base : String) (number : Nat) : numbered base number ≠ base := by
  intro same
  have empty : toString number = "" :=
    (String.append_right_inj base).mp (same.trans String.append_empty.symm)
  exact Nat.repr_ne_empty empty

omit [DecidableEq ν] in
theorem exists_number {counter : Nat} {taken : List String} {names : List ν}
    {entry : ν × String} (he : entry ∈ numberGroup base counter taken names) :
    ∃ number, counter < number ∧ entry.2 = numbered base number := by
  induction names generalizing counter taken with
  | nil => cases he
  | cons name rest ih =>
    have above := (freeNumber_spec base taken counter).1
    rcases List.mem_cons.mp he with rfl | later
    · exact ⟨_, above, rfl⟩
    · obtain ⟨number, beyond, same⟩ := ih later
      exact ⟨number, by omega, same⟩

omit [DecidableEq ν] in
/-- The numbers of a group grow. -/
theorem numberGroup_increasing (base : String) (counter : Nat) (taken : List String)
    (names : List ν) :
    (numberGroup base counter taken names).Pairwise fun entry later =>
      ∃ m n, m < n ∧ entry.2 = numbered base m ∧ later.2 = numbered base n := by
  induction names generalizing counter taken with
  | nil => exact List.Pairwise.nil
  | cons name rest ih =>
    refine List.pairwise_cons.mpr ⟨fun later hl => ?_, ih _ _⟩
    obtain ⟨number, above, same⟩ := exists_number hl
    exact ⟨_, number, above, rfl, same⟩

omit [DecidableEq ν] in
/-- A number that is passed over gives a name that was taken before, or is used in the group. -/
theorem numberGroup_passedOver {counter : Nat} {taken : List String} {names : List ν}
    {entry : ν × String} (he : entry ∈ numberGroup base counter taken names) {number k : Nat}
    (same : entry.2 = numbered base number) (above : counter < k) (below : k < number) :
    numbered base k ∈ taken ∨
      numbered base k ∈ (numberGroup base counter taken names).map (·.2) := by
  induction names generalizing counter taken with
  | nil => cases he
  | cons name rest ih =>
    obtain ⟨_, _, skipped⟩ := freeNumber_spec base taken counter
    rw [numberGroup, List.map_cons]
    rcases Nat.lt_trichotomy k (freeNumber base taken counter) with lower | equal | higher
    · exact Or.inl (skipped k above lower)
    · exact Or.inr (equal ▸ List.mem_cons_self)
    · rcases List.mem_cons.mp he with rfl | later
      · have := numbered_injective base same
        omega
      · rcases ih later higher with used | own
        · rcases List.mem_cons.mp used with here | before
          · exact Or.inr (here ▸ List.mem_cons_self)
          · exact Or.inl before
        · exact Or.inr (List.mem_cons_of_mem _ own)

/-! ## Final names -/

def bases (root : ν) (options : Options) (types : List (Definition ν)) : List String :=
  ((claimants root options types).map (·.base)).eraseDups

/-- The names that are taken from the start: the root name, and base names without a number. -/
def reserved (root : ν) (options : Options) (types : List (Definition ν)) : List String :=
  options.rootName :: (bases root options types).filter fun base =>
    !needsNumber options.rootName (claimants root options types) base

def takenFor (root : ν) (options : Options) (types : List (Definition ν)) (base : String) :
    List String :=
  takenBefore options.rootName (claimants root options types) (reserved root options types)
    (bases root options types) base

def groupOf (root : ν) (options : Options) (types : List (Definition ν)) (base : String) :
    List (ν × String) :=
  nameGroup options.rootName (claimants root options types) (takenFor root options types base) base

theorem finalNames_eq (root : ν) (options : Options) (types : List (Definition ν)) :
    finalNames options.rootName (claimants root options types) =
      (bases root options types).flatMap (groupOf root options types) :=
  nameGroups_eq_flatMap _ _ _ (List.nodup_eraseDups _)

theorem names_groupOf (distinct : (Definition.names types).Nodup) (root : ν) (options : Options)
    (base : String) :
    (groupOf root options types base).map (·.1) = namesakes root options types base := by
  rw [groupOf, names_nameGroup, names_claimants_filter distinct]

/-- A definition is named in the group of its base name. -/
theorem mem_groupOf (distinct : (Definition.names types).Nodup) (options : Options)
    (hn : name ∈ others root types) : (name, finalName root options types name) ∈
      groupOf root options types (baseName options types name) := by
  obtain ⟨known, isOther⟩ := mem_others.mp hn
  have entry := mem_finalNames options known isOther
  rw [finalNames_eq] at entry
  obtain ⟨base, _, entry⟩ := List.mem_flatMap.mp entry
  have member : name ∈ namesakes root options types base := by
    rw [← names_groupOf distinct]
    exact List.mem_map_of_mem entry
  rwa [(mem_namesakes.mp member).2]

/-- A group gives each of its definitions the final name. -/
theorem groupOf_eq (distinct : (Definition.names types).Nodup) (root : ν) (options : Options)
    (base : String) : groupOf root options types base =
      (namesakes root options types base).map fun name =>
        (name, finalName root options types name) := by
  have names := names_groupOf distinct root options base
  rw [← names, List.map_map]
  refine (List.map_id _).symm.trans (List.map_congr_left fun entry he => ?_)
  have member : entry.1 ∈ namesakes root options types base := by
    rw [← names]
    exact List.mem_map_of_mem he
  obtain ⟨isOther, rfl⟩ := mem_namesakes.mp member
  have once := nodup_namesakes distinct root options (baseName options types entry.1)
  rw [← names] at once
  exact List.inj_on_of_nodup_map once he (mem_groupOf distinct options isOther) rfl

/-- A definition with its base name to itself keeps it. -/
theorem finalName_of_unshared (distinct : (Definition.names types).Nodup)
    (hn : name ∈ others root types) (unshared : Unshared root options types name) :
    finalName root options types name = baseName options types name := by
  have plain := (needsNumber_eq_false_iff distinct hn).mpr unshared
  have entry := mem_groupOf distinct options hn
  rw [groupOf, nameGroup, plain] at entry
  obtain ⟨_, _, same⟩ := List.mem_map.mp entry
  exact (congrArg Prod.snd same).symm

theorem groupOf_of_shared (distinct : (Definition.names types).Nodup)
    (hn : name ∈ others root types) (shared : ¬Unshared root options types name) :
    groupOf root options types (baseName options types name) =
      numberGroup (baseName options types name) 0
        (takenFor root options types (baseName options types name))
        (namesakes root options types (baseName options types name)) := by
  have number : needsNumber options.rootName (claimants root options types)
      (baseName options types name) = true := by
    rw [← needsNumber_eq_false_iff distinct hn] at shared
    simpa using shared
  rw [groupOf, nameGroup, if_pos number, names_claimants_filter distinct]

theorem exists_number_of_shared (distinct : (Definition.names types).Nodup)
    (hn : name ∈ others root types) (shared : ¬Unshared root options types name) :
    ∃ number, 0 < number ∧
      finalName root options types name = numbered (baseName options types name) number := by
  have entry := mem_groupOf distinct options hn
  rw [groupOf_of_shared distinct hn shared] at entry
  exact exists_number entry

theorem not_unshared_of_numbered (distinct : (Definition.names types).Nodup)
    (hn : name ∈ others root types) {number : Nat}
    (final : finalName root options types name =
      numbered (baseName options types name) number) : ¬Unshared root options types name := by
  intro unshared
  exact numbered_ne_base _ number (final.symm.trans (finalName_of_unshared distinct hn unshared))

/-- A definition keeps its base name exactly if it has it to itself. -/
theorem finalName_eq_baseName_iff (distinct : (Definition.names types).Nodup)
    (hn : name ∈ others root types) :
    finalName root options types name = baseName options types name ↔
      Unshared root options types name := by
  refine ⟨fun kept => ?_, finalName_of_unshared distinct hn⟩
  by_contra shared
  obtain ⟨number, _, final⟩ := exists_number_of_shared distinct hn shared
  exact numbered_ne_base _ number (final.symm.trans kept)

theorem exists_of_mem_finalNames (distinct : (Definition.names types).Nodup) {final : String}
    (hf : final ∈ (finalNames options.rootName (claimants root options types)).map (·.2)) :
    ∃ other ∈ others root types, finalName root options types other = final := by
  rw [finalNames_eq] at hf
  obtain ⟨entry, he, rfl⟩ := List.mem_map.mp hf
  obtain ⟨base, _, he⟩ := List.mem_flatMap.mp he
  rw [groupOf_eq distinct] at he
  obtain ⟨other, ho, rfl⟩ := List.mem_map.mp he
  exact ⟨other, (mem_namesakes.mp ho).1, rfl⟩

/-- A name that is taken is the root name, or the final name of a definition. -/
theorem exists_of_mem_takenFor (distinct : (Definition.names types).Nodup) {final : String}
    (used : final ∈ takenFor root options types base) : final = options.rootName ∨
      ∃ other ∈ others root types, finalName root options types other = final := by
  rcases mem_takenBefore used with start | named
  · rcases List.mem_cons.mp start with isRoot | plain
    · exact Or.inl isRoot
    · obtain ⟨hb, plain⟩ := List.mem_filter.mp plain
      obtain ⟨claimant, hc, rfl⟩ := List.mem_map.mp (List.mem_eraseDups.mp hb)
      rw [claimants_eq distinct] at hc
      obtain ⟨other, ho, rfl⟩ := List.mem_map.mp hc
      have unshared := (needsNumber_eq_false_iff distinct ho).mp (by simpa using plain)
      exact Or.inr ⟨other, ho, finalName_of_unshared distinct ho unshared⟩
  · exact Or.inr (exists_of_mem_finalNames distinct named)

/-- The definitions of one base name get growing numbers, in order. -/
theorem namesakes_increasing (distinct : (Definition.names types).Nodup)
    (hn : name ∈ others root types) (shared : ¬Unshared root options types name) :
    (namesakes root options types (baseName options types name)).Pairwise fun first later =>
      ∃ m n, m < n ∧ finalName root options types first = numbered (baseName options types name) m ∧
        finalName root options types later = numbered (baseName options types name) n := by
  have growing := numberGroup_increasing (baseName options types name) 0
    (takenFor root options types (baseName options types name))
    (namesakes root options types (baseName options types name))
  rw [← groupOf_of_shared distinct hn shared, groupOf_eq distinct, List.pairwise_map] at growing
  exact growing

/-- A number that is passed over gives the root name, or the final name of a definition. -/
theorem exists_of_passedOver (distinct : (Definition.names types).Nodup)
    (hn : name ∈ others root types) (shared : ¬Unshared root options types name) {number k : Nat}
    (same : finalName root options types name = numbered (baseName options types name) number)
    (positive : 0 < k) (below : k < number) :
    numbered (baseName options types name) k = options.rootName ∨
      ∃ other ∈ others root types,
        finalName root options types other = numbered (baseName options types name) k := by
  have group := groupOf_of_shared distinct hn shared
  have entry := mem_groupOf distinct options hn
  rw [group] at entry
  rcases numberGroup_passedOver entry same positive below with used | own
  · exact exists_of_mem_takenFor distinct used
  · rw [← group, groupOf_eq distinct, List.map_map] at own
    obtain ⟨other, ho, final⟩ := List.mem_map.mp own
    exact Or.inr ⟨other, (mem_namesakes.mp ho).1, final⟩

/-- How final names follow from base names. The numbers are those of the definitions that get
one. -/
structure Lawful (root : ν) (options : Options) (types : List (Definition ν))
    (final : ν → String) (number : ν → Nat) : Prop where
  plain : ∀ name ∈ Definition.names types, name ≠ root →
    (final name = baseName options types name ↔ Unshared root options types name)
  numbered : ∀ name ∈ Definition.names types, name ≠ root →
    ¬Unshared root options types name →
      0 < number name ∧ final name = baseName options types name ++ toString (number name)
  increasing : (Definition.names types).Pairwise fun name later => name ≠ root → later ≠ root →
    baseName options types name = baseName options types later → number name < number later
  passedOver : ∀ name ∈ Definition.names types, name ≠ root →
    ¬Unshared root options types name → ∀ k, 0 < k → k < number name →
      (∀ other ∈ Definition.names types, other ≠ root →
        baseName options types other = baseName options types name → number other ≠ k) →
      baseName options types name ++ toString k = options.rootName ∨
        ∃ other ∈ Definition.names types, other ≠ root ∧
          baseName options types other ≠ baseName options types name ∧
          final other = baseName options types name ++ toString k

/-- Of two definitions of one base name, the first gets the smaller number. -/
theorem number_lt_of_sublist (distinct : (Definition.names types).Nodup) {first later : ν}
    (pair : [first, later].Sublist (Definition.names types)) (hf : first ≠ root) (hl : later ≠ root)
    (same : baseName options types first = baseName options types later) :
    ∃ m n, m < n ∧
      finalName root options types first = numbered (baseName options types first) m ∧
      finalName root options types later = numbered (baseName options types later) n := by
  have differ : first ≠ later := by simpa using distinct.sublist pair
  have known : first ∈ others root types := mem_others.mpr ⟨pair.subset (by simp), hf⟩
  have shared : ¬Unshared root options types first := fun unshared =>
    differ (unshared.2 later (pair.subset (by simp)) hl same.symm).symm
  have inGroup : [first, later].Sublist
      (namesakes root options types (baseName options types first)) := by
    have filtered := (pair.filter (· ≠ root)).filter
      (baseName options types · = baseName options types first)
    simpa [namesakes, others, hf, hl, same] using filtered
  rw [← same]
  exact List.pairwise_iff_forall_sublist.mp (namesakes_increasing distinct known shared) inGroup

/-- Final names follow from base names, whatever the root is. -/
theorem exists_lawful (distinct : (Definition.names types).Nodup) (root : ν) (options : Options) :
    ∃ number, Lawful root options types (finalName root options types) number := by
  have numbers : ∀ name, ∃ number, name ∈ others root types →
      ¬Unshared root options types name → 0 < number ∧
        finalName root options types name = numbered (baseName options types name) number := by
    intro name
    by_cases shared : name ∈ others root types ∧ ¬Unshared root options types name
    · obtain ⟨number, law⟩ := exists_number_of_shared distinct shared.1 shared.2
      exact ⟨number, fun _ _ => law⟩
    · exact ⟨0, fun hn unshared => absurd ⟨hn, unshared⟩ shared⟩
  choose number law using numbers
  have told : ∀ name ∈ others root types, ∀ k,
      finalName root options types name = numbered (baseName options types name) k →
        number name = k := by
    intro name hn k final
    have shared := not_unshared_of_numbered distinct hn final
    exact numbered_injective _ ((law name hn shared).2.symm.trans final)
  refine ⟨number, ?_, ?_, ?_, ?_⟩
  · intro name known isOther
    exact finalName_eq_baseName_iff distinct (mem_others.mpr ⟨known, isOther⟩)
  · intro name known isOther
    exact law name (mem_others.mpr ⟨known, isOther⟩)
  · refine List.pairwise_iff_forall_sublist.mpr ?_
    intro first later pair hf hl same
    obtain ⟨m, n, less, final, final'⟩ := number_lt_of_sublist distinct pair hf hl same
    rw [told first (mem_others.mpr ⟨pair.subset (by simp), hf⟩) m final,
      told later (mem_others.mpr ⟨pair.subset (by simp), hl⟩) n final']
    exact less
  · intro name known isOther shared k positive below unused
    have hn : name ∈ others root types := mem_others.mpr ⟨known, isOther⟩
    rcases exists_of_passedOver distinct hn shared (law name hn shared).2 positive below with
      isRoot | ⟨other, ho, final⟩
    · exact Or.inl isRoot
    · obtain ⟨known', isOther'⟩ := mem_others.mp ho
      refine Or.inr ⟨other, known', isOther', fun same => ?_, final⟩
      exact unused other known' isOther' same (told other ho k (same ▸ final))

end Naming

/-- Closed definitions with distinct names are named by law: a definition keeps its base name if it
has it to itself. Else it gets a number; the numbers of one base name grow in order, and those
passed over belong to names in use. -/
theorem assignNames_lawful {ν : Type} [DecidableEq ν] {types : List (Definition ν)}
    (distinct : (Definition.names types).Nodup) (closed : Definition.Closed types) (root : ν)
    (options : Options) :
    ∃ (final : ν → String) (number : ν → Nat),
      assignNames root options types = .ok (types.map (Naming.rename final)) ∧
        Naming.Lawful root options types final number := by
  obtain ⟨number, lawful⟩ := Naming.exists_lawful distinct root options
  exact ⟨_, number, Naming.assignNames_ok root options closed, lawful⟩

/-- Two definitions share a base name whose first number belongs to a third, and a fourth would take
the root name. -/
theorem assignNames_lawful_of_taken_number :
    let types : List (Definition String) :=
      [⟨"a", .object [], false⟩, ⟨"b", .object [], false⟩, ⟨"c", .object [], false⟩,
        ⟨"d", .array (.primitive .number), false⟩,
        ⟨"top", .object [⟨"item", .named "a", false⟩, ⟨"item", .array (.named "b"), false⟩,
          ⟨"item1", .union [.named "c", .array (.named "c")], true⟩, ⟨"top", .named "d", false⟩],
          true⟩]
    let options : Options := { rootName := "Top" }
    (Definition.names types).Nodup ∧ Definition.Closed types ∧
      (assignNames "top" options types).toOption.map Definition.names =
        some ["Item2", "Item3", "Item1", "Top1", "Top"] ∧
      ∃ (final : String → String) (number : String → Nat),
        assignNames "top" options types = .ok (types.map (Naming.rename final)) ∧
          Naming.Lawful "top" options types final number := by
  intro types options
  have distinct : (Definition.names types).Nodup := by decide
  have closed : Definition.Closed types := by
    unfold Definition.Closed
    decide
  exact ⟨distinct, closed, by decide +kernel, assignNames_lawful distinct closed "top" options⟩

end Exemplar
