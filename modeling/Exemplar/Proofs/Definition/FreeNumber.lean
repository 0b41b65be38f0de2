import Exemplar.Proofs.Definition.Numbering
import Mathlib.Data.Prod.Lex
import Mathlib.Logic.Relation

/-!
# The search for free numbers ends

The definitions of one base name are numbered in passes. A pass looks at the next
number: a number whose name is taken is passed over, any other goes to the first
definition that waits. Nothing bounds the passes but that a free number lies
ahead. Each number looked at has a taken name from then on, and the names of
different numbers differ, so no more numbers are looked at than there are
definitions in the group and names taken before it.
-/

namespace Exemplar

namespace Naming

variable {ν : Type}

/-! ## Passes -/

/-- How far the numbering of a group is: the last number looked at, the names taken, the
definitions that wait, and those that have a name, the last one first. -/
structure Progress (ν : Type) where
  counter : Nat
  taken : List String
  waiting : List ν
  named : List (ν × String)

def Progress.start (taken : List String) (names : List ν) : Progress ν := ⟨0, taken, names, []⟩

/-- One pass, while a definition waits. -/
inductive Pass (base : String) : Progress ν → Progress ν → Prop where
  | passOver {counter : Nat} {taken : List String} {name : ν} {waiting : List ν}
      {named : List (ν × String)} (used : numbered base (counter + 1) ∈ taken) :
      Pass base ⟨counter, taken, name :: waiting, named⟩
        ⟨counter + 1, taken, name :: waiting, named⟩
  | give {counter : Nat} {taken : List String} {name : ν} {waiting : List ν}
      {named : List (ν × String)} (free : numbered base (counter + 1) ∉ taken) :
      Pass base ⟨counter, taken, name :: waiting, named⟩
        ⟨counter + 1, numbered base (counter + 1) :: taken, waiting,
          (name, numbered base (counter + 1)) :: named⟩

variable {base : String} {progress next : Progress ν}

theorem exists_pass (base : String) (waits : progress.waiting ≠ []) :
    ∃ next, Pass base progress next := by
  obtain ⟨counter, taken, waiting, named⟩ := progress
  cases waiting with
  | nil => exact absurd rfl waits
  | cons name waiting =>
    by_cases used : numbered base (counter + 1) ∈ taken
    · exact ⟨_, .passOver used⟩
    · exact ⟨_, .give used⟩

/-! ## The free number ahead -/

/-- The least free number above another is the only one with only taken names in between. -/
theorem freeNumber_eq {taken : List String} {counter number : Nat} (above : counter < number)
    (free : numbered base number ∉ taken)
    (between : ∀ k, counter < k → k < number → numbered base k ∈ taken) :
    freeNumber base taken counter = number := by
  obtain ⟨above', free', between'⟩ := freeNumber_spec base taken counter
  by_contra differ
  rcases Nat.lt_or_gt_of_ne differ with less | greater
  · exact free' (between _ above' less)
  · exact free (between' _ above greater)

theorem freeNumber_of_free {taken : List String} {counter : Nat}
    (free : numbered base (counter + 1) ∉ taken) : freeNumber base taken counter = counter + 1 := by
  apply freeNumber_eq (by omega) free
  intro k above below
  omega

theorem freeNumber_of_used {taken : List String} {counter : Nat}
    (used : numbered base (counter + 1) ∈ taken) :
    freeNumber base taken (counter + 1) = freeNumber base taken counter := by
  obtain ⟨above, free, between⟩ := freeNumber_spec base taken counter
  have further : counter + 1 < freeNumber base taken counter := by
    have differ : counter + 1 ≠ freeNumber base taken counter := fun same => free (same ▸ used)
    omega
  apply freeNumber_eq further free
  intro k above' below
  exact between k (by omega) below

/-- The passes still to come for the first definition that waits. -/
def ahead (base : String) (progress : Progress ν) : Nat :=
  freeNumber base progress.taken progress.counter - progress.counter

/-- A pass brings the free number nearer, or leaves fewer definitions waiting. -/
theorem Pass.decreases (pass : Pass base progress next) :
    Prod.Lex (· < ·) (· < ·) (next.waiting.length, ahead base next)
      (progress.waiting.length, ahead base progress) := by
  cases pass with
  | give free => exact .left _ _ (Nat.lt_succ_self _)
  | @passOver counter taken name waiting named used =>
    apply Prod.Lex.right
    have above := (freeNumber_spec base taken (counter + 1)).1
    have same := freeNumber_of_used used
    dsimp only [ahead]
    omega

/-- No run of passes goes on for ever. -/
theorem pass_wellFounded (base : String) :
    WellFounded fun next progress : Progress ν => Pass base progress next := by
  apply Subrelation.wf (r := InvImage (Prod.Lex (· < ·) (· < ·)) fun progress : Progress ν =>
    (progress.waiting.length, ahead base progress))
  · intro next progress pass
    exact pass.decreases
  · exact InvImage.wf _ (WellFounded.prod_lex wellFounded_lt wellFounded_lt)

/-! ## What a run keeps -/

/-- What holds throughout the numbering of a group: the names taken are those taken before and those
given, every definition waits or has a name, every number looked at has a taken name, and what is
to come completes the numbering. -/
structure Underway (base : String) (before : List String) (names : List ν)
    (progress : Progress ν) : Prop where
  taken : progress.taken = progress.named.map (·.2) ++ before
  members : progress.named.length + progress.waiting.length = names.length
  lookedAt : ∀ k, 0 < k → k ≤ progress.counter → numbered base k ∈ progress.taken
  completes : progress.named.reverse ++
    numberGroup base progress.counter progress.taken progress.waiting =
      numberGroup base 0 before names

variable {before : List String} {names : List ν}

theorem underway_start (base : String) (before : List String) (names : List ν) :
    Underway base before names (.start before names) := by
  constructor
  · rfl
  · exact Nat.zero_add _
  · intro k positive le
    exact absurd le (Nat.not_le.mpr positive)
  · rfl

theorem Underway.pass (underway : Underway base before names progress)
    (pass : Pass base progress next) : Underway base before names next := by
  obtain ⟨taken, members, lookedAt, completes⟩ := underway
  cases pass with
  | @passOver counter used name waiting named isUsed =>
    constructor
    · exact taken
    · exact members
    · intro k positive le
      by_cases last : k = counter + 1
      · exact last ▸ isUsed
      · exact lookedAt k positive (by dsimp only at le ⊢; omega)
    · rw [← completes]
      dsimp only
      rw [numberGroup, numberGroup, freeNumber_of_used isUsed]
  | @give counter used name waiting named free =>
    dsimp only at taken members
    constructor
    · rw [taken]
      rfl
    · simp only [List.length_cons] at members ⊢
      omega
    · intro k positive le
      by_cases last : k = counter + 1
      · exact last ▸ List.mem_cons_self
      · exact List.mem_cons_of_mem _ (lookedAt k positive (by dsimp only at le ⊢; omega))
    · rw [← completes]
      dsimp only
      rw [List.reverse_cons, List.append_assoc, List.singleton_append, numberGroup,
        freeNumber_of_free free]

theorem Underway.reached (run : Relation.ReflTransGen (Pass base) (.start before names) progress) :
    Underway base before names progress := by
  induction run with
  | refl => exact underway_start base before names
  | tail _ pass ih => exact ih.pass pass

/-- The numbers looked at are no more than the definitions named and the names taken before. -/
theorem Underway.counter_le (underway : Underway base before names progress) :
    progress.counter ≤ progress.named.length + before.eraseDups.length := by
  have distinct : ((List.range progress.counter).map fun k => numbered base (k + 1)).Nodup := by
    apply List.nodup_range.map
    intro m n same
    have := numbered_injective base same
    omega
  have inside : (List.range progress.counter).map (fun k => numbered base (k + 1)) ⊆
      progress.named.map (·.2) ++ before.eraseDups := by
    intro name hn
    obtain ⟨k, hk, rfl⟩ := List.mem_map.mp hn
    have used := underway.lookedAt (k + 1) (by omega) (List.mem_range.mp hk)
    rw [underway.taken] at used
    rcases List.mem_append.mp used with given | earlier
    · exact List.mem_append_left _ given
    · exact List.mem_append_right _ (List.mem_eraseDups.mpr earlier)
  have bound := (distinct.subperm inside).length_le
  simpa using bound

/-- Every group is numbered to its end. -/
theorem exists_finished (base : String) (progress : Progress ν) :
    ∃ last, Relation.ReflTransGen (Pass base) progress last ∧ last.waiting = [] := by
  induction progress using (pass_wellFounded base).induction with
  | _ progress ih =>
    by_cases waits : progress.waiting = []
    · exact ⟨progress, .refl, waits⟩
    · obtain ⟨next, pass⟩ := exists_pass base waits
      obtain ⟨last, run, finished⟩ := ih next pass
      exact ⟨last, .head pass run, finished⟩

/-! ## All groups of a map -/

def basesOf (all : List (Claimant ν)) : List String := (all.map (·.base)).eraseDups

/-- The names that are taken when the definitions of a base name are named. -/
def takenAt (rootName : String) (all : List (Claimant ν)) (base : String) : List String :=
  takenBefore rootName all
    (rootName :: (basesOf all).filter fun base => !needsNumber rootName all base) (basesOf all) base

/-- The progress of the definitions of a base name before the first of them has a name. -/
def groupStart (rootName : String) (all : List (Claimant ν)) (base : String) : Progress ν :=
  .start (takenAt rootName all base) ((all.filter (·.base = base)).map (·.name))

/-- The passes for a group come to an end, where every member has its final name. -/
theorem exists_numbered (rootName : String) (all : List (Claimant ν)) {base : String}
    (known : base ∈ basesOf all) (number : needsNumber rootName all base = true) :
    ∃ last, Relation.ReflTransGen (Pass base) (groupStart rootName all base) last ∧
      last.waiting = [] ∧
      last.named.reverse.map (·.1) = (groupStart rootName all base).waiting ∧
      last.named ⊆ finalNames rootName all := by
  obtain ⟨last, run, finished⟩ := exists_finished base (groupStart rootName all base)
  have completes := (Underway.reached run).completes
  rw [finished, numberGroup, List.append_nil] at completes
  refine ⟨last, run, finished, ?_, fun entry he => ?_⟩
  · rw [completes, names_numberGroup]
    rfl
  · have group : nameGroup rootName all (takenAt rootName all base) base = last.named.reverse := by
      rw [completes, nameGroup, if_pos number]
    rw [finalNames, nameGroups_eq_flatMap _ _ _ (List.nodup_eraseDups _)]
    apply List.mem_flatMap.mpr
    refine ⟨base, known, ?_⟩
    change entry ∈ nameGroup rootName all (takenAt rootName all base) base
    rw [group]
    exact List.mem_reverse.mpr he

variable [DecidableEq ν]

/-- The entries of a map from names to base names, without that of the root. -/
def unrooted (root : ν) (entries : List (Claimant ν)) : List (Claimant ν) :=
  entries.filter (·.name ≠ root)

/-- The final names in a map from names to base names. The root gets the root name. -/
def finalNamesIn (root : ν) (rootName : String) (entries : List (Claimant ν)) :
    List (ν × String) :=
  let others := finalNames rootName (unrooted root entries)
  if entries.any (·.name = root) then (root, rootName) :: others else others

/-- The map from definitions to base names. The base name of the root is the root name. -/
def baseNames (root : ν) (options : Options) (types : List (Definition ν)) : List (Claimant ν) :=
  ((types.map (·.name)).eraseDups).map fun name =>
    ⟨name, if name = root then options.rootName
      else (borrowed? (loans root types) name).getD options.placeholderName⟩

theorem unrooted_baseNames (root : ν) (options : Options) (types : List (Definition ν)) :
    unrooted root (baseNames root options types) = claimants root options types := by
  rw [unrooted, baseNames, claimants, List.filter_map]
  apply List.map_congr_left
  intro name hn
  have other : name ≠ root := by simpa using (List.mem_filter.mp hn).2
  rw [if_neg other]

/-- Definitions get the final names in the map of their base names. -/
theorem finalNamesOf_eq (root : ν) (options : Options) (types : List (Definition ν)) :
    finalNamesOf root options types =
      finalNamesIn root options.rootName (baseNames root options types) := by
  have known : (baseNames root options types).any (·.name = root) = types.any (·.name = root) := by
    rw [Bool.eq_iff_iff]
    simp [baseNames]
  rw [finalNamesOf, finalNamesIn, unrooted_baseNames, known]

theorem mem_names_finalNamesIn (root : ν) (rootName : String) {entries : List (Claimant ν)}
    {entry : Claimant ν} (he : entry ∈ entries) :
    entry.name ∈ (finalNamesIn root rootName entries).map (·.1) := by
  rw [finalNamesIn]
  by_cases isRoot : entry.name = root
  · have there : entries.any (·.name = root) = true :=
      List.any_eq_true.mpr ⟨entry, he, decide_eq_true isRoot⟩
    rw [if_pos there, isRoot]
    exact List.mem_cons_self
  · have named : entry.name ∈ (finalNames rootName (unrooted root entries)).map (·.1) :=
      mem_names_finalNames rootName (List.mem_filter.mpr ⟨he, decide_eq_true isRoot⟩)
    split
    · exact List.mem_cons_of_mem _ named
    · exact named

theorem finalNames_subset (root : ν) (rootName : String) (entries : List (Claimant ν)) :
    finalNames rootName (unrooted root entries) ⊆ finalNamesIn root rootName entries := by
  rw [finalNamesIn]
  split
  · exact List.subset_cons_self _ _
  · exact List.Subset.refl _

end Naming

/-- In a map from names to base names, every entry gets a final name, whatever the root and its name
are. No search for a free number goes on for ever. In a group of one base name, no number is looked
at above the count of its members and of the names taken before it, and the passes end with every
member under its final name. -/
theorem numbering_ends {ν : Type} [DecidableEq ν] (root : ν) (rootName : String)
    (entries : List (Naming.Claimant ν)) :
    (∀ base, WellFounded fun next progress : Naming.Progress ν =>
      Naming.Pass base progress next) ∧
    (∀ base ∈ Naming.basesOf (Naming.unrooted root entries),
      Naming.needsNumber rootName (Naming.unrooted root entries) base = true →
      let start := Naming.groupStart rootName (Naming.unrooted root entries) base
      (∀ progress, Relation.ReflTransGen (Naming.Pass base) start progress →
        progress.counter ≤ start.waiting.length + start.taken.eraseDups.length) ∧
      ∃ last, Relation.ReflTransGen (Naming.Pass base) start last ∧ last.waiting = [] ∧
        last.named.reverse.map (·.1) = start.waiting ∧
        last.named ⊆ Naming.finalNamesIn root rootName entries) ∧
    ∀ entry ∈ entries,
      ∃ final, (entry.name, final) ∈ Naming.finalNamesIn root rootName entries := by
  refine ⟨Naming.pass_wellFounded, fun base known number => ⟨fun progress run => ?_, ?_⟩, ?_⟩
  · have underway := Naming.Underway.reached run
    have members := underway.members
    have bound := underway.counter_le
    dsimp only [Naming.groupStart, Naming.Progress.start]
    omega
  · obtain ⟨last, run, finished, names, final⟩ := Naming.exists_numbered rootName _ known number
    exact ⟨last, run, finished, names,
      List.Subset.trans final (Naming.finalNames_subset root rootName entries)⟩
  · intro entry he
    obtain ⟨⟨name, final⟩, hf, rfl⟩ :=
      List.mem_map.mp (Naming.mem_names_finalNamesIn root rootName he)
    exact ⟨final, hf⟩

/-- Two definitions of one base name, whose first number belongs to a third, and a root. -/
theorem numbering_ends_of_used_number :
    let entries : List (Naming.Claimant String) :=
      [⟨"a", "Item"⟩, ⟨"b", "Item"⟩, ⟨"c", "Item1"⟩, ⟨"top", "Root"⟩]
    let start := Naming.groupStart "Root" (Naming.unrooted "top" entries) "Item"
    start.waiting = ["a", "b"] ∧ start.taken = ["Root", "Item1"] ∧
      Naming.finalNamesIn "top" "Root" entries =
        [("top", "Root"), ("a", "Item2"), ("b", "Item3"), ("c", "Item1")] ∧
      (∀ progress, Relation.ReflTransGen (Naming.Pass "Item") start progress →
        progress.counter ≤ 4) ∧
      ∃ last, Relation.ReflTransGen (Naming.Pass "Item") start last ∧ last.waiting = [] := by
  intro entries start
  have known : "Item" ∈ Naming.basesOf (Naming.unrooted "top" entries) := by decide +kernel
  have number : Naming.needsNumber "Root" (Naming.unrooted "top" entries) "Item" = true := by
    decide +kernel
  obtain ⟨bound, last, run, finished, _⟩ :=
    (numbering_ends "top" "Root" entries).2.1 "Item" known number
  have waiting : start.waiting = ["a", "b"] := by decide +kernel
  have taken : start.taken = ["Root", "Item1"] := by decide +kernel
  refine ⟨waiting, taken, by decide +kernel, fun progress run => ?_, last, run, finished⟩
  exact bound progress run

end Exemplar
