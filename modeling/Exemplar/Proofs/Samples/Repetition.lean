import Exemplar.Proofs.Inference.Observations
import Exemplar.Proofs.Samples.Failure

/-!
# Samples seen again

Definitions depend on the samples through two things only: the first sample that
is refused, and the union of the samples' trees. A sample that was seen before
changes neither, whether it stood alone, and so was taken as it is, or was merged
with others. An item that an array repeats does not even change the tree of the
sample, for the array holds a merge of its items.
-/

namespace Exemplar

namespace Tree

/-- Trees that were there before add nothing to a merge. -/
theorem merge_append_of_subset {trees again : List Tree} (seen : again ⊆ trees) :
    merge (trees ++ again) = merge trees := by
  rw [merge_eq, merge_eq, List.eraseDups_append_of_subset seen]

/-- Samples that were there before add nothing to the union. -/
theorem combine_append_of_subset {samples again : List Json} (seen : again ⊆ samples)
    (distinct : ∀ value ∈ samples, value.DistinctKeys) :
    combine ((samples ++ again).map (·.node.tree)) = combine (samples.map (·.node.tree)) := by
  have distinct' : ∀ value ∈ samples ++ again, value.DistinctKeys := by
    intro value hv
    rcases List.mem_append.mp hv with first | second
    · exact distinct value first
    · exact distinct value (seen second)
  -- A sample alone is taken as it is, which is the same as being merged with itself.
  rw [combine_samples distinct, combine_samples distinct', List.map_append]
  exact merge_append_of_subset (List.map_subset _ seen)

end Tree

variable {options : Options} {samples samples' again : List Json}

/-- Samples of which the same is refused first, and whose trees have the same union, have the same
definitions or the same failure. -/
theorem definitionsOfSamples_congr (nonempty : samples ≠ []) (nonempty' : samples' ≠ [])
    (refused : samples.findSome? (Session.refusal? options.maxDepth) =
      samples'.findSome? (Session.refusal? options.maxDepth))
    (union : Tree.combine (samples.map (·.node.tree)) = Tree.combine (samples'.map (·.node.tree))) :
    definitionsOfSamples options samples = definitionsOfSamples options samples' := by
  cases first : samples.findSome? (Session.refusal? options.maxDepth) with
  | some failure =>
    have start := Session.sound_start options.maxDepth
    rw [definitionsOfSamples, definitionsOfSamples, start.observeAll_refused first,
      start.observeAll_refused (refused.symm.trans first)]
  | none =>
    obtain ⟨session, observed, sound⟩ := Session.start_observesAll first
    obtain ⟨session', observed', sound'⟩ := Session.start_observesAll (refused.symm.trans first)
    have roots := sound.solve_congr_of_union sound' (List.map_eq_nil_iff.not.mpr nonempty)
      (List.map_eq_nil_iff.not.mpr nonempty') union
    cases solved : session.solve with
    | error failure =>
      cases solved' : session'.solve with
      | error failure' =>
        rw [solved, solved'] at roots
        rw [definitionsOfSamples_of_unsolved observed solved,
          definitionsOfSamples_of_unsolved observed' solved', Except.error.inj roots]
      | ok inferred' =>
        rw [solved, solved'] at roots
        cases roots
    | ok inferred =>
      cases solved' : session'.solve with
      | error failure' =>
        rw [solved, solved'] at roots
        cases roots
      | ok inferred' =>
        rw [solved, solved'] at roots
        obtain ⟨types, named, named'⟩ :=
          sound.definitions_congr_of_root sound' solved solved' (Except.ok.inj roots) options
        rw [definitionsOfSamples_of_solved observed solved named,
          definitionsOfSamples_of_solved observed' solved' named']

/-- Samples that were seen before are not refused first. -/
theorem Session.findSome?_append_of_subset {limit : Nat} (seen : again ⊆ samples) :
    (samples ++ again).findSome? (refusal? limit) = samples.findSome? (refusal? limit) := by
  rw [List.findSome?_append]
  cases first : samples.findSome? (refusal? limit) with
  | some failure => rfl
  | none =>
    have accepted := List.findSome?_eq_none_iff.mp first
    exact List.findSome?_eq_none_iff.mpr fun value hv => accepted value (seen hv)

/-- Samples that were seen before change nothing. -/
theorem definitionsOfSamples_append_of_subset (seen : again ⊆ samples)
    (distinct : ∀ value ∈ samples, value.DistinctKeys) :
    definitionsOfSamples options (samples ++ again) = definitionsOfSamples options samples := by
  by_cases empty : samples = []
  · subst empty
    rw [List.subset_nil.mp seen]
    rfl
  · have nonempty : samples ++ again ≠ [] := by simp [empty]
    exact definitionsOfSamples_congr nonempty empty (Session.findSome?_append_of_subset seen)
      (Tree.combine_append_of_subset seen distinct)

/-! ## Items of arrays -/

namespace Json

/-- The second value is the first, but for one array in it that repeats one of its items at its
end. -/
inductive RepeatsItem : Json → Json → Prop
  | here {items : List Json} {item : Json} : item ∈ items →
      RepeatsItem (.array items) (.array (items ++ [item]))
  | inItem (before : List Json) {item item' : Json} (after : List Json) : RepeatsItem item item' →
      RepeatsItem (.array (before ++ item :: after)) (.array (before ++ item' :: after))
  | inMember (before : List (String × Json)) (name : String) {value value' : Json}
      (after : List (String × Json)) : RepeatsItem value value' →
      RepeatsItem (.object (before ++ (name, value) :: after))
        (.object (before ++ (name, value') :: after))

theorem nestingOfItems_append (before after : List Json) :
    nestingOfItems (before ++ after) = max (nestingOfItems before) (nestingOfItems after) := by
  induction before with
  | nil => simp [nestingOfItems]
  | cons item rest ih => rw [List.cons_append, nestingOfItems, nestingOfItems, ih, Nat.max_assoc]

theorem nestingOfMembers_append (before after : List (String × Json)) :
    nestingOfMembers (before ++ after) =
      max (nestingOfMembers before) (nestingOfMembers after) := by
  induction before with
  | nil => simp [nestingOfMembers]
  | cons m rest ih => rw [List.cons_append, nestingOfMembers, nestingOfMembers, ih, Nat.max_assoc]

namespace RepeatsItem

variable {value value' : Json}

theorem nesting_eq (repeats : RepeatsItem value value') : value'.nesting = value.nesting := by
  induction repeats with
  | here member =>
    have below := nesting_le_of_mem_items member
    simp only [nesting, nestingOfItems_append, nestingOfItems]
    omega
  | inItem before after _ ih =>
    simp only [nesting, nestingOfItems_append, nestingOfItems, ih]
  | inMember before name after _ ih =>
    simp only [nesting, nestingOfMembers_append, nestingOfMembers, ih]

theorem refusal?_eq (repeats : RepeatsItem value value') (limit : Nat) :
    Session.refusal? limit value' = Session.refusal? limit value := by
  have kind : value'.kind? = value.kind? := by cases repeats <;> rfl
  rw [Session.refusal?, Session.refusal?, kind, repeats.nesting_eq]

/-- To repeat an item does not change the tree. -/
theorem tree_eq (repeats : RepeatsItem value value') : value'.node.tree = value.node.tree := by
  induction repeats with
  | @here items item member =>
    have seen : [item.node.tree] ⊆ items.map (·.node.tree) := by
      simpa using ⟨item, member, rfl⟩
    simp only [node, Node.tree, Node.treesOfItems_nodesOfItems, List.map_append, List.map_singleton,
      Tree.merge_append_of_subset seen]
  | inItem before after _ ih =>
    simp only [node, Node.tree, Node.treesOfItems_nodesOfItems, List.map_append, List.map_cons, ih]
  | inMember before name after _ ih =>
    simp only [node, Node.tree, Node.fieldsOfMembers_nodesOfMembers, List.map_append, List.map_cons,
      ih]

end RepeatsItem

end Json

/-- A sample in which an array repeats an item has the definitions, or the failure, that it had. -/
theorem definitionsOfSamples_of_repeatsItem {before after : List Json} {value value' : Json}
    (repeats : value.RepeatsItem value') :
    definitionsOfSamples options (before ++ value' :: after) =
      definitionsOfSamples options (before ++ value :: after) := by
  apply definitionsOfSamples_congr (by simp) (by simp)
  · simp only [List.findSome?_append, List.findSome?_cons, repeats.refusal?_eq]
  · simp only [List.map_append, List.map_cons, repeats.tree_eq]

/-- Repetition changes nothing: neither a sample that was seen before, however often it is seen
again, nor an item that an array at any depth of a sample repeats. -/
theorem definitionsOfSamples_of_repetition (options : Options)
    (distinct : ∀ value ∈ samples, value.DistinctKeys) :
    (∀ value ∈ samples, ∀ times, definitionsOfSamples options
      (samples ++ List.replicate times value) = definitionsOfSamples options samples) ∧
    ∀ before value value' after, samples = before ++ value :: after → value.RepeatsItem value' →
      definitionsOfSamples options (before ++ value' :: after) =
        definitionsOfSamples options samples := by
  constructor
  · intro value sampled times
    refine definitionsOfSamples_append_of_subset ?_ distinct
    intro other ho
    exact List.eq_of_mem_replicate ho ▸ sampled
  · rintro before value value' after rfl repeats
    exact definitionsOfSamples_of_repeatsItem repeats

/-- A sample alone that is seen twice more, and one whose inner array repeats its first object. -/
theorem definitionsOfSamples_of_repetition_of_nested_array :
    let first : Json := .object [("b", .null), ("c", .array [])]
    let sample (items : List Json) : Json := .object [("a", .array [.array items, .boolean true])]
    let items : List Json := [first, .object [("b", .string "x")], .number (.integer 1)]
    let samples := [sample items]
    (∀ value ∈ samples, value.DistinctKeys) ∧ (sample items).RepeatsItem (sample (items ++ [first])) ∧
      (∃ types, definitionsOfSamples {} samples = .ok types) ∧
      definitionsOfSamples {} (samples ++ List.replicate 2 (sample items)) =
        definitionsOfSamples {} samples ∧
      definitionsOfSamples {} [sample (items ++ [first])] = definitionsOfSamples {} samples := by
  intro first sample items samples
  have distinct : ∀ value ∈ samples, value.DistinctKeys := by
    simp [samples, sample, items, first, Json.DistinctKeys, Json.DistinctKeysOfItems,
      Json.DistinctKeysOfMembers]
  have repeats : (sample items).RepeatsItem (sample (items ++ [first])) :=
    .inMember [] "a" [] (.inItem [] _ (.here List.mem_cons_self))
  obtain ⟨again, repeated⟩ := definitionsOfSamples_of_repetition {} distinct
  exact ⟨distinct, repeats, exists_definitionsOfSamples_iff.mpr rfl,
    again _ List.mem_cons_self 2, repeated [] _ _ [] rfl repeats⟩

end Exemplar
