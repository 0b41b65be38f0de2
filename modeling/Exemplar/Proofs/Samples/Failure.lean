import Exemplar.Proofs.Definition.Serialization
import Exemplar.Proofs.Inference.Items

/-!
# When samples have no definitions

The first sample that is refused decides. Where none is refused, no sample at
all has no type, and an array has none in common with an object. In all other
cases there are definitions, and a larger limit on nesting does not change them.
No fault of the engine is met.
-/

namespace Exemplar

namespace Json

def isArray : Json → Bool
  | .array _ => true
  | _ => false

def isObject : Json → Bool
  | .object _ => true
  | _ => false

end Json

/-- Why samples have no common type: one is refused, or there is none, or they are arrays as well
as objects. -/
def failure? (limit : Nat) (samples : List Json) : Option Failure :=
  match samples.findSome? (Session.refusal? limit) with
  | some failure => some failure
  | none =>
    if samples.isEmpty then some .noSamples
    else if samples.any (·.isArray) && samples.any (·.isObject) then some (.incompatible 2)
    else none

namespace Tree

variable {trees : List Tree} {samples : List Json}

/-- Containers have two alternatives if they are arrays as well as objects, and else one. -/
theorem length_combine_of_containers (containers : ∀ tree ∈ trees, tree.kind? = none)
    (nonempty : trees ≠ []) :
    (combine trees).length = if arrays trees ≠ [] ∧ objects trees ≠ [] then 2 else 1 := by
  match trees with
  | [] => exact absurd rfl nonempty
  | [.primitive kind] => cases containers _ List.mem_cons_self
  | [.array elements] => rfl
  | [.object fields] => rfl
  | first :: second :: rest =>
    have either : arrays (first :: second :: rest) ≠ [] ∨ objects (first :: second :: rest) ≠ [] := by
      have container := containers first List.mem_cons_self
      cases first with
      | primitive kind => cases container
      | array elements => exact .inl (List.cons_ne_nil _ _)
      | object fields => exact .inr (List.cons_ne_nil _ _)
    have merged := length_merge_of_containers containers
    change (merge (first :: second :: rest)).length = _
    by_cases ho : objects (first :: second :: rest) = [] <;>
      by_cases ha : arrays (first :: second :: rest) = [] <;> simp_all

/-- There are trees of some form among the trees of samples if there are samples of that form. -/
theorem filterMap_samples_ne_nil {α : Type} {part? : Tree → Option α} {form : Json → Bool}
    (same : ∀ value : Json, part? value.node.tree = none ↔ ¬ form value = true) :
    (samples.map (·.node.tree)).filterMap part? ≠ [] ↔ samples.any form = true := by
  simp only [Ne, List.filterMap_map, List.filterMap_eq_nil_iff, Function.comp, same,
    List.any_eq_true, not_forall, not_not, exists_prop]

theorem arrays_samples_ne_nil :
    arrays (samples.map (·.node.tree)) ≠ [] ↔ samples.any (·.isArray) = true := by
  refine filterMap_samples_ne_nil fun value => ?_
  cases value <;> simp [Json.node, Node.tree, elements?, Json.isArray]

theorem objects_samples_ne_nil :
    objects (samples.map (·.node.tree)) ≠ [] ↔ samples.any (·.isObject) = true := by
  refine filterMap_samples_ne_nil fun value => ?_
  cases value <;> simp [Json.node, Node.tree, fields?, Json.isObject]

/-- Samples that are not refused have two alternatives if they are arrays as well as objects, and
else one. -/
theorem length_combine_samples (nonempty : samples ≠ [])
    (containers : ∀ value ∈ samples, value.kind? = none) :
    (combine (samples.map (·.node.tree))).length =
      if samples.any (·.isArray) && samples.any (·.isObject) then 2 else 1 := by
  have present : samples.map (·.node.tree) ≠ [] := List.map_eq_nil_iff.not.mpr nonempty
  rw [length_combine_of_containers (containers_samples containers) present]
  simp only [arrays_samples_ne_nil, objects_samples_ne_nil, Bool.and_eq_true]

end Tree

variable {options : Options} {samples : List Json} {limit : Nat}

namespace Session

theorem refused_none_of_le {above : Nat} (room : limit ≤ above)
    (accepted : samples.findSome? (refusal? limit) = none) :
    samples.findSome? (refusal? above) = none := by
  rw [List.findSome?_eq_none_iff] at accepted ⊢
  intro value hv
  obtain ⟨container, fits⟩ := refusal?_eq_none_iff.mp (accepted value hv)
  exact refusal?_eq_none_iff.mpr ⟨container, Nat.le_trans fits room⟩

theorem containers_of_accepted (accepted : samples.findSome? (refusal? limit) = none) :
    ∀ value ∈ samples, value.kind? = none := by
  intro value hv
  exact (refusal?_eq_none_iff.mp (List.findSome?_eq_none_iff.mp accepted value hv)).1

/-- Arrays alone, and objects alone, are solved by a root that does not depend on the limit. -/
theorem solves_uniform (nonempty : samples ≠ [])
    (accepted : samples.findSome? (refusal? limit) = none)
    (uniform : ¬ (samples.any (·.isArray) && samples.any (·.isObject)) = true) :
    ∃ root, ∀ above, limit ≤ above → ∃ session store,
      (start above).observeAll samples = .ok session ∧ session.solve = .ok ⟨store, root⟩ ∧
        store.Ordered ∧ store.contains root = true := by
  have containers := containers_of_accepted accepted
  have one := Tree.length_combine_samples nonempty containers
  rw [if_neg uniform] at one
  obtain ⟨tree, shape, alone, same⟩ :=
    Tree.exists_composite_of_length_eq_one (Tree.containers_samples containers) one
  refine ⟨.address shape, fun above room => ?_⟩
  obtain ⟨session, observed, sound⟩ := start_observesAll (refused_none_of_le room accepted)
  obtain ⟨store, solved, ordered, there⟩ := sound.solves alone same
  exact ⟨session, store, observed, solved, ordered, there⟩

/-- Arrays and objects are observed, but have no root in common. -/
theorem solve_mixed (nonempty : samples ≠ [])
    (accepted : samples.findSome? (refusal? limit) = none)
    (mixed : (samples.any (·.isArray) && samples.any (·.isObject)) = true) :
    ∃ session, (start limit).observeAll samples = .ok session ∧
      session.solve = .error (.incompatible 2) := by
  obtain ⟨session, observed, sound⟩ := start_observesAll accepted
  have two := Tree.length_combine_samples nonempty (containers_of_accepted accepted)
  rw [if_pos mixed] at two
  have several : (Tree.combine (samples.map (·.node.tree))).length ≠ 1 := by
    rw [two]
    decide
  have present : samples.map (·.node.tree) ≠ [] := List.map_eq_nil_iff.not.mpr nonempty
  have refused := sound.solve_incompatible present several
  rw [two] at refused
  exact ⟨session, observed, refused⟩

end Session

/-- No failure of samples is a fault. -/
theorem failure?_ne_fault (fault : Fault) : failure? limit samples ≠ some (.fault fault) := by
  intro failed
  rw [failure?] at failed
  cases refused : samples.findSome? (Session.refusal? limit) with
  | some failure =>
    simp only [refused, Option.some.injEq] at failed
    obtain ⟨value, _, reason⟩ := List.exists_of_findSome?_eq_some refused
    exact Session.refusal?_ne_fault limit value fault (failed ▸ reason)
  | none =>
    simp only [refused] at failed
    split at failed
    · cases failed
    · split at failed <;> cases failed

/-- Samples have no failure if there are some, none is refused and they are of one form. -/
theorem failure?_eq_none_iff : failure? limit samples = none ↔
    samples ≠ [] ∧ (∀ value ∈ samples, Session.refusal? limit value = none) ∧
      ¬ (samples.any (·.isArray) = true ∧ samples.any (·.isObject) = true) := by
  rw [← List.findSome?_eq_none_iff, failure?]
  cases refused : samples.findSome? (Session.refusal? limit) with
  | some failure => simp
  | none =>
    simp only [List.isEmpty_iff, Bool.and_eq_true]
    by_cases empty : samples = []
    · rw [if_pos empty]
      exact iff_of_false (Option.some_ne_none _) fun clear => clear.1 empty
    · rw [if_neg empty]
      by_cases mixed : samples.any (·.isArray) = true ∧ samples.any (·.isObject) = true
      · rw [if_pos mixed]
        exact iff_of_false (Option.some_ne_none _) fun clear => clear.2.2 mixed
      · rw [if_neg mixed]
        exact iff_of_true rfl ⟨empty, trivial, mixed⟩

theorem definitionsOfSamples_of_unsolved {session : Session} {failure : Failure}
    (observed : (Session.start options.maxDepth).observeAll samples = .ok session)
    (unsolved : session.solve = .error failure) :
    definitionsOfSamples options samples = .error failure := by
  rw [definitionsOfSamples, observed]
  change (session.solve >>= fun inferred => _) = _
  rw [unsolved]
  rfl

theorem definitionsOfSamples_of_solved {session : Session} {inferred : Inferred}
    {types : List (Definition String)}
    (observed : (Session.start options.maxDepth).observeAll samples = .ok session)
    (solved : session.solve = .ok inferred)
    (named : definitions inferred.store inferred.root options = .ok types) :
    definitionsOfSamples options samples = .ok types := by
  rw [definitionsOfSamples, observed]
  change (session.solve >>= fun inferred => _) = _
  rw [solved]
  change (definitions inferred.store inferred.root options).mapError Failure.fault = _
  rw [named]
  rfl

/-- Arrays alone, and objects alone, have definitions, which are the same under a larger limit. -/
theorem definitionsOfSamples_uniform (nonempty : samples ≠ [])
    (accepted : samples.findSome? (Session.refusal? options.maxDepth) = none)
    (uniform : ¬ (samples.any (·.isArray) && samples.any (·.isObject)) = true) :
    ∃ types, ∀ above, options.maxDepth ≤ above →
      definitionsOfSamples { options with maxDepth := above } samples = .ok types := by
  obtain ⟨root, solves⟩ := Session.solves_uniform nonempty accepted uniform
  obtain ⟨_, store, _, _, ordered, there⟩ := solves options.maxDepth (Nat.le_refl _)
  obtain ⟨types, named, _⟩ := definitions_ok ordered there options
  refine ⟨types, fun above room => ?_⟩
  obtain ⟨session, store', observed, solved, ordered', there'⟩ := solves above room
  refine definitionsOfSamples_of_solved observed solved ?_
  rw [← named]
  exact definitions_congr ordered' ordered there' there options

theorem definitionsOfSamples_eq_error {failure : Failure}
    (failed : failure? options.maxDepth samples = some failure) :
    definitionsOfSamples options samples = .error failure := by
  have start := Session.sound_start options.maxDepth
  rw [failure?] at failed
  cases refused : samples.findSome? (Session.refusal? options.maxDepth) with
  | some first =>
    simp only [refused, Option.some.injEq] at failed
    rw [definitionsOfSamples, start.observeAll_refused refused, failed]
    rfl
  | none =>
    simp only [refused, List.isEmpty_iff] at failed
    split at failed
    next empty =>
      cases failed
      rw [empty]
      exact definitionsOfSamples_of_unsolved rfl start.solve_nil
    next nonempty =>
      split at failed
      next mixed =>
        cases failed
        obtain ⟨session, observed, unsolved⟩ := Session.solve_mixed nonempty refused mixed
        exact definitionsOfSamples_of_unsolved observed unsolved
      next => cases failed

theorem definitionsOfSamples_eq_ok (clear : failure? options.maxDepth samples = none) :
    ∃ types, ∀ above, options.maxDepth ≤ above →
      definitionsOfSamples { options with maxDepth := above } samples = .ok types := by
  rw [failure?] at clear
  cases refused : samples.findSome? (Session.refusal? options.maxDepth) with
  | some first =>
    rw [refused] at clear
    cases clear
  | none =>
    simp only [refused, List.isEmpty_iff] at clear
    split at clear
    next => cases clear
    next nonempty =>
      split at clear
      next => cases clear
      next uniform => exact definitionsOfSamples_uniform nonempty refused uniform

/-- Samples have definitions exactly if they have no failure. -/
theorem exists_definitionsOfSamples_iff :
    (∃ types, definitionsOfSamples options samples = .ok types) ↔
      failure? options.maxDepth samples = none := by
  constructor
  · rintro ⟨types, ok⟩
    cases failed : failure? options.maxDepth samples with
    | none => rfl
    | some failure => cases ok.symm.trans (definitionsOfSamples_eq_error failed)
  · intro clear
    obtain ⟨types, ok⟩ := definitionsOfSamples_eq_ok clear
    exact ⟨types, ok options.maxDepth (Nat.le_refl _)⟩

/-- What becomes of samples is known beforehand: they fail as `failure?` says, never with a fault,
or have definitions that no larger limit changes. -/
theorem definitionsOfSamples_outcome (options : Options) (samples : List Json) :
    (∀ fault, definitionsOfSamples options samples ≠ .error (.fault fault)) ∧
      match failure? options.maxDepth samples with
      | some failure => definitionsOfSamples options samples = .error failure
      | none => ∃ types, definitionsOfSamples options samples = .ok types ∧ ∀ more,
          definitionsOfSamples { options with maxDepth := options.maxDepth + more } samples =
            .ok types := by
  cases failed : failure? options.maxDepth samples with
  | some failure =>
    have stopped := definitionsOfSamples_eq_error failed
    refine ⟨fun fault same => ?_, stopped⟩
    have broken : failure = .fault fault := Except.error.inj (stopped.symm.trans same)
    exact failure?_ne_fault fault (failed.trans (congrArg some broken))
  | none =>
    obtain ⟨types, ok⟩ := definitionsOfSamples_eq_ok failed
    have here := ok options.maxDepth (Nat.le_refl _)
    refine ⟨fun fault same => ?_, types, here, fun more => ok _ (Nat.le_add_right _ more)⟩
    cases here.symm.trans same

end Exemplar
