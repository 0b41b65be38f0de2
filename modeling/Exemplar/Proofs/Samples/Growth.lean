import Exemplar.Proofs.Samples
import Exemplar.Proofs.Samples.Failure
import Exemplar.Proofs.Tree.Inclusion

/-!
# More samples

Where the trees of some samples lie below those of others, so do the unions of
them, whether a union is a single tree or a merge. In particular more samples
never take away what the definitions of fewer samples accept.
-/

namespace Exemplar

variable {options : Options} {samples more : List Json} {types types' : List (Definition String)}

/-- If the trees of samples lie below others, so does the union. -/
theorem Tree.AllLe.combine (distinct : ∀ value ∈ samples, value.DistinctKeys)
    (distinct' : ∀ value ∈ more, value.DistinctKeys)
    (le : AllLe (samples.map (·.node.tree)) (more.map (·.node.tree))) :
    AllLe (combine (samples.map (·.node.tree))) (combine (more.map (·.node.tree))) := by
  rw [combine_samples distinct, combine_samples distinct']
  refine le.merge fun tree ht => ?_
  obtain ⟨value, hv, rfl⟩ := List.mem_map.mp ht
  exact Node.plain_tree (distinct' value hv)

/-- The definitions of samples whose trees lie below accept no more. -/
theorem rootAccepts_of_allLe (distinct : ∀ value ∈ samples, value.DistinctKeys)
    (distinct' : ∀ value ∈ more, value.DistinctKeys)
    (le : Tree.AllLe (samples.map (·.node.tree)) (more.map (·.node.tree)))
    (ok : definitionsOfSamples options samples = .ok types)
    (ok' : definitionsOfSamples options more = .ok types') {value : Json}
    (accepted : Definition.RootAccepts types value) : Definition.RootAccepts types' value := by
  rw [rootAccepts_iff_combine ok] at accepted
  rw [rootAccepts_iff_combine ok']
  exact (le.combine distinct distinct').acceptsAny accepted

/-- What the definitions of some samples accept, those of more samples accept. -/
theorem rootAccepts_mono (distinct : ∀ value ∈ more, value.DistinctKeys) (added : samples ⊆ more)
    (ok : definitionsOfSamples options samples = .ok types)
    (ok' : definitionsOfSamples options more = .ok types') {value : Json}
    (accepted : Definition.RootAccepts types value) : Definition.RootAccepts types' value := by
  have distinct' : ∀ value ∈ samples, value.DistinctKeys := fun value hv => distinct value (added hv)
  have le := Tree.allLe_of_subset (List.map_subset (fun value : Json => value.node.tree) added)
  exact rootAccepts_of_allLe distinct' distinct le ok ok' accepted

/-- A sample alone, and the same sample between two that lack its keys or have others. -/
theorem rootAccepts_mono_of_three_samples :
    let sample : Json := .object [("a", .number (.integer 1)), ("b", .object [("c", .null)])]
    let more : List Json :=
      [.object [("a", .string "x")], sample,
        .object [("b", .object [("d", .array [.object [], .array []])]), ("a", .null)]]
    let value : Json := .object [("b", .object [("c", .null)]), ("a", .number (.integer 2))]
    (∀ value ∈ more, value.DistinctKeys) ∧ [sample] ⊆ more ∧
      ∃ types types', definitionsOfSamples {} [sample] = .ok types ∧
        definitionsOfSamples {} more = .ok types' ∧ Definition.RootAccepts types value ∧
          Definition.RootAccepts types' value := by
  intro sample more value
  have distinct : ∀ value ∈ more, value.DistinctKeys := by
    simp [more, sample, Json.DistinctKeys, Json.DistinctKeysOfItems, Json.DistinctKeysOfMembers]
  have added : [sample] ⊆ more := by simp [more]
  obtain ⟨types, ok⟩ : ∃ types, definitionsOfSamples {} [sample] = .ok types :=
    exists_definitionsOfSamples_iff.mpr rfl
  obtain ⟨types', ok'⟩ : ∃ types', definitionsOfSamples {} more = .ok types' :=
    exists_definitionsOfSamples_iff.mpr rfl
  have accepted : Definition.RootAccepts types value := by
    rw [rootAccepts_iff_combine ok]
    decide
  exact ⟨distinct, added, types, types', ok, ok', accepted,
    rootAccepts_mono distinct added ok ok' accepted⟩

end Exemplar
