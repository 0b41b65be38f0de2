import Exemplar.Proofs.Definition.Serialization
import Exemplar.Proofs.Inference.Soundness

/-!
# Samples and the definitions made from them

Where the whole way succeeds, the root definition accepts what the union of the
samples' trees accepts. That union accepts each sample, so the definitions do.
-/

namespace Exemplar

variable {options : Options} {samples : List Json} {types : List (Definition String)}

/-- The stages of a success. -/
theorem stages_of_definitionsOfSamples (ok : definitionsOfSamples options samples = .ok types) :
    ∃ session inferred, (Session.start options.maxDepth).observeAll samples = .ok session ∧
      session.solve = .ok inferred ∧
        definitions inferred.store inferred.root options = .ok types := by
  rw [definitionsOfSamples] at ok
  cases observed : (Session.start options.maxDepth).observeAll samples with
  | error failure => rw [observed] at ok; cases ok
  | ok session =>
    rw [observed] at ok
    cases solved : session.solve with
    | error failure =>
      simp only [bind, Except.bind, solved] at ok
      cases ok
    | ok inferred =>
      simp only [bind, Except.bind, solved] at ok
      cases named : definitions inferred.store inferred.root options with
      | error fault => rw [named] at ok; cases ok
      | ok found =>
        rw [named] at ok
        cases ok
        exact ⟨session, inferred, rfl, solved, named⟩

/-- The definitions of samples accept what the union of their trees accepts. -/
theorem rootAccepts_iff_combine (ok : definitionsOfSamples options samples = .ok types)
    (value : Json) : Definition.RootAccepts types value ↔
      Tree.AcceptsAny (Tree.combine (samples.map (·.node.tree))) value := by
  obtain ⟨session, inferred, observed, solved, named⟩ := stages_of_definitionsOfSamples ok
  obtain ⟨_, sound⟩ := (Session.sound_start options.maxDepth).observeAll observed
  obtain ⟨ordered, there, union⟩ := sound.solve solved
  obtain ⟨found, named', means⟩ := definitions_ok ordered there options
  cases named.symm.trans named'
  rw [means, ← List.nil_append (samples.map (·.node.tree)), union]
  exact (iff_of_eq (or_false _)).symm

/-- The definitions of samples accept every sample. -/
theorem samples_rootAccepts (distinct : ∀ value ∈ samples, value.DistinctKeys)
    (ok : definitionsOfSamples options samples = .ok types) :
    ∀ value ∈ samples, Definition.RootAccepts types value := by
  intro value sampled
  rw [rootAccepts_iff_combine ok]
  exact Tree.accepts_samples distinct sampled

/-- Objects, arrays and primitives under one key, in samples of which one has a key more. -/
theorem mixed_samples_rootAccepts :
    let samples : List Json :=
      [.object [("a", .array [.object [("b", .null)], .boolean true])],
        .object [("a", .array [.object [("c", .string "x")], .array []]), ("d", .boolean false)]]
    (∀ value ∈ samples, value.DistinctKeys) ∧
      ∃ types, definitionsOfSamples {} samples = .ok types ∧
        ∀ value ∈ samples, Definition.RootAccepts types value := by
  intro samples
  have distinct : ∀ value ∈ samples, value.DistinctKeys := by
    simp [samples, Json.DistinctKeys, Json.DistinctKeysOfItems, Json.DistinctKeysOfMembers]
  have succeeds : (definitionsOfSamples {} samples).isOk = true := by decide +kernel
  refine ⟨distinct, ?_⟩
  cases ok : definitionsOfSamples {} samples with
  | error failure => rw [ok] at succeeds; cases succeeds
  | ok types => exact ⟨types, rfl, samples_rootAccepts distinct ok⟩

end Exemplar
