import Exemplar.Proofs.Definition.NormalForm
import Exemplar.Proofs.Samples

/-!
# The normal form of definitions made from samples

The trees of samples are regular, and so is what they are combined into. Hence
the definitions made from samples are in normal form, whatever the samples.
-/

namespace Exemplar

variable {options : Options} {samples : List Json} {types : List (Definition String)}

/-- Definitions made from samples are well-formed and in normal form. No two of them unfold to the
same, and the root unfolds to the union of the samples. -/
theorem definitionsOfSamples_normalForm (ok : definitionsOfSamples options samples = .ok types) :
    Definition.WellFormed options.rootName types ∧ ∃ unfolding tree,
      Definition.NormalForm unfolding (Definition.DefinesObject types)
        (Definition.DefinesArray types) types ∧
      ((Definition.names types).map unfolding).Nodup ∧
      Tree.combine (samples.map (·.node.tree)) = [tree] ∧
      unfolding options.rootName = tree.type := by
  obtain ⟨session, inferred, observed, solved, named⟩ := stages_of_definitionsOfSamples ok
  obtain ⟨_, sound⟩ := (Session.sound_start options.maxDepth).observeAll observed
  obtain ⟨ordered, there, _⟩ := sound.solve solved
  obtain ⟨tree, shape, alone, kept, root⟩ := sound.root_eq solved
  have regular : ∀ tree ∈ Tree.combine ([] ++ samples.map (·.node.tree)), tree.Regular := by
    apply Tree.regular_combine
    rw [List.nil_append]
    exact List.forall_mem_map.mpr fun value _ => value.node.regular_tree
  have stands : Collect.Stands shape := by
    rw [alone] at regular
    exact ⟨tree, regular tree List.mem_cons_self, kept⟩
  rw [root] at there named
  obtain ⟨found, unfolding, named', wellFormed, normalForm, distinct, rooted⟩ :=
    definitions_normalForm ordered there stands options
  cases named.symm.trans named'
  rw [Key.treeOfComposite_of_composite? kept] at rooted
  exact ⟨wellFormed, unfolding, tree, normalForm, distinct, alone, rooted⟩

/-- Definitions made from samples are in normal form. In every body, unions are flat and have
several different alternatives, no object stands in place, and `never` is a whole element. In every
field, there is at most one reference to an object, then at most one array, in place or by
reference to another definition than the root, and then distinct primitive kinds, and there is one
of these. -/
theorem definitionsOfSamples_normal (ok : definitionsOfSamples options samples = .ok types) :
    ∀ t ∈ types, t.body.Normal id ∧
      t.body.InOrder (Definition.DefinesObject types) (Definition.DefinesArray types) := by
  obtain ⟨_, unfolding, _, normalForm, _⟩ := definitionsOfSamples_normalForm ok
  exact fun t ht => ⟨(normalForm.normal t ht).distinct, normalForm.inOrder t ht⟩

/-- Objects, arrays and primitives under one key, an array that held nothing, and arrays that nest
too deep to be written in place. -/
theorem definitionsOfSamples_normal_of_deep_arrays :
    let deep : Json :=
      .array [.array [.array [.array [.array [.array [.array [.object [], .null, .array []]]]]]]]
    let samples : List Json :=
      [.object [("a", .object [("b", .null)]), ("c", deep)],
        .object [("a", .array []), ("c", .string "x")], .object [("a", .boolean true)]]
    ∃ types, definitionsOfSamples {} samples = .ok types ∧
      ∀ t ∈ types, t.body.Normal id ∧
        t.body.InOrder (Definition.DefinesObject types) (Definition.DefinesArray types) := by
  intro deep samples
  have succeeds : (definitionsOfSamples {} samples).isOk = true := by decide +kernel
  cases ok : definitionsOfSamples {} samples with
  | error failure => rw [ok] at succeeds; cases succeeds
  | ok types => exact ⟨types, rfl, definitionsOfSamples_normal ok⟩

end Exemplar
