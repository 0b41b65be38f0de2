import Exemplar.Proofs.Inference.Session
import Exemplar.Proofs.Store.Unfolding
import Exemplar.Proofs.Tree.Tightness

/-!
# How much is inferred

The tree of a value describes that value, and the union of several trees is
attested by the samples. So no type without a choice that covers the samples
accepts less than the shape inferred from them.
-/

namespace Exemplar

namespace Tree

theorem Attested.combine {trees : List Tree} {values : Json → Prop}
    (attested : Attested trees values) : Attested (combine trees) values := by
  match trees with
  | [] => exact Attested.merge attested
  | [tree] => exact attested
  | first :: second :: rest => exact Attested.merge attested

end Tree

namespace Node

open Exemplar.Tree

mutual

/-- The tree of a value describes the value. -/
theorem describes_tree (value : Json) : Describes value.node.tree (· = value) := by
  match value with
  | .null => exact fun _ same => same ▸ rfl
  | .boolean _ => exact fun _ same => same ▸ rfl
  | .number _ => exact fun _ same => same ▸ rfl
  | .string _ => exact fun _ same => same ▸ rfl
  | .array items =>
    refine ⟨fun _ same => ⟨items, same⟩, Attested.merge (attested_iff.mpr fun tree ht => ?_)⟩
    refine (attested_treesOfItems items tree ht).mono fun part hp => ⟨items, rfl, hp⟩
  | .object members =>
    refine ⟨fun _ same => ⟨members, same⟩, fun name all => ?_, ?_⟩
    · obtain ⟨_, same, m, hm, rfl⟩ := all _ rfl
      cases same
      exact mandatory_fieldsOfMembers hm
    · refine attestedFields_iff.mpr fun field hf => attested_iff.mpr ?_
      intro tree ht
      refine (attested_fieldsOfMembers members field hf tree ht).mono ?_
      intro part hp
      exact ⟨members, rfl, hp⟩

theorem attested_treesOfItems (items : List Json) :
    ∀ tree ∈ treesOfItems (Json.nodesOfItems items), AttestedBy (· ∈ items) tree := by
  match items with
  | [] => simp [Json.nodesOfItems, treesOfItems]
  | item :: rest =>
    intro tree ht
    rcases List.mem_cons.mp ht with rfl | ht
    · refine ⟨(· = item), ⟨item, rfl⟩, ?_, describes_tree item⟩
      exact fun value same => List.mem_cons.mpr (Or.inl same)
    · exact (attested_treesOfItems rest tree ht).mono fun value => List.mem_cons_of_mem item

theorem attested_fieldsOfMembers (members : List (String × Json)) :
    ∀ field ∈ fieldsOfMembers (Json.nodesOfMembers members), ∀ tree ∈ field.type,
      AttestedBy (fun part => (field.name, part) ∈ members) tree := by
  match members with
  | [] => simp [Json.nodesOfMembers, fieldsOfMembers]
  | (name, value) :: rest =>
    intro field hf tree ht
    rcases List.mem_cons.mp hf with rfl | hf
    · cases List.mem_singleton.mp ht
      refine ⟨(· = value), ⟨value, rfl⟩, ?_, describes_tree value⟩
      exact fun part same => same ▸ List.mem_cons_self
    · refine (attested_fieldsOfMembers rest field hf tree ht).mono ?_
      intro part hp
      exact List.mem_cons_of_mem _ hp

end

end Node

namespace Session

/-- Of all types with one object and one array per position, the inferred root is the tightest
that accepts the samples. -/
theorem solve_tightest {limit : Nat} {samples : List Json} {session : Session}
    {inferred : Inferred} (observed : (start limit).observeAll samples = .ok session)
    (solved : session.solve = .ok inferred) {types : List Tree} (narrow : Tree.Narrow types)
    (covers : ∀ value ∈ samples, Tree.AcceptsAny types value) {value : Json}
    (accepted : inferred.store.Accepts inferred.root value) : Tree.AcceptsAny types value := by
  obtain ⟨_, sound⟩ := (sound_start limit).observeAll observed
  obtain ⟨ordered, there, union⟩ := sound.solve solved
  have trees : Tree.Attested (samples.map (·.node.tree)) (· ∈ samples) := by
    refine Tree.attested_iff.mpr ?_
    intro tree ht
    obtain ⟨sample, hs, rfl⟩ := List.mem_map.mp ht
    refine ⟨(· = sample), ⟨sample, rfl⟩, ?_, Node.describes_tree sample⟩
    exact fun _ same => same ▸ hs
  have root : Tree.Attested [inferred.root.tree] (· ∈ samples) := by
    rw [← union, List.nil_append]
    exact trees.combine
  rw [Store.accepts_iff_tree ordered there] at accepted
  exact Tree.accepts_of_attested narrow (Tree.attested_iff.mp root _ List.mem_cons_self) covers
    accepted

/-- Two records with the same keys. The value has the number of one and the text of the other. -/
theorem solve_tightest_of_two_records :
    let samples : List Json :=
      [.object [("a", .number (.integer 1)), ("b", .null)],
        .object [("a", .boolean true), ("b", .string "x")]]
    let types : List Tree :=
      [.object [⟨"a", [.primitive .number, .primitive .boolean], true⟩,
        ⟨"b", [.primitive .null, .primitive .string], false⟩]]
    let value : Json := .object [("b", .string "y"), ("a", .number (.integer 2))]
    Tree.Narrow types ∧ (∀ sample ∈ samples, Tree.AcceptsAny types sample) ∧
      ∃ session inferred, (start 1).observeAll samples = .ok session ∧
        session.solve = .ok inferred ∧ inferred.store.Accepts inferred.root value ∧
          Tree.AcceptsAny types value := by
  intro samples types value
  have narrow : Tree.Narrow types := by
    constructor
    · simp [types]
    · simp [types]
    · intro fields hf name
      cases List.mem_singleton.mp hf
      by_cases a : name = "a"
      · rw [a]
        exact Tree.narrow_primitives [.number, .boolean]
      · by_cases b : name = "b"
        · rw [b]
          exact Tree.narrow_primitives [.null, .string]
        · simpa [Tree.alternativesAt, Ne.symm a, Ne.symm b] using Tree.narrow_primitives []
    · simp [types]
  have covers : ∀ sample ∈ samples, Tree.AcceptsAny types sample := by decide
  let root : Composite Key := .object
    [⟨"a", [.primitive .number, .primitive .boolean], false⟩,
      ⟨"b", [.primitive .null, .primitive .string], false⟩]
  have found : (((start 1).observeAll samples).toOption.bind (·.solve.toOption)).map (·.root) =
      some (.address root) := by decide +kernel
  refine ⟨narrow, covers, ?_⟩
  cases observed : (start 1).observeAll samples with
  | error failure => rw [observed] at found; cases found
  | ok session =>
    cases solved : session.solve with
    | error failure => simp [observed, solved, Except.toOption] at found
    | ok inferred =>
      simp only [observed, solved, Except.toOption, Option.bind_some, Option.map_some,
        Option.some.injEq] at found
      obtain ⟨_, sound⟩ := (sound_start 1).observeAll observed
      obtain ⟨ordered, there, _⟩ := sound.solve solved
      have accepted : inferred.store.Accepts inferred.root value := by
        rw [Store.accepts_iff_tree ordered there, found]
        decide
      exact ⟨session, inferred, rfl, solved, accepted,
        solve_tightest observed solved narrow covers accepted⟩

end Session

end Exemplar
