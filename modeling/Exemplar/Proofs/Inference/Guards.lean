import Exemplar.Proofs.Inference.Outcome
import Exemplar.Proofs.Store.Steadiness

/-!
# The two depth guards

Loading a value counts the levels of its containers, and inferring the shape of
a node counts them again. Both stop at the same level and with the same failure.

Whether inference reaches its end does not depend on the store it starts from:
in the store without shapes it fails only at its guard, and a run that ends so
ends alike in every store that holds more. The store need not be closed under
references.
-/

namespace Exemplar

/-- A failure of a depth guard. -/
def Failure.OfDepth (failure : Failure) : Prop := ∃ limit, failure = .tooDeep limit

section Guarded

variable {ε α : Type} {fits : Prop} [Decidable fits] {a : α} {e : ε}

/-- What stands behind a guard is reached exactly if the guard lets it. -/
theorem exists_guarded_iff :
    (∃ b, (if fits then .ok a else .error e : Except ε α) = .ok b) ↔ fits := by
  split
  next holds => exact iff_of_true ⟨a, rfl⟩ holds
  next fails => exact iff_of_false (fun ⟨_, same⟩ => nomatch same) fails

/-- A guard fails with its one failure, if what it asks for does not hold. -/
theorem guarded_eq_error_iff {failure : ε} :
    (if fits then .ok a else .error e : Except ε α) = .error failure ↔ ¬fits ∧ failure = e := by
  split
  next holds => exact iff_of_false nofun fun ⟨fails, _⟩ => fails holds
  next fails => simp [fails, eq_comm]

end Guarded

namespace Infer

open Saving (Steady)

/-- Merging follows references only, and a fault in one is no failure of a guard. -/
theorem steady_merging {α : Type} {act : Saving Fault α} (steady : Steady (fun _ => False) act) :
    Steady Failure.OfDepth (merging act) := by
  intro few many sub outcome after ran lasts
  have split : ∀ store, (merging act).run store =
      ((act.run store).1.mapError Failure.fault, (act.run store).2) := fun _ => rfl
  rw [split] at ran
  match ended : act.run few with
  | (.ok a, middle) =>
    rw [ended] at ran
    cases ran
    obtain ⟨middle', ended', sub'⟩ := steady few many sub _ _ ended fun _ same => nomatch same
    exact ⟨middle', by rw [split, ended'], sub'⟩
  | (.error fault, middle) =>
    rw [ended] at ran
    cases ran
    obtain ⟨limit, same⟩ := lasts (.fault fault) rfl
    cases same

theorem steady_entering {α : Type} {body : Nat → Saving Failure α}
    (steady : ∀ room, Steady Failure.OfDepth (body room)) (limit room : Nat) :
    Steady Failure.OfDepth (entering limit room body) := by
  cases room with
  | zero => exact Saving.steady_throw _
  | succ room => exact steady room

mutual

/-- A node is inferred alike in a store that holds more. -/
theorem steady_nodeWithin (limit room : Nat) (node : Node) :
    Steady Failure.OfDepth (nodeWithin limit room node) := by
  match node with
  | .primitive kind => exact Saving.steady_pure _
  | .array items =>
    rw [nodeWithin]
    refine steady_entering (fun room => ?_) limit room
    refine (steady_itemsWithin limit room items).bind fun leaves => ?_
    exact (steady_merging (Merge.steady_unify leaves)).bind fun merged => Saving.steady_pure _
  | .object members =>
    rw [nodeWithin]
    refine steady_entering (fun room => ?_) limit room
    exact (steady_membersWithin limit room members).bind Saving.steady_saveObject

theorem steady_itemsWithin (limit room : Nat) (items : List Node) :
    Steady Failure.OfDepth (itemsWithin limit room items) := by
  match items with
  | [] => exact Saving.steady_pure []
  | item :: rest =>
    refine (steady_nodeWithin limit room item).bind fun leaf => ?_
    exact (steady_itemsWithin limit room rest).bind fun leaves => Saving.steady_pure _

theorem steady_membersWithin (limit room : Nat) (members : List (String × Node)) :
    Steady Failure.OfDepth (membersWithin limit room members) := by
  match members with
  | [] => exact Saving.steady_pure []
  | (name, node) :: rest =>
    refine (steady_nodeWithin limit room node).bind fun leaf => ?_
    exact (steady_membersWithin limit room rest).bind fun fields => Saving.steady_pure _

end

/-- In any store a node has the leaf of its tree, or fails at the guard. -/
theorem outcome_node (limit : Nat) (node : Node) (store : Store) :
    ((Infer.node limit node).run store).1 =
      if node.nesting ≤ limit then .ok node.tree.toLeaf else .error (.tooDeep limit) := by
  obtain ⟨after, ran, _⟩ := runs_nodeWithin limit limit node Store.ordered_empty
  have lasts : ∀ failure,
      (if node.nesting ≤ limit then .ok node.tree.toLeaf else .error (.tooDeep limit) :
        Except Failure (Leaf Key)) = .error failure → failure.OfDepth := by
    intro failure same
    exact ⟨limit, (guarded_eq_error_iff.mp same).2⟩
  obtain ⟨after', ran', _⟩ :=
    steady_nodeWithin limit limit node .empty store (Store.empty_subset store) _ _ ran lasts
  exact congrArg Prod.fst ran'

/-- Inference succeeds in a store exactly for nodes that nest within the limit. -/
theorem succeeds_node_iff {limit : Nat} {node : Node} {store : Store} :
    (∃ leaf, ((Infer.node limit node).run store).1 = .ok leaf) ↔ node.nesting ≤ limit := by
  rw [outcome_node]
  exact exists_guarded_iff

theorem fails_node_iff {limit : Nat} {node : Node} {store : Store} {failure : Failure} :
    ((Infer.node limit node).run store).1 = .error failure ↔
      limit < node.nesting ∧ failure = .tooDeep limit := by
  rw [outcome_node, guarded_eq_error_iff, Nat.not_le]

end Infer

namespace Node

theorem loads_iff {limit : Nat} {value : Json} :
    (∃ node, load limit value = .ok node) ↔ value.nesting ≤ limit := by
  rw [load_eq]
  exact exists_guarded_iff

theorem load_fails_iff {limit : Nat} {value : Json} {failure : Failure} :
    load limit value = .error failure ↔ limit < value.nesting ∧ failure = .tooDeep limit := by
  rw [load_eq, guarded_eq_error_iff, Nat.not_le]

/-- What loads is inferred in every store. -/
theorem loads_and_succeeds_iff {limit : Nat} {value : Json} :
    (∃ node, load limit value = .ok node ∧
      ∀ store, ∃ leaf, ((Infer.node limit node).run store).1 = .ok leaf) ↔
      value.nesting ≤ limit := by
  constructor
  · rintro ⟨node, loaded, _⟩
    exact loads_iff.mp ⟨node, loaded⟩
  · intro fits
    refine ⟨value.node, by rw [load_eq, if_pos fits], fun store => ?_⟩
    exact Infer.succeeds_node_iff.mpr (nesting_node value ▸ fits)

end Node

/-- The guards agree: a value loads if its containers nest within the limit, and the same limit then
lets inference succeed in every store, as for every other node. Each guard fails only by naming the
limit. -/
theorem depth_guards_agree (limit : Nat) :
    (∀ value : Json,
      ((∃ node, Node.load limit value = .ok node) ↔ value.nesting ≤ limit) ∧
      ((∃ node, Node.load limit value = .ok node ∧
        ∀ store, ∃ leaf, ((Infer.node limit node).run store).1 = .ok leaf) ↔
        value.nesting ≤ limit) ∧
      (∀ failure, Node.load limit value = .error failure ↔
        limit < value.nesting ∧ failure = .tooDeep limit)) ∧
    (∀ (node : Node) (store : Store),
      ((∃ leaf, ((Infer.node limit node).run store).1 = .ok leaf) ↔ node.nesting ≤ limit) ∧
      (∀ failure, ((Infer.node limit node).run store).1 = .error failure ↔
        limit < node.nesting ∧ failure = .tooDeep limit)) :=
  ⟨fun _ => ⟨Node.loads_iff, Node.loads_and_succeeds_iff, fun _ => Node.load_fails_iff⟩,
    fun _ _ => ⟨Infer.succeeds_node_iff, fun _ => Infer.fails_node_iff⟩⟩

end Exemplar
