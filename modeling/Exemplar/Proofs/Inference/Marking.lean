import Exemplar.Proofs.Inference.Observations
import Exemplar.Proofs.Merge.Variation
import Exemplar.Proofs.Tree.Soundness

/-!
# Marks that merging could keep

A merge decides anew which fields are nullable, and drops the marks that its
objects had. Inside an inference nothing is lost by that. An object that is met
without entering an array was built from a node and has no mark, and a merged
object is only ever held by an array, which no merge looks into. So an inference
that keeps the marks returns the same, and saves the same, step by step.
-/

namespace Exemplar

namespace Tree

/-- Fields none of which is nullable. -/
def Unmarked (fields : List (Member (List Tree))) : Prop := ∀ field ∈ fields, field.nullable = false

end Tree

namespace Merge

open Exemplar.Tree (toLeaf)

/-- Two ways to unify do the same with leaves of trees whose objects, down to the arrays, have no
mark. -/
def AlikeUnmarked (unifyTypes unifyTypes' : List (Leaf Key) → Saving Fault (List (Leaf Key))) :
    Prop :=
  ∀ (trees : List Tree) (store : Store), (∀ tree ∈ trees, Tree.Surface Tree.Unmarked tree) → store.Ordered →
    store.Holds (Leaf.referencesOfAll (trees.map toLeaf)) →
      (unifyTypes (trees.map toLeaf)).run store = (unifyTypes' (trees.map toLeaf)).run store

/-- Merging goes down to objects that have no mark either. -/
theorem alikeUnmarked_leavesBy (levels : Nat) :
    AlikeUnmarked (leavesWithin levels) (leavesBy lacksOrMarks levels) := by
  induction levels with
  | zero =>
    intro trees store _ _ _
    rfl
  | succ levels ih =>
    intro trees store unmarked ordered there
    have distinct : ∀ tree ∈ trees.eraseDups, Tree.Surface Tree.Unmarked tree := by
      intro tree ht
      exact unmarked tree (List.mem_eraseDups.mp ht)
    rw [leavesWithin, leavesBy]
    apply (runs_shapesOf ordered there).run_bind_congr rfl
    rintro _ after ⟨⟩ _ ordered' there'
    apply run_shapesBy_congr (comesTo_unifiedWithin levels) ordered' (holds_references_of_mem there')
    have objects := holds_objects (holds_references_of_mem there')
    rw [List.eraseDups_map Tree.toLeaf_injective, Tree.objects_toLeaf] at objects ⊢
    intro name _
    constructor
    · refine lacksOrMarks_eq ?_ name
      intro fields' hf' field' hm'
      obtain ⟨fields, hf, rfl⟩ := List.mem_map.mp hf'
      obtain ⟨field, hm, rfl⟩ := List.mem_map.mp hm'
      exact (distinct _ (Tree.mem_objects.mp hf)).holds field hm
    · intro later le ordered''
      have below := (holds_candidates objects name).of_le le
      rw [Tree.candidates_toField] at below ⊢
      exact ih _ later (Tree.surface_candidates distinct name) ordered'' below

theorem alikeUnmarked_unifyBy : AlikeUnmarked unify (unifyBy lacksOrMarks) :=
  fun trees => alikeUnmarked_leavesBy (Key.depthOfLeaves (trees.map toLeaf) + 1) trees

end Merge

/-! ## Trees of nodes -/

namespace Node

/-- What is built for a node has no mark, down to the arrays. -/
theorem unmarked_tree (node : Node) : Tree.Surface Tree.Unmarked node.tree := by
  induction node using parts_induction with
  | primitive kind => exact .primitive kind
  | array items _ => exact .array _
  | object members ih =>
    apply Tree.Surface.object
    · intro field hf
      obtain ⟨m, _, rfl⟩ := mem_fieldsOfMembers.mp hf
      rfl
    · exact forall_fieldsOfMembers.mpr ih

theorem unmarked_treesOfItems (items : List Node) :
    ∀ tree ∈ treesOfItems items, Tree.Surface Tree.Unmarked tree :=
  forall_treesOfItems.mpr fun item _ => unmarked_tree item

end Node

/-! ## Inference by another way to unify -/

namespace Infer

mutual

/-- The shape of a node, given how to unify. -/
def nodeBy (unifyTypes : List (Leaf Key) → Saving Fault (List (Leaf Key))) (limit room : Nat) :
    Node → Saving Failure (Leaf Key)
  | .primitive kind => return .primitive kind
  | .array items => entering limit room fun room => do
    let leaves ← itemsBy unifyTypes limit room items
    return .array (← merging (unifyTypes leaves))
  | .object members => entering limit room fun room => do
    let fields ← membersBy unifyTypes limit room members
    Saving.saveObject fields

def itemsBy (unifyTypes : List (Leaf Key) → Saving Fault (List (Leaf Key))) (limit room : Nat) :
    List Node → Saving Failure (List (Leaf Key))
  | [] => return []
  | item :: rest => do
    let leaf ← nodeBy unifyTypes limit room item
    return leaf :: (← itemsBy unifyTypes limit room rest)

def membersBy (unifyTypes : List (Leaf Key) → Saving Fault (List (Leaf Key))) (limit room : Nat) :
    List (String × Node) → Saving Failure (List (Field Key))
  | [] => return []
  | (name, node) :: rest => do
    let leaf ← nodeBy unifyTypes limit room node
    return ⟨name, [leaf], false⟩ :: (← membersBy unifyTypes limit room rest)

end

variable {unifyTypes : List (Leaf Key) → Saving Fault (List (Leaf Key))}

mutual

/-- By the way the engine unifies, a node has the shape that the engine gives it. -/
theorem nodeBy_unify (limit room : Nat) (node : Node) :
    nodeBy unify limit room node = nodeWithin limit room node := by
  match node, room with
  | .primitive kind, _ => rfl
  | .array items, 0 => rfl
  | .object members, 0 => rfl
  | .array items, room + 1 =>
    rw [nodeBy, nodeWithin, entering, entering]
    simp only [itemsBy_unify limit room items]
  | .object members, room + 1 =>
    rw [nodeBy, nodeWithin, entering, entering]
    simp only [membersBy_unify limit room members]

theorem itemsBy_unify (limit room : Nat) (items : List Node) :
    itemsBy unify limit room items = itemsWithin limit room items := by
  match items with
  | [] => rfl
  | item :: rest =>
    rw [itemsBy, itemsWithin, nodeBy_unify limit room item, itemsBy_unify limit room rest]

theorem membersBy_unify (limit room : Nat) (members : List (String × Node)) :
    membersBy unify limit room members = membersWithin limit room members := by
  match members with
  | [] => rfl
  | (name, node) :: rest =>
    rw [membersBy, membersWithin, nodeBy_unify limit room node, membersBy_unify limit room rest]

end

theorem run_merging_congr {α : Type} {act act' : Saving Fault α} {store : Store}
    (alike : act.run store = act'.run store) :
    (merging act).run store = (merging act').run store := by
  change ((act.run store).1.mapError Failure.fault, (act.run store).2) =
    ((act'.run store).1.mapError Failure.fault, (act'.run store).2)
  rw [alike]

mutual

theorem run_nodeBy (alike : Merge.AlikeUnmarked unify unifyTypes) (limit room : Nat) (node : Node)
    {store : Store} (ordered : store.Ordered) :
    (nodeWithin limit room node).run store = (nodeBy unifyTypes limit room node).run store := by
  match node, room with
  | .primitive kind, _ => rfl
  | .array items, 0 => rfl
  | .object members, 0 => rfl
  | .array items, room + 1 =>
    have leaves := runs_itemsWithin limit room items ordered
    apply leaves.run_bind_congr (run_itemsBy alike limit room items ordered)
    intro found after same _ ordered' there
    split at same <;> cases same
    have merged := alike _ after (Node.unmarked_treesOfItems items) ordered' there
    rw [Saving.run_bind, Saving.run_bind, run_merging_congr merged]
  | .object members, room + 1 =>
    have fields := runs_membersWithin limit room members ordered
    apply fields.run_bind_congr (run_membersBy alike limit room members ordered)
    intros
    rfl

theorem run_itemsBy (alike : Merge.AlikeUnmarked unify unifyTypes) (limit room : Nat)
    (items : List Node) {store : Store} (ordered : store.Ordered) :
    (itemsWithin limit room items).run store = (itemsBy unifyTypes limit room items).run store := by
  match items with
  | [] => rfl
  | item :: rest =>
    have leaf := runs_nodeWithin limit room item ordered
    apply leaf.run_bind_congr (run_nodeBy alike limit room item ordered)
    intro _ after _ _ ordered' _
    rw [Saving.run_bind, Saving.run_bind, run_itemsBy alike limit room rest ordered']

theorem run_membersBy (alike : Merge.AlikeUnmarked unify unifyTypes) (limit room : Nat)
    (members : List (String × Node)) {store : Store} (ordered : store.Ordered) :
    (membersWithin limit room members).run store =
      (membersBy unifyTypes limit room members).run store := by
  match members with
  | [] => rfl
  | (name, node) :: rest =>
    have leaf := runs_nodeWithin limit room node ordered
    apply leaf.run_bind_congr (run_nodeBy alike limit room node ordered)
    intro _ after _ _ ordered' _
    rw [Saving.run_bind, Saving.run_bind, run_membersBy alike limit room rest ordered']

end

end Infer

/-! ## Sessions by another way to unify -/

namespace Session

variable (unifyTypes : List (Leaf Key) → Saving Fault (List (Leaf Key)))

def observeNodeBy (node : Node) (session : Session) : Except Failure Unit × Session :=
  match node.kind? with
  | some kind => (.error (.primitiveRoot kind), session)
  | none =>
    match (Infer.nodeBy unifyTypes session.limit session.limit node).run session.store with
    | (.ok leaf, store) =>
      (.ok (), { session with store := store, samples := session.samples ++ [leaf] })
    | (.error failure, store) => (.error failure, { session with store := store })

def observeBy (value : Json) (session : Session) : Except Failure Unit × Session :=
  match Node.load session.limit value with
  | .ok node => session.observeNodeBy unifyTypes node
  | .error failure => (.error failure, session)

def makeBy (session : Session) : Observation → Except Failure Unit × Session
  | .ofValue value => session.observeBy unifyTypes value
  | .ofNode node => session.observeNodeBy unifyTypes node

def solveBy (session : Session) : Except Failure Inferred :=
  match session.samples with
  | [] => .error .noSamples
  | [sample] => root session.store [sample]
  | samples =>
    match (unifyTypes samples).run session.store with
    | (.ok leaves, store) => root store leaves
    | (.error fault, _) => .error (.fault fault)

/-- Make calls one after the other: what each of them returns, and the session in the end. -/
def makeAll (make : Session → Observation → Except Failure Unit × Session) :
    Session → List Observation → List (Except Failure Unit) × Session
  | session, [] => ([], session)
  | session, call :: rest =>
    let made := make session call
    let later := makeAll make made.2 rest
    (made.1 :: later.1, later.2)

variable {unifyTypes} {session : Session} {trees : List Tree}

theorem observeNodeBy_eq {node : Node}
    (same : (Infer.node session.limit node).run session.store =
      (Infer.nodeBy unifyTypes session.limit session.limit node).run session.store) :
    session.observeNodeBy unifyTypes node = session.observeNode node := by
  cases kind : node.kind? with
  | some kind => simp only [observeNodeBy, observeNode, kind]
  | none =>
    cases ran : (Infer.node session.limit node).run session.store with
    | mk outcome store =>
      cases outcome <;> simp only [observeNodeBy, observeNode, kind, ← same, ran]

/-- A call does the same by another way to unify if all nodes have the same shapes. -/
theorem makeBy_eq
    (same : ∀ node, (Infer.node session.limit node).run session.store =
      (Infer.nodeBy unifyTypes session.limit session.limit node).run session.store)
    (call : Observation) : session.makeBy unifyTypes call = session.make call := by
  cases call with
  | ofNode node => exact observeNodeBy_eq (same node)
  | ofValue value =>
    rw [makeBy, make, observeBy, observe]
    cases Node.load session.limit value with
    | ok node => exact observeNodeBy_eq (same node)
    | error failure => rfl

theorem solveBy_eq
    (same : (unify session.samples).run session.store =
      (unifyTypes session.samples).run session.store) :
    session.solveBy unifyTypes = session.solve := by
  match listed : session.samples with
  | [] => simp only [solveBy, Session.solve, listed]
  | [sample] => simp only [solveBy, Session.solve, listed]
  | first :: second :: rest =>
    rw [listed] at same
    cases ran : (unify (first :: second :: rest)).run session.store with
    | mk outcome store =>
      cases outcome <;> simp only [solveBy, Session.solve, listed, ← same, ran]

theorem makeBy_unify : makeBy unify = make := by
  funext session call
  refine makeBy_eq (fun node => ?_) call
  rw [Infer.nodeBy_unify, Infer.node]

theorem solveBy_unify : solveBy unify = Session.solve := by
  funext session
  exact solveBy_eq rfl

theorem Sound.makeBy_eq (sound : session.Sound trees)
    (alike : Merge.AlikeUnmarked unify unifyTypes) (call : Observation) :
    session.makeBy unifyTypes call = session.make call := by
  refine Session.makeBy_eq (fun node => ?_) call
  exact Infer.run_nodeBy alike session.limit session.limit node sound.ordered

theorem Sound.solveBy_eq (sound : session.Sound trees)
    (alike : Merge.AlikeUnmarked unify unifyTypes)
    (unmarked : ∀ tree ∈ trees, Tree.Surface Tree.Unmarked tree) :
    session.solveBy unifyTypes = session.solve := by
  have same := alike trees session.store unmarked sound.ordered (sound.samples ▸ sound.there)
  rw [← sound.samples] at same
  exact Session.solveBy_eq same

/-- A call keeps a session to trees without marks. -/
theorem Sound.exists_makes (sound : session.Sound trees)
    (unmarked : ∀ tree ∈ trees, Tree.Surface Tree.Unmarked tree) (call : Observation) :
    ∃ trees', (session.make call).2.Sound trees' ∧
      ∀ tree ∈ trees', Tree.Surface Tree.Unmarked tree := by
  cases refused : call.refusal? session.limit with
  | some failure =>
    obtain ⟨next, made, _, sound'⟩ := sound.make_refused refused
    rw [made]
    exact ⟨trees, sound', unmarked⟩
  | none =>
    obtain ⟨next, made, _, sound'⟩ := sound.makes refused
    rw [made]
    refine ⟨_, sound', ?_⟩
    intro tree ht
    rcases List.mem_append.mp ht with ht | ht
    · exact unmarked tree ht
    · rw [List.mem_singleton.mp ht]
      cases call with
      | ofValue value => exact Node.unmarked_tree value.node
      | ofNode node => exact Node.unmarked_tree node

/-- Calls return the same and leave the same, and so does solving after them. -/
theorem Sound.makeAll_eq (sound : session.Sound trees)
    (alike : Merge.AlikeUnmarked unify unifyTypes)
    (unmarked : ∀ tree ∈ trees, Tree.Surface Tree.Unmarked tree) (calls : List Observation) :
    makeAll (makeBy unifyTypes) session calls = makeAll make session calls ∧
      (makeAll make session calls).2.solveBy unifyTypes = (makeAll make session calls).2.solve := by
  induction calls generalizing session trees with
  | nil => exact ⟨rfl, sound.solveBy_eq alike unmarked⟩
  | cons call rest ih =>
    obtain ⟨trees', sound', unmarked'⟩ := sound.exists_makes unmarked call
    obtain ⟨made, solved⟩ := ih sound' unmarked'
    constructor
    · simp only [makeAll, sound.makeBy_eq alike call, made]
    · exact solved

/-- By the rule of the engine, that a field is nullable if some merged object lacks it, calls and
solving are those of the engine. Now let a field also be nullable if some merged object marks it so.
Then calls on a new session return what they returned, the session is the same to the store and the
samples, and solving it gives the same root and store, or the same failure. -/
theorem makeAll_lacksOrMarks (limit : Nat) (calls : List Observation) :
    let dropping := Merge.unifyBy Merge.lacks
    let keeping := Merge.unifyBy Merge.lacksOrMarks
    (makeBy dropping = make ∧ solveBy dropping = Session.solve) ∧
      makeAll (makeBy keeping) (start limit) calls = makeAll make (start limit) calls ∧
      (makeAll (makeBy keeping) (start limit) calls).2.solveBy keeping =
        (makeAll make (start limit) calls).2.solve := by
  intro dropping keeping
  have engine : dropping = unify := Merge.unifyBy_lacks
  obtain ⟨made, solved⟩ := (sound_start limit).makeAll_eq Merge.alikeUnmarked_unifyBy
    (fun _ none => nomatch none) calls
  refine ⟨?_, made, made ▸ solved⟩
  rw [engine]
  exact ⟨makeBy_unify, solveBy_unify⟩

end Session

end Exemplar
