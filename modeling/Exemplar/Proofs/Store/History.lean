import Exemplar.Proofs.Inference.Outcome
import Exemplar.Shape.Encoding

/-!
# Histories of one store

A store is worked on by saving, following, inferring and merging, in any order.
An operation may be given any key that the store handed out before: one that an
operation returned, or one in a shape that a followed key led to. An inference
may fail on depth and leave shapes of parts behind.

Whatever the history, keys address what they lead to, entries stay, references
go to entries saved earlier, and no key handed out leads nowhere. So no operation
meets a fault.
-/

namespace Exemplar

/-- In an ordered store, a reference leads to a shape that was saved before its own. -/
theorem Store.Ordered.idxOf_lt {store : Store} (ordered : store.Ordered) {shape : Composite Key}
    (member : shape ∈ store.shapes) {ref : Key} (hr : ref ∈ shape.references) :
    ∃ part, store.resolve ref = .ok part ∧
      store.shapes.idxOf part < store.shapes.idxOf shape := by
  obtain ⟨before, after, split, fresh⟩ := List.eq_append_cons_of_mem member
  obtain ⟨part, earlier, rfl⟩ := ordered before shape after split ref hr
  refine ⟨part, Store.resolve_eq_ok_iff.mpr ⟨rfl, ?_⟩, ?_⟩
  · rw [split]
    exact List.mem_append_left _ earlier
  · rw [split, List.idxOf_append_of_mem earlier, List.idxOf_append_of_notMem fresh]
    exact Nat.lt_of_lt_of_le (List.idxOf_lt_length_of_mem earlier) (Nat.le_add_right _ _)

inductive Operation where
  | save (shape : Composite Key)
  | saveObject (fields : List (Field Key))
  | saveArray (elements : List (Leaf Key))
  | follow (leaf : Leaf Key)
  | inferNode (limit : Nat) (node : Node)
  | inferObject (limit : Nat) (members : List (String × Node))
  | inferArray (limit : Nat) (items : List Node)
  | unify (leaves : List (Leaf Key))
  | mergeShapes (shapes : List (Shape Key))
  | mergeObjects (objects : List (List (Field Key)))

inductive Answer where
  | saved (key : Key)
  | described (leaf : Leaf Key)
  | unified (leaves : List (Leaf Key))
  | followed (shape : Shape Key)

/-- The keys that an answer hands out. -/
def Answer.references : Answer → List Key
  | .saved key => [key]
  | .described leaf => leaf.references
  | .unified leaves => Leaf.referencesOfAll leaves
  | .followed shape => shape.references

namespace Operation

def references : Operation → List Key
  | .save shape => shape.references
  | .saveObject fields => Field.referencesOfAll fields
  | .saveArray elements => Leaf.referencesOfAll elements
  | .follow leaf => leaf.references
  | .inferNode _ _ => []
  | .inferObject _ _ => []
  | .inferArray _ _ => []
  | .unify leaves => Leaf.referencesOfAll leaves
  | .mergeShapes shapes => shapes.flatMap Shape.references
  | .mergeObjects objects => objects.flatMap Field.referencesOfAll

def perform : Operation → Saving Failure Answer
  | .save shape => .saved <$> Saving.save shape
  | .saveObject fields => .described <$> Saving.saveObject fields
  | .saveArray elements => .saved <$> Saving.save (.array elements)
  | .follow leaf => .followed <$> Infer.merging (Saving.shapeOf leaf)
  | .inferNode limit node => .described <$> Infer.node limit node
  | .inferObject limit members => .described <$> Infer.node limit (.object members)
  | .inferArray limit items => .unified <$> Infer.elements limit items
  | .unify leaves => .unified <$> Infer.merging (Exemplar.unify leaves)
  | .mergeShapes shapes => .unified <$> Infer.merging (Exemplar.mergeShapes shapes)
  | .mergeObjects objects => .described <$> Infer.merging (Exemplar.mergeObjects objects)

/-- A computation does not fail with a fault. -/
def Faultless {α : Type} (outcome : Except Failure α) : Prop :=
  ∀ fault, outcome ≠ .error (.fault fault)

theorem faultless_ok {α : Type} (a : α) : Faultless (.ok a) := fun _ same => nomatch same

theorem faultless_tooDeep {α : Type} {p : Prop} [Decidable p] (a : α) (limit : Nat) :
    Faultless (if p then .ok a else .error (.tooDeep limit)) := by
  intro fault same
  split at same <;> cases same

/-- In a store, an operation meets no fault, and the keys that it hands out lead to shapes. -/
def Safe (op : Operation) (store : Store) : Prop :=
  ∃ outcome after, op.perform.run store = (outcome, after) ∧ Faultless outcome ∧
    ∀ answer, outcome = .ok answer → ∀ key ∈ answer.references,
      ∃ shape, after.resolve key = .ok shape

variable {store : Store}

/-- An operation returns what its computation comes to. -/
theorem runs_answer {α : Type} {refs : α → List Key} {act : Saving Failure α}
    {outcome : Except Failure α} (f : α → Answer) (ran : Saving.Runs refs act store outcome)
    (faultless : Faultless outcome) (fewer : ∀ a, (f a).references ⊆ refs a) :
    ∃ outcome, Saving.Runs Answer.references (f <$> act) store outcome ∧ Faultless outcome := by
  cases outcome with
  | ok a => exact ⟨.ok (f a), ran.map (fewer a), faultless_ok _⟩
  | error failure =>
    refine ⟨.error failure, ?_, fun fault same => faultless fault (congrArg Except.error ?_)⟩
    · rw [map_eq_pure_bind]
      exact ran.stop
    · exact Except.error.inj same

/-- Given keys of saved shapes, an operation runs without a fault. -/
theorem runs_perform (op : Operation) (ordered : store.Ordered) (there : store.Holds op.references) :
    ∃ outcome, Saving.Runs Answer.references op.perform store outcome ∧ Faultless outcome := by
  cases op with
  | save shape =>
    exact runs_answer .saved (Saving.runs_save ordered there) (faultless_ok _)
      fun _ => List.Subset.refl _
  | saveObject fields =>
    exact runs_answer .described (Saving.runs_saveObject ordered there) (faultless_ok _)
      fun _ => List.Subset.refl _
  | saveArray elements =>
    have there : store.Holds (Composite.array elements).references := there
    exact runs_answer .saved (Saving.runs_save ordered there) (faultless_ok _)
      fun _ => List.Subset.refl _
  | follow leaf =>
    have ran := Infer.runs_merging (Saving.runs_shapeOf ordered there)
    exact runs_answer .followed ran (faultless_ok _) fun _ => List.Subset.refl _
  | inferNode limit node =>
    have ran := Infer.runs_nodeWithin limit limit node ordered
    exact runs_answer .described ran (faultless_tooDeep _ _) fun _ => List.Subset.refl _
  | inferObject limit members =>
    have ran := Infer.runs_nodeWithin limit limit (.object members) ordered
    exact runs_answer .described ran (faultless_tooDeep _ _) fun _ => List.Subset.refl _
  | inferArray limit items =>
    have ran := Infer.runs_elements limit items ordered
    exact runs_answer .unified ran (faultless_tooDeep _ _) fun _ => List.Subset.refl _
  | unify leaves =>
    have ran := Infer.runs_merging (Merge.comesTo_unified leaves store ordered there)
    exact runs_answer .unified ran (faultless_ok _) fun _ => List.Subset.refl _
  | mergeShapes shapes =>
    have each : ∀ shape ∈ shapes, store.Holds shape.references := fun shape hs =>
      there.of_subset fun ref hr => List.mem_flatMap.mpr ⟨shape, hs, hr⟩
    have ran := Infer.runs_merging (Merge.runs_shapesWith Merge.comesTo_unified ordered each)
    exact runs_answer .unified ran (faultless_ok _) fun _ => List.Subset.refl _
  | mergeObjects objects =>
    have each : ∀ fields ∈ objects, store.Holds (Field.referencesOfAll fields) := fun fields hf =>
      there.of_subset fun ref hr => List.mem_flatMap.mpr ⟨fields, hf, hr⟩
    have ran := Infer.runs_merging (Merge.runs_objectsWith Merge.comesTo_unified ordered each)
    exact runs_answer .described ran (faultless_ok _) fun _ => List.Subset.refl _

theorem safe_of_holds (op : Operation) (ordered : store.Ordered)
    (there : store.Holds op.references) : op.Safe store := by
  obtain ⟨outcome, ⟨after, ran, _, _, handed⟩, faultless⟩ := op.runs_perform ordered there
  refine ⟨outcome, after, ran, faultless, ?_⟩
  intro answer same key given
  exact Store.resolves_of_contains (handed answer same key given)

end Operation

/-- A store, and the keys that it has handed out. -/
structure History where
  store : Store
  handed : List Key

namespace History

def empty : History := ⟨.empty, []⟩

/-- Perform one more operation. What it saved before it failed stays. -/
def next (history : History) (op : Operation) : History :=
  match op.perform.run history.store with
  | (.ok answer, after) => ⟨after, history.handed ++ answer.references⟩
  | (.error _, after) => ⟨after, history.handed⟩

def run (history : History) (ops : List Operation) : History := ops.foldl next history

/-- Each operation is given only keys that were handed out before. -/
def Supplied : History → List Operation → Prop
  | _, [] => True
  | history, op :: rest => op.references ⊆ history.handed ∧ Supplied (history.next op) rest

def decideSupplied : (history : History) → (ops : List Operation) → Decidable (history.Supplied ops)
  | _, [] => isTrue trivial
  | history, op :: rest =>
    have := decideSupplied (history.next op) rest
    inferInstanceAs (Decidable (op.references ⊆ history.handed ∧ Supplied (history.next op) rest))

instance (history : History) (ops : List Operation) : Decidable (history.Supplied ops) :=
  decideSupplied history ops

/-- References are ordered, and keys handed out lead to saved shapes. -/
structure Sound (history : History) : Prop where
  ordered : history.store.Ordered
  handed : history.store.Holds history.handed

variable {history : History}

theorem sound_empty : empty.Sound := ⟨Store.ordered_empty, Store.holds_nil⟩

/-- A supplied operation keeps all that was saved, and hands out keys of saved shapes. -/
theorem Sound.next {op : Operation} (sound : history.Sound)
    (supplied : op.references ⊆ history.handed) :
    (history.next op).Sound ∧ history.store ≤ (history.next op).store := by
  obtain ⟨outcome, ⟨after, ran, le, ordered, there⟩, _⟩ :=
    op.runs_perform sound.ordered (sound.handed.of_subset supplied)
  have kept := sound.handed.of_le le
  cases outcome with
  | ok answer =>
    rw [History.next, ran]
    exact ⟨⟨ordered, Store.holds_append.mpr ⟨kept, there answer rfl⟩⟩, le⟩
  | error failure =>
    rw [History.next, ran]
    exact ⟨⟨ordered, kept⟩, le⟩

theorem Sound.run {ops : List Operation} (sound : history.Sound) (supplied : history.Supplied ops) :
    (history.run ops).Sound ∧ history.store ≤ (history.run ops).store := by
  induction ops generalizing history with
  | nil => exact ⟨sound, history.store.le_refl⟩
  | cons op rest ih =>
    obtain ⟨sound', le⟩ := sound.next supplied.1
    obtain ⟨sound'', le'⟩ := ih sound' supplied.2
    exact ⟨sound'', Store.le_trans le le'⟩

theorem run_append (history : History) (before after : List Operation) :
    history.run (before ++ after) = (history.run before).run after := List.foldl_append

theorem supplied_append {before after : List Operation} :
    history.Supplied (before ++ after) ↔
      history.Supplied before ∧ (history.run before).Supplied after := by
  induction before generalizing history with
  | nil => exact (and_iff_right trivial).symm
  | cons op rest ih => rw [List.cons_append, Supplied, Supplied, ih, and_assoc]; rfl

/-- What holds at any moment of a history: each key is the address and the hash of what it leads to,
the references of each shape lead to shapes that were saved earlier, and keys that were handed out
lead to shapes. -/
structure Consistent (history : History) : Prop where
  addressed : ∀ key shape, history.store.resolve key = .ok shape →
    key = .address shape ∧ key.digest = shape.toShape.contentHash
  earlier : ∀ key shape, history.store.resolve key = .ok shape → ∀ ref ∈ shape.references,
    ∃ part, history.store.resolve ref = .ok part ∧
      history.store.shapes.idxOf part < history.store.shapes.idxOf shape
  handed : ∀ key ∈ history.handed, ∃ shape, history.store.resolve key = .ok shape

theorem Sound.consistent (sound : history.Sound) : history.Consistent := by
  refine ⟨?_, ?_, fun key given => Store.resolves_of_contains (sound.handed key given)⟩
  · intro key shape found
    obtain ⟨rfl, _⟩ := Store.resolve_eq_ok_iff.mp found
    exact ⟨rfl, Key.digest_address shape⟩
  · intro key shape found ref part
    exact sound.ordered.idxOf_lt (Store.resolve_eq_ok_iff.mp found).2 part

/-- Cut a supplied history anywhere. What was done so far is consistent, its entries stay to the
end, and the next operation is safe. -/
theorem run_consistent (before after : List Operation) (supplied : empty.Supplied (before ++ after)) :
    (empty.run before).Consistent ∧
      (∀ key shape, (empty.run before).store.resolve key = .ok shape →
        (empty.run (before ++ after)).store.resolve key = .ok shape) ∧
      ∀ op rest, after = op :: rest → op.Safe (empty.run before).store := by
  obtain ⟨done, rest⟩ := supplied_append.mp supplied
  obtain ⟨sound, _⟩ := sound_empty.run done
  refine ⟨sound.consistent, ?_, ?_⟩
  · intro key shape found
    rw [run_append]
    exact Store.resolve_of_le (sound.run rest).2 found
  · rintro op _ rfl
    exact op.safe_of_holds sound.ordered (sound.handed.of_subset rest.1)

/-- Every operation on one store, with an inference that saves an object before it meets its
limit. -/
theorem run_consistent_of_failed_inference :
    let point : Key := .address (.object [⟨"x", [.primitive .number], false⟩])
    let pointed : Key := .address (.object [⟨"at", [.array [.object point]], true⟩])
    let before : List Operation :=
      [.inferNode 1 (.object [("x", .primitive .number)]),
        .inferArray 2 [.object [("y", .primitive .null)], .array [.array []]],
        .saveObject [⟨"at", [.array [.object point]], true⟩]]
    let after : List Operation :=
      [.follow (.object pointed), .saveArray [.object point, .object pointed],
        .unify [.object point, .array [], .object pointed],
        .mergeShapes [.array [.object pointed], .object []],
        .mergeObjects [[⟨"x", [.object point, .object pointed], false⟩], []],
        .inferObject 3 [("x", .array [.object []])], .save (.array [.array [.object pointed]])]
    empty.Supplied (before ++ after) ∧ (empty.run (before.take 2)).store.size = 2 ∧
      (empty.run before).Consistent ∧
      (∀ key shape, (empty.run before).store.resolve key = .ok shape →
        (empty.run (before ++ after)).store.resolve key = .ok shape) ∧
      ∀ op rest, after = op :: rest → op.Safe (empty.run before).store := by
  intro point pointed before after
  have supplied : empty.Supplied (before ++ after) := by decide +kernel
  exact ⟨supplied, by decide +kernel, run_consistent before after supplied⟩

end History

end Exemplar
