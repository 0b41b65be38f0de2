import Exemplar.Proofs.Merge.Outcome

/-!
# Variations of unifying

Two things about a merge could be otherwise. A rule decides which fields of the
merged object are nullable, and a number of levels bounds the descent. Here the
rule is a parameter. A variation runs like the original in a store if, at each
field that is merged, the rules agree and the alternatives are unified alike.
-/

namespace Exemplar

namespace Merge

def marks (name : String) (objects : List (List (Field Key))) : Bool :=
  objects.any fun fields => (field? name fields).any (·.nullable)

/-- The other rule: a field is nullable if some object lacks it or marks it as nullable. -/
def lacksOrMarks (name : String) (objects : List (List (Field Key))) : Bool :=
  lacks name objects || marks name objects

/-- The rules agree on objects none of whose fields is nullable. -/
theorem lacksOrMarks_eq {objects : List (List (Field Key))}
    (unmarked : ∀ fields ∈ objects, ∀ field ∈ fields, field.nullable = false) (name : String) :
    lacksOrMarks name objects = lacks name objects := by
  have none : marks name objects = false := by
    rw [marks, List.any_eq_false]
    intro fields hf
    cases found : field? name fields with
    | none => simp
    | some field => simp [unmarked fields hf field (List.mem_of_find?_eq_some found)]
  rw [lacksOrMarks, none, Bool.or_false]

example : lacks "a" [[⟨"a", [], true⟩]] ≠ lacksOrMarks "a" [[⟨"a", [], true⟩]] := by decide

/-- Merge objects into one saved object, where a rule says which fields are nullable. -/
def objectsBy (nullable : String → List (List (Field Key)) → Bool)
    (unifyTypes : List (Leaf Key) → Saving Fault (List (Leaf Key)))
    (objects : List (List (Field Key))) : Saving Fault (Leaf Key) := do
  let fields ← (fieldNames objects).mapM fun name => do
    let types ← unifyTypes (candidates name objects)
    return ⟨name, types, nullable name objects⟩
  Saving.saveObject fields

def shapesBy (nullable : String → List (List (Field Key)) → Bool)
    (unifyTypes : List (Leaf Key) → Saving Fault (List (Leaf Key)))
    (shapes : List (Shape Key)) : Saving Fault (List (Leaf Key)) := do
  let objects := shapes.filterMap (·.fields?)
  let arrays := shapes.filterMap (·.elements?)
  let kinds := shapes.filterMap (·.kind?)
  let merged ← if objects.isEmpty then pure []
    else List.singleton <$> objectsBy nullable unifyTypes objects
  let pooled := if arrays.isEmpty then [] else [Leaf.array (pool arrays)]
  return merged ++ pooled ++ kinds.eraseDups.map Leaf.primitive

/-- Unify leaves whose objects nest fewer than `levels` deep, where a rule says which fields are
nullable. -/
def leavesBy (nullable : String → List (List (Field Key)) → Bool) :
    (levels : Nat) → List (Leaf Key) → Saving Fault (List (Leaf Key))
  | 0, _ => return []
  | levels + 1, leaves => do
    let shapes ← leaves.eraseDups.mapM Saving.shapeOf
    shapesBy nullable (leavesBy nullable levels) shapes

def unifyBy (nullable : String → List (List (Field Key)) → Bool) (leaves : List (Leaf Key)) :
    Saving Fault (List (Leaf Key)) :=
  leavesBy nullable (Key.depthOfLeaves leaves + 1) leaves

theorem shapesBy_lacks : shapesBy lacks = shapesWith := rfl

theorem leavesBy_lacks (levels : Nat) : leavesBy lacks levels = leavesWithin levels := by
  induction levels with
  | zero => rfl
  | succ levels ih =>
    funext leaves
    rw [leavesBy, leavesWithin, shapesBy_lacks, ih]

/-- By the rule of the engine, a field is nullable exactly if some object lacks it. -/
theorem unifyBy_lacks : unifyBy lacks = unify := by
  funext leaves
  rw [unifyBy, unify, leavesBy_lacks]

variable {nullable : String → List (List (Field Key)) → Bool}
  {unifyTypes unifyTypes' : List (Leaf Key) → Saving Fault (List (Leaf Key))}
  {result : List (Leaf Key) → List (Leaf Key)} {store : Store}

/-- Nothing that is met while some objects are merged tells a variation from the original: the rule
agrees on each field, and the alternatives of each field are unified alike in every later store. -/
def SameFields (nullable : String → List (List (Field Key)) → Bool)
    (unifyTypes unifyTypes' : List (Leaf Key) → Saving Fault (List (Leaf Key))) (store : Store)
    (objects : List (List (Field Key))) : Prop :=
  ∀ name ∈ fieldNames objects, nullable name objects = lacks name objects ∧
    ∀ after, store ≤ after → after.Ordered →
      (unifyTypes (candidates name objects)).run after =
        (unifyTypes' (candidates name objects)).run after

theorem run_objectsBy_congr (comes : ComesTo unifyTypes result) {objects : List (List (Field Key))}
    (ordered : store.Ordered)
    (there : ∀ fields ∈ objects, store.Holds (Field.referencesOfAll fields))
    (same : SameFields nullable unifyTypes unifyTypes' store objects) :
    (objectsWith unifyTypes objects).run store =
      (objectsBy nullable unifyTypes' objects).run store := by
  have each : ∀ name ∈ fieldNames objects, ∀ after, store ≤ after → after.Ordered →
      Saving.Runs (fun field => Leaf.referencesOfAll field.types)
        (do
          let types ← unifyTypes (candidates name objects)
          return (⟨name, types, lacks name objects⟩ : Field Key)) after
        (.ok ⟨name, result (candidates name objects), lacks name objects⟩) ∧
      (do
        let types ← unifyTypes (candidates name objects)
        return (⟨name, types, lacks name objects⟩ : Field Key)).run after =
      (do
        let types ← unifyTypes' (candidates name objects)
        return (⟨name, types, nullable name objects⟩ : Field Key)).run after := by
    intro name hn after le ordered'
    obtain ⟨agrees, alike⟩ := same name hn
    have types := comes (candidates name objects) after ordered'
      ((holds_candidates there name).of_le le)
    constructor
    · exact types.andThen fun _ _ ordered'' there' => Saving.runs_pure ordered'' there'
    · rw [Saving.run_bind, Saving.run_bind, alike after le ordered', agrees]
  rw [objectsWith, objectsBy, Saving.run_bind, Saving.run_bind,
    Saving.run_mapM_congr (fieldNames objects) ordered each]

theorem run_shapesBy_congr (comes : ComesTo unifyTypes result) {shapes : List (Shape Key)}
    (ordered : store.Ordered) (there : ∀ shape ∈ shapes, store.Holds shape.references)
    (same : SameFields nullable unifyTypes unifyTypes' store (shapes.filterMap (·.fields?))) :
    (shapesWith unifyTypes shapes).run store = (shapesBy nullable unifyTypes' shapes).run store := by
  have merged := run_objectsBy_congr comes ordered (holds_objects there) same
  rw [shapesWith, shapesBy]
  dsimp only
  split
  · rfl
  · rw [map_eq_pure_bind, map_eq_pure_bind, Saving.run_bind, Saving.run_bind, Saving.run_bind,
      Saving.run_bind, merged]

end Merge

end Exemplar
