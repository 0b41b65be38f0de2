import Exemplar.Merge
import Exemplar.Proofs.Store.Order

/-!
# Stores that hold more

What is found under a key is found there in every store that holds more. So a
computation comes to the same end in a store that holds more, unless it met a
reference that led nowhere in the smaller store. The larger store may list its
shapes in any order, and shapes in it may refer to shapes that were never saved.
-/

namespace Exemplar

namespace Store

/-- One store has all shapes of another, in whatever places. -/
instance : HasSubset Store := ⟨fun few many => few.shapes ⊆ many.shapes⟩

variable {few many : Store}

theorem empty_subset (store : Store) : empty ⊆ store := List.nil_subset _

theorem insert_subset_insert (sub : few ⊆ many) (shape : Composite Key) :
    few.insert shape ⊆ many.insert shape := by
  intro other member
  rcases mem_insert.mp member with before | same
  · exact mem_insert.mpr (.inl (sub before))
  · exact mem_insert.mpr (.inr same)

theorem resolve_of_subset (sub : few ⊆ many) {key : Key} {shape : Composite Key}
    (found : few.resolve key = .ok shape) : many.resolve key = .ok shape := by
  obtain ⟨same, member⟩ := resolve_eq_ok_iff.mp found
  exact resolve_eq_ok_iff.mpr ⟨same, sub member⟩

theorem shapeOf_of_subset (sub : few ⊆ many) {leaf : Leaf Key} {shape : Shape Key}
    (found : few.shapeOf leaf = .ok shape) : many.shapeOf leaf = .ok shape := by
  cases leaf with
  | primitive kind => exact found
  | array elements => exact found
  | object ref =>
    rw [shapeOf] at found ⊢
    cases resolved : few.resolve ref with
    | error fault => rw [resolved] at found; cases found
    | ok composite =>
      rw [resolved] at found
      rw [resolve_of_subset sub resolved]
      exact found

end Store

namespace Saving

variable {ε α β : Type} {lasting : ε → Prop}

/-- In a store that holds more, a computation comes to the same end and leaves more, if it ends well
or with a failure that lasts. -/
def Steady (lasting : ε → Prop) (act : Saving ε α) : Prop :=
  ∀ few many : Store, few ⊆ many → ∀ outcome after, act.run few = (outcome, after) →
    (∀ e, outcome = .error e → lasting e) → ∃ after', act.run many = (outcome, after') ∧ after ⊆ after'

theorem steady_pure (a : α) : Steady lasting (pure a : Saving ε α) := by
  intro few many sub outcome after ran _
  cases ran
  exact ⟨many, rfl, sub⟩

theorem steady_throw (e : ε) : Steady lasting (throw e : Saving ε α) := by
  intro few many sub outcome after ran _
  cases ran
  exact ⟨many, rfl, sub⟩

theorem Steady.bind {act : Saving ε α} {f : α → Saving ε β} (first : Steady lasting act)
    (rest : ∀ a, Steady lasting (f a)) : Steady lasting (act >>= f) := by
  intro few many sub outcome after ran lasts
  rw [run_bind] at ran
  match ended : act.run few with
  | (.error e, middle) =>
    rw [ended] at ran
    cases ran
    obtain ⟨middle', ended', sub'⟩ := first few many sub _ _ ended fun e' same => by
      cases same
      exact lasts e rfl
    refine ⟨middle', ?_, sub'⟩
    rw [run_bind, ended']
  | (.ok a, middle) =>
    rw [ended] at ran
    obtain ⟨middle', ended', sub'⟩ := first few many sub _ _ ended fun _ same => nomatch same
    obtain ⟨after', ran', sub''⟩ := rest a middle middle' sub' outcome after ran lasts
    refine ⟨after', ?_, sub''⟩
    rw [run_bind, ended']
    exact ran'

theorem Steady.map {act : Saving ε α} (steady : Steady lasting act) (f : α → β) :
    Steady lasting (f <$> act) := by
  rw [map_eq_pure_bind]
  exact steady.bind fun a => steady_pure (f a)

theorem steady_save (shape : Composite Key) : Steady lasting (save shape : Saving ε Key) := by
  intro few many sub outcome after ran _
  cases ran
  exact ⟨many.insert shape, rfl, Store.insert_subset_insert sub shape⟩

theorem steady_saveObject (fields : List (Field Key)) :
    Steady lasting (saveObject fields : Saving ε (Leaf Key)) :=
  (steady_save _).bind fun key => steady_pure (Leaf.object key)

/-- A reference that leads nowhere may lead somewhere in a store that holds more. -/
theorem steady_shapeOf (leaf : Leaf Key) : Steady (fun _ => False) (shapeOf leaf) := by
  intro few many sub outcome after ran lasts
  have looked : ∀ store : Store, (shapeOf leaf).run store = (store.shapeOf leaf, store) :=
    fun _ => rfl
  rw [looked] at ran
  cases found : few.shapeOf leaf with
  | error fault =>
    rw [found] at ran
    cases ran
    exact (lasts fault rfl).elim
  | ok shape =>
    rw [found] at ran
    cases ran
    refine ⟨many, ?_, sub⟩
    rw [looked, Store.shapeOf_of_subset sub found]

theorem steady_mapM {f : α → Saving ε β} (xs : List α) (each : ∀ x ∈ xs, Steady lasting (f x)) :
    Steady lasting (xs.mapM f) := by
  induction xs with
  | nil => exact steady_pure []
  | cons x rest ih =>
    rw [List.forall_mem_cons] at each
    rw [List.mapM_cons]
    refine each.1.bind fun y => ?_
    exact (ih each.2).bind fun ys => steady_pure (y :: ys)

end Saving

namespace Merge

open Saving (Steady)

variable {unifyTypes : List (Leaf Key) → Saving Fault (List (Leaf Key))}

theorem steady_objectsWith (steady : ∀ leaves, Steady (fun _ => False) (unifyTypes leaves))
    (objects : List (List (Field Key))) :
    Steady (fun _ => False) (objectsWith unifyTypes objects) := by
  refine Steady.bind (Saving.steady_mapM _ fun name _ => ?_) Saving.steady_saveObject
  exact (steady _).bind fun types => Saving.steady_pure _

theorem steady_shapesWith (steady : ∀ leaves, Steady (fun _ => False) (unifyTypes leaves))
    (shapes : List (Shape Key)) : Steady (fun _ => False) (shapesWith unifyTypes shapes) := by
  rw [shapesWith]
  dsimp only
  split
  · exact (Saving.steady_pure []).bind fun merged => Saving.steady_pure _
  · refine Steady.bind ?_ fun merged => Saving.steady_pure _
    exact (steady_objectsWith steady _).map List.singleton

theorem steady_leavesWithin (levels : Nat) (leaves : List (Leaf Key)) :
    Steady (fun _ => False) (leavesWithin levels leaves) := by
  induction levels generalizing leaves with
  | zero => exact Saving.steady_pure []
  | succ levels ih =>
    refine Steady.bind (Saving.steady_mapM _ fun leaf _ => Saving.steady_shapeOf leaf) ?_
    exact steady_shapesWith ih

/-- Leaves unify alike in a store that holds more. -/
theorem steady_unify (leaves : List (Leaf Key)) : Steady (fun _ => False) (unify leaves) :=
  steady_leavesWithin _ leaves

end Merge

end Exemplar
