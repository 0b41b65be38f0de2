import Exemplar.Proofs.Shape.References
import Exemplar.Store

/-!
# Stores and what saving does to them

A store is ordered if the references of each shape lead to shapes saved before
it. A computation that saves shapes keeps what was there, keeps the order, and
hands out only references that are in the store when it ends; `Runs` says so
together with the outcome, and is proved for each operation once.
-/

namespace Exemplar

/-- Whatever a shape needs stands before it. -/
def PartsFirst (parts : Composite Key → List Key) (shapes : List (Composite Key)) : Prop :=
  ∀ before shape after, shapes = before ++ shape :: after →
    ∀ key ∈ parts shape, ∃ part ∈ before, key = .address part

namespace PartsFirst

variable {parts : Composite Key → List Key} {shapes : List (Composite Key)}

theorem nil : PartsFirst parts [] := by
  intro before shape after split
  cases before <;> cases split

theorem concat {shape : Composite Key} (first : PartsFirst parts shapes)
    (there : ∀ key ∈ parts shape, ∃ part ∈ shapes, key = .address part) :
    PartsFirst parts (shapes ++ [shape]) := by
  intro before other after split
  rcases List.eq_nil_or_concat after with rfl | ⟨rest, last, rfl⟩
  · obtain ⟨rfl, same⟩ := List.append_inj' split rfl
    cases same
    exact there
  · have split : shapes ++ [shape] = (before ++ other :: rest) ++ [last] := by simpa using split
    exact first before other rest (List.append_inj' split rfl).1

theorem exists_of_mem {shape : Composite Key} (first : PartsFirst parts shapes)
    (member : shape ∈ shapes) {key : Key} (part : key ∈ parts shape) :
    ∃ part ∈ shapes, key = .address part := by
  obtain ⟨before, after, rfl⟩ := List.append_of_mem member
  obtain ⟨found, earlier, same⟩ := first before shape after rfl key part
  exact ⟨found, List.mem_append_left _ earlier, same⟩

end PartsFirst

namespace Store

/-- The references of each shape lead to shapes saved before it. -/
def Ordered (store : Store) : Prop := PartsFirst Composite.references store.shapes

/-- A later store has the shapes of an earlier one, in the same places. -/
instance : LE Store := ⟨fun before after => before.shapes <+: after.shapes⟩

/-- Some references all lead to saved shapes. -/
def Holds (store : Store) (refs : List Key) : Prop := ∀ ref ∈ refs, store.contains ref = true

variable {store after : Store}

theorem le_refl (store : Store) : store ≤ store := List.prefix_rfl

theorem le_trans {first second third : Store} (h : first ≤ second) (h' : second ≤ third) :
    first ≤ third := List.IsPrefix.trans h h'

theorem contains_iff {key : Key} :
    store.contains key = true ↔ ∃ shape ∈ store.shapes, key = .address shape := by
  rw [contains, Bool.and_eq_true, Key.isAddress_iff, decide_eq_true_eq]
  constructor
  · rintro ⟨same, member⟩
    exact ⟨key.shape, member, same.symm⟩
  · rintro ⟨shape, member, rfl⟩
    exact ⟨rfl, member⟩

theorem find?_of_contains {key : Key} (h : store.contains key = true) :
    store.find? key = some key.shape := if_pos h

theorem contains_of_le {key : Key} (le : store ≤ after) (h : store.contains key = true) :
    after.contains key = true := by
  obtain ⟨shape, member, rfl⟩ := contains_iff.mp h
  exact contains_iff.mpr ⟨shape, List.IsPrefix.subset le member, rfl⟩

theorem Holds.of_le {refs : List Key} (h : store.Holds refs) (le : store ≤ after) :
    after.Holds refs := by
  intro ref hr
  exact contains_of_le le (h ref hr)

theorem Holds.of_subset {refs refs' : List Key} (h : store.Holds refs) (sub : refs' ⊆ refs) :
    store.Holds refs' := by
  intro ref hr
  exact h ref (sub hr)

theorem holds_append {refs refs' : List Key} :
    store.Holds (refs ++ refs') ↔ store.Holds refs ∧ store.Holds refs' := List.forall_mem_append

theorem holds_nil : store.Holds [] := fun _ h => nomatch h

/-- What a saved shape refers to was saved. -/
theorem Ordered.holds_references {shape : Composite Key} (ordered : store.Ordered)
    (member : shape ∈ store.shapes) : store.Holds shape.references :=
  fun _ part => contains_iff.mpr (ordered.exists_of_mem member part)

theorem Ordered.holds_references_of_contains {key : Key} (ordered : store.Ordered)
    (h : store.contains key = true) : store.Holds key.shape.references := by
  obtain ⟨shape, member, rfl⟩ := contains_iff.mp h
  exact ordered.holds_references member

theorem resolve_eq_ok_iff {key : Key} {shape : Composite Key} :
    store.resolve key = .ok shape ↔ key = .address shape ∧ shape ∈ store.shapes := by
  rw [← find?_eq_some_iff, resolve]
  cases store.find? key <;> simp

theorem resolve_address {shape : Composite Key} (there : store.contains (.address shape) = true) :
    store.resolve (.address shape) = .ok shape := by
  obtain ⟨other, member, same⟩ := contains_iff.mp there
  rw [← Key.address_inj.mp same] at member
  exact resolve_eq_ok_iff.mpr ⟨rfl, member⟩

theorem resolves_of_contains {key : Key} (h : store.contains key = true) :
    ∃ shape, store.resolve key = .ok shape := by
  obtain ⟨shape, _, rfl⟩ := contains_iff.mp h
  exact ⟨shape, resolve_address h⟩

theorem resolve_of_le (le : store ≤ after) {key : Key} {shape : Composite Key}
    (found : store.resolve key = .ok shape) : after.resolve key = .ok shape := by
  obtain ⟨same, member⟩ := resolve_eq_ok_iff.mp found
  exact resolve_eq_ok_iff.mpr ⟨same, List.IsPrefix.subset le member⟩

theorem ordered_empty : empty.Ordered := PartsFirst.nil

theorem le_insert (store : Store) (shape : Composite Key) : store ≤ store.insert shape := by
  rw [insert]
  split
  · exact le_refl store
  · exact List.prefix_append _ _

theorem contains_insert (store : Store) (shape : Composite Key) :
    (store.insert shape).contains (.address shape) = true :=
  contains_iff.mpr ⟨shape, mem_insert.mpr (.inr rfl), rfl⟩

theorem Ordered.insert {shape : Composite Key} (ordered : store.Ordered)
    (there : store.Holds shape.references) : (store.insert shape).Ordered := by
  rw [Store.insert]
  split
  · exact ordered
  · exact PartsFirst.concat ordered fun key part => contains_iff.mp (there key part)

theorem holds_insert_insert (store : Store) (part whole : Composite Key) :
    ((store.insert part).insert whole).Holds [.address part, .address whole] := by
  intro ref hr
  rcases List.mem_cons.mp hr with rfl | hr
  · exact contains_of_le (le_insert _ _) (contains_insert _ _)
  · rw [List.mem_singleton.mp hr]
    exact contains_insert _ _

/-- A shape without references was saved, and then one that refers to nothing else. -/
theorem ordered_insert_insert {part whole : Composite Key} (flat : part.references = [])
    (refers : ∀ ref ∈ whole.references, ref = .address part) :
    ((empty.insert part).insert whole).Ordered := by
  have first : (empty.insert part).Ordered := ordered_empty.insert (flat ▸ holds_nil)
  refine first.insert fun ref hr => ?_
  rw [refers ref hr]
  exact contains_insert _ _

end Store

namespace Saving

variable {ε α β : Type}

/-- Run in a store, a computation has an outcome, keeps the shapes of the store and the order of
references, and hands out references to saved shapes only. -/
def Runs (refs : α → List Key) (act : Saving ε α) (store : Store) (outcome : Except ε α) : Prop :=
  ∃ after, act.run store = (outcome, after) ∧ store ≤ after ∧ after.Ordered ∧
    ∀ a, outcome = .ok a → after.Holds (refs a)

variable {refs : α → List Key} {refs' : β → List Key} {store : Store}

theorem runs_pure {a : α} (ordered : store.Ordered) (there : store.Holds (refs a)) :
    Runs refs (pure a : Saving ε α) store (.ok a) :=
  ⟨store, rfl, store.le_refl, ordered, fun _ same => Except.ok.inj same ▸ there⟩

theorem runs_throw {e : ε} (ordered : store.Ordered) :
    Runs refs (throw e : Saving ε α) store (.error e) :=
  ⟨store, rfl, store.le_refl, ordered, fun _ same => nomatch same⟩

/-- What follows a computation goes on from its result and from its store. -/
theorem run_bind (act : Saving ε α) (f : α → Saving ε β) (store : Store) :
    (act >>= f).run store =
      match act.run store with
      | (.ok a, after) => (f a).run after
      | (.error e, after) => (.error e, after) := by
  change ExceptT.bindCont f (act.run store).1 (act.run store).2 = _
  obtain ⟨outcome, after⟩ := act.run store
  cases outcome <;> rfl

/-- A computation that fails fails with all that follows it. -/
theorem Runs.stop {act : Saving ε α} {f : α → Saving ε β} {e : ε}
    (ran : Runs refs act store (.error e)) : Runs refs' (act >>= f) store (.error e) := by
  obtain ⟨after, ran, le, ordered, _⟩ := ran
  refine ⟨after, ?_, le, ordered, fun _ same => nomatch same⟩
  rw [run_bind, ran]

/-- What follows a computation runs in the store that it leaves. -/
theorem Runs.andThen {act : Saving ε α} {f : α → Saving ε β} {a : α} {outcome : Except ε β}
    (first : Runs refs act store (.ok a))
    (rest : ∀ after, store ≤ after → after.Ordered → after.Holds (refs a) →
      Runs refs' (f a) after outcome) : Runs refs' (act >>= f) store outcome := by
  obtain ⟨middle, ran, le, ordered, there⟩ := first
  obtain ⟨after, ran', le', ordered', there'⟩ := rest middle le ordered (there a rfl)
  refine ⟨after, ?_, Store.le_trans le le', ordered', there'⟩
  rw [run_bind, ran]
  exact ran'

/-- What runs alike and goes on alike, from its result in the store that it leaves, runs alike to
the end. -/
theorem Runs.run_bind_congr {act act' : Saving ε α} {f f' : α → Saving ε β} {outcome : Except ε α}
    (ran : Runs refs act store outcome) (same : act.run store = act'.run store)
    (alike : ∀ a after, outcome = .ok a → store ≤ after → after.Ordered → after.Holds (refs a) →
      (f a).run after = (f' a).run after) : (act >>= f).run store = (act' >>= f').run store := by
  obtain ⟨after, ran, le, ordered, there⟩ := ran
  rw [run_bind, run_bind, ← same, ran]
  cases outcome with
  | error e => rfl
  | ok a => exact alike a after rfl le ordered (there a rfl)

/-- Two computations, one after the other, each of which fails with `e` outside its condition. -/
theorem runs_both {γ : Type} {refs'' : γ → List Key} {act : Saving ε α} {act' : Saving ε β}
    {p q : Prop} [Decidable p] [Decidable q] {a : α} {b : β} {e : ε} {f : α → β → γ}
    (first : Runs refs act store (if p then .ok a else .error e))
    (second : ∀ after, after.Ordered → Runs refs' act' after (if q then .ok b else .error e))
    (fewer : refs'' (f a b) ⊆ refs a ++ refs' b) :
    Runs refs'' (do let x ← act; return f x (← act')) store
      (if p ∧ q then .ok (f a b) else .error e) := by
  by_cases hp : p
  · rw [if_pos hp] at first
    refine first.andThen ?_
    intro after _ ordered there
    have second := second after ordered
    by_cases hq : q
    · rw [if_pos hq] at second
      rw [if_pos ⟨hp, hq⟩]
      refine second.andThen ?_
      intro after' le ordered' there'
      refine runs_pure ordered' (Store.Holds.of_subset ?_ fewer)
      exact Store.holds_append.mpr ⟨there.of_le le, there'⟩
    · rw [if_neg hq] at second
      rw [if_neg fun both => hq both.2]
      exact second.stop
  · rw [if_neg hp] at first
    rw [if_neg fun both => hp both.1]
    exact first.stop

/-- A computation whose result is worked on without saving. -/
theorem Runs.map {act : Saving ε α} {a : α} {f : α → β} (ran : Runs refs act store (.ok a))
    (fewer : refs' (f a) ⊆ refs a) : Runs refs' (f <$> act) store (.ok (f a)) := by
  rw [map_eq_pure_bind]
  refine ran.andThen ?_
  intro after _ ordered there
  exact runs_pure ordered (there.of_subset fewer)

theorem runs_save {shape : Composite Key} (ordered : store.Ordered)
    (there : store.Holds shape.references) :
    Runs (fun key => [key]) (save shape : Saving ε Key) store (.ok (.address shape)) := by
  refine ⟨store.insert shape, rfl, store.le_insert shape, ordered.insert there, ?_⟩
  intro key same ref hr
  cases same
  cases List.mem_singleton.mp hr
  exact store.contains_insert shape

theorem runs_saveObject {fields : List (Field Key)} (ordered : store.Ordered)
    (there : store.Holds (Field.referencesOfAll fields)) :
    Runs Leaf.references (saveObject fields : Saving ε (Leaf Key)) store
      (.ok (.object (.address (.object fields)))) :=
  Runs.map (f := Leaf.object) (runs_save ordered there) (List.Subset.refl _)

/-- A list of computations, each of which runs in every later store. -/
theorem runs_mapM {f : α → Saving ε β} {g : α → β} (xs : List α) (ordered : store.Ordered)
    (each : ∀ x ∈ xs, ∀ after, store ≤ after → after.Ordered →
      Runs refs' (f x) after (.ok (g x))) :
    Runs (fun ys => ys.flatMap refs') (xs.mapM f) store (.ok (xs.map g)) := by
  induction xs generalizing store with
  | nil => exact runs_pure ordered Store.holds_nil
  | cons x rest ih =>
    rw [List.mapM_cons]
    refine (each x List.mem_cons_self store store.le_refl ordered).andThen
      fun after le ordered' there => ?_
    have later : Runs (fun ys => ys.flatMap refs') (rest.mapM f) after (.ok (rest.map g)) := by
      refine ih ordered' ?_
      intro x' hx after' le' ordered''
      exact each x' (List.mem_cons_of_mem x hx) after' (Store.le_trans le le') ordered''
    refine later.andThen ?_
    intro after' le' ordered'' there'
    exact runs_pure ordered'' (Store.holds_append.mpr ⟨there.of_le le', there'⟩)

/-- Two lists of computations run alike if they do so one by one, in every later store. -/
theorem run_mapM_congr {f f' : α → Saving ε β} {g : α → β} (xs : List α) (ordered : store.Ordered)
    (each : ∀ x ∈ xs, ∀ after, store ≤ after → after.Ordered →
      Runs refs' (f x) after (.ok (g x)) ∧ (f x).run after = (f' x).run after) :
    (xs.mapM f).run store = (xs.mapM f').run store := by
  induction xs generalizing store with
  | nil => rfl
  | cons x rest ih =>
    obtain ⟨ran, same⟩ := each x List.mem_cons_self store store.le_refl ordered
    rw [List.mapM_cons, List.mapM_cons]
    apply ran.run_bind_congr same
    intro y after _ le ordered' _
    have later : (rest.mapM f).run after = (rest.mapM f').run after := by
      apply ih ordered'
      intro x' hx after' le' ordered''
      exact each x' (List.mem_cons_of_mem x hx) after' (Store.le_trans le le') ordered''
    rw [run_bind, run_bind, later]

end Saving

end Exemplar
