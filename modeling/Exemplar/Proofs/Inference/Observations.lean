import Exemplar.Proofs.Definition.Serialization
import Exemplar.Proofs.Inference.Session

/-!
# Observations that fail

A session goes on after a call that fails. Such a call adds no sample. A value
that is refused was refused before anything was saved, a node that is refused
may leave shapes of its parts in the store. No later call looks at these, so
the session ends as if the failed calls had not been made.
-/

namespace Exemplar

/-- A call that offers a sample: a value, or a node built by hand. -/
inductive Observation where
  | ofValue (value : Json)
  | ofNode (node : Node)

namespace Observation

def refusal? (limit : Nat) : Observation → Option Failure
  | .ofValue value => Session.refusal? limit value
  | .ofNode node => Session.nodeRefusal? limit node

def tree : Observation → Tree
  | .ofValue value => value.node.tree
  | .ofNode node => node.tree

theorem refusal?_ne_fault (limit : Nat) (call : Observation) (fault : Fault) :
    call.refusal? limit ≠ some (.fault fault) := by
  cases call with
  | ofValue value => exact Session.refusal?_ne_fault limit value fault
  | ofNode node => exact Session.nodeRefusal?_ne_fault limit node fault

end Observation

namespace Session

def make (session : Session) : Observation → Except Failure Unit × Session
  | .ofValue value => session.observe value
  | .ofNode node => session.observeNode node

/-- The session after some calls, whether they fail or not. -/
def after (session : Session) (calls : List Observation) : Session :=
  calls.foldl (fun session call => (session.make call).2) session

/-- The calls that do not fail, when they are made one after the other. -/
def successes : Session → List Observation → List Observation
  | _, [] => []
  | session, call :: rest =>
    match session.make call with
    | (.ok (), next) => call :: next.successes rest
    | (.error _, next) => next.successes rest

variable {session other : Session} {trees : List Tree}

theorem mem_of_mem_successes {calls : List Observation} {call : Observation}
    (succeeded : call ∈ session.successes calls) : call ∈ calls := by
  induction calls generalizing session with
  | nil => exact succeeded
  | cons first rest ih =>
    rw [successes] at succeeded
    match made : session.make first with
    | (.ok (), next) =>
      rw [made] at succeeded
      rcases List.mem_cons.mp succeeded with rfl | succeeded
      · exact List.mem_cons_self
      · exact List.mem_cons_of_mem _ (ih succeeded)
    | (.error failure, next) =>
      rw [made] at succeeded
      exact List.mem_cons_of_mem _ (ih succeeded)

theorem Sound.makes {call : Observation} (sound : session.Sound trees)
    (accepted : call.refusal? session.limit = none) :
    ∃ next, session.make call = (.ok (), next) ∧ next.limit = session.limit ∧
      next.Sound (trees ++ [call.tree]) := by
  cases call with
  | ofValue value => exact sound.observes accepted
  | ofNode node => exact sound.observesNode accepted

theorem Sound.make_refused {call : Observation} {failure : Failure} (sound : session.Sound trees)
    (refused : call.refusal? session.limit = some failure) :
    ∃ next, session.make call = (.error failure, next) ∧ next.limit = session.limit ∧
      next.Sound trees := by
  cases call with
  | ofValue value => exact ⟨session, observe_refused refused, rfl, sound⟩
  | ofNode node =>
    obtain ⟨store, made, _, sound'⟩ := sound.observeNode_refused refused
    exact ⟨_, made, rfl, sound'⟩

/-- Whether a call succeeds depends on the limit alone. A session holds the trees of the calls that
do. -/
theorem Sound.calls (sound : session.Sound trees) (calls : List Observation) :
    session.successes calls = calls.filter (fun call => (call.refusal? session.limit).isNone) ∧
      (session.after calls).limit = session.limit ∧
      (session.after calls).Sound (trees ++ (session.successes calls).map Observation.tree) := by
  induction calls generalizing session trees with
  | nil =>
    refine ⟨rfl, rfl, ?_⟩
    rw [successes, List.map_nil, List.append_nil]
    exact sound
  | cons call rest ih =>
    cases refused : call.refusal? session.limit with
    | none =>
      obtain ⟨next, made, same, sound'⟩ := sound.makes refused
      obtain ⟨filtered, same', sound''⟩ := ih sound'
      rw [successes, made, List.filter_cons_of_pos (by simp [refused]), ← same, ← filtered]
      refine ⟨rfl, ?_, ?_⟩
      · rw [after, List.foldl_cons, made]
        exact same'
      · rw [after, List.foldl_cons, made, List.map_cons, List.append_cons]
        exact sound''
    | some failure =>
      obtain ⟨next, made, same, sound'⟩ := sound.make_refused refused
      obtain ⟨filtered, same', sound''⟩ := ih sound'
      rw [successes, made, List.filter_cons_of_neg (by simp [refused]), ← same, ← filtered]
      refine ⟨rfl, ?_, ?_⟩
      · rw [after, List.foldl_cons, made]
        exact same'
      · rw [after, List.foldl_cons, made]
        exact sound''

/-- Which root some alternatives have does not depend on the store. -/
theorem root_congr (store store' : Store) (leaves : List (Leaf Key)) :
    (root store leaves).map (·.root) = (root store' leaves).map (·.root) := by
  match leaves with
  | [] => rfl
  | [.object _] => rfl
  | [.array _] => rfl
  | [.primitive _] => rfl
  | _ :: _ :: _ => simp [root]

/-- Sessions whose samples have the same union have the same root, or fail to have one for the same
reason. -/
theorem Sound.solve_congr_of_union {trees' : List Tree} (sound : session.Sound trees)
    (sound' : other.Sound trees') (nonempty : trees ≠ []) (nonempty' : trees' ≠ [])
    (union : Tree.combine trees = Tree.combine trees') :
    session.solve.map (·.root) = other.solve.map (·.root) := by
  obtain ⟨store, _, _, taken⟩ := sound.solve_eq_root nonempty
  obtain ⟨store', _, _, taken'⟩ := sound'.solve_eq_root nonempty'
  rw [taken, taken', union]
  exact root_congr store store' _

/-- Sessions with the same trees have the same root, or fail to have one for the same reason. -/
theorem Sound.solve_congr (sound : session.Sound trees) (sound' : other.Sound trees) :
    session.solve.map (·.root) = other.solve.map (·.root) := by
  by_cases empty : trees = []
  · rw [empty] at sound sound'
    rw [sound.solve_nil, sound'.solve_nil]
  · exact sound.solve_congr_of_union sound' empty empty rfl

/-- Sessions with the same root have the same definitions, whatever else their stores hold. -/
theorem Sound.definitions_congr_of_root {trees' : List Tree} {inferred inferred' : Inferred}
    (sound : session.Sound trees) (sound' : other.Sound trees')
    (solved : session.solve = .ok inferred) (solved' : other.solve = .ok inferred')
    (same : inferred.root = inferred'.root) (options : Options) :
    ∃ types, definitions inferred.store inferred.root options = .ok types ∧
      definitions inferred'.store inferred'.root options = .ok types := by
  obtain ⟨ordered, there, _⟩ := sound.solve solved
  obtain ⟨ordered', there', _⟩ := sound'.solve solved'
  obtain ⟨types, named, _⟩ := definitions_ok ordered there options
  refine ⟨types, named, ?_⟩
  rw [← named, ← same]
  exact (Exemplar.definitions_congr ordered ordered' there (same ▸ there') options).symm

/-- Sessions with the same trees have the same definitions. -/
theorem Sound.definitions_congr {inferred inferred' : Inferred} (sound : session.Sound trees)
    (sound' : other.Sound trees) (solved : session.solve = .ok inferred)
    (solved' : other.solve = .ok inferred') (options : Options) :
    ∃ types, definitions inferred.store inferred.root options = .ok types ∧
      definitions inferred'.store inferred'.root options = .ok types := by
  have roots := sound.solve_congr sound'
  rw [solved, solved'] at roots
  exact sound.definitions_congr_of_root sound' solved solved' (Except.ok.inj roots) options

/-- No call meets a fault. -/
theorem Sound.make_ne_fault (sound : session.Sound trees) (call : Observation) (fault : Fault) :
    (session.make call).1 ≠ .error (.fault fault) := by
  intro broken
  cases refused : call.refusal? session.limit with
  | none =>
    obtain ⟨_, made, _⟩ := sound.makes refused
    rw [made] at broken
    cases broken
  | some failure =>
    obtain ⟨_, made, _⟩ := sound.make_refused refused
    rw [made] at broken
    cases broken
    exact call.refusal?_ne_fault session.limit fault refused

/-- A value that is not observed changes nothing. -/
theorem Sound.eq_of_observe_error {value : Json} {failure : Failure} {next : Session}
    (sound : session.Sound trees) (failed : session.observe value = (.error failure, next)) :
    next = session := by
  cases refused : refusal? session.limit value with
  | none =>
    obtain ⟨_, observed, _⟩ := sound.observes refused
    cases observed.symm.trans failed
  | some failure =>
    cases (observe_refused refused).symm.trans failed
    rfl

/-- A node that is not observed adds no sample, and keeps what the store has. -/
theorem Sound.kept_of_observeNode_error {node : Node} {failure : Failure} {next : Session}
    (sound : session.Sound trees) (failed : session.observeNode node = (.error failure, next)) :
    next.limit = session.limit ∧ next.samples = session.samples ∧
      session.store.shapes <+: next.store.shapes := by
  cases refused : nodeRefusal? session.limit node with
  | none =>
    obtain ⟨_, observed, _⟩ := sound.observesNode refused
    cases observed.symm.trans failed
  | some failure =>
    obtain ⟨store, observed, le, _⟩ := sound.observeNode_refused refused
    cases observed.symm.trans failed
    exact ⟨rfl, rfl, le⟩

/-- Take any calls on one session. The next call that fails changes nothing, or only adds to the
store, and it fails for what it offers. The session counts the calls that succeeded, and has the
root, the failure and the definitions of a new session to which only these were made. -/
theorem failures_leave_no_trace (limit : Nat) (calls : List Observation) :
    let session := (start limit).after calls
    let succeeded := (start limit).successes calls
    let fresh := (start limit).after succeeded
    (∀ value failure next, session.observe value = (.error failure, next) → next = session) ∧
    (∀ node failure next, session.observeNode node = (.error failure, next) →
      next.limit = session.limit ∧ next.samples = session.samples ∧
        session.store.shapes <+: next.store.shapes) ∧
    (∀ call fault, (session.make call).1 ≠ .error (.fault fault)) ∧
    session.sampleCount = succeeded.length ∧
    (start limit).successes succeeded = succeeded ∧
    session.solve.map (·.root) = fresh.solve.map (·.root) ∧
    ∀ inferred inferred' options, session.solve = .ok inferred → fresh.solve = .ok inferred' →
      ∃ types, definitions inferred.store inferred.root options = .ok types ∧
        definitions inferred'.store inferred'.root options = .ok types := by
  intro session succeeded fresh
  obtain ⟨filtered, _, sound⟩ := (sound_start limit).calls calls
  obtain ⟨filtered', _, sound'⟩ := (sound_start limit).calls succeeded
  -- What succeeded once succeeds again, for the limit is the same.
  have again : (start limit).successes succeeded = succeeded := by
    rw [filtered', show succeeded = _ from filtered, List.filter_filter]
    simp only [Bool.and_self]
  rw [again] at sound'
  refine ⟨fun _ _ _ => sound.eq_of_observe_error, fun _ _ _ => sound.kept_of_observeNode_error,
    sound.make_ne_fault, ?_, again, sound.solve_congr sound', ?_⟩
  · rw [sampleCount, sound.samples, List.length_map, List.nil_append, List.length_map]
  · exact fun _ _ options solved solved' => sound.definitions_congr sound' solved solved' options

/-- A node that is refused after one of its parts was saved, and a value that is refused. -/
theorem failures_leave_no_trace_of_saved_part :
    let calls : List Observation :=
      [.ofNode (.object [("saved", .object []), ("deep", .array [.array []])]),
        .ofValue (.object [("a", .null)]), .ofValue (.string "text"),
        .ofNode (.object [("a", .primitive .number)])]
    let session := (start 2).after calls
    let succeeded := (start 2).successes calls
    let fresh := (start 2).after succeeded
    succeeded.length = 2 ∧ fresh.store.size < session.store.size ∧
      session.sampleCount = succeeded.length ∧
      session.solve.map (·.root) = fresh.solve.map (·.root) := by
  intro calls session succeeded fresh
  obtain ⟨_, _, _, counted, _, root, _⟩ := failures_leave_no_trace 2 calls
  exact ⟨by decide +kernel, by decide +kernel, counted, root⟩

end Session

end Exemplar
