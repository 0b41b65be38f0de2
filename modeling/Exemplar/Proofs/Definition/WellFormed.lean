import Exemplar.Proofs.Definition.Serialization

/-!
# Well-formed definitions

The definitions of a saved root have distinct names, the root is the last of
them, each refers to earlier ones only, and each is reached from the root.

Writing arrays in place is the pass that could break this. A replaced reference
leads on to what the wrapper refers to, which is earlier still; and it skips
wrappers only, so a path to anything else survives it. Wrappers that are kept
were met on a path from a definition that is kept for itself.
-/

namespace Exemplar

namespace Inline

open Definition (Layered Refers Reaches ReachedFrom position names)
open Relation (ReflTransGen)

variable {ν : Type} [DecidableEq ν] {types current : List (Definition ν)} {root name ref : ν}

/-- A wrapper is replaced by a type that refers to what the wrapper refers to. -/
theorem mem_references_wrapper? (distinct : (names types).Nodup) {type : TypeExpr ν}
    (found : wrapper? types root name = some type) :
    ref ∈ type.references ↔ Refers types name ref := by
  obtain ⟨_, t, ht, rfl, element, body, rfl⟩ := exists_of_wrapper? found
  have same : t.body.references = (TypeExpr.array element).references := by rw [body]; rfl
  rw [← same]
  constructor
  · exact fun hr => ⟨t, ht, rfl, hr⟩
  · rintro ⟨other, ho, named, hr⟩
    exact List.inj_on_of_nodup_map distinct ho ht named ▸ hr

/-- After a round, a reference to a wrapper is one to what the wrapper refers to. -/
theorem refers_expandAll (distinct : (names types).Nodup) :
    Refers (expandAll (wrapper? types root) current) name ref ↔
      ∃ inner, Refers current name inner ∧
        if isWrapper types root inner = true then Refers types inner ref else ref = inner := by
  have replaced : ∀ inner, ref ∈ ((wrapper? types root inner).getD (.named inner)).references ↔
      if isWrapper types root inner = true then Refers types inner ref else ref = inner := by
    intro inner
    rw [isWrapper]
    cases found : wrapper? types root inner with
    | none => exact List.mem_singleton
    | some type => exact mem_references_wrapper? distinct found
  constructor
  · rintro ⟨_, hm, rfl, hr⟩
    obtain ⟨t, ht, rfl⟩ := List.mem_map.mp hm
    obtain ⟨inner, hi, hr⟩ := mem_references_expand.mp hr
    exact ⟨inner, ⟨t, ht, rfl, hi⟩, (replaced inner).mp hr⟩
  · rintro ⟨inner, ⟨t, ht, rfl, hi⟩, hr⟩
    exact ⟨_, List.mem_map_of_mem ht, rfl,
      mem_references_expand.mpr ⟨inner, hi, (replaced inner).mpr hr⟩⟩

theorem layered_expandAll (distinct : (names types).Nodup) (layered : Layered types)
    (same : names current = names types) (layered' : Layered current) :
    Layered (expandAll (wrapper? types root) current) := by
  have kept : names (expandAll (wrapper? types root) current) = names current :=
    names_expandRounds (wrapper? types root) 1 current
  have places : position current = position types := by
    funext name
    rw [position, position, same]
  have lower := (Definition.layered_iff distinct).mp layered
  have lower' := (Definition.layered_iff (same ▸ distinct)).mp layered'
  refine (Definition.layered_iff (kept ▸ same ▸ distinct)).mpr ?_
  intro name ref refers
  obtain ⟨inner, refers, replaced⟩ := (refers_expandAll distinct).mp refers
  have below := lower' name inner refers
  rw [position, position, kept]
  change position current ref < position current name
  by_cases wrapper : isWrapper types root inner = true
  · rw [if_pos wrapper] at replaced
    have := lower inner ref replaced
    rw [places] at below ⊢
    omega
  · rw [if_neg wrapper] at replaced
    exact replaced ▸ below

/-- Rounds of replacement keep layers. -/
theorem layered_expandRounds (distinct : (names types).Nodup) (layered : Layered types)
    (rounds : Nat) (same : names current = names types) (layered' : Layered current) :
    Layered (expandRounds (wrapper? types root) rounds current) := by
  induction rounds generalizing current with
  | zero => exact layered'
  | succ rounds ih =>
    refine ih ?_ (layered_expandAll distinct layered same layered')
    exact (names_expandRounds (wrapper? types root) 1 current).trans same

/-- A reference on a path to what is no wrapper is replaced by one on such a path. -/
theorem exists_refers_expandRounds (distinct : (names types).Nodup) {target inner : ν}
    (plain : isWrapper types root target = false) (rounds : Nat) (refers : Refers current name inner)
    (path : Reaches types inner target) :
    ∃ ref, Refers (expandRounds (wrapper? types root) rounds current) name ref ∧
      Reaches types ref target := by
  induction rounds generalizing current inner with
  | zero => exact ⟨inner, refers, path⟩
  | succ rounds ih =>
    by_cases wrapper : isWrapper types root inner = true
    · rcases ReflTransGen.cases_head path with rfl | ⟨next, step, rest⟩
      · rw [plain] at wrapper
        cases wrapper
      · refine ih ((refers_expandAll distinct).mpr ⟨inner, refers, ?_⟩) rest
        rwa [if_pos wrapper]
    · refine ih ((refers_expandAll distinct).mpr ⟨inner, refers, ?_⟩) path
      rw [if_neg wrapper]

/-- What is reached and is no wrapper is still reached after all rounds. -/
theorem reaches_expanded (distinct : (names types).Nodup) (layered : Layered types) {target : ν}
    (plain : isWrapper types root target = false) (hn : name ∈ names types)
    (path : Reaches types name target) : Reaches (expanded root types) name target := by
  have distinct' : (names (expanded root types)).Nodup := names_expanded root types ▸ distinct
  have layered' : Layered (expanded root types) :=
    layered_expandRounds distinct layered rounds rfl layered
  -- A path is rebuilt from its start on; that it ends is what the layers are for.
  have rebuilt : ∀ name ∈ names (expanded root types),
      Reaches types name target → Reaches (expanded root types) name target := by
    refine layered'.induction ?_
    intro t ht ih path
    rcases ReflTransGen.cases_head path with same | ⟨inner, step, rest⟩
    · exact same ▸ .refl
    · obtain ⟨ref, ⟨other, ho, same, hr⟩, rest⟩ :=
        exists_refers_expandRounds distinct plain rounds step rest
      cases List.inj_on_of_nodup_map distinct' ho ht same
      exact ReflTransGen.head ⟨_, ho, rfl, hr⟩ (ih ref hr rest)
  exact rebuilt name (by rwa [names_expanded]) path

/-- All that is kept is reached, through the replaced bodies. -/
theorem reaches_of_kept (distinct : (names types).Nodup) (layered : Layered types)
    (rooted : root ∈ names types) (reached : ReachedFrom root types) (hn : name ∈ names types)
    (keep : kept root types name = true) : Reaches (expanded root types) root name := by
  have staying : ∀ name ∈ names types, stays root types name = true →
      Reaches (expanded root types) root name := by
    intro name hn stay
    by_cases isRoot : name = root
    · exact isRoot ▸ .refl
    · refine reaches_expanded distinct layered ?_ rooted (reached name hn)
      simpa [stays, isRoot] using stay
  rw [kept, Bool.or_eq_true, decide_eq_true_eq] at keep
  rcases keep with stay | alive
  · exact staying name hn stay
  · have first : ∀ name ∈ fresh (isWrapper types root) []
        (((expanded root types).filter fun t => stays root types t.name).map (·.body)),
        Reaches (expanded root types) root name := by
      intro name hn
      obtain ⟨⟨body, hb, hr⟩, _, _⟩ := mem_fresh.mp hn
      obtain ⟨t, ht, rfl⟩ := List.mem_map.mp hb
      obtain ⟨ht, stay⟩ := List.mem_filter.mp ht
      have known : t.name ∈ names types := by
        rw [← names_expanded root types]
        exact Definition.mem_names.mpr ⟨t, ht, rfl⟩
      exact (staying t.name known stay).tail ⟨t, ht, rfl, hr⟩
    exact follow_induction (fun t ht path ref hr _ => path.tail ⟨t, ht, rfl, hr⟩) _ first first
      name alive

theorem kept_closed (distinct : (names types).Nodup) :
    ∀ t ∈ expanded root types, kept root types t.name = true →
      ∀ ref ∈ t.body.references, kept root types ref = true :=
  fun _ ht keep _ hr => kept_of_mem_references distinct ht keep hr

/-- Writing arrays in place keeps layers. -/
theorem layered_inlineArrays (distinct : (names types).Nodup) (layered : Layered types) :
    Layered (inlineArrays root types) :=
  Layered.filter (kept_closed distinct) (layered_expandRounds distinct layered rounds rfl layered)

/-- Writing arrays in place leaves nothing that the root does not reach. -/
theorem reachedFrom_inlineArrays (distinct : (names types).Nodup) (layered : Layered types)
    (rooted : root ∈ names types) (reached : ReachedFrom root types) :
    ReachedFrom root (inlineArrays root types) := by
  intro name hn
  obtain ⟨hn, keep⟩ := mem_names_inlineArrays.mp hn
  exact Reaches.filter (kept_closed distinct)
    (reaches_of_kept distinct layered rooted reached hn keep) (kept_root root types)

end Inline

namespace Definition

/-- Definitions as they leave: the root is the last, and all others stand before what refers to
them and are needed by it. -/
structure WellFormed (rootName : String) (types : List (Definition String)) : Prop where
  distinct : (names types).Nodup
  rooted : ∃ front last, types = front ++ [last] ∧ last.name = rootName ∧ last.isRoot = true ∧
    ∀ t ∈ front, t.isRoot = false
  layered : Layered types
  reached : ReachedFrom rootName types

theorem WellFormed.root_mem {rootName : String} {types : List (Definition String)}
    (wellFormed : WellFormed rootName types) : rootName ∈ names types := by
  obtain ⟨front, last, rfl, rfl, _⟩ := wellFormed.rooted
  exact mem_names.mpr ⟨last, List.mem_append_right front List.mem_cons_self, rfl⟩

variable {root : Key} {types : List (Definition Key)}

/-- Marking the root and naming turn layered definitions, all reached from the root, into
well-formed ones. -/
theorem Serializable.wellFormed (serializable : Serializable root types)
    (layered : Layered types) (reached : ReachedFrom root types) (options : Options) :
    WellFormed options.rootName (Naming.named root options (types.map (marked root))) := by
  let final := Naming.finalName root options (types.map (marked root))
  have renames : ∀ t : Definition Key, (Naming.rename final (marked root t)).name = final t.name ∧
      (Naming.rename final (marked root t)).body.references = t.body.references.map final := by
    intro t
    refine ⟨rfl, ?_⟩
    rw [Naming.rename, marked, Body.references_subst, List.map_eq_flatMap]
    rfl
  have isRoot : final root = options.rootName :=
    Naming.finalName_root root options (names_marked root types ▸ serializable.root)
  have all : Naming.named root options (types.map (marked root)) =
      types.map fun t => Naming.rename final (marked root t) := List.map_map
  obtain ⟨front, last, split, same⟩ :=
    layered.root_last serializable.distinct serializable.root reached
  refine ⟨?_, ⟨front.map fun t => Naming.rename final (marked root t),
    Naming.rename final (marked root last), ?_, ?_, ?_, ?_⟩, ?_, ?_⟩
  · refine Naming.nodup_names_rename ?_ serializable.distinct_marked
    intro name hn name' hn'
    exact Naming.finalName_injOn root options hn hn'
  · rw [all, split, List.map_append]
    rfl
  · rw [(renames last).1, same, isRoot]
  · simp [Naming.rename, marked, same]
  · intro t ht
    obtain ⟨original, ho, rfl⟩ := List.mem_map.mp ht
    have other : original.name ≠ root := by
      have distinct := serializable.distinct
      rw [split, names_append] at distinct
      rw [← same]
      exact (List.nodup_append.mp distinct).2.2 _ (mem_names.mpr ⟨original, ho, rfl⟩) _
        (mem_names.mpr ⟨last, List.mem_cons_self, rfl⟩)
    have unmarked := serializable.unmarked original (split ▸ List.mem_append_left _ ho)
    simp [Naming.rename, marked, unmarked, other]
  · rw [all]
    exact layered.map renames
  · rw [all, ← isRoot]
    exact reached.map renames

end Definition

/-- The definitions of a saved root are well-formed, whatever names are asked for. -/
theorem definitions_wellFormed {store : Store} (ordered : store.Ordered) {root : Key}
    (there : store.contains root = true) (options : Options) :
    ∃ types, definitions store root options = .ok types ∧
      Definition.WellFormed options.rootName types := by
  obtain ⟨shapes, ran, settled, covers, needed⟩ := Collect.collect_ok ordered there
  have serializable := Definition.serializable_of_settled settled covers
  have layered := settled.layered
  have reached := settled.reachedFrom covers needed
  refine ⟨_, serializable.definitions_eq ran options, ?_⟩
  exact serializable.inlineArrays.wellFormed
    (Inline.layered_inlineArrays serializable.distinct layered)
    (Inline.reachedFrom_inlineArrays serializable.distinct layered serializable.root reached)
    options

/-- Arrays in place nested too deep to be written out, where both names asked for are empty and
a field is called like the first number. -/
theorem definitions_wellFormed_of_deep_arrays :
    let point : Composite Key := .object [⟨"x", [.primitive .number], false⟩]
    let switch : Composite Key := .object [⟨"on", [.primitive .boolean], true⟩]
    let root : Composite Key := .object
      [⟨"deep", [.array [.array [.array [.array [.array [.array [.array
          [.object (.address point), .primitive .null]]]]]]]], false⟩,
        ⟨"1", [.object (.address switch)], false⟩]
    let store := ((Store.empty.insert point).insert switch).insert root
    let options : Options := { rootName := "", placeholderName := "" }
    store.Ordered ∧ store.contains (.address root) = true ∧
      ∃ types, definitions store (.address root) options = .ok types ∧
        Definition.WellFormed options.rootName types := by
  intro point switch root store options
  have first : ((Store.empty.insert point).insert switch).contains (.address point) = true :=
    Store.contains_of_le (Store.le_insert _ _) (Store.contains_insert _ _)
  have second : ((Store.empty.insert point).insert switch).contains (.address switch) = true :=
    Store.contains_insert _ _
  have ordered : store.Ordered := by
    refine ((Store.ordered_empty.insert Store.holds_nil).insert Store.holds_nil).insert ?_
    intro ref hr
    rcases List.mem_cons.mp hr with rfl | hr
    · exact first
    · exact List.mem_singleton.mp hr ▸ second
  have there : store.contains (.address root) = true := Store.contains_insert _ _
  exact ⟨ordered, there, definitions_wellFormed ordered there options⟩

end Exemplar
