import Exemplar.Proofs.Definition.Lookup
import Exemplar.Proofs.Repetition
import Mathlib.Data.List.Perm.Subperm
import Mathlib.Logic.Function.Iterate

/-!
# What writing arrays in place keeps

A wrapper stands for the array that it was defined as. So a replacement changes
no meaning, and neither do five rounds of it. Then definitions are dropped. The
search for live wrappers ends with a closed list, since it meets a new wrapper
in each step but the last; hence what is kept refers to nothing that was
dropped, and keeps its meaning too.
-/

namespace Exemplar

namespace Inline

variable {ν : Type} [DecidableEq ν]

/-! ## Rounds of replacement -/

/-- A wrapper accepts what the type that replaces it accepts. -/
def Faithful (M : Meaning ν) (wrapper : ν → Option (TypeExpr ν)) : Prop :=
  ∀ name type, wrapper name = some type → M name = type.Accepts M

omit [DecidableEq ν] in
theorem accepts_expand {M : Meaning ν} {wrapper : ν → Option (TypeExpr ν)}
    (faithful : Faithful M wrapper) (body : Body ν) :
    (expand wrapper body).Accepts M = body.Accepts M := by
  have same : (fun name => ((wrapper name).getD (.named name)).Accepts M) = M := by
    funext name
    cases found : wrapper name with
    | none => rfl
    | some type => exact (faithful name type found).symm
  rw [expand, Body.accepts_subst, same]

/-- One round of replacement changes no meaning. -/
theorem meaningOver_expandAll {outside : Meaning ν} {wrapper : ν → Option (TypeExpr ν)}
    {types : List (Definition ν)}
    (faithful : Faithful (Definition.meaningOver outside types) wrapper) :
    Definition.meaningOver outside (expandAll wrapper types) =
      Definition.meaningOver outside types := by
  refine (Meaning.eq_fixed (Definition.guarded_rule outside _) fun name value => ?_).symm
  rw [Definition.rule, expandAll, Definition.bodyOf?_map]
  cases found : Inline.bodyOf? types name with
  | none => exact Definition.meaningOver_of_none found value
  | some body =>
    refine (Definition.meaningOver_of_body found value).trans ?_
    rw [← accepts_expand faithful body]
    rfl

theorem meaningOver_expandRounds {outside : Meaning ν} {wrapper : ν → Option (TypeExpr ν)}
    (rounds : Nat) {types : List (Definition ν)}
    (faithful : Faithful (Definition.meaningOver outside types) wrapper) :
    Definition.meaningOver outside (expandRounds wrapper rounds types) =
      Definition.meaningOver outside types := by
  induction rounds generalizing types with
  | zero => rfl
  | succ rounds ih =>
    have same := meaningOver_expandAll faithful
    rw [expandRounds, ih (same ▸ faithful), same]

omit [DecidableEq ν] in
/-- Rounds of replacement work on each body by itself. -/
theorem expandRounds_eq_map (wrapper : ν → Option (TypeExpr ν)) (rounds : Nat)
    (types : List (Definition ν)) :
    expandRounds wrapper rounds types =
      types.map fun t => { t with body := (expand wrapper)^[rounds] t.body } := by
  induction rounds generalizing types with
  | zero => exact (List.map_id types).symm
  | succ rounds ih =>
    rw [expandRounds, ih, expandAll, List.map_map]
    rfl

omit [DecidableEq ν] in
theorem names_expandRounds (wrapper : ν → Option (TypeExpr ν)) (rounds : Nat)
    (types : List (Definition ν)) :
    Definition.names (expandRounds wrapper rounds types) = Definition.names types := by
  rw [expandRounds_eq_map, Definition.names, Definition.names, List.map_map]
  rfl

omit [DecidableEq ν] in
theorem mem_references_expand {wrapper : ν → Option (TypeExpr ν)} {body : Body ν} {ref : ν} :
    ref ∈ (expand wrapper body).references ↔
      ∃ inner ∈ body.references, ref ∈ ((wrapper inner).getD (.named inner)).references := by
  rw [expand, Body.references_subst, List.mem_flatMap]

omit [DecidableEq ν] in
/-- Replacements bring in no names but those of the types that they put in place. -/
theorem references_expandRounds {known : List ν} {wrapper : ν → Option (TypeExpr ν)}
    (wrappers : ∀ name type, wrapper name = some type → type.references ⊆ known) (rounds : Nat)
    {types : List (Definition ν)} (within : ∀ t ∈ types, t.body.references ⊆ known) :
    ∀ t ∈ expandRounds wrapper rounds types, t.body.references ⊆ known := by
  induction rounds generalizing types with
  | zero => exact within
  | succ rounds ih =>
    refine ih ?_
    intro t ht ref hr
    obtain ⟨before, hb, rfl⟩ := List.mem_map.mp ht
    obtain ⟨name, hn, hr⟩ := mem_references_expand.mp hr
    cases found : wrapper name with
    | none =>
      rw [found] at hr
      exact List.mem_singleton.mp hr ▸ within before hb hn
    | some type =>
      rw [found] at hr
      exact wrappers name type found hr

/-- A wrapper is replaced by an array that one of its definitions has. -/
theorem exists_of_wrapper? {types : List (Definition ν)} {root name : ν} {type : TypeExpr ν}
    (found : wrapper? types root name = some type) :
    name ≠ root ∧ ∃ t ∈ types, t.name = name ∧ ∃ element, t.body = .array element ∧
      type = .array element := by
  rw [wrapper?] at found
  by_cases isRoot : name = root
  · rw [if_pos isRoot] at found
    cases found
  · rw [if_neg isRoot] at found
    obtain ⟨element, last, rfl⟩ := Option.map_eq_some_iff.mp found
    obtain ⟨t, ht, has⟩ := List.mem_filterMap.mp (List.mem_of_getLast? last)
    by_cases same : t.name = name
    · rw [if_pos same] at has
      refine ⟨isRoot, t, ht, same, element, ?_, rfl⟩
      cases body : t.body with
      | object members => rw [body] at has; cases has
      | array element => rw [body] at has; cases has; rfl
    · rw [if_neg same] at has
      cases has

/-- Where names are distinct, the wrappers are the array definitions other than the root, and each is
replaced by its array. -/
theorem wrapper?_eq_some_iff {types : List (Definition ν)}
    (distinct : (Definition.names types).Nodup) {root : ν} {t : Definition ν} (ht : t ∈ types)
    {type : TypeExpr ν} : wrapper? types root t.name = some type ↔
      t.name ≠ root ∧ ∃ element, t.body = .array element ∧ type = .array element := by
  have own : ∀ {type}, wrapper? types root t.name = some type →
      t.name ≠ root ∧ ∃ element, t.body = .array element ∧ type = .array element := by
    intro type found
    obtain ⟨other, t', ht', same, element, body, rfl⟩ := exists_of_wrapper? found
    cases List.inj_on_of_nodup_map distinct ht' ht same
    exact ⟨other, element, body, rfl⟩
  refine ⟨own, ?_⟩
  rintro ⟨other, element, body, rfl⟩
  cases found : wrapper? types root t.name with
  | none =>
    rw [wrapper?, if_neg other, Option.map_eq_none_iff, List.getLast?_eq_none_iff,
      List.filterMap_eq_nil_iff] at found
    have missing := found t ht
    rw [if_pos rfl, body] at missing
    cases missing
  | some type =>
    obtain ⟨_, element', body', rfl⟩ := own found
    rw [body] at body'
    cases body'
    rfl

theorem faithful_wrapper? (outside : Meaning ν) {types : List (Definition ν)}
    (distinct : (Definition.names types).Nodup) (root : ν) :
    Faithful (Definition.meaningOver outside types) (wrapper? types root) := by
  intro name type found
  obtain ⟨_, t, ht, rfl, element, body, rfl⟩ := exists_of_wrapper? found
  have found := Definition.bodyOf?_of_mem distinct ht
  funext value
  rw [eq_iff_iff, Definition.meaningOver_of_body found, body]
  rfl

theorem mem_names_of_isWrapper {types : List (Definition ν)} {root name : ν}
    (wraps : isWrapper types root name = true) : name ∈ Definition.names types := by
  obtain ⟨type, found⟩ := Option.isSome_iff_exists.mp wraps
  obtain ⟨_, t, ht, same, _⟩ := exists_of_wrapper? found
  exact Definition.mem_names.mpr ⟨t, ht, same⟩

/-! ## The search for live wrappers -/

variable {wraps : ν → Bool} {types : List (Definition ν)}

theorem mem_fresh {met : List ν} {bodies : List (Body ν)} {name : ν} :
    name ∈ fresh wraps met bodies ↔
      (∃ body ∈ bodies, name ∈ body.references) ∧ wraps name = true ∧ name ∉ met := by
  rw [fresh, List.mem_eraseDups, List.mem_filter, List.mem_flatMap, Bool.and_eq_true,
    decide_eq_true_eq]

/-- The wrappers that the body of a name refers to are among some names. -/
def Leads (wraps : ν → Bool) (types : List (Definition ν)) (name : ν) (met : List ν) : Prop :=
  ∀ body, bodyOf? types name = some body → ∀ ref ∈ body.references, wraps ref = true → ref ∈ met

/-- The search so far: distinct wrappers, which lead to each other unless they were met last. -/
structure Searched (wraps : ν → Bool) (types : List (Definition ν)) (last met : List ν) : Prop where
  distinct : met.Nodup
  wrappers : ∀ name ∈ met, wraps name = true
  leads : ∀ name ∈ met, name ∈ last ∨ Leads wraps types name met

theorem searched_fresh (bodies : List (Body ν)) :
    Searched wraps types (fresh wraps [] bodies) (fresh wraps [] bodies) := by
  refine ⟨List.nodup_eraseDups _, fun name hn => ?_, fun name => Or.inl⟩
  exact (mem_fresh.mp hn).2.1

/-- What the names met last lead to was met, or is met next. -/
theorem leads_fresh {last met : List ν} {name : ν} (hn : name ∈ last) :
    Leads wraps types name (met ++ fresh wraps met (last.filterMap (bodyOf? types))) := by
  intro body found ref hr wrapper
  by_cases old : ref ∈ met
  · exact List.mem_append_left _ old
  · refine List.mem_append_right _ (mem_fresh.mpr ⟨⟨body, ?_, hr⟩, wrapper, old⟩)
    exact List.mem_filterMap.mpr ⟨name, hn, found⟩

theorem Searched.step {last met : List ν} (searched : Searched wraps types last met) :
    Searched wraps types (fresh wraps met (last.filterMap (bodyOf? types)))
      (met ++ fresh wraps met (last.filterMap (bodyOf? types))) := by
  refine ⟨?_, fun name hn => ?_, fun name hn => ?_⟩
  · refine List.nodup_append.mpr ⟨searched.distinct, List.nodup_eraseDups _, ?_⟩
    intro old ho new hn same
    exact (mem_fresh.mp hn).2.2 (same ▸ ho)
  · rcases List.mem_append.mp hn with old | new
    · exact searched.wrappers name old
    · exact (mem_fresh.mp new).2.1
  · rcases List.mem_append.mp hn with old | new
    · rcases searched.leads name old with hl | leads
      · exact Or.inr (leads_fresh hl)
      · exact Or.inr fun body found ref hr wrapper =>
          List.mem_append_left _ (leads body found ref hr wrapper)
    · exact Or.inl new

theorem follow_succ (steps : Nat) (last met : List ν) :
    follow wraps types (steps + 1) last met =
      if fresh wraps met (last.filterMap (bodyOf? types)) = [] then met
      else follow wraps types steps (fresh wraps met (last.filterMap (bodyOf? types)))
        (met ++ fresh wraps met (last.filterMap (bodyOf? types))) := by
  rw [follow]
  split
  next none => rw [if_pos none]
  next some => rw [if_neg some]

theorem subset_follow (steps : Nat) (last met : List ν) :
    met ⊆ follow wraps types steps last met := by
  induction steps generalizing last met with
  | zero => exact List.Subset.refl _
  | succ steps ih =>
    rw [follow_succ]
    split
    · exact List.Subset.refl _
    · exact List.Subset.trans (List.subset_append_left _ _) (ih _ _)

/-- What holds of the wrappers met first, and passes on along references to wrappers, holds of all
wrappers met. -/
theorem follow_induction {P : ν → Prop}
    (along : ∀ t ∈ types, P t.name → ∀ ref ∈ t.body.references, wraps ref = true → P ref)
    (steps : Nat) {last met : List ν} (first : ∀ name ∈ last, P name)
    (before : ∀ name ∈ met, P name) : ∀ name ∈ follow wraps types steps last met, P name := by
  induction steps generalizing last met with
  | zero => exact before
  | succ steps ih =>
    have next : ∀ name ∈ fresh wraps met (last.filterMap (bodyOf? types)), P name := by
      intro name hn
      obtain ⟨⟨body, hb, hr⟩, wrapper, _⟩ := mem_fresh.mp hn
      obtain ⟨source, hs, found⟩ := List.mem_filterMap.mp hb
      obtain ⟨t, ht, rfl, rfl⟩ := Definition.exists_of_bodyOf? found
      exact along t ht (first t.name hs) name hr wrapper
    rw [follow_succ]
    split
    · exact before
    · refine ih next ?_
      intro name hn
      rcases List.mem_append.mp hn with old | new
      · exact before name old
      · exact next name new

/-- With more steps than there are wrappers left to meet, the search ends with a closed list. -/
theorem follow_closed {known : List ν} (within : ∀ name, wraps name = true → name ∈ known)
    (steps : Nat) {last met : List ν} (searched : Searched wraps types last met)
    (enough : last = [] ∨ known.length < steps + met.length) :
    ∀ name ∈ follow wraps types steps last met,
      Leads wraps types name (follow wraps types steps last met) := by
  induction steps generalizing last met with
  | zero =>
    have bound : met.length ≤ known.length :=
      (searched.distinct.subperm fun name hn => within name (searched.wrappers name hn)).length_le
    -- As many distinct wrappers as there are names can not have been met with one to spare.
    rcases enough with rfl | enough
    · intro name hn
      rcases searched.leads name hn with hl | leads
      · cases hl
      · exact leads
    · omega
  | succ steps ih =>
    rw [follow_succ]
    by_cases none : fresh wraps met (last.filterMap (bodyOf? types)) = []
    · rw [if_pos none]
      intro name hn
      rcases searched.leads name hn with hl | leads
      · have leads : Leads wraps types name (met ++ _) := leads_fresh hl
        rwa [none, List.append_nil] at leads
      · exact leads
    · rw [if_neg none]
      refine ih searched.step (Or.inr ?_)
      have grows := List.length_pos_iff.mpr none
      rcases enough with rfl | enough
      · exact absurd rfl none
      · rw [List.length_append]
        omega

/-! ## What is kept -/

def expanded (root : ν) (types : List (Definition ν)) : List (Definition ν) :=
  expandRounds (wrapper? types root) rounds types

/-- Whether a definition is kept without regard to references. -/
def stays (root : ν) (types : List (Definition ν)) (name : ν) : Bool :=
  name = root || !isWrapper types root name

/-- Whether the definitions of a name are kept. -/
def kept (root : ν) (types : List (Definition ν)) (name : ν) : Bool :=
  stays root types name || name ∈ live (isWrapper types root) (fun t => stays root types t.name)
    (expanded root types)

theorem inlineArrays_eq (root : ν) (types : List (Definition ν)) :
    inlineArrays root types = (expanded root types).filter fun t => kept root types t.name := rfl

theorem names_expanded (root : ν) (types : List (Definition ν)) :
    Definition.names (expanded root types) = Definition.names types :=
  names_expandRounds _ _ types

variable {root : ν}

/-- What stays leads to live wrappers, and so do live wrappers. -/
theorem live_closed (distinct : (Definition.names types).Nodup) {t : Definition ν}
    (ht : t ∈ expanded root types) (keep : kept root types t.name = true) {ref : ν}
    (hr : ref ∈ t.body.references) (wrapper : isWrapper types root ref = true) :
    kept root types ref = true := by
  have within : ∀ name, isWrapper types root name = true →
      name ∈ Definition.names (expanded root types) := by
    intro name wraps
    rw [names_expanded]
    exact mem_names_of_isWrapper wraps
  have distinct' : (Definition.names (expanded root types)).Nodup := by
    rwa [names_expanded]
  rw [kept, Bool.or_eq_true, decide_eq_true_eq] at keep ⊢
  right
  rcases keep with keep | alive
  · refine subset_follow _ _ _ (mem_fresh.mpr ⟨⟨t.body, ?_, hr⟩, wrapper, List.not_mem_nil⟩)
    exact List.mem_map_of_mem (List.mem_filter.mpr ⟨ht, keep⟩)
  · refine follow_closed within _ (searched_fresh _) ?_ t.name alive t.body
      (Definition.bodyOf?_of_mem distinct' ht) ref hr wrapper
    by_cases none : fresh (isWrapper types root) []
        (((expanded root types).filter fun t => stays root types t.name).map (·.body)) = []
    · exact Or.inl none
    · have some := List.length_pos_iff.mpr none
      rw [Definition.names, List.length_map]
      exact Or.inr (by omega)

/-- What is kept refers to nothing that was dropped. -/
theorem kept_of_mem_references (distinct : (Definition.names types).Nodup) {t : Definition ν}
    (ht : t ∈ expanded root types) (keep : kept root types t.name = true) {ref : ν}
    (hr : ref ∈ t.body.references) : kept root types ref = true := by
  by_cases wrapper : isWrapper types root ref = true
  · exact live_closed distinct ht keep hr wrapper
  · have plain : isWrapper types root ref = false := by simpa using wrapper
    simp [kept, stays, plain]

theorem kept_root (root : ν) (types : List (Definition ν)) : kept root types root = true := by
  simp [kept, stays]

theorem mem_names_inlineArrays {name : ν} :
    name ∈ Definition.names (inlineArrays root types) ↔
      name ∈ Definition.names types ∧ kept root types name = true := by
  rw [← names_expanded root types, inlineArrays_eq, Definition.mem_names, Definition.mem_names]
  constructor
  · rintro ⟨t, ht, rfl⟩
    obtain ⟨ht, keep⟩ := List.mem_filter.mp ht
    exact ⟨⟨t, ht, rfl⟩, keep⟩
  · rintro ⟨⟨t, ht, rfl⟩, keep⟩
    exact ⟨t, List.mem_filter.mpr ⟨ht, keep⟩, rfl⟩

/-- The names that are kept stay in order. -/
theorem names_inlineArrays_sublist (root : ν) (types : List (Definition ν)) :
    (Definition.names (inlineArrays root types)).Sublist (Definition.names types) := by
  rw [← names_expanded root types]
  exact List.filter_sublist.map _

/-- No reference dangles after arrays were written in place, if none did before. -/
theorem closed_inlineArrays (distinct : (Definition.names types).Nodup)
    (closed : Definition.Closed types) : Definition.Closed (inlineArrays root types) := by
  have wrappers : ∀ name type, wrapper? types root name = some type →
      type.references ⊆ Definition.names types := by
    intro name type found ref hr
    obtain ⟨_, t, ht, _, element, body, rfl⟩ := exists_of_wrapper? found
    refine closed t ht ref ?_
    rw [body]
    exact hr
  intro t ht ref hr
  obtain ⟨ht, keep⟩ := List.mem_filter.mp ht
  rw [mem_names_inlineArrays]
  refine ⟨?_, kept_of_mem_references distinct ht keep hr⟩
  exact references_expandRounds wrappers rounds (fun t ht _ hr => closed t ht _ hr) t ht hr

def rewritten (root : ν) (types : List (Definition ν)) (t : Definition ν) : Definition ν :=
  { t with body := (expand (wrapper? types root))^[rounds] t.body }

theorem expanded_eq_map (root : ν) (types : List (Definition ν)) :
    expanded root types = types.map (rewritten root types) := expandRounds_eq_map _ _ _

/-- Some of the definitions are left, each with its body rewritten. -/
theorem inlineArrays_eq_map (root : ν) (types : List (Definition ν)) :
    inlineArrays root types =
      (types.filter fun t => kept root types t.name).map (rewritten root types) := by
  rw [inlineArrays_eq, expanded_eq_map, List.filter_map]
  rfl

/-- Writing arrays in place marks no definition. -/
theorem isRoot_inlineArrays {t : Definition ν} (ht : t ∈ inlineArrays root types) :
    ∃ t' ∈ types, t'.name = t.name ∧ t'.isRoot = t.isRoot := by
  rw [inlineArrays_eq_map] at ht
  obtain ⟨t', ht', rfl⟩ := List.mem_map.mp ht
  exact ⟨t', (List.mem_filter.mp ht').1, rfl, rfl⟩

/-- Writing arrays in place keeps what every kept name accepts. -/
theorem meaningOver_inlineArrays (outside : Meaning ν) (distinct : (Definition.names types).Nodup)
    {name : ν} (keep : kept root types name = true) (value : Json) :
    Definition.meaningOver outside (inlineArrays root types) name value ↔
      Definition.meaningOver outside types name value := by
  have rounds : Definition.meaningOver outside (expanded root types) =
      Definition.meaningOver outside types :=
    meaningOver_expandRounds _ (faithful_wrapper? outside distinct root)
  rw [← rounds]
  -- Kept names only refer to kept names, so the agreement can be restricted to these.
  refine Meaning.agree (fun a b => a = b ∧ kept root types a = true) ?_ ⟨rfl, keep⟩ value
  rintro name _ ⟨rfl, keep⟩ value same
  have inside : bodyOf? (inlineArrays root types) name = bodyOf? (expanded root types) name := by
    rw [inlineArrays_eq, Definition.bodyOf?_filter (fun _ => rfl), if_pos keep]
  cases found : bodyOf? (expanded root types) name with
  | none =>
    rw [Definition.meaningOver_of_none (inside.trans found), Definition.meaningOver_of_none found]
  | some body =>
    rw [Definition.meaningOver_of_body (inside.trans found), Definition.meaningOver_of_body found]
    refine Body.accepts_congr fun ref hr part below => same ref ref ⟨rfl, ?_⟩ part below
    obtain ⟨t, ht, rfl, rfl⟩ := Definition.exists_of_bodyOf? found
    exact kept_of_mem_references distinct ht keep hr

/-- What became of a definition: its name and its mark are as they were, and it accepts in the new
list what it accepted in the old one, whatever names without a definition mean. -/
structure Rewritten (types out : List (Definition ν)) (t t' : Definition ν) : Prop where
  name : t'.name = t.name
  isRoot : t'.isRoot = t.isRoot
  accepts : ∀ outside value, t'.body.Accepts (Definition.meaningOver outside out) value ↔
    t.body.Accepts (Definition.meaningOver outside types) value

theorem nodup_names_inlineArrays (distinct : (Definition.names types).Nodup) (root : ν) :
    (Definition.names (inlineArrays root types)).Nodup :=
  distinct.sublist (names_inlineArrays_sublist root types)

theorem rewritten_of_kept (distinct : (Definition.names types).Nodup) {t : Definition ν}
    (ht : t ∈ types) (keep : kept root types t.name = true) :
    Rewritten types (inlineArrays root types) t (rewritten root types t) := by
  refine ⟨rfl, rfl, fun outside value => ?_⟩
  have there : rewritten root types t ∈ inlineArrays root types := by
    rw [inlineArrays_eq_map]
    exact List.mem_map_of_mem (List.mem_filter.mpr ⟨ht, keep⟩)
  have before : Definition.meaningOver outside types t.name value ↔ t.body.Accepts _ value :=
    Definition.meaningOver_of_body (Definition.bodyOf?_of_mem distinct ht) value
  have after : Definition.meaningOver outside (inlineArrays root types) t.name value ↔
      (rewritten root types t).body.Accepts _ value :=
    Definition.meaningOver_of_body
      (Definition.bodyOf?_of_mem (nodup_names_inlineArrays distinct root) there) value
  rw [← before, ← after]
  exact meaningOver_inlineArrays outside distinct keep value

/-- An object is never written in place. -/
theorem kept_of_object (distinct : (Definition.names types).Nodup) {t : Definition ν}
    (ht : t ∈ types) {members : List (Member (TypeExpr ν))} (body : t.body = .object members) :
    kept root types t.name = true := by
  cases found : wrapper? types root t.name with
  | none => simp [kept, stays, isWrapper, found]
  | some type =>
    obtain ⟨_, element, array, _⟩ := (wrapper?_eq_some_iff distinct ht).mp found
    rw [body] at array
    cases array

end Inline

/-- Writing arrays in place leaves, in order, some of the definitions, among them the root and all
objects. What is left accepts what it accepted before, and refers to nothing that was dropped. -/
theorem inlineArrays_keepsMeaning {ν : Type} [DecidableEq ν] {types : List (Definition ν)}
    (distinct : (Definition.names types).Nodup) (root : ν) :
    ∃ left : List (Definition ν), left.Sublist types ∧
      (∀ t ∈ types, t.name = root ∨ (∃ members, t.body = .object members) → t ∈ left) ∧
      List.Forall₂ (Inline.Rewritten types (inlineArrays root types)) left
        (inlineArrays root types) ∧
      ∀ t ∈ inlineArrays root types, ∀ ref ∈ t.body.references,
        ref ∈ Definition.names types → ref ∈ Definition.names (inlineArrays root types) := by
  refine ⟨types.filter fun t => Inline.kept root types t.name, List.filter_sublist, ?_, ?_, ?_⟩
  · rintro t ht (isRoot | ⟨members, body⟩)
    · exact List.mem_filter.mpr ⟨ht, isRoot ▸ Inline.kept_root root types⟩
    · exact List.mem_filter.mpr ⟨ht, Inline.kept_of_object distinct ht body⟩
  · nth_rewrite 2 [Inline.inlineArrays_eq_map]
    refine List.forall₂_map_right_iff.mpr (List.forall₂_same.mpr fun t ht => ?_)
    obtain ⟨ht, keep⟩ := List.mem_filter.mp ht
    exact Inline.rewritten_of_kept distinct ht keep
  · intro t ht ref hr known
    obtain ⟨ht, keep⟩ := List.mem_filter.mp ht
    exact Inline.mem_names_inlineArrays.mpr
      ⟨known, Inline.kept_of_mem_references distinct ht keep hr⟩

/-- Two wrappers in a circle, an object that refers to one of them and to a name without a
definition, and no root. Of the circle, one wrapper is left. -/
theorem inlineArrays_keepsMeaning_of_circle :
    let circle : List (Definition String) :=
      [⟨"even", .array (.named "odd"), false⟩, ⟨"odd", .array (.named "even"), false⟩,
        ⟨"pair", .object [⟨"first", .union [.named "even", .named "gone"], true⟩], false⟩]
    (Definition.names circle).Nodup ∧
      Definition.names (inlineArrays "root" circle) = ["odd", "pair"] ∧
      ∃ left : List (Definition String), left.Sublist circle ∧
        (∀ t ∈ circle, t.name = "root" ∨ (∃ members, t.body = .object members) → t ∈ left) ∧
        List.Forall₂ (Inline.Rewritten circle (inlineArrays "root" circle)) left
          (inlineArrays "root" circle) ∧
        ∀ t ∈ inlineArrays "root" circle, ∀ ref ∈ t.body.references,
          ref ∈ Definition.names circle → ref ∈ Definition.names (inlineArrays "root" circle) := by
  intro circle
  have distinct : (Definition.names circle).Nodup := by decide
  exact ⟨distinct, by decide, inlineArrays_keepsMeaning distinct "root"⟩

end Exemplar
