import Exemplar.Proofs.Definition.Inlining

/-!
# Which wrappers are left over

A round replaces a reference to a wrapper by the references of the wrapper as it
was defined. So after five rounds a body refers to the wrappers that stand at
the end of a walk of six references, all to wrappers. The search for live
wrappers follows these rewritten bodies, from the definitions that are no
wrappers; hence it finds the ends of walks whose length is a multiple of six.
-/

namespace Exemplar

variable {ν : Type}

/-- An array definition that is not the root's. -/
def Definition.Wraps (root : ν) (t : Definition ν) : Prop :=
  t.name ≠ root ∧ ∃ element, t.body = .array element

namespace Inline

/-- A walk from a definition along so many references, all of them to wrappers. -/
inductive Walk (root : ν) (types : List (Definition ν)) (start : Definition ν) :
    Nat → Definition ν → Prop where
  | zero : Walk root types start 0 start
  | next {n : Nat} {t w : Definition ν} (walk : Walk root types start n t) (hw : w ∈ types)
      (wraps : w.Wraps root) (refers : w.name ∈ t.body.references) :
      Walk root types start (n + 1) w

/-- Such a walk of so many references, from the root or from what is no wrapper. -/
def WalkedTo (root : ν) (types : List (Definition ν)) (n : Nat) (w : Definition ν) : Prop :=
  ∃ d ∈ types, (d.name = root ∨ ¬d.Wraps root) ∧ Walk root types d n w

variable {types : List (Definition ν)} {root : ν} {start t w : Definition ν}

theorem Walk.mem {n : Nat} (hs : start ∈ types) (walk : Walk root types start n w) :
    w ∈ types := by
  cases walk with
  | zero => exact hs
  | next _ hw _ _ => exact hw

theorem Walk.trans {m n : Nat} (first : Walk root types start m t) (last : Walk root types t n w) :
    Walk root types start (m + n) w := by
  induction last with
  | zero => exact first
  | next _ hw wraps refers ih => exact .next ih hw wraps refers

theorem Walk.split {m n : Nat} (walk : Walk root types start (m + n) w) :
    ∃ t, Walk root types start m t ∧ Walk root types t n w := by
  induction n generalizing w with
  | zero => exact ⟨w, walk, .zero⟩
  | succ n ih =>
    cases walk with
    | next walk hw wraps refers =>
      obtain ⟨t, first, last⟩ := ih walk
      exact ⟨t, first, .next last hw wraps refers⟩

variable [DecidableEq ν]

theorem isWrapper_iff (distinct : (Definition.names types).Nodup) (ht : t ∈ types) :
    isWrapper types root t.name = true ↔ t.Wraps root := by
  rw [isWrapper, Option.isSome_iff_exists]
  constructor
  · rintro ⟨type, found⟩
    obtain ⟨other, element, body, _⟩ := (wrapper?_eq_some_iff distinct ht).mp found
    exact ⟨other, element, body⟩
  · rintro ⟨other, element, body⟩
    exact ⟨_, (wrapper?_eq_some_iff distinct ht).mpr ⟨other, element, body, rfl⟩⟩

theorem exists_of_isWrapper (distinct : (Definition.names types).Nodup) {name : ν}
    (wrapper : isWrapper types root name = true) : ∃ w ∈ types, w.name = name ∧ w.Wraps root := by
  obtain ⟨w, hw, rfl⟩ := Definition.mem_names.mp (mem_names_of_isWrapper wrapper)
  exact ⟨w, hw, rfl, (isWrapper_iff distinct hw).mp wrapper⟩

/-! ## Bodies after all rounds -/

/-- A round goes one reference further. -/
theorem mem_references_expand_iff (distinct : (Definition.names types).Nodup) (hw : w ∈ types)
    (wraps : w.Wraps root) (body : Body ν) :
    w.name ∈ (expand (wrapper? types root) body).references ↔
      ∃ v ∈ types, v.Wraps root ∧ v.name ∈ body.references ∧ w.name ∈ v.body.references := by
  rw [mem_references_expand]
  constructor
  · rintro ⟨inner, hi, hr⟩
    cases found : wrapper? types root inner with
    | none =>
      -- What stays as it is refers to no wrapper.
      rw [found] at hr
      cases List.mem_singleton.mp hr
      have wrapper := (isWrapper_iff distinct hw).mpr wraps
      rw [isWrapper, found] at wrapper
      cases wrapper
    | some type =>
      rw [found] at hr
      obtain ⟨other, v, hv, rfl, element, array, rfl⟩ := exists_of_wrapper? found
      refine ⟨v, hv, ⟨other, element, array⟩, hi, ?_⟩
      rw [array]
      exact hr
  · rintro ⟨v, hv, ⟨other, element, array⟩, hi, hr⟩
    refine ⟨v.name, hi, ?_⟩
    rw [(wrapper?_eq_some_iff distinct hv).mpr ⟨other, element, array, rfl⟩]
    rw [array] at hr
    exact hr

/-- After so many rounds, a body refers to the wrappers that are one reference further away. -/
theorem mem_references_iterate_expand_iff (distinct : (Definition.names types).Nodup)
    (hw : w ∈ types) (wraps : w.Wraps root) (rounds : Nat) :
    w.name ∈ ((expand (wrapper? types root))^[rounds] t.body).references ↔
      Walk root types t (rounds + 1) w := by
  induction rounds generalizing w with
  | zero =>
    constructor
    · exact fun refers => .next .zero hw wraps refers
    · intro walk
      cases walk with
      | next walk _ _ refers => cases walk with | zero => exact refers
  | succ rounds ih =>
    rw [Function.iterate_succ_apply', mem_references_expand_iff distinct hw wraps]
    constructor
    · rintro ⟨v, hv, wraps', hi, refers⟩
      exact .next ((ih hv wraps').mp hi) hw wraps refers
    · intro walk
      cases walk with
      | next walk _ _ refers => cases walk with
        | next before hv wraps' last =>
          exact ⟨_, hv, wraps', (ih hv wraps').mpr (.next before hv wraps' last), refers⟩

theorem mem_references_rewritten_iff (distinct : (Definition.names types).Nodup) (hw : w ∈ types)
    (wraps : w.Wraps root) :
    w.name ∈ (rewritten root types t).body.references ↔ Walk root types t 6 w :=
  mem_references_iterate_expand_iff distinct hw wraps rounds

/-! ## What the search finds -/

theorem stays_iff (distinct : (Definition.names types).Nodup) (ht : t ∈ types) :
    stays root types t.name = true ↔ t.name = root ∨ ¬t.Wraps root := by
  rw [stays, Bool.or_eq_true, decide_eq_true_eq, Bool.not_eq_true', Bool.eq_false_iff, Ne,
    isWrapper_iff distinct ht]

/-- What stands at the end of a walk of sixes from what is kept is kept. -/
theorem kept_of_walk (distinct : (Definition.names types).Nodup) (hs : start ∈ types)
    (keep : kept root types start.name = true) (n : Nat)
    (walk : Walk root types start (6 * n) w) : kept root types w.name = true := by
  induction n generalizing w with
  | zero =>
    cases walk with
    | zero => exact keep
  | succ n ih =>
    obtain ⟨t, first, last⟩ := walk.split
    have ht : t ∈ types := first.mem hs
    have hw : w ∈ types := last.mem ht
    have wraps : w.Wraps root := by
      cases last with
      | next _ _ wraps _ => exact wraps
    have there : rewritten root types t ∈ expanded root types := by
      rw [expanded_eq_map]
      exact List.mem_map_of_mem ht
    have keep : kept root types t.name = true := ih first
    exact kept_of_mem_references distinct there keep
      ((mem_references_rewritten_iff distinct hw wraps).mpr last)

/-- What is alive stands at the end of a walk of sixes: the search goes from rewritten body to
rewritten body, and each step of it is a walk of six. -/
theorem exists_walkedTo_of_live (distinct : (Definition.names types).Nodup) {name : ν}
    (alive : name ∈ live (isWrapper types root) (fun t => stays root types t.name)
      (expanded root types)) :
    ∃ w ∈ types, w.name = name ∧ ∃ n, 0 < n ∧ WalkedTo root types (6 * n) w := by
  have first : ∀ ref ∈ fresh (isWrapper types root) []
      (((expanded root types).filter fun t => stays root types t.name).map (·.body)),
      ∃ w ∈ types, w.name = ref ∧ ∃ n, 0 < n ∧ WalkedTo root types (6 * n) w := by
    intro ref hr
    obtain ⟨⟨body, hb, hr⟩, wrapper, _⟩ := mem_fresh.mp hr
    obtain ⟨t', ht', rfl⟩ := List.mem_map.mp hb
    obtain ⟨ht', stay⟩ := List.mem_filter.mp ht'
    rw [expanded_eq_map] at ht'
    obtain ⟨t, ht, rfl⟩ := List.mem_map.mp ht'
    obtain ⟨w, hw, rfl, wraps⟩ := exists_of_isWrapper distinct wrapper
    have walk := (mem_references_rewritten_iff distinct hw wraps).mp hr
    exact ⟨w, hw, rfl, 1, Nat.one_pos, t, ht, (stays_iff distinct ht).mp stay, walk⟩
  refine follow_induction ?_ _ first first name alive
  intro t' ht' walked ref hr wrapper
  rw [expanded_eq_map] at ht'
  obtain ⟨t, ht, rfl⟩ := List.mem_map.mp ht'
  obtain ⟨v, hv, same, n, _, d, hd, stay, before⟩ := walked
  cases List.inj_on_of_nodup_map distinct hv ht same
  obtain ⟨w, hw, rfl, wraps⟩ := exists_of_isWrapper distinct wrapper
  have walk := before.trans ((mem_references_rewritten_iff distinct hw wraps).mp hr)
  exact ⟨w, hw, rfl, n + 1, Nat.succ_pos n, d, hd, stay, walk⟩

/-- A wrapper is kept exactly if it stands at the end of a walk of sixes, at least one. -/
theorem kept_iff_walkedTo (distinct : (Definition.names types).Nodup) (hw : w ∈ types)
    (wraps : w.Wraps root) :
    kept root types w.name = true ↔ ∃ n, 0 < n ∧ WalkedTo root types (6 * n) w := by
  constructor
  · intro keep
    rw [kept, Bool.or_eq_true, decide_eq_true_eq] at keep
    rcases keep with stay | alive
    · exact absurd wraps (((stays_iff distinct hw).mp stay).resolve_left wraps.1)
    · obtain ⟨w', hw', same, walked⟩ := exists_walkedTo_of_live distinct alive
      cases List.inj_on_of_nodup_map distinct hw' hw same
      exact walked
  · rintro ⟨n, _, d, hd, stay, walk⟩
    refine kept_of_walk distinct hd ?_ n walk
    rw [kept, (stays_iff distinct hd).mpr stay]
    rfl

end Inline

/-- A wrapper is left over exactly if it stands at the end of a walk, from the root or from what is
no wrapper, whose length is a positive multiple of six. If no such walk takes six references, no
wrapper is left over and nothing that is left refers to one. -/
theorem wrapper_mem_inlineArrays_iff [DecidableEq ν] {types : List (Definition ν)}
    (distinct : (Definition.names types).Nodup) (root : ν) :
    (∀ w ∈ types, w.Wraps root →
      (w.name ∈ Definition.names (inlineArrays root types) ↔
        ∃ n, 0 < n ∧ Inline.WalkedTo root types (6 * n) w)) ∧
    ((∀ w, ¬Inline.WalkedTo root types 6 w) →
      ∀ w ∈ types, w.Wraps root → w.name ∉ Definition.names (inlineArrays root types) ∧
        ∀ t ∈ inlineArrays root types, w.name ∉ t.body.references) := by
  have left_iff : ∀ w ∈ types, w.Wraps root →
      (w.name ∈ Definition.names (inlineArrays root types) ↔
        ∃ n, 0 < n ∧ Inline.WalkedTo root types (6 * n) w) := by
    intro w hw wraps
    rw [Inline.mem_names_inlineArrays, Inline.kept_iff_walkedTo distinct hw wraps]
    exact and_iff_right (Definition.mem_names.mpr ⟨w, hw, rfl⟩)
  refine ⟨left_iff, fun short w hw wraps => ?_⟩
  have dropped : w.name ∉ Definition.names (inlineArrays root types) := by
    intro left
    obtain ⟨n, positive, d, hd, stay, walk⟩ := (left_iff w hw wraps).mp left
    have long : 6 * n = 6 + 6 * (n - 1) := by omega
    obtain ⟨v, six, _⟩ := (long ▸ walk).split
    exact short v ⟨d, hd, stay, six⟩
  refine ⟨dropped, fun t ht refers => dropped ?_⟩
  obtain ⟨ht, keep⟩ := List.mem_filter.mp ht
  exact Inline.mem_names_inlineArrays.mpr ⟨Definition.mem_names.mpr ⟨w, hw, rfl⟩,
    Inline.kept_of_mem_references distinct ht keep refers⟩

/-- A chain of seven arrays, where the third is also reached past the first two, and a circle that
nothing reaches. What six references lead to is left over. -/
theorem wrapper_mem_inlineArrays_iff_of_chain :
    let chain : List (Definition String) :=
      [⟨"g", .array (.primitive .number), false⟩, ⟨"f", .array (.named "g"), false⟩,
        ⟨"e", .array (.named "f"), false⟩, ⟨"d", .array (.named "e"), false⟩,
        ⟨"c", .array (.named "d"), false⟩, ⟨"b", .array (.named "c"), false⟩,
        ⟨"a", .array (.named "b"), false⟩, ⟨"circle", .array (.named "circle"), false⟩,
        ⟨"root", .object [⟨"long", .named "a", false⟩, ⟨"short", .named "c", true⟩], true⟩]
    (Definition.names chain).Nodup ∧
      Definition.names (inlineArrays "root" chain) = ["f", "root"] ∧
      (∀ w ∈ chain, w.Wraps "root" →
        (w.name ∈ Definition.names (inlineArrays "root" chain) ↔
          ∃ n, 0 < n ∧ Inline.WalkedTo "root" chain (6 * n) w)) ∧
      ((∀ w, ¬Inline.WalkedTo "root" chain 6 w) →
        ∀ w ∈ chain, w.Wraps "root" → w.name ∉ Definition.names (inlineArrays "root" chain) ∧
          ∀ t ∈ inlineArrays "root" chain, w.name ∉ t.body.references) := by
  intro chain
  have distinct : (Definition.names chain).Nodup := by decide
  exact ⟨distinct, by decide, wrapper_mem_inlineArrays_iff distinct "root"⟩

end Exemplar
