import Mathlib.Data.List.Nodup

/-!
# Dropping repetitions

Lists of distinct values are made by keeping first occurrences. What is kept
has no repetition, a list without repetitions is kept whole, and an injective
map commutes with the dropping. What is looked up by a label is found again
where the labels are distinct.
-/

namespace List

variable {α β : Type} [BEq α] [LawfulBEq α] [BEq β] [LawfulBEq β]

omit [LawfulBEq α] in
/-- Dropping works on the head and on a tail freed of the head, which is shorter. -/
theorem firstOccurrence_induction {P : List α → Prop} (nil : P [])
    (cons : ∀ x rest, P (rest.filter fun y => !y == x) → P (x :: rest)) (xs : List α) : P xs := by
  induction h : xs.length using Nat.strongRecOn generalizing xs with
  | ind n ih =>
    cases xs with
    | nil => exact nil
    | cons x rest =>
      have shorter : (rest.filter fun y => !y == x).length < n := by
        have := length_filter_le (fun y => !y == x) rest
        simp only [length_cons] at h
        omega
      exact cons x rest (ih _ shorter _ rfl)

theorem nodup_eraseDups (xs : List α) : xs.eraseDups.Nodup := by
  induction xs using firstOccurrence_induction with
  | nil => simp
  | cons x rest ih =>
    have gone : x ∉ (rest.filter fun y => !y == x).eraseDups := by
      rw [mem_eraseDups]
      simp
    rw [eraseDups_cons]
    exact nodup_cons.mpr ⟨gone, ih⟩

theorem Nodup.eraseDups_eq {xs : List α} (distinct : xs.Nodup) : xs.eraseDups = xs := by
  induction xs with
  | nil => rfl
  | cons x rest ih =>
    obtain ⟨fresh, distinct⟩ := nodup_cons.mp distinct
    have others : rest.filter (fun y => !y == x) = rest := by
      refine filter_eq_self.mpr fun y hy => ?_
      have other : y ≠ x := fun same => fresh (same ▸ hy)
      simp [other]
    rw [eraseDups_cons, others, ih distinct]

/-- What was there before leaves no trace. -/
theorem eraseDups_append_of_subset {xs again : List α} (seen : again ⊆ xs) :
    (xs ++ again).eraseDups = xs.eraseDups := by
  have nothing : again.removeAll xs = [] := by
    refine filter_eq_nil_iff.mpr fun x hx => ?_
    simp [seen hx]
  rw [eraseDups_append, nothing, eraseDups_nil, append_nil]

theorem eraseDups_map {f : α → β} (inj : Function.Injective f) (xs : List α) :
    (xs.map f).eraseDups = xs.eraseDups.map f := by
  induction xs using firstOccurrence_induction with
  | nil => rfl
  | cons x rest ih =>
    have same : (rest.map f).filter (fun y => !y == f x) =
        (rest.filter fun y => !y == x).map f := by
      rw [filter_map]
      refine congrArg (map f) (filter_congr fun y _ => ?_)
      by_cases h : y = x
      · simp [h]
      · simp [h, inj.eq_iff.not.mpr h]
    rw [map_cons, eraseDups_cons, eraseDups_cons, same, ih, map_cons]

omit [BEq α] [LawfulBEq α] in
/-- A list without repetitions has at most one member if all are the same. -/
theorem Nodup.length_le_one_iff {xs : List α} (distinct : xs.Nodup) {x : α} (hx : x ∈ xs) :
    xs.length ≤ 1 ↔ ∀ y ∈ xs, y = x := by
  constructor
  · intro single y hy
    match xs, single with
    | [only], _ => exact (mem_singleton.mp hy).trans (mem_singleton.mp hx).symm
  · intro same
    match xs with
    | [] => exact Nat.zero_le 1
    | [_] => exact Nat.le_refl 1
    | first :: second :: _ =>
      have twice : first = second :=
        (same first (by simp)).trans (same second (by simp)).symm
      exact absurd (twice ▸ mem_cons_self) (nodup_cons.mp distinct).1

omit [BEq α] [LawfulBEq α] [BEq β] [LawfulBEq β] in
/-- Where labels are distinct, an entry is what is found under its label. -/
theorem find?_of_nodup_map [DecidableEq β] {label : α → β} {xs : List α}
    (distinct : (xs.map label).Nodup) {x : α} (hx : x ∈ xs) :
    xs.find? (fun y => label y = label x) = some x := by
  induction xs with
  | nil => cases hx
  | cons first rest ih =>
    obtain ⟨fresh, distinct⟩ := nodup_cons.mp distinct
    rw [find?_cons]
    rcases mem_cons.mp hx with rfl | hx
    · simp
    · have other : label first ≠ label x := by
        intro same
        exact fresh (mem_map.mpr ⟨x, hx, same.symm⟩)
      rw [decide_eq_false other]
      exact ih distinct hx

end List
