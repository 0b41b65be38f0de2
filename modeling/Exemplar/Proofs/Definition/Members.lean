import Exemplar.Definition.Rendering
import Exemplar.Proofs.Json.Tokens
import Mathlib.Data.List.TakeWhile

/-!
# Members are read off their text

Every piece of the text says where it ends, given which characters may follow: a
word ends before the first character that no identifier has, and a quoted name
at its closing quote. So members with the same text have the same name, the same
mark and the same type, if types can be read off their text in turn.
-/

namespace Exemplar

namespace Render

/-! ## What may follow -/

/-- Texts that begin with one of some characters. -/
def Begins (first : List Char) (text : List Char) : Prop := ∃ c ∈ first, ∃ rest, text = c :: rest

/-- Whatever follows two values, if it may follow, equal texts come from equal values. -/
def Tells {α : Type} (follows : List Char → Prop) (text : α → List Char) (x y : α) : Prop :=
  ∀ s t, follows s → follows t → text x ++ s = text y ++ t → x = y ∧ s = t

theorem begins_cons {first : List Char} {c : Char} {rest : List Char} :
    Begins first (c :: rest) ↔ c ∈ first := by
  constructor
  · rintro ⟨_, member, _, same⟩
    cases same
    exact member
  · exact fun member => ⟨c, member, rest, rfl⟩

theorem Begins.mono {first first' : List Char} {text : List Char} (begins : Begins first text)
    (more : first ⊆ first') : Begins first' text := by
  obtain ⟨c, member, rest⟩ := begins
  exact ⟨c, more member, rest⟩

/-- A word ends where a character follows that no identifier has. -/
theorem takeWhile_append_of_begins {word rest first : List Char}
    (parts : word.all isIdentifierPart = true) (begins : Begins first rest)
    (apart : first.any isIdentifierPart = false) :
    (word ++ rest).takeWhile isIdentifierPart = word := by
  obtain ⟨c, member, rest, rfl⟩ := begins
  rw [List.takeWhile_append_of_pos (List.all_eq_true.mp parts),
    List.takeWhile_cons_of_neg (List.any_eq_false.mp apart c member), List.append_nil]

/-- Words are told apart by what follows them. -/
theorem word_append_inj {word word' s t first : List Char}
    (parts : word.all isIdentifierPart = true) (parts' : word'.all isIdentifierPart = true)
    (hs : Begins first s) (ht : Begins first t) (apart : first.any isIdentifierPart = false)
    (same : word ++ s = word' ++ t) : word = word' ∧ s = t := by
  have words := congrArg (List.takeWhile isIdentifierPart) same
  rw [takeWhile_append_of_begins parts hs apart, takeWhile_append_of_begins parts' ht apart] at words
  subst words
  exact ⟨rfl, List.append_cancel_left same⟩

/-- Items that tell themselves apart, up to a character that none of them begins with. -/
theorem flatMap_append_inj {α : Type} {text : α → List Char} {close : Char} {xs ys : List α}
    {s t : List Char} (each : ∀ x ∈ xs, ∀ y ∈ ys, Tells (fun _ => True) text x y)
    (opens : ∀ x rest, ¬ Begins [close] (text x ++ rest))
    (same : xs.flatMap text ++ close :: s = ys.flatMap text ++ close :: t) : xs = ys ∧ s = t := by
  have closed : ∀ rest, Begins [close] (close :: rest) := by simp [begins_cons]
  induction xs generalizing ys with
  | nil =>
    cases ys with
    | nil => exact ⟨rfl, (List.cons.inj same).2⟩
    | cons y ys =>
      rw [List.flatMap_nil, List.nil_append, List.flatMap_cons, List.append_assoc] at same
      exact absurd (same ▸ closed s) (opens y _)
  | cons x xs ih =>
    cases ys with
    | nil =>
      rw [List.flatMap_nil, List.nil_append, List.flatMap_cons, List.append_assoc] at same
      exact absurd (same ▸ closed t) (opens x _)
    | cons y ys =>
      rw [List.flatMap_cons, List.flatMap_cons, List.append_assoc, List.append_assoc] at same
      obtain ⟨rfl, others⟩ := each x List.mem_cons_self y List.mem_cons_self _ _ trivial trivial same
      have later : ∀ x ∈ xs, ∀ y ∈ ys, Tells (fun _ => True) text x y := fun x hx y hy =>
        each x (List.mem_cons_of_mem _ hx) y (List.mem_cons_of_mem _ hy)
      obtain ⟨rfl, rest⟩ := ih later others
      exact ⟨rfl, rest⟩

/-! ## Members -/

theorem exists_first_of_isIdentifier {name : String} (identifier : isIdentifier name = true) :
    ∃ first rest, name.toList = first :: rest ∧ isIdentifierPart first = true ∧
      rest.all isIdentifierPart = true := by
  rw [isIdentifier] at identifier
  cases chars : name.toList with
  | nil => simp [chars] at identifier
  | cons first rest =>
    simp only [chars, Bool.and_eq_true] at identifier
    refine ⟨first, rest, rfl, ?_, identifier.2⟩
    rw [isIdentifierPart, identifier.1, Bool.true_or]

theorem all_isIdentifierPart {name : String} (identifier : isIdentifier name = true) :
    name.toList.all isIdentifierPart = true := by
  obtain ⟨first, rest, chars, part, parts⟩ := exists_first_of_isIdentifier identifier
  rw [chars, List.all_cons, part, parts]
  rfl

/-- A quoted name begins with the quote, which no identifier has. -/
theorem not_quoted_of_isIdentifier {name name' : String} (identifier : isIdentifier name = true)
    (s t : List Char) : name.toList ++ s ≠ (Json.quote name').toList ++ t := by
  intro same
  obtain ⟨first, rest, chars, part, _⟩ := exists_first_of_isIdentifier identifier
  rw [chars, Json.quote, String.toList_ofList] at same
  rw [(List.cons.inj same).1] at part
  exact absurd part (by decide)

/-- Member names are told apart by what follows them. -/
theorem memberName_tells (name name' : String) :
    Tells (Begins ['?', ':']) (fun name => (memberName name).toList) name name' := by
  intro s t hs ht same
  dsimp only [memberName] at same
  by_cases identifier : isIdentifier name = true
  · by_cases identifier' : isIdentifier name' = true
    · rw [if_pos identifier, if_pos identifier'] at same
      have parts := all_isIdentifierPart identifier
      have parts' := all_isIdentifierPart identifier'
      obtain ⟨words, rest⟩ := word_append_inj parts parts' hs ht (by decide) same
      exact ⟨String.toList_inj.mp words, rest⟩
    · rw [if_pos identifier, if_neg identifier'] at same
      exact absurd same (not_quoted_of_isIdentifier identifier s t)
  · by_cases identifier' : isIdentifier name' = true
    · rw [if_neg identifier, if_pos identifier'] at same
      exact absurd same.symm (not_quoted_of_isIdentifier identifier' t s)
    · rw [if_neg identifier, if_neg identifier'] at same
      exact Json.quote_append_inj same

def typeText (t : TypeExpr String) : List Char := (type t).toList

def memberText (m : Member (TypeExpr String)) : List Char :=
  (member m.name m.nullable (type m.type)).toList

theorem memberText_append (m : Member (TypeExpr String)) (rest : List Char) :
    memberText m ++ rest = (memberName m.name).toList ++
      ((if m.nullable then ['?'] else []) ++ ':' :: ' ' :: (typeText m.type ++ rest)) := by
  cases nullable : m.nullable <;> simp [memberText, typeText, member, nullable]

/-- A mark, or the colon, follows a member name. -/
theorem begins_mark (nullable : Bool) (rest : List Char) :
    Begins ['?', ':'] ((if nullable then ['?'] else []) ++ ':' :: rest) := by
  cases nullable <;> simp [begins_cons]

theorem mark_append_inj {nullable nullable' : Bool} {s t : List Char}
    (same : (if nullable then ['?'] else []) ++ ':' :: s =
      (if nullable' then ['?'] else []) ++ ':' :: t) : nullable = nullable' ∧ s = t := by
  cases nullable <;> cases nullable' <;> simp_all

/-- Members are told apart as their types are. -/
theorem memberText_tells {m m' : Member (TypeExpr String)} {follows : List Char → Prop}
    (types : Tells follows typeText m.type m'.type) : Tells follows memberText m m' := by
  intro s t hs ht same
  rw [memberText_append, memberText_append] at same
  obtain ⟨name, marks⟩ :=
    memberName_tells _ _ _ _ (begins_mark m.nullable _) (begins_mark m'.nullable _) same
  obtain ⟨nullable, colon⟩ := mark_append_inj marks
  obtain ⟨type, rest⟩ := types s t hs ht (List.cons.inj colon).2
  cases m
  cases m'
  cases name
  cases nullable
  cases type
  exact ⟨rfl, rest⟩

/-- A member begins like its name, and not with a bracket. -/
theorem memberText_opens (m : Member (TypeExpr String)) (rest : List Char) :
    ¬ Begins ['\x7d'] (memberText m ++ rest) := by
  rintro ⟨c, closing, after, same⟩
  cases List.mem_singleton.mp closing
  rw [memberText_append, memberName] at same
  by_cases identifier : isIdentifier m.name = true
  · obtain ⟨first, others, chars, part, _⟩ := exists_first_of_isIdentifier identifier
    rw [if_pos identifier, chars] at same
    rw [(List.cons.inj same).1] at part
    exact absurd part (by decide)
  · rw [if_neg identifier, Json.quote, String.toList_ofList] at same
    exact absurd (List.cons.inj same).1 (by decide)

/-- The text of a member in a list of members, between an indentation and a separator. -/
def itemText (indent : List Char) (separator : Char) (m : Member (TypeExpr String)) : List Char :=
  indent ++ memberText m ++ [';', separator]

/-- Members that end with a semicolon are told apart whatever follows. -/
theorem itemText_tells {indent : List Char} {separator : Char} {m m' : Member (TypeExpr String)}
    (types : Tells (Begins [';', '>']) typeText m.type m'.type) :
    Tells (fun _ => True) (itemText indent separator) m m' := by
  intro s t _ _ same
  simp only [itemText, List.append_assoc, List.cons_append, List.nil_append] at same
  have same := List.append_cancel_left same
  obtain ⟨rfl, rest⟩ := memberText_tells types _ _ (by simp [begins_cons]) (by simp [begins_cons]) same
  exact ⟨rfl, (List.cons.inj (List.cons.inj rest).2).2⟩

/-- A list of members is told from another where a bracket closes both. -/
theorem items_append_inj {indent : List Char} {separator : Char}
    {members members' : List (Member (TypeExpr String))} {s t : List Char}
    (spaces : ∀ c ∈ indent, c = ' ')
    (types : ∀ m ∈ members, ∀ m' ∈ members', Tells (Begins [';', '>']) typeText m.type m'.type)
    (same : members.flatMap (itemText indent separator) ++ '\x7d' :: s =
      members'.flatMap (itemText indent separator) ++ '\x7d' :: t) : members = members' ∧ s = t := by
  refine flatMap_append_inj (fun m hm m' hm' => itemText_tells (types m hm m' hm')) ?_ same
  intro m rest begins
  cases indent with
  | nil =>
    refine memberText_opens m ([';', separator] ++ rest) ?_
    simpa [itemText] using begins
  | cons c indent =>
    have space := spaces c List.mem_cons_self
    have bracket : c ∈ ['\x7d'] := begins_cons.mp begins
    exact absurd (space ▸ List.mem_singleton.mp bracket) (by decide)

end Render

end Exemplar
