import Exemplar.Proofs.Definition.Members

/-!
# Definitions are read off their text

An array and an object end at their brackets. A type ends before a semicolon or a
closing bracket; among the alternatives of a union a space may follow as well. So
two lists of definitions with the same text are the same, up to the mark of the
root, if names can be told from the words of the language and unions from their
alternatives.
-/

namespace Exemplar

/-- The words that stand for types themselves. -/
def Render.reserved : List String := ["string", "boolean", "number", "null", "never"]

/-- A name that is no word of the language. -/
def Render.IsName (name : String) : Prop := Render.isIdentifier name = true ∧ name ∉ Render.reserved

namespace TypeExpr

def isUnion {ν : Type} : TypeExpr ν → Bool
  | .union _ => true
  | _ => false

/-- Types that can be read off their text: names are no words of the language, and unions have
several alternatives, none of which is a union. -/
inductive Legible : TypeExpr String → Prop
  | never : Legible .never
  | primitive (kind : Kind) : Legible (.primitive kind)
  | named {name : String} (isName : Render.IsName name) : Legible (.named name)
  | object {members : List (Member (TypeExpr String))} (each : ∀ m ∈ members, Legible m.type) :
      Legible (.object members)
  | array {element : TypeExpr String} (legible : Legible element) : Legible (.array element)
  | union {alternatives : List (TypeExpr String)} (several : 2 ≤ alternatives.length)
      (flat : ∀ type ∈ alternatives, type.isUnion = false)
      (each : ∀ type ∈ alternatives, Legible type) : Legible (.union alternatives)

end TypeExpr

def Body.Legible : Body String → Prop
  | .object members => ∀ m ∈ members, m.type.Legible
  | .array element => element.Legible

def Definition.Legible (t : Definition String) : Prop := Render.IsName t.name ∧ t.body.Legible

namespace Render

/-! ## Types -/

/-- What stands between the bars of a type. -/
def operands : TypeExpr String → List (TypeExpr String)
  | .union alternatives => alternatives
  | t => [t]

/-- The word that a type begins with, if it begins with one. -/
def word : TypeExpr String → String
  | .never => "never"
  | .primitive kind => kind.text
  | .named name => name
  | .array _ => "Array"
  | .object _ => ""
  | .union _ => ""

/-- What stands between the brackets of an object within a line. -/
def innerText : List (Member (TypeExpr String)) → List Char
  | [] => []
  | first :: rest => ' ' :: (first :: rest).flatMap (itemText [] ' ')

/-- What follows the word of a type. -/
def tail : TypeExpr String → List Char
  | .array element => '<' :: (typeText element ++ ['>'])
  | .object members => '\x7b' :: (innerText members ++ ['\x7d'])
  | _ => []

/-- The types inside the brackets of a type. -/
def inside : TypeExpr String → List (TypeExpr String)
  | .array element => [element]
  | .object members => members.map (·.type)
  | _ => []

def ofWord (word : String) : TypeExpr String :=
  if word = "never" then .never
  else if word = "string" then .primitive .string
  else if word = "boolean" then .primitive .boolean
  else if word = "number" then .primitive .number
  else if word = "null" then .primitive .null
  else .named word

theorem types_eq_map (alternatives : List (TypeExpr String)) :
    types alternatives = alternatives.map type := by
  induction alternatives with
  | nil => rfl
  | cons first rest ih => rw [types, ih, List.map_cons]

theorem inlineMembers_toList (members : List (Member (TypeExpr String))) :
    (String.join (inlineMembers members)).toList = members.flatMap (itemText [] ' ') := by
  induction members with
  | nil => rfl
  | cons first rest ih =>
    rw [inlineMembers, String.join_cons, String.toList_append, ih, List.flatMap_cons]
    simp [itemText, memberText]

theorem typeText_eq_intercalate (t : TypeExpr String) :
    typeText t = [' ', '|', ' '].intercalate ((operands t).map typeText) := by
  cases t with
  | union alternatives =>
    rw [typeText, type, types_eq_map, String.toList_intercalate, List.map_map]
    rfl
  | never => rfl
  | primitive kind => cases kind <;> rfl
  | named name => simp [operands]
  | object members => simp [operands]
  | array element => simp [operands]

theorem typeText_eq {t : TypeExpr String} (flat : t.isUnion = false) :
    typeText t = (word t).toList ++ tail t := by
  cases t with
  | union alternatives => cases flat
  | never => rfl
  | primitive kind => exact (List.append_nil _).symm
  | named name => exact (List.append_nil _).symm
  | array element => simp [typeText, type, array, word, tail]
  | object members =>
    cases members with
    | nil => rfl
    | cons first rest =>
      rw [typeText, type, String.toList_append, String.toList_append, inlineMembers_toList]
      rfl

theorem all_isIdentifierPart_word {t : TypeExpr String} (legible : t.Legible) :
    (word t).toList.all isIdentifierPart = true := by
  cases legible with
  | never => decide
  | primitive kind => cases kind <;> decide
  | named isName => exact all_isIdentifierPart isName.1
  | object each => rfl
  | array legible => simp only [word]; decide
  | union several flat each => rfl

/-- A type that is a word is known from the word. -/
theorem ofWord_word {t : TypeExpr String} (legible : t.Legible) (flat : t.isUnion = false)
    (simple : tail t = []) : ofWord (word t) = t := by
  cases legible with
  | never => rfl
  | primitive kind => cases kind <;> rfl
  | named isName =>
    have unreserved := isName.2
    simp only [reserved, List.mem_cons, List.not_mem_nil, or_false, not_or] at unreserved
    simp [ofWord, word, unreserved]
  | object each => cases simple
  | array legible => cases simple
  | union several flat' each => cases flat

/-- A type is a word, an array or an object. -/
theorem tail_cases {t : TypeExpr String} (flat : t.isUnion = false) :
    tail t = [] ∨ (∃ element, t = .array element) ∨ ∃ members, t = .object members := by
  cases t with
  | union alternatives => cases flat
  | never => exact .inl rfl
  | primitive kind => exact .inl rfl
  | named name => exact .inl rfl
  | array element => exact .inr (.inl ⟨element, rfl⟩)
  | object members => exact .inr (.inr ⟨members, rfl⟩)

/-- What follows a word opens a bracket, if there is anything. -/
theorem begins_tail (t : TypeExpr String) : tail t = [] ∨ Begins ['<', '\x7b'] (tail t) := by
  cases t <;> simp [tail, begins_cons]

theorem begins_tail_append (t : TypeExpr String) {rest : List Char}
    (begins : Begins [';', '>', ' '] rest) :
    Begins [';', '>', ' ', '<', '\x7b'] (tail t ++ rest) := by
  rcases begins_tail t with none | ⟨c, bracket, after, same⟩
  · rw [none]
    exact begins.mono (by simp)
  · rw [same]
    exact begins_cons.mpr (List.mem_append_right [';', '>', ' '] bracket)

/-- What may follow a type opens no bracket. -/
theorem tail_eq_nil {t : TypeExpr String} {s rest : List Char} (begins : Begins [';', '>', ' '] s)
    (same : s = tail t ++ rest) : tail t = [] := by
  refine (begins_tail t).resolve_right ?_
  rintro ⟨c, bracket, after, opens⟩
  rw [same, opens] at begins
  have follows : c ∈ [';', '>', ' '] := begins_cons.mp begins
  simp only [List.mem_cons, List.not_mem_nil, or_false] at bracket follows
  rcases bracket with rfl | rfl <;> simp at follows

/-- Objects within a line are told apart by their members. -/
theorem innerText_append_inj {members members' : List (Member (TypeExpr String))} {s t : List Char}
    (types : ∀ m ∈ members, ∀ m' ∈ members', Tells (Begins [';', '>']) typeText m.type m'.type)
    (same : innerText members ++ '\x7d' :: s = innerText members' ++ '\x7d' :: t) :
    members = members' ∧ s = t := by
  cases members with
  | nil =>
    cases members' with
    | nil => exact ⟨rfl, (List.cons.inj same).2⟩
    | cons first rest => exact absurd (List.cons.inj same).1 (by decide)
  | cons first rest =>
    cases members' with
    | nil => exact absurd (List.cons.inj same).1 (by decide)
    | cons first' rest' => exact items_append_inj (by simp) types (List.cons.inj same).2

/-- Types that are no unions are told apart as the types inside them are. -/
theorem tells_of_inside {x y : TypeExpr String} (hx : x.Legible) (hy : y.Legible)
    (flat : x.isUnion = false) (flat' : y.isUnion = false)
    (parts : ∀ a ∈ inside x, ∀ b ∈ inside y, Tells (Begins [';', '>']) typeText a b) :
    Tells (Begins [';', '>', ' ']) typeText x y := by
  intro s t hs ht same
  rw [typeText_eq flat, typeText_eq flat', List.append_assoc, List.append_assoc] at same
  obtain ⟨words, tails⟩ := word_append_inj (all_isIdentifierPart_word hx)
    (all_isIdentifierPart_word hy) (begins_tail_append x hs) (begins_tail_append y ht)
    (by decide) same
  by_cases simple : tail x = []
  · rw [simple] at tails
    have simple' : tail y = [] := tail_eq_nil hs tails
    rw [simple'] at tails
    refine ⟨?_, tails⟩
    rw [← ofWord_word hx flat simple, String.toList_inj.mp words, ofWord_word hy flat' simple']
  · have simple' : tail y ≠ [] := by
      intro none
      rw [none] at tails
      exact simple (tail_eq_nil ht tails.symm)
    rcases (tail_cases flat).resolve_left simple with ⟨element, rfl⟩ | ⟨members, rfl⟩
    · rcases (tail_cases flat').resolve_left simple' with ⟨element', rfl⟩ | ⟨members', rfl⟩
      · simp only [tail, List.cons_append, List.append_assoc, List.nil_append] at tails
        obtain ⟨rfl, rest⟩ := parts element List.mem_cons_self element' List.mem_cons_self _ _
          (by simp [begins_cons]) (by simp [begins_cons]) (List.cons.inj tails).2
        exact ⟨rfl, (List.cons.inj rest).2⟩
      · exact absurd (List.cons.inj tails).1 (by decide)
    · rcases (tail_cases flat').resolve_left simple' with ⟨element', rfl⟩ | ⟨members', rfl⟩
      · exact absurd (List.cons.inj tails).1 (by decide)
      · simp only [tail, List.cons_append, List.append_assoc, List.nil_append] at tails
        have types : ∀ m ∈ members, ∀ m' ∈ members',
            Tells (Begins [';', '>']) typeText m.type m'.type := fun m hm m' hm' =>
          parts m.type (List.mem_map_of_mem hm) m'.type (List.mem_map_of_mem hm')
        obtain ⟨rfl, rest⟩ := innerText_append_inj types (List.cons.inj tails).2
        exact ⟨rfl, rest⟩

/-- Alternatives are told apart by the bars between them. -/
theorem intercalate_append_inj {xs ys : List (TypeExpr String)} {s t : List Char}
    (each : ∀ x ∈ xs, ∀ y ∈ ys, Tells (Begins [';', '>', ' ']) typeText x y) (nonempty : xs ≠ [])
    (nonempty' : ys ≠ []) (hs : Begins [';', '>'] s) (ht : Begins [';', '>'] t)
    (same : [' ', '|', ' '].intercalate (xs.map typeText) ++ s =
      [' ', '|', ' '].intercalate (ys.map typeText) ++ t) : xs = ys ∧ s = t := by
  have closes : [';', '>'] ⊆ [';', '>', ' '] := by simp
  have spaced : ∀ rest, Begins [';', '>', ' '] ([' ', '|', ' '] ++ rest) := by simp [begins_cons]
  induction xs generalizing ys with
  | nil => exact absurd rfl nonempty
  | cons x xs ih =>
    obtain ⟨y, ys, rfl⟩ := List.exists_cons_of_ne_nil nonempty'
    have first := each x List.mem_cons_self y List.mem_cons_self
    cases xs with
    | nil =>
      cases ys with
      | nil =>
        simp only [List.map_cons, List.map_nil, List.intercalate_singleton] at same
        obtain ⟨rfl, rest⟩ := first s t (hs.mono closes) (ht.mono closes) same
        exact ⟨rfl, rest⟩
      | cons y' ys =>
        simp only [List.map_cons, List.map_nil, List.intercalate_singleton,
          List.intercalate_cons_cons, List.append_assoc] at same
        obtain ⟨_, rest⟩ := first s _ (hs.mono closes) (spaced _) same
        exact absurd (begins_cons.mp (rest ▸ hs)) (by decide)
    | cons x' xs =>
      cases ys with
      | nil =>
        simp only [List.map_cons, List.map_nil, List.intercalate_singleton,
          List.intercalate_cons_cons, List.append_assoc] at same
        obtain ⟨_, rest⟩ := first _ t (spaced _) (ht.mono closes) same
        exact absurd (begins_cons.mp (rest ▸ ht)) (by decide)
      | cons y' ys =>
        simp only [List.map_cons, List.intercalate_cons_cons, List.append_assoc] at same
        obtain ⟨rfl, rest⟩ := first _ _ (spaced _) (spaced _) same
        have later : ∀ x ∈ x' :: xs, ∀ y ∈ y' :: ys, Tells (Begins [';', '>', ' ']) typeText x y :=
          fun x hx y hy => each x (List.mem_cons_of_mem _ hx) y (List.mem_cons_of_mem _ hy)
        obtain ⟨same, rest⟩ := ih later (List.cons_ne_nil _ _) (List.cons_ne_nil _ _)
          (List.append_cancel_left rest)
        exact ⟨congrArg (x :: ·) same, rest⟩

theorem operands_of_isUnion_eq_false {t : TypeExpr String} (flat : t.isUnion = false) :
    operands t = [t] := by
  cases t <;> first | rfl | cases flat

theorem exists_union_of_isUnion {t : TypeExpr String} (isUnion : t.isUnion = true) :
    ∃ alternatives, t = .union alternatives := by
  cases t <;> first | exact ⟨_, rfl⟩ | cases isUnion

/-- A type is made of its operands. -/
theorem ofAlternatives_operands {t : TypeExpr String} (legible : t.Legible) :
    TypeExpr.ofAlternatives (operands t) = t := by
  cases flat : t.isUnion with
  | false =>
    rw [operands_of_isUnion_eq_false flat]
    rfl
  | true =>
    obtain ⟨alternatives, rfl⟩ := exists_union_of_isUnion flat
    cases legible with
    | union several _ _ =>
      match alternatives, several with
      | first :: second :: rest, _ => rfl

/-- A type has operands, and these are legible and no unions. -/
theorem operands_legible {t : TypeExpr String} (legible : t.Legible) :
    operands t ≠ [] ∧ ∀ a ∈ operands t, a.Legible ∧ a.isUnion = false := by
  cases flat : t.isUnion with
  | false =>
    rw [operands_of_isUnion_eq_false flat]
    exact ⟨List.cons_ne_nil _ _, fun a ha => List.mem_singleton.mp ha ▸ ⟨legible, flat⟩⟩
  | true =>
    obtain ⟨alternatives, rfl⟩ := exists_union_of_isUnion flat
    cases legible with
    | union several flat each =>
      have nonempty : alternatives ≠ [] := List.ne_nil_of_length_pos (by omega)
      exact ⟨nonempty, fun a ha => ⟨each a ha, flat a ha⟩⟩

/-- Types are told apart as their operands are. -/
theorem tells_of_operands {x y : TypeExpr String} (hx : x.Legible) (hy : y.Legible)
    (each : ∀ a ∈ operands x, ∀ b, b.Legible → b.isUnion = false →
      Tells (Begins [';', '>', ' ']) typeText a b) : Tells (Begins [';', '>']) typeText x y := by
  intro s t hs ht same
  obtain ⟨nonempty, _⟩ := operands_legible hx
  obtain ⟨nonempty', legible⟩ := operands_legible hy
  rw [typeText_eq_intercalate x, typeText_eq_intercalate y] at same
  obtain ⟨operands, rest⟩ := intercalate_append_inj
    (fun a ha b hb => each a ha b (legible b hb).1 (legible b hb).2) nonempty nonempty' hs ht same
  refine ⟨?_, rest⟩
  rw [← ofAlternatives_operands hx, operands, ofAlternatives_operands hy]

theorem legible_of_mem_inside {t a : TypeExpr String} (legible : t.Legible) (ha : a ∈ inside t) :
    a.Legible := by
  cases legible with
  | object each =>
    obtain ⟨m, hm, rfl⟩ := List.mem_map.mp ha
    exact each m hm
  | array legible => exact List.mem_singleton.mp ha ▸ legible
  | never => cases ha
  | primitive kind => cases ha
  | named isName => cases ha
  | union several flat each => cases ha

/-- A type that is no union is told from another if the types inside it are told from all others. -/
theorem tells_of_single {x : TypeExpr String} (hx : x.Legible) (flat : x.isUnion = false)
    (parts : ∀ a ∈ inside x, ∀ b, b.Legible → Tells (Begins [';', '>']) typeText a b) :
    ∀ a ∈ operands x, ∀ b, b.Legible → b.isUnion = false →
      Tells (Begins [';', '>', ' ']) typeText a b := by
  intro a ha b hb flat'
  rw [operands_of_isUnion_eq_false flat] at ha
  cases List.mem_singleton.mp ha
  exact tells_of_inside hx hb flat flat' fun part hp other ho =>
    parts part hp other (legible_of_mem_inside hb ho)

/-- Operands of legible types are told apart. -/
theorem tells_of_mem_operands {x : TypeExpr String} (hx : x.Legible) :
    ∀ a ∈ operands x, ∀ b, b.Legible → b.isUnion = false →
      Tells (Begins [';', '>', ' ']) typeText a b := by
  induction hx with
  | never => exact tells_of_single .never rfl (by simp [inside])
  | primitive kind => exact tells_of_single (.primitive kind) rfl (by simp [inside])
  | named isName => exact tells_of_single (.named isName) rfl (by simp [inside])
  | object each ih =>
    refine tells_of_single (.object each) rfl (List.forall_mem_map.mpr fun m hm b hb => ?_)
    exact tells_of_operands (each m hm) hb (ih m hm)
  | array legible ih =>
    refine tells_of_single (.array legible) rfl fun part hp b hb => ?_
    cases List.mem_singleton.mp hp
    exact tells_of_operands legible hb ih
  | union several flat each ih =>
    intro a ha
    have single : operands a = [a] := operands_of_isUnion_eq_false (flat a ha)
    exact ih a ha a (single ▸ List.mem_cons_self)

/-- Legible types are told apart before a semicolon or a closing bracket. -/
theorem typeText_tells {x y : TypeExpr String} (hx : x.Legible) (hy : y.Legible) :
    Tells (Begins [';', '>']) typeText x y :=
  tells_of_operands hx hy (tells_of_mem_operands hx)

/-! ## Definitions -/

def bodyText (b : Body String) : List Char := (body b).toList

theorem bodyText_object (members : List (Member (TypeExpr String))) :
    bodyText (.object members) =
      '\x7b' :: '\n' :: (members.flatMap (itemText [' ', ' '] '\n') ++ ['\x7d']) := by
  have lines : (String.join (members.map line)).toList =
      members.flatMap (itemText [' ', ' '] '\n') := by
    induction members with
    | nil => rfl
    | cons first rest ih =>
      rw [List.map_cons, String.join_cons, String.toList_append, ih, List.flatMap_cons]
      simp [line, itemText, memberText]
  simp [bodyText, body, lines]

theorem bodyText_array (element : TypeExpr String) :
    bodyText (.array element) = "Array<".toList ++ (typeText element ++ ['>']) := by
  simp [bodyText, body, array, typeText]

/-- Legible bodies are told apart whatever follows. -/
theorem bodyText_tells {b b' : Body String} (legible : b.Legible) (legible' : b'.Legible) :
    Tells (fun _ => True) bodyText b b' := by
  intro s t _ _ same
  cases b with
  | object members =>
    cases b' with
    | object members' =>
      simp only [bodyText_object, List.cons_append, List.append_assoc, List.nil_append] at same
      obtain ⟨rfl, rest⟩ := items_append_inj (by simp)
        (fun m hm m' hm' => typeText_tells (legible m hm) (legible' m' hm'))
        (List.cons.inj (List.cons.inj same).2).2
      exact ⟨rfl, rest⟩
    | array element => simp [bodyText_object, bodyText_array] at same
  | array element =>
    cases b' with
    | object members => simp [bodyText_object, bodyText_array] at same
    | array element' =>
      simp only [bodyText_array, List.append_assoc, List.cons_append, List.nil_append] at same
      obtain ⟨rfl, rest⟩ := typeText_tells legible legible' _ _ (by simp [begins_cons])
        (by simp [begins_cons]) (List.append_cancel_left same)
      exact ⟨rfl, (List.cons.inj rest).2⟩

def definitionText (t : Definition String) : List Char := (definition t).toList

theorem definitionText_append (t : Definition String) (rest : List Char) :
    definitionText t ++ rest = "type ".toList ++
      (t.name.toList ++ (' ' :: '=' :: ' ' :: (bodyText t.body ++ (';' :: '\n' :: rest)))) := by
  simp [definitionText, definition, bodyText]

/-- Legible definitions are told apart, up to the mark of the root, whatever follows. -/
theorem definitionText_append_inj {t t' : Definition String} (legible : t.Legible)
    (legible' : t'.Legible) {rest rest' : List Char}
    (same : definitionText t ++ rest = definitionText t' ++ rest') :
    (t.name, t.body) = (t'.name, t'.body) ∧ rest = rest' := by
  rw [definitionText_append, definitionText_append] at same
  have space : ∀ rest, Begins [' '] (' ' :: rest) := by simp [begins_cons]
  obtain ⟨names, bodies⟩ := word_append_inj (all_isIdentifierPart legible.1.1)
    (all_isIdentifierPart legible'.1.1) (space _) (space _) (by decide)
    (List.append_cancel_left same)
  simp only [List.cons.injEq, true_and] at bodies
  obtain ⟨body, after⟩ := bodyText_tells legible.2 legible'.2 _ _ trivial trivial bodies
  simp only [List.cons.injEq, true_and] at after
  exact ⟨by rw [String.toList_inj.mp names, body], after⟩

/-- The text of definitions after the first. -/
def laterText (types : List (Definition String)) : List Char :=
  types.flatMap fun t => '\n' :: definitionText t

theorem render_cons (t : Definition String) (rest : List (Definition String)) :
    (render (t :: rest)).toList = definitionText t ++ laterText rest := by
  induction rest generalizing t with
  | nil => simp [render, laterText, definitionText]
  | cons next rest ih =>
    have later : (render (t :: next :: rest)).toList =
        definitionText t ++ '\n' :: (render (next :: rest)).toList := by
      simp [render, definitionText, String.intercalate_cons_cons]
    rw [later, ih]
    rfl

theorem laterText_inj {types types' : List (Definition String)} (legible : ∀ t ∈ types, t.Legible)
    (legible' : ∀ t ∈ types', t.Legible) (same : laterText types = laterText types') :
    types.map (fun t => (t.name, t.body)) = types'.map fun t => (t.name, t.body) := by
  induction types generalizing types' with
  | nil =>
    cases types' with
    | nil => rfl
    | cons t' rest' => cases same
  | cons t rest ih =>
    cases types' with
    | nil => cases same
    | cons t' rest' =>
      rw [List.forall_mem_cons] at legible legible'
      obtain ⟨first, later⟩ :=
        definitionText_append_inj legible.1 legible'.1 (List.cons.inj same).2
      rw [List.map_cons, List.map_cons, first, ih legible.2 legible'.2 later]

theorem laterText_eq_of_render_eq {types types' : List (Definition String)}
    (same : render types = render types') : laterText types = laterText types' := by
  have same := congrArg String.toList same
  have nonempty : ∀ (t : Definition String) rest, definitionText t ++ rest ≠ [] := by
    intro t rest
    simp [definitionText_append]
  cases types with
  | nil =>
    cases types' with
    | nil => rfl
    | cons t' rest' =>
      rw [render_cons] at same
      exact absurd same.symm (nonempty t' _)
  | cons t rest =>
    cases types' with
    | nil =>
      rw [render_cons] at same
      exact absurd same (nonempty t _)
    | cons t' rest' =>
      rw [render_cons, render_cons] at same
      exact congrArg ('\n' :: ·) same

end Render

/-- Legible definitions with the same text are the same, up to the mark of the root. -/
theorem render_injective {types types' : List (Definition String)}
    (legible : ∀ t ∈ types, t.Legible) (legible' : ∀ t ∈ types', t.Legible)
    (same : render types = render types') :
    types.map (fun t => (t.name, t.body)) = types'.map fun t => (t.name, t.body) :=
  Render.laterText_inj legible legible' (Render.laterText_eq_of_render_eq same)

/-- Lists of definitions that mark different roots, with a union and a quoted name. -/
theorem render_injective_of_marked_root :
    let item : TypeExpr String := .union [.named "Item", .primitive .null]
    let types (marked : Bool) : List (Definition String) :=
      [⟨"Item", .object [⟨"a-b", .array .never, true⟩], !marked⟩, ⟨"Items", .array item, marked⟩]
    (∀ t ∈ types true, t.Legible) ∧ (∀ t ∈ types false, t.Legible) ∧
      render (types true) = render (types false) ∧
      (types true).map (fun t => (t.name, t.body)) = (types false).map fun t => (t.name, t.body) := by
  intro item types
  have one : Render.IsName "Item" := ⟨by decide, by decide⟩
  have many : Render.IsName "Items" := ⟨by decide, by decide⟩
  have union : item.Legible := by
    refine .union (by decide) (by simp [TypeExpr.isUnion]) ?_
    rw [List.forall_mem_cons, List.forall_mem_singleton]
    exact ⟨.named one, .primitive .null⟩
  have legible : ∀ marked, ∀ t ∈ types marked, t.Legible := by
    intro marked
    rw [List.forall_mem_cons, List.forall_mem_singleton]
    exact ⟨⟨one, List.forall_mem_singleton.mpr (.array .never)⟩, many, union⟩
  have same : render (types true) = render (types false) := rfl
  exact ⟨legible true, legible false, same, render_injective (legible true) (legible false) same⟩

end Exemplar
