import Exemplar.Options.Reader
import Exemplar.Proofs.Json.Tokens
import Mathlib.Data.List.Nodup
import Mathlib.Data.List.Perm.Basic

/-!
# Options are laid over the defaults

The members of an options text may come in any order, and be written in any way:
each value goes to its place in a draft, whose other places stay as they are. A
place is filled once at most. So a member with an unknown key is refused, and one
with a key that occurs already, wherever it stands and whatever its value is.
-/

namespace Exemplar

open Json (Blank CountText Cursor KeyedText Leaves Listing LiteralText NumberText ObjectText Place
  StartsToken StopsNumber StringText ValueText)

/-- A member that options may have. -/
inductive OptionsEntry where
  | rootName (name : String)
  | placeholderName (name : String)
  | maxDepth (depth : Nat)

theorem OptionsField.isSet_empty (field : OptionsField) : field.isSet {} = false := by
  cases field <;> rfl

namespace OptionsEntry

def key : OptionsEntry → String
  | .rootName _ => "rootName"
  | .placeholderName _ => "placeholderName"
  | .maxDepth _ => "maxDepth"

/-- The ways to write the value of an entry. A depth has to fit 64 bits. -/
def Written : OptionsEntry → List Char → Prop
  | .rootName name, text => StringText name text
  | .placeholderName name, text => StringText name text
  | .maxDepth depth, text => depth < 2 ^ 64 ∧ CountText depth text

def field : OptionsEntry → OptionsField
  | .rootName _ => .rootName
  | .placeholderName _ => .placeholderName
  | .maxDepth _ => .maxDepth

/-- A draft with an entry in its place. -/
def store (draft : OptionsDraft) : OptionsEntry → OptionsDraft
  | .rootName name => { draft with rootName := some name }
  | .placeholderName name => { draft with placeholderName := some name }
  | .maxDepth depth => { draft with maxDepth := some depth }

theorem ofKey?_key (entry : OptionsEntry) :
    OptionsField.ofKey? entry.key = some entry.field := by
  cases entry <;> rfl

/-- However the value of an entry is written, it is a well-formed value. -/
theorem Written.valueText {entry : OptionsEntry} {text : List Char}
    (written : entry.Written text) : ValueText text := by
  cases entry with
  | rootName name => exact .string (StringText.literalText written)
  | placeholderName name => exact .string (StringText.literalText written)
  | maxDepth depth => exact .number written.2.numberText

theorem isSet_store (draft : OptionsDraft) (entry : OptionsEntry) (field : OptionsField) :
    field.isSet (entry.store draft) = true ↔ field = entry.field ∨ field.isSet draft = true := by
  cases entry <;> cases field <;> simp [store, OptionsEntry.field, OptionsField.isSet]

theorem isSet_foldl_store (draft : OptionsDraft) {entries : List OptionsEntry}
    {entry : OptionsEntry} (hEntry : entry ∈ entries) :
    entry.field.isSet (entries.foldl store draft) = true := by
  have stays : ∀ (entries : List OptionsEntry) (draft : OptionsDraft),
      entry.field.isSet draft = true → entry.field.isSet (entries.foldl store draft) = true := by
    intro entries
    induction entries with
    | nil => exact fun _ set => set
    | cons other entries ih =>
      exact fun draft set => ih _ ((isSet_store draft other entry.field).mpr (.inr set))
  induction entries generalizing draft with
  | nil => cases hEntry
  | cons other entries ih =>
    rcases List.mem_cons.mp hEntry with rfl | later
    · exact stays entries _ ((isSet_store draft entry entry.field).mpr (.inl rfl))
    · exact ih _ later

theorem store_comm (draft : OptionsDraft) {entry other : OptionsEntry}
    (differs : entry.field ≠ other.field) :
    other.store (entry.store draft) = entry.store (other.store draft) := by
  cases entry <;> cases other <;> first | rfl | exact absurd rfl differs

end OptionsEntry

namespace OptionsReader

variable {draft next : OptionsDraft} {path : OptionsPath} {field : OptionsField}
  {text rest : List Char} {place : Place}

/-! ## Values -/

theorem readName_leaves {name : String} (written : StringText name text) (path : OptionsPath)
    (rest : List Char) (place : Place) :
    Leaves (readName path ⟨text ++ rest, place⟩) name rest := by
  obtain ⟨body, quoted, leaves⟩ := written.exists_leaves rest
  obtain ⟨place', read⟩ := leaves (place.afterChar '"')
  refine ⟨place', ?_⟩
  rw [quoted, readName]
  simp only [Cursor.peek?, Cursor.next, List.head?_cons]
  rw [read]
  rfl

theorem readCount_leaves {count : Nat} (written : CountText count text) (fits : count < 2 ^ 64)
    (path : OptionsPath) (stops : StopsNumber rest) (place : Place) :
    Leaves (readCount path ⟨text ++ rest, place⟩) count rest := by
  obtain ⟨place', read⟩ := written.leaves fits stops place
  obtain ⟨c, others, rfl, digit⟩ := written.1.exists_cons
  refine ⟨place', ?_⟩
  rw [readCount, read]
  simp only [Cursor.peek?, List.cons_append, List.head?_cons]
  rw [if_pos (by rw [digit, Bool.or_true]), if_neg (by omega)]
  rfl

/-- The value of an entry is read into its place. -/
theorem leaves_entry {entry : OptionsEntry} (written : entry.Written text) (draft : OptionsDraft)
    (path : OptionsPath) (stops : StopsNumber rest) (place : Place) :
    Leaves (readField draft path entry.field ⟨text ++ rest, place⟩) (entry.store draft) rest := by
  cases entry with
  | rootName name =>
    obtain ⟨place', read⟩ := readName_leaves written path rest place
    refine ⟨place', ?_⟩
    rw [OptionsEntry.field, readField, read]
    rfl
  | placeholderName name =>
    obtain ⟨place', read⟩ := readName_leaves written path rest place
    refine ⟨place', ?_⟩
    rw [OptionsEntry.field, readField, read]
    rfl
  | maxDepth depth =>
    obtain ⟨place', read⟩ := readCount_leaves written.2 written.1 path stops place
    refine ⟨place', ?_⟩
    rw [OptionsEntry.field, readField, read]
    rfl

/-- What is read for a place is stored there: a name or a count. -/
theorem exists_entry_of_readField {c d : Cursor}
    (read : readField draft path field c = .ok (next, d)) :
    ∃ entry : OptionsEntry, entry.field = field ∧ next = entry.store draft ∧
      ((∃ name, readName path c = .ok (name, d)) ∨ ∃ count, readCount path c = .ok (count, d)) := by
  cases field with
  | rootName =>
    obtain ⟨⟨name, e⟩, read, same⟩ := Json.map_eq_ok.mp read
    cases same
    exact ⟨.rootName name, rfl, rfl, .inl ⟨name, read⟩⟩
  | placeholderName =>
    obtain ⟨⟨name, e⟩, read, same⟩ := Json.map_eq_ok.mp read
    cases same
    exact ⟨.placeholderName name, rfl, rfl, .inl ⟨name, read⟩⟩
  | maxDepth =>
    obtain ⟨⟨count, e⟩, read, same⟩ := Json.map_eq_ok.mp read
    cases same
    exact ⟨.maxDepth count, rfl, rfl, .inr ⟨count, read⟩⟩

/-- A value that is read goes to its place. -/
theorem isSet_of_readField {c d : Cursor} (read : readField draft path field c = .ok (next, d)) :
    field.isSet next = true := by
  obtain ⟨entry, rfl, rfl, _⟩ := exists_entry_of_readField read
  exact (OptionsEntry.isSet_store draft entry entry.field).mpr (.inl rfl)

theorem string_of_readName {c d : Cursor} {name : String} (read : readName path c = .ok (name, d)) :
    c.peek? = some '"' ∧ Json.readString c.next = .ok (name, d) := by
  rw [readName] at read
  split at read
  · cases read
  next here =>
    refine ⟨here, ?_⟩
    cases string : Json.readString c.next with
    | error error =>
      rw [string] at read
      cases read
    | ok result =>
      rw [string] at read
      cases read
      rfl
  · cases read

theorem integer_of_readCount {c d : Cursor} {count : Nat}
    (read : readCount path c = .ok (count, d)) :
    (∃ char, c.peek? = some char ∧ (char = '-' ∨ char.isDigit = true)) ∧
      ∃ value, Json.readNumber c = .ok (.integer value, d) := by
  rw [readCount] at read
  split at read
  · cases read
  next char here =>
    split at read
    next number =>
      rw [Bool.or_eq_true, decide_eq_true_eq] at number
      refine ⟨⟨char, here, number⟩, ?_⟩
      split at read
      · cases read
      next value e integer =>
        split at read
        · cases read
        · cases read
          exact ⟨value, integer⟩
      · cases read
    next => cases read

theorem rest_of_readName {d : Cursor} {name : String} (value : ValueText text)
    (read : readName path ⟨text ++ rest, place⟩ = .ok (name, d)) : d.rest = rest := by
  obtain ⟨quote, string⟩ := string_of_readName read
  rcases value.cases_head with literal | number | ⟨c, others, rfl, other⟩
  · obtain ⟨body, quoted, ends⟩ := literal.exists_rest_eq rest
    rw [quoted] at string
    exact ends string
  · obtain ⟨c, others, rfl, first⟩ := number.exists_cons
    cases quote
    rcases first with minus | digit
    · cases minus
    · cases digit
  · cases quote
    exact absurd other (by decide)

theorem rest_of_readCount {d : Cursor} {count : Nat} (value : ValueText text)
    (stops : StopsNumber rest) (read : readCount path ⟨text ++ rest, place⟩ = .ok (count, d)) :
    d.rest = rest := by
  obtain ⟨⟨char, here, first⟩, value', integer⟩ := integer_of_readCount read
  rcases value.cases_head with literal | number | ⟨c, others, rfl, other⟩
  · obtain ⟨body, quoted, _⟩ := literal.exists_rest_eq rest
    rw [quoted] at here
    cases here
    rcases first with minus | digit
    · cases minus
    · cases digit
  · exact number.rest_eq stops integer
  · cases here
    simp only [List.mem_cons, List.not_mem_nil, or_false] at other
    rcases other with rfl | rfl | rfl | rfl | rfl <;> exact absurd first (by decide)

/-- A value that is not refused is read up to its end. -/
theorem rest_of_readField {d : Cursor} (value : ValueText text) (stops : StopsNumber rest)
    (read : readField draft path field ⟨text ++ rest, place⟩ = .ok (next, d)) : d.rest = rest := by
  obtain ⟨_, _, _, ⟨name, read⟩ | ⟨count, read⟩⟩ := exists_entry_of_readField read
  · exact rest_of_readName value read
  · exact rest_of_readCount value stops read

/-! ## Members -/

theorem readMembers_done {first : Bool} {c d : Cursor}
    (found : Json.nextKey first c = .ok (.done d)) (draft : OptionsDraft) :
    readMembers draft first c = .ok draft := by
  rw [readMembers]
  split
  next ended => cases found.symm.trans ended
  next => rfl
  next ended => cases found.symm.trans ended

/-- A member is refused for its key, or its value is read and then the members after it. -/
theorem readMembers_item {first : Bool} {c d e s : Cursor} {key : String}
    (found : Json.nextKey first c = .ok (.item s)) (named : Json.readString s = .ok (key, d))
    (colon : Json.readColon d = .ok e) (draft : OptionsDraft) :
    readMembers draft first c =
      match OptionsField.ofKey? key with
      | none => .error ⟨.member key, .unknownField key, placeAfterKey d⟩
      | some field =>
        if field.isSet draft then .error ⟨.root, .duplicateField key, placeAfterKey d⟩
        else readField draft (.member key) field e.skipBlanks >>= fun (next, f) =>
          readMembers next false f := by
  rw [readMembers]
  split
  next ended => cases found.symm.trans ended
  next ended => cases found.symm.trans ended
  next ended =>
    cases found.symm.trans ended
    split
    next ended => cases named.symm.trans ended
    next ended =>
      cases named.symm.trans ended
      cases OptionsField.ofKey? key with
      | none => rfl
      | some field =>
        dsimp only
        by_cases set : field.isSet draft = true
        · rw [if_pos set, if_pos set]
        · rw [if_neg set, if_neg set]
          split
          next ended => cases colon.symm.trans ended
          next ended =>
            cases colon.symm.trans ended
            split
            next ended =>
              rw [ended]
              rfl
            next ended =>
              rw [ended]
              rfl

variable {members : List (String × List Char)}

/-- Nothing after a member goes on with a number. -/
theorem stopsNumber_of_listing (listed : Listing KeyedText false members text) (rest : List Char) :
    StopsNumber (text ++ '\x7d' :: rest) := by
  cases listed with
  | done between => exact Json.stopsNumber_of_blank between (by decide) rest
  | @next blank blank' item after _ _ between =>
    rw [List.append_assoc]
    exact Json.stopsNumber_of_blank between (by decide) _

/-- However a member is written, it is refused for its key, or its value is read and then what
follows it. -/
theorem exists_readMembers_eq {first : Bool} {key : String} {value : List Char}
    (listed : Listing KeyedText first ((key, value) :: members) text) (starts : StartsToken value)
    (draft : OptionsDraft) (rest : List Char) (place : Place) :
    ∃ after place' place'', Listing KeyedText false members after ∧
      readMembers draft first ⟨text ++ rest, place⟩ =
        match OptionsField.ofKey? key with
        | none => .error ⟨.member key, .unknownField key, place'⟩
        | some field =>
          if field.isSet draft then .error ⟨.root, .duplicateField key, place'⟩
          else readField draft (.member key) field ⟨value ++ (after ++ rest), place''⟩ >>=
            fun (next, f) => readMembers next false f := by
  obtain ⟨after, s, d, e, place', listed, found, named, colon, skipped⟩ :=
    listed.exists_readKey starts rest place
  refine ⟨after, placeAfterKey d, place', listed, ?_⟩
  rw [readMembers_item found named colon, skipped]

/-- A member that an entry is written as. -/
def Writes (entry : OptionsEntry) (member : String × List Char) : Prop :=
  member.1 = entry.key ∧ entry.Written member.2

/-- Entries for places that are free and differ are stored one after the other. -/
theorem exists_readMembers_append_eq {entries : List OptionsEntry}
    {others : List (String × List Char)} (written : List.Forall₂ Writes entries members)
    {first : Bool} (listed : Listing KeyedText first (members ++ others) text)
    (free : ∀ entry ∈ entries, entry.field.isSet draft = false)
    (differ : (entries.map OptionsEntry.field).Nodup) (rest : List Char) (place : Place) :
    ∃ first' after place', Listing KeyedText first' others after ∧
      readMembers draft first ⟨text ++ '\x7d' :: rest, place⟩ =
        readMembers (entries.foldl OptionsEntry.store draft) first'
          ⟨after ++ '\x7d' :: rest, place'⟩ := by
  induction written generalizing draft first text place with
  | nil => exact ⟨first, text, place, listed, rfl⟩
  | @cons entry member entries members here _ ih =>
    obtain ⟨key, value⟩ := member
    obtain ⟨rfl, written⟩ := here
    have unset : entry.field.isSet draft = false := free entry List.mem_cons_self
    obtain ⟨after, place₁, place₂, listed, step⟩ :=
      exists_readMembers_eq listed written.valueText.startsToken draft ('\x7d' :: rest) place
    obtain ⟨place₃, stored⟩ := leaves_entry written draft (.member entry.key)
      (stopsNumber_of_listing listed rest) place₂
    have goesOn : readMembers draft first ⟨text ++ '\x7d' :: rest, place⟩ =
        readMembers (entry.store draft) false ⟨after ++ '\x7d' :: rest, place₃⟩ := by
      rw [step, entry.ofKey?_key]
      dsimp only
      rw [unset, if_neg Bool.false_ne_true, stored]
      rfl
    rw [goesOn]
    rw [List.map_cons, List.nodup_cons] at differ
    have stillFree : ∀ other ∈ entries, other.field.isSet (entry.store draft) = false := by
      intro other hOther
      have another : other.field ≠ entry.field := fun same =>
        differ.1 (same ▸ List.mem_map_of_mem hOther)
      have unset : other.field.isSet draft = false := free other (List.mem_cons_of_mem _ hOther)
      rw [← Bool.not_eq_true, OptionsEntry.isSet_store, not_or, Bool.not_eq_true]
      exact ⟨another, unset⟩
    exact ih listed stillFree differ.2 place₃

/-- An entry whose place is filled already is refused when its turn comes. -/
theorem exists_readMembers_error {entries : List OptionsEntry}
    (written : List.Forall₂ Writes entries members) {first : Bool}
    (listed : Listing KeyedText first members text) {entry : OptionsEntry}
    (hEntry : entry ∈ entries) (set : entry.field.isSet draft = true) (rest : List Char)
    (place : Place) :
    ∃ issue, readMembers draft first ⟨text ++ '\x7d' :: rest, place⟩ = .error issue := by
  induction written generalizing draft first text place with
  | nil => cases hEntry
  | @cons other member entries members here _ ih =>
    obtain ⟨key, value⟩ := member
    obtain ⟨rfl, written⟩ := here
    obtain ⟨after, place₁, place₂, listed, step⟩ :=
      exists_readMembers_eq listed written.valueText.startsToken draft ('\x7d' :: rest) place
    rw [step, other.ofKey?_key]
    dsimp only
    by_cases filled : other.field.isSet draft = true
    · rw [if_pos filled]
      exact ⟨_, rfl⟩
    · rw [if_neg filled]
      obtain ⟨place₃, stored⟩ := leaves_entry written draft (.member other.key)
        (stopsNumber_of_listing listed rest) place₂
      rw [stored]
      have later : entry ∈ entries := by
        rcases List.mem_cons.mp hEntry with rfl | later
        · exact absurd set filled
        · exact later
      exact ih listed later ((OptionsEntry.isSet_store draft other _).mpr (.inr set)) place₃

/-! ## Objects -/

variable {text : String} {entries : List OptionsEntry} {before after : List (String × List Char)}
  {key : String} {value : List Char}

/-- Reading an object goes to its members. -/
theorem exists_read_eq (object : ObjectText members text.toList) :
    ∃ body rest place, Listing KeyedText true members body ∧
      read text = readMembers {} true ⟨body ++ '\x7d' :: rest, place⟩ := by
  generalize characters : text.toList = object' at object
  obtain @⟨blank, body, rest, between, _, listed⟩ := object
  obtain ⟨place, skipped⟩ :=
    Json.exists_skipBlanks between (c := '\x7b') rfl (body ++ '\x7d' :: rest) ⟨1, 0⟩
  refine ⟨body, rest, place.afterChar '\x7b', listed, ?_⟩
  rw [read, Cursor.start, characters, skipped]
  rfl

theorem read_eq_ok (written : List.Forall₂ Writes entries members)
    (differ : (entries.map OptionsEntry.field).Nodup) (object : ObjectText members text.toList) :
    read text = .ok (entries.foldl OptionsEntry.store {}) := by
  obtain ⟨body, rest, place, listed, goesOn⟩ := exists_read_eq object
  rw [← List.append_nil members] at listed
  obtain ⟨first, blank, place', ended, stored⟩ := exists_readMembers_append_eq written listed
    (fun entry _ => entry.field.isSet_empty) differ rest place
  cases ended with
  | done between =>
    obtain ⟨d, found⟩ := Json.exists_nextKey_done between first rest place'
    rw [goesOn, stored, readMembers_done found]

/-- What comes before a member is stored when its turn comes. -/
theorem exists_read_eq_of_entries (written : List.Forall₂ Writes entries before)
    (differ : (entries.map OptionsEntry.field).Nodup) (starts : StartsToken value)
    (object : ObjectText (before ++ (key, value) :: after) text.toList) :
    ∃ text' rest place place', Listing KeyedText false after text' ∧
      read text =
        match OptionsField.ofKey? key with
        | none => .error ⟨.member key, .unknownField key, place⟩
        | some field =>
          if field.isSet (entries.foldl OptionsEntry.store {}) then
            .error ⟨.root, .duplicateField key, place⟩
          else
            readField (entries.foldl OptionsEntry.store {}) (.member key) field
              ⟨value ++ (text' ++ '\x7d' :: rest), place'⟩ >>= fun (next, f) =>
                readMembers next false f := by
  obtain ⟨body, rest, place, listed, goesOn⟩ := exists_read_eq object
  obtain ⟨first, text', place₁, listed', stored⟩ := exists_readMembers_append_eq written listed
    (fun entry _ => entry.field.isSet_empty) differ rest place
  obtain ⟨text'', place₂, place₃, listed'', step⟩ := exists_readMembers_eq listed' starts
    (entries.foldl OptionsEntry.store {}) ('\x7d' :: rest) place₁
  exact ⟨text'', rest, place₂, place₃, listed'', by rw [goesOn, stored, step]⟩

theorem exists_entry_of_mem (written : List.Forall₂ Writes entries members)
    (hKey : key ∈ members.map (·.1)) : ∃ entry ∈ entries, entry.key = key := by
  induction written with
  | nil => cases hKey
  | @cons entry member entries members here _ ih =>
    rcases List.mem_cons.mp hKey with rfl | later
    · exact ⟨entry, List.mem_cons_self, here.1.symm⟩
    · obtain ⟨other, hOther, same⟩ := ih later
      exact ⟨other, List.mem_cons_of_mem _ hOther, same⟩

/-- A member with a key that occurs before it or after it is refused, or what occurs after it is. -/
theorem exists_read_error {entries' : List OptionsEntry}
    (written : List.Forall₂ Writes entries before) (written' : List.Forall₂ Writes entries' after)
    (differ : (entries.map OptionsEntry.field).Nodup) (wellFormed : ValueText value)
    (repeats : key ∈ (before ++ after).map (·.1))
    (object : ObjectText (before ++ (key, value) :: after) text.toList) :
    ∃ issue, read text = .error issue := by
  obtain ⟨text', rest, place, place', listed, goesOn⟩ :=
    exists_read_eq_of_entries written differ wellFormed.startsToken object
  rw [List.map_append, List.mem_append] at repeats
  rcases repeats with earlier | later
  · obtain ⟨entry, hEntry, rfl⟩ := exists_entry_of_mem written earlier
    rw [goesOn, entry.ofKey?_key]
    dsimp only
    rw [if_pos (OptionsEntry.isSet_foldl_store {} hEntry)]
    exact ⟨_, rfl⟩
  · obtain ⟨entry, hEntry, rfl⟩ := exists_entry_of_mem written' later
    rw [goesOn, entry.ofKey?_key]
    dsimp only
    -- Where the value is accepted, the place is filled before the entry's own turn comes.
    split
    next => exact ⟨_, rfl⟩
    next =>
      cases stored : readField (entries.foldl OptionsEntry.store {}) (.member entry.key) entry.field
          ⟨value ++ (text' ++ '\x7d' :: rest), place'⟩ with
      | error issue => exact ⟨issue, rfl⟩
      | ok result =>
        obtain ⟨next, ⟨rest', place''⟩⟩ := result
        cases rest_of_readField wellFormed (stopsNumber_of_listing listed rest) stored
        have set : entry.field.isSet next = true := isSet_of_readField stored
        exact exists_readMembers_error written' listed hEntry set rest place''

end OptionsReader

/-! ## The overlay -/

open OptionsReader (Writes)

namespace OptionsEntry

/-- The entries for what is given. -/
def ofDraft (given : OptionsDraft) : List OptionsEntry :=
  (given.rootName.map .rootName).toList ++ (given.placeholderName.map .placeholderName).toList ++
    (given.maxDepth.map .maxDepth).toList

theorem nodup_field_ofDraft (given : OptionsDraft) : ((ofDraft given).map field).Nodup := by
  obtain ⟨root, placeholder, depth⟩ := given
  cases root <;> cases placeholder <;> cases depth <;> simp [ofDraft, field]

theorem foldl_store_ofDraft (given : OptionsDraft) : (ofDraft given).foldl store {} = given := by
  obtain ⟨root, placeholder, depth⟩ := given
  cases root <;> cases placeholder <;> cases depth <;> rfl

/-- In whatever order entries are stored, the draft is what is given. -/
theorem foldl_store_of_perm {given : OptionsDraft} {entries : List OptionsEntry}
    (order : entries.Perm (ofDraft given)) : entries.foldl store {} = given := by
  rw [order.foldl_eq' fun entry hEntry other hOther draft => ?_, foldl_store_ofDraft]
  by_cases same : entry.field = other.field
  · have differ : (entries.map field).Nodup :=
      (order.map field).nodup_iff.mpr (nodup_field_ofDraft given)
    cases List.inj_on_of_nodup_map differ hEntry hOther same
    rfl
  · exact store_comm draft same

end OptionsEntry

theorem OptionsField.ofKey?_eq_none {key : String}
    (unknown : key ∉ ["rootName", "placeholderName", "maxDepth"]) : ofKey? key = none := by
  rw [ofKey?, List.find?_eq_none]
  intro field _ same
  rw [decide_eq_true_eq] at same
  refine unknown (same ▸ ?_)
  cases field <;> decide

namespace Options

/-- An options text gives exactly what its members say, and the defaults for what is left out,
in whatever order the members come, however keys and values are written, and whatever blanks stand
between them. One member more, anywhere, is refused if its key is unknown or occurs already, even if
its value is any JSON at all. -/
theorem ofText_overlays {given : OptionsDraft} {entries : List OptionsEntry}
    {members : List (String × List Char)} (order : entries.Perm (OptionsEntry.ofDraft given))
    (written : List.Forall₂ Writes entries members) :
    (∀ text : String, ObjectText members text.toList →
      ofText text = .ok {
        rootName := given.rootName.getD "Root"
        placeholderName := given.placeholderName.getD "Guessed"
        maxDepth := given.maxDepth.getD 256 }) ∧
    ∀ before after key value, members = before ++ after → ValueText value →
      ∀ text : String, ObjectText (before ++ (key, value) :: after) text.toList →
        (key ∉ ["rootName", "placeholderName", "maxDepth"] →
          ∃ place, ofText text = .error ⟨.member key, .unknownField key, place⟩) ∧
        (key ∈ members.map (·.1) → ∃ issue, ofText text = .error issue) := by
  have differ : (entries.map OptionsEntry.field).Nodup :=
    (order.map _).nodup_iff.mpr (OptionsEntry.nodup_field_ofDraft given)
  refine ⟨fun text object => ?_, ?_⟩
  · rw [ofText, OptionsReader.read_eq_ok written differ object,
      OptionsEntry.foldl_store_of_perm order]
    rfl
  · rintro before after key value rfl wellFormed text object
    have first := List.forall₂_take_append entries before after written
    have last := List.forall₂_drop_append entries before after written
    have differ' : ((entries.take before.length).map OptionsEntry.field).Nodup :=
      differ.sublist ((List.take_sublist _ _).map _)
    constructor
    · intro unknown
      obtain ⟨_, _, place, _, _, refused⟩ :=
        OptionsReader.exists_read_eq_of_entries first differ' wellFormed.startsToken object
      rw [OptionsField.ofKey?_eq_none unknown] at refused
      exact ⟨place, by rw [ofText, refused]; rfl⟩
    · intro repeats
      obtain ⟨issue, refused⟩ :=
        OptionsReader.exists_read_error first last differ' wellFormed repeats object
      exact ⟨issue, by rw [ofText, refused]; rfl⟩

/-- One member after another, the second with an escape in its value; and the first once more, in
front, with a value that is no count. -/
theorem ofText_overlays_of_escape_and_repetition :
    ofText "\x7b\"maxDepth\":7,\"rootName\" :\"\\u0041\"\x7d" =
        .ok { rootName := "A", placeholderName := "Guessed", maxDepth := 7 } ∧
      ∃ issue, ofText "\x7b\"maxDepth\":null,\"maxDepth\":7,\"rootName\" :\"\\u0041\"\x7d" =
        .error issue := by
  have none : Blank [] := fun _ hc => nomatch hc
  have space : Blank [' '] := fun _ hc => .inl (List.mem_singleton.mp hc)
  have digit : ∀ value < 10, Json.HexDigit value (Nat.digitChar value) :=
    fun value small => ⟨by omega, .inl rfl⟩
  have code : Json.HexText ('A').toNat ['0', '0', '4', '1'] :=
    .digits (digit 0 (by decide)) (digit 0 (by decide)) (digit 4 (by decide)) (digit 1 (by decide))
  have escape : Json.CharactersText ("A").toList ['\\', 'u', '0', '0', '4', '1'] :=
    .cons (.code code) .nil
  have letter : StringText "A" "\"\\u0041\"".toList := .quoted escape
  have depth : OptionsEntry.Written (.maxDepth 7) ['7'] := ⟨by decide, Json.countText_toDigits 7⟩
  have root : KeyedText ("rootName", "\"\\u0041\"".toList) "\"rootName\" :\"\\u0041\"".toList :=
    .intro (Json.stringText_quote "rootName") (.intro space none)
  have depthMember : KeyedText ("maxDepth", ['7']) "\"maxDepth\":7".toList :=
    .intro (Json.stringText_quote "maxDepth") (.intro none none)
  have again : KeyedText ("maxDepth", "null".toList) "\"maxDepth\":null".toList :=
    .intro (Json.stringText_quote "maxDepth") (.intro none none)
  have order : [OptionsEntry.maxDepth 7, .rootName "A"].Perm
      (OptionsEntry.ofDraft { rootName := some "A", maxDepth := some 7 }) := .swap _ _ _
  have written : List.Forall₂ Writes [OptionsEntry.maxDepth 7, .rootName "A"]
      [("maxDepth", ['7']), ("rootName", "\"\\u0041\"".toList)] :=
    .cons ⟨rfl, depth⟩ (.cons ⟨rfl, letter⟩ .nil)
  obtain ⟨overlay, refused⟩ := ofText_overlays order written
  refine ⟨overlay _ ?_, (refused [] _ "maxDepth" "null".toList rfl .null _ ?_).2 (by decide)⟩
  · have listed := Listing.first none depthMember (.next none none root (.done none))
    exact .intro none none listed
  · have listed := Listing.first none again
      (.next none none depthMember (.next none none root (.done none)))
    exact .intro none none listed

end Options

end Exemplar
