import Exemplar.Json.Scalar

/-!
# Reading documents

A document is one value, with blanks around it. Containers may nest 127 deep.
A key that occurs twice in an object keeps its first place and its last value.
-/

namespace Exemplar.Json

/-- Read a value without parts, from its first character. -/
def readScalar (c : Cursor) : Except SyntaxError (Json × Cursor) :=
  match c.peek? with
  | none => .error (c.errorAtNext .eofValue)
  | some 'n' => (readKeyword c.next "ull".toList).map fun d => (.null, d)
  | some 't' => (readKeyword c.next "rue".toList).map fun d => (.boolean true, d)
  | some 'f' => (readKeyword c.next "alse".toList).map fun d => (.boolean false, d)
  | some '"' => (readString c.next).map fun (s, d) => (.string s, d)
  | some char =>
    if char = '-' || char.isDigit then (readNumber c).map fun (n, d) => (.number n, d)
    else .error (c.errorAtNext .expectedValue)

theorem left_readScalar {c d : Cursor} {value : Json} (h : readScalar c = .ok (value, d)) :
    d.left < c.left := by
  have keyword : ∀ {char : Char} {word : List Char} {e : Cursor} {v : Json},
      c.peek? = some char →
      (readKeyword c.next word).map (fun d => (v, d)) = .ok (value, e) → e.left < c.left := by
    intro char word e v hc h
    obtain ⟨_, hd, h⟩ := map_eq_ok.1 h
    cases h
    exact Nat.lt_of_le_of_lt (left_readKeyword hd) (Cursor.left_next hc)
  unfold readScalar at h
  split at h
  · cases h
  · exact keyword (by assumption) h
  · exact keyword (by assumption) h
  · exact keyword (by assumption) h
  · obtain ⟨_, hd, h⟩ := map_eq_ok.1 h
    cases h
    exact Nat.lt_of_lt_of_le (left_readString hd) (left_next_le c)
  · split at h
    · obtain ⟨_, hd, h⟩ := map_eq_ok.1 h
      cases h
      exact left_readNumber hd
    · cases h

/-- What stands where an item or the end of a list is due. -/
inductive Separated where
  | done (after : Cursor)
  | item (start : Cursor)

/-- Find the next item of a list, or its end. The first item needs no comma. -/
def nextItem (first : Bool) (c : Cursor) : Except SyntaxError Separated :=
  let s := c.skipBlanks
  match s.peek? with
  | none => .error (s.errorAtNext .eofList)
  | some char =>
    if char = ']' then .ok (.done s.next)
    else if first then .ok (.item s)
    else if char = ',' then
      let t := s.next.skipBlanks
      match t.peek? with
      | none => .error (t.errorAtNext .eofValue)
      | some ']' => .error (t.errorAtNext .trailingComma)
      | some _ => .ok (.item t)
    else .error (s.errorAtNext .expectedListSeparator)

/-- Find the next key of an object, after its quote, or the end of the object. -/
def nextKey (first : Bool) (c : Cursor) : Except SyntaxError Separated :=
  let s := c.skipBlanks
  match s.peek? with
  | none => .error (s.errorAtNext .eofObject)
  | some char =>
    if char = '\x7d' then .ok (.done s.next)
    else if first then
      if char = '"' then .ok (.item s.next) else .error (s.errorAtNext .keyNotString)
    else if char = ',' then
      let t := s.next.skipBlanks
      match t.peek? with
      | none => .error (t.errorAtNext .eofValue)
      | some '"' => .ok (.item t.next)
      | some '\x7d' => .error (t.errorAtNext .trailingComma)
      | some _ => .error (t.errorAtNext .keyNotString)
    else .error (s.errorAtNext .expectedObjectSeparator)

def readColon (c : Cursor) : Except SyntaxError Cursor :=
  let s := c.skipBlanks
  match s.peek? with
  | none => .error (s.errorAtNext .eofObject)
  | some char => if char = ':' then .ok s.next else .error (s.errorAtNext .expectedColon)

theorem left_nextItem_done {first : Bool} {c d : Cursor}
    (h : nextItem first c = .ok (.done d)) : d.left < c.left := by
  have hs := Cursor.left_skipBlanks c
  unfold nextItem at h
  dsimp only at h
  split at h
  · cases h
  · rename_i hc
    split at h
    · cases h
      exact Nat.lt_of_lt_of_le (Cursor.left_next hc) hs
    · split at h
      · cases h
      · split at h
        · split at h <;> cases h
        · cases h

theorem left_nextItem_item {first : Bool} {c d : Cursor}
    (h : nextItem first c = .ok (.item d)) : d.left ≤ c.left := by
  have hs := Cursor.left_skipBlanks c
  have hn := left_next_le c.skipBlanks
  have ht := Cursor.left_skipBlanks c.skipBlanks.next
  unfold nextItem at h
  dsimp only at h
  split at h
  · cases h
  · split at h
    · cases h
    · split at h
      · cases h; exact hs
      · split at h
        · split at h <;> cases h
          omega
        · cases h

theorem left_nextKey_done {first : Bool} {c d : Cursor}
    (h : nextKey first c = .ok (.done d)) : d.left < c.left := by
  have hs := Cursor.left_skipBlanks c
  unfold nextKey at h
  dsimp only at h
  split at h
  · cases h
  · rename_i hc
    split at h
    · cases h
      exact Nat.lt_of_lt_of_le (Cursor.left_next hc) hs
    · split at h
      · split at h <;> cases h
      · split at h
        · split at h <;> cases h
        · cases h

theorem left_nextKey_item {first : Bool} {c d : Cursor}
    (h : nextKey first c = .ok (.item d)) : d.left < c.left := by
  have hs := Cursor.left_skipBlanks c
  have hn := left_next_le c.skipBlanks
  have ht := Cursor.left_skipBlanks c.skipBlanks.next
  unfold nextKey at h
  dsimp only at h
  split at h
  · cases h
  · rename_i hc
    split at h
    · cases h
    · split at h
      · split at h <;> cases h
        exact Nat.lt_of_lt_of_le (Cursor.left_next hc) hs
      · split at h
        · split at h <;> cases h
          rename_i hq
          have := Cursor.left_next hq
          omega
        · cases h

theorem left_readColon {c d : Cursor} (h : readColon c = .ok d) : d.left < c.left := by
  have hs := Cursor.left_skipBlanks c
  unfold readColon at h
  dsimp only at h
  split at h
  · cases h
  · rename_i hc
    split at h <;> cases h
    exact Nat.lt_of_lt_of_le (Cursor.left_next hc) hs

mutual

/-- Read a value from its first character, with room for so many more levels of containers. -/
def readValue (room : Nat) (c : Cursor) : Reading Json c :=
  match hc : c.peek? with
  | some '[' =>
    have hn : c.next.left < c.left := Cursor.left_next hc
    match room with
    | 0 => .error (c.errorAtNext .nestingLimit)
    | room + 1 =>
      match readItems room true c.next with
      | .error error => .error error
      | .ok (items, ⟨d, hd⟩) => .ok (.array items, ⟨d, by omega⟩)
  | some '\x7b' =>
    have hn : c.next.left < c.left := Cursor.left_next hc
    match room with
    | 0 => .error (c.errorAtNext .nestingLimit)
    | room + 1 =>
      match readMembers room true c.next with
      | .error error => .error error
      | .ok (members, ⟨d, hd⟩) => .ok (.object members, ⟨d, by omega⟩)
  | _ =>
    match hv : readScalar c with
    | .error error => .error error
    | .ok (value, d) => .ok (value, ⟨d, left_readScalar hv⟩)
termination_by 2 * c.left

def readItems (room : Nat) (first : Bool) (c : Cursor) : Reading (List Json) c :=
  match hi : nextItem first c with
  | .error error => .error error
  | .ok (.done d) => .ok ([], ⟨d, left_nextItem_done hi⟩)
  | .ok (.item s) =>
    have hs : s.left ≤ c.left := left_nextItem_item hi
    match readValue room s with
    | .error error => .error error
    | .ok (item, ⟨d, hd⟩) =>
      match readItems room false d with
      | .error error => .error error
      | .ok (rest, ⟨e, he⟩) => .ok (item :: rest, ⟨e, by omega⟩)
termination_by 2 * c.left + 1

def readMembers (room : Nat) (first : Bool) (c : Cursor) :
    Reading (List (String × Json)) c :=
  match hk : nextKey first c with
  | .error error => .error error
  | .ok (.done d) => .ok ([], ⟨d, left_nextKey_done hk⟩)
  | .ok (.item s) =>
    have hs : s.left < c.left := left_nextKey_item hk
    match hr : readString s with
    | .error error => .error error
    | .ok (key, d) =>
      have hd : d.left < s.left := left_readString hr
      match hc : readColon d with
      | .error error => .error error
      | .ok e =>
        have he : e.left < d.left := left_readColon hc
        have hb : e.skipBlanks.left ≤ e.left := Cursor.left_skipBlanks e
        match readValue room e.skipBlanks with
        | .error error => .error error
        | .ok (value, ⟨f, hf⟩) =>
          match readMembers room false f with
          | .error error => .error error
          | .ok (rest, ⟨g, hg⟩) => .ok ((key, value) :: rest, ⟨g, by omega⟩)
termination_by 2 * c.left + 1

end

mutual

/-- Store a repeated key once, everywhere in a value. -/
def distinctKeys : Json → Json
  | .array items => .array (distinctKeysOfItems items)
  | .object members => .object (distinctKeysOfMembers [] members)
  | value => value

def distinctKeysOfItems : List Json → List Json
  | [] => []
  | item :: rest => distinctKeys item :: distinctKeysOfItems rest

/-- Add members to those stored already. -/
def distinctKeysOfMembers (stored : List (String × Json)) :
    List (String × Json) → List (String × Json)
  | [] => stored
  | (key, value) :: rest =>
    distinctKeysOfMembers (setMember stored key (distinctKeys value)) rest

end

def maxNesting : Nat := 127

/-- Read a document: one value, and nothing but blanks after it. -/
def ofText (text : String) : Except SyntaxError Json :=
  match readValue maxNesting (Cursor.start text).skipBlanks with
  | .error error => .error error
  | .ok (value, ⟨after, _⟩) =>
    let rest := after.skipBlanks
    if rest.rest.isEmpty then .ok (distinctKeys value)
    else .error (rest.errorAtNext .trailingCharacters)

end Exemplar.Json
