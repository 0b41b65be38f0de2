import Exemplar.Proofs.Json.Reader

/-!
# A blank at the end of a text

No token goes on over a blank. A reader that succeeds does the same with a blank
behind the text, and leaves the blank; one that fails is not rescued by a blank.
So a JSON text is read alike with one more blank at its end, errors and their
places aside.
-/

namespace Exemplar.Json

namespace Cursor

/-- The cursor before the same text with one more character behind it. -/
def followedBy (c : Cursor) (b : Char) : Cursor := ⟨c.rest ++ [b], c.place⟩

variable {c : Cursor} {b char : Char}

theorem peek?_followedBy (h : c.peek? = some char) : (c.followedBy b).peek? = some char := by
  rw [peek?, followedBy, List.head?_append, ← peek?, h]
  rfl

theorem peek?_followedBy_of_end (h : c.peek? = none) : (c.followedBy b).peek? = some b := by
  rw [peek?, followedBy, List.head?_append, ← peek?, h]
  rfl

theorem next_followedBy (h : c.peek? = some char) :
    (c.followedBy b).next = c.next.followedBy b := by
  obtain ⟨rest, place⟩ := c
  cases rest with
  | nil => cases h
  | cons char rest => rfl

theorem eq_of_isBlank (blank : isBlank b = true) : b = ' ' ∨ b = '\n' ∨ b = '\t' ∨ b = '\r' := by
  simpa only [isBlank, Bool.or_eq_true, decide_eq_true_eq, or_assoc] using blank

theorem ne_of_isBlank (blank : isBlank b = true) (other : isBlank char = false) : b ≠ char := by
  rintro rfl
  rw [blank] at other
  cases other

/-- Blanks are skipped alike when something else follows them. -/
theorem skipBlanks_followedBy (h : c.skipBlanks.peek? = some char) :
    (c.followedBy b).skipBlanks = c.skipBlanks.followedBy b := by
  obtain ⟨text, place⟩ := c
  rw [skipBlanks] at h ⊢
  rw [skipBlanks]
  dsimp only [followedBy] at h ⊢
  induction text generalizing place with
  | nil => cases h
  | cons x rest ih =>
    rw [List.cons_append, skipBlanksFrom, skipBlanksFrom]
    rw [skipBlanksFrom] at h
    split
    · rw [if_pos (by assumption)] at h
      exact ih _ h
    · rfl

/-- Blanks before the end of the text, and one more, are all skipped. -/
theorem skipBlanks_followedBy_of_end (blank : isBlank b = true) (h : c.skipBlanks.peek? = none) :
    (c.followedBy b).skipBlanks.peek? = none := by
  obtain ⟨text, place⟩ := c
  rw [skipBlanks] at h ⊢
  dsimp only [followedBy] at h ⊢
  induction text generalizing place with
  | nil =>
    rw [List.nil_append, skipBlanksFrom, if_pos blank]
    rfl
  | cons x rest ih =>
    rw [List.cons_append, skipBlanksFrom]
    rw [skipBlanksFrom] at h
    split at h
    next skipped =>
      rw [if_pos skipped]
      exact ih _ h
    next => cases h

end Cursor

open Cursor (isBlank eq_of_isBlank ne_of_isBlank peek?_followedBy peek?_followedBy_of_end next_followedBy
  skipBlanks_followedBy skipBlanks_followedBy_of_end)

/-- What was read, and a cursor with one more character behind its text. -/
def leaving {α : Type} (b : Char) (result : α × Cursor) : α × Cursor :=
  (result.1, result.2.followedBy b)

/-- Where one reading fails the other fails; else the other has what the one has, moved. -/
def Mirrors {α : Type} (move : α → α) (reading reading' : Except SyntaxError α) : Prop :=
  reading'.toOption = reading.toOption.map move

section Combining

variable {α β : Type} {move : α → α} {move' : β → β} {reading reading' : Except SyntaxError α}

theorem mirrors_ok (a : α) : Mirrors move (.ok a) (.ok (move a)) := rfl

theorem mirrors_error {error error' : SyntaxError} :
    Mirrors move (.error error) (.error error') := rfl

theorem mirrors_ite {P : Prop} [Decidable P] {other other' : Except SyntaxError α}
    (yes : P → Mirrors move reading reading') (no : ¬P → Mirrors move other other') :
    Mirrors move (if P then reading else other) (if P then reading' else other') := by
  split
  next holds => exact yes holds
  next fails => exact no fails

theorem Mirrors.bind (first : Mirrors move reading reading') {rest rest' : α → Except SyntaxError β}
    (second : ∀ a, reading = .ok a → Mirrors move' (rest a) (rest' (move a))) :
    Mirrors move' (reading >>= rest) (reading' >>= rest') := by
  cases reading with
  | error error =>
    cases reading' with
    | error error' => rfl
    | ok a => cases first
  | ok a =>
    cases reading' with
    | error error' => cases first
    | ok a' =>
      cases Option.some.inj first
      exact second a rfl

theorem Mirrors.map (first : Mirrors move reading reading') {f : α → β}
    (moved : ∀ a, f (move a) = move' (f a)) :
    Mirrors move' (reading.map f) (reading'.map f) := by
  cases reading with
  | error error =>
    cases reading' with
    | error error' => rfl
    | ok a => cases first
  | ok a =>
    cases reading' with
    | error error' => cases first
    | ok a' =>
      cases Option.some.inj first
      exact congrArg some (moved a)

end Combining

section Scalars

variable {b : Char} (blank : isBlank b = true)

include blank

theorem readKeyword_followedBy {word : List Char} (solid : ∀ x ∈ word, isBlank x = false)
    (c : Cursor) :
    Mirrors (·.followedBy b) (readKeyword c word) (readKeyword (c.followedBy b) word) := by
  induction word generalizing c with
  | nil => rfl
  | cons x rest ih =>
    rw [List.forall_mem_cons] at solid
    rw [readKeyword, readKeyword]
    cases h : c.peek? with
    | none =>
      rw [peek?_followedBy_of_end h]
      dsimp only
      rw [if_neg (ne_of_isBlank blank solid.1)]
      rfl
    | some char =>
      rw [peek?_followedBy h]
      dsimp only
      split
      · rw [next_followedBy h]
        exact ih solid.2 c.next
      · rfl

theorem digit?_of_isBlank : digit? b = none := by
  rcases eq_of_isBlank blank with rfl | rfl | rfl | rfl <;> rfl

theorem hexValue?_of_isBlank : hexValue? b = none := by
  rcases eq_of_isBlank blank with rfl | rfl | rfl | rfl <;> rfl

theorem readDigits_followedBy (c : Cursor) :
    readDigits (c.followedBy b) = leaving b (readDigits c) := by
  obtain ⟨text, place⟩ := c
  rw [readDigits, readDigits]
  dsimp only [Cursor.followedBy]
  induction text generalizing place with
  | nil =>
    simp only [List.nil_append, readDigitsFrom, digit?_of_isBlank blank]
    rfl
  | cons x rest ih =>
    rw [List.cons_append, readDigitsFrom, readDigitsFrom]
    cases digit? x with
    | none => rfl
    | some digit =>
      dsimp only
      rw [ih]
      rfl

theorem exponentSign_followedBy (c : Cursor) :
    exponentSign (c.followedBy b) = leaving b (exponentSign c) := by
  rw [exponentSign, exponentSign]
  cases h : c.peek? with
  | none =>
    rw [peek?_followedBy_of_end h]
    rcases eq_of_isBlank blank with rfl | rfl | rfl | rfl <;> rfl
  | some char =>
    rw [peek?_followedBy h, next_followedBy h]
    split <;> rfl

omit blank in
theorem exponentOfDigits_fst (c d : Cursor) (value : Nat) (digits : List Nat) :
    (exponentOfDigits c value digits).1 = (exponentOfDigits d value digits).1 := by
  induction digits generalizing c d value with
  | nil => rfl
  | cons digit rest ih =>
    rw [exponentOfDigits, exponentOfDigits]
    split
    · exact ih _ _ _
    · rfl

theorem readExponent_followedBy (c : Cursor) (decimal : Scaled) :
    Mirrors (leaving b) (readExponent c decimal) (readExponent (c.followedBy b) decimal) := by
  rw [readExponent, readExponent]
  dsimp only
  rw [exponentSign_followedBy blank]
  dsimp only [leaving]
  rw [readDigits_followedBy blank]
  rcases readDigits (exponentSign c).2 with ⟨digits, after⟩
  cases digits with
  | nil =>
    dsimp only [leaving]
    split <;> split <;> exact mirrors_error
  | cons digit rest =>
    dsimp only [leaving]
    -- Where the exponent overflows matters for the place of an error only.
    have same := exponentOfDigits_fst ((exponentSign c).2.followedBy b) (exponentSign c).2 0
      (digit :: rest)
    generalize exponentOfDigits ((exponentSign c).2.followedBy b) 0 (digit :: rest) = read' at same ⊢
    generalize exponentOfDigits (exponentSign c).2 0 (digit :: rest) = read at same ⊢
    obtain ⟨value, d'⟩ := read'
    obtain ⟨_, d⟩ := read
    cases same
    cases value with
    | some exponent => exact mirrors_ok (_, after)
    | none =>
      exact mirrors_ite (fun _ => mirrors_error) fun _ => mirrors_ok (_, after)

theorem readFraction_followedBy (c : Cursor) (decimal : Scaled) :
    Mirrors (leaving b) (readFraction c decimal) (readFraction (c.followedBy b) decimal) := by
  rw [readFraction, readFraction, readDigits_followedBy blank]
  rcases readDigits c with ⟨digits, after⟩
  cases digits with
  | nil =>
    dsimp only [leaving]
    split <;> split <;> exact mirrors_error
  | cons digit rest => exact mirrors_ok (_, after)

theorem readExponent?_followedBy (c : Cursor) (decimal : Scaled) :
    Mirrors (leaving b) (readExponent? c decimal) (readExponent? (c.followedBy b) decimal) := by
  rw [readExponent?, readExponent?]
  cases h : c.peek? with
  | none =>
    rw [peek?_followedBy_of_end h]
    rcases eq_of_isBlank blank with rfl | rfl | rfl | rfl <;> exact mirrors_ok (decimal, c)
  | some char =>
    rw [peek?_followedBy h, next_followedBy h]
    split
    · exact readExponent_followedBy blank c.next decimal
    · exact readExponent_followedBy blank c.next decimal
    · exact mirrors_ok (decimal, c)

omit blank in
theorem floatOf_followedBy (negative : Bool) (decimal : Scaled) (c : Cursor) :
    Mirrors (leaving b) (floatOf negative decimal c) (floatOf negative decimal (c.followedBy b)) := by
  rw [floatOf, floatOf]
  cases decimal.toFloat? with
  | none => exact mirrors_error
  | some value => exact mirrors_ok (_, c)

theorem readAfterInteger_followedBy (negative : Bool) (whole : Scaled) (c : Cursor) :
    Mirrors (leaving b) (readAfterInteger negative whole c)
      (readAfterInteger negative whole (c.followedBy b)) := by
  have alone : Mirrors (leaving b)
      (if whole.exponent = 0 then .ok (integerOf negative whole.significand, c)
        else floatOf negative whole c)
      (if whole.exponent = 0 then .ok (integerOf negative whole.significand, c.followedBy b)
        else floatOf negative whole (c.followedBy b)) :=
    mirrors_ite (fun _ => mirrors_ok (_, c)) fun _ => floatOf_followedBy negative whole c
  rw [readAfterInteger, readAfterInteger]
  cases h : c.peek? with
  | none =>
    rw [peek?_followedBy_of_end h]
    rcases eq_of_isBlank blank with rfl | rfl | rfl | rfl <;> exact alone
  | some char =>
    rw [peek?_followedBy h, next_followedBy h]
    split
    · refine (readFraction_followedBy blank c.next whole).bind fun (decimal, d) _ => ?_
      refine (readExponent?_followedBy blank d decimal).bind fun (decimal, e) _ => ?_
      exact floatOf_followedBy negative decimal e
    · refine (readExponent_followedBy blank c.next whole).bind fun (decimal, d) _ => ?_
      exact floatOf_followedBy negative decimal d
    · refine (readExponent_followedBy blank c.next whole).bind fun (decimal, d) _ => ?_
      exact floatOf_followedBy negative decimal d
    · exact alone

theorem readUnsigned_followedBy (negative : Bool) (c : Cursor) :
    Mirrors (leaving b) (readUnsigned negative c) (readUnsigned negative (c.followedBy b)) := by
  rw [readUnsigned, readUnsigned, readDigits_followedBy blank]
  rcases readDigits c with ⟨digits, after⟩
  match digits with
  | [] =>
    dsimp only [leaving]
    split <;> split <;> exact mirrors_error
  | 0 :: _ :: _ => exact mirrors_error
  | [0] => exact readAfterInteger_followedBy blank negative _ after
  | (_ + 1) :: _ => exact readAfterInteger_followedBy blank negative _ after

theorem readNumber_followedBy {c : Cursor} {char : Char} (h : c.peek? = some char) :
    Mirrors (leaving b) (readNumber c) (readNumber (c.followedBy b)) := by
  rw [readNumber, readNumber, peek?_followedBy h, h, next_followedBy h]
  split
  · exact readUnsigned_followedBy blank true c.next
  · exact readUnsigned_followedBy blank false c

theorem readHex_followedBy (c : Cursor) :
    Mirrors (leaving b) (readHex c) (readHex (c.followedBy b)) := by
  have same : ((c.followedBy b).rest.take 4).filterMap hexValue? =
      (c.rest.take 4).filterMap hexValue? := by
    rw [Cursor.followedBy, List.take_append, List.filterMap_append]
    refine List.append_right_eq_self.mpr ?_
    refine List.filterMap_eq_nil_iff.mpr fun x member => ?_
    rw [List.mem_singleton.mp (List.mem_of_mem_take member)]
    exact hexValue?_of_isBlank blank
  rw [readHex, readHex]
  dsimp only
  rw [same]
  split
  next full =>
    have long : 4 ≤ c.rest.length := by
      have := List.length_filterMap_le hexValue? (c.rest.take 4)
      rw [full, List.length_take] at this
      omega
    obtain ⟨rest, place⟩ := c
    match rest, long with
    | w :: x :: y :: z :: rest, _ => rfl
  next => exact mirrors_error

theorem readBetweenSurrogates_followedBy {expected : Char} (solid : isBlank expected = false)
    (c : Cursor) :
    Mirrors (·.followedBy b) (readBetweenSurrogates expected c)
      (readBetweenSurrogates expected (c.followedBy b)) := by
  rw [readBetweenSurrogates, readBetweenSurrogates]
  cases h : c.peek? with
  | none =>
    rw [peek?_followedBy_of_end h]
    dsimp only
    rw [if_neg (ne_of_isBlank blank solid)]
    rfl
  | some char =>
    rw [peek?_followedBy h]
    dsimp only
    split
    · rw [next_followedBy h]
      rfl
    · rfl

theorem readCode_followedBy (c : Cursor) :
    Mirrors (leaving b) (readCode c) (readCode (c.followedBy b)) := by
  rw [readCode, readCode]
  refine (readHex_followedBy blank c).bind fun (code, d) _ => ?_
  refine mirrors_ite (fun _ => mirrors_error) fun _ => ?_
  refine mirrors_ite (fun _ => ?_) fun _ => mirrors_ok (_, d)
  refine (readBetweenSurrogates_followedBy blank rfl d).bind fun d _ => ?_
  refine (readBetweenSurrogates_followedBy blank rfl d).bind fun d _ => ?_
  refine (readHex_followedBy blank d).bind fun (low, e) _ => ?_
  dsimp only [leaving]
  generalize Char.ofNat (0x10000 + (code - 0xD800) * 0x400 + (low - 0xDC00)) = pair
  exact mirrors_ite (fun _ => mirrors_ok (pair, e)) fun _ => mirrors_error

theorem readEscape_followedBy (c : Cursor) :
    Mirrors (leaving b) (readEscape c) (readEscape (c.followedBy b)) := by
  rw [readEscape, readEscape]
  cases h : c.peek? with
  | none =>
    rw [peek?_followedBy_of_end h]
    rcases eq_of_isBlank blank with rfl | rfl | rfl | rfl <;> exact mirrors_error
  | some char =>
    rw [peek?_followedBy h, next_followedBy h]
    dsimp only
    cases unescape? char with
    | some meant => exact mirrors_ok (meant, c.next)
    | none => exact mirrors_ite (fun _ => readCode_followedBy blank c.next) fun _ => mirrors_error

/-- A blank may be part of a string, but then the string does not end. -/
theorem readCharacters_followedBy (c : Cursor) :
    Mirrors (leaving b) (readCharacters c) (readCharacters (c.followedBy b)) := by
  rw [readCharacters_eq, readCharacters_eq (c.followedBy b)]
  cases h : c.peek? with
  | none =>
    have last : (c.followedBy b).next.peek? = none := by
      obtain ⟨rest, place⟩ := c
      cases rest with
      | nil => rfl
      | cons char rest => cases h
    rw [peek?_followedBy_of_end h, readCharacters_eq (c.followedBy b).next, last]
    rcases eq_of_isBlank blank with rfl | rfl | rfl | rfl <;> exact mirrors_error
  | some char =>
    have shorter : c.next.left < c.left := Cursor.left_next h
    rw [peek?_followedBy h, next_followedBy h]
    refine mirrors_ite (fun _ => mirrors_ok ([], c.next)) fun _ => ?_
    refine mirrors_ite (fun _ => ?_) fun _ => mirrors_ite (fun _ => mirrors_error) fun _ => ?_
    · refine (readEscape_followedBy blank c.next).bind fun (meant, d) escaped => ?_
      have shorter' : d.left ≤ c.next.left := left_readEscape escaped
      exact (readCharacters_followedBy d).map fun _ => rfl
    · exact (readCharacters_followedBy c.next).map fun _ => rfl
termination_by c.left

theorem readString_followedBy (c : Cursor) :
    Mirrors (leaving b) (readString c) (readString (c.followedBy b)) :=
  (readCharacters_followedBy blank c).map fun _ => rfl

theorem readScalar_followedBy (c : Cursor) :
    Mirrors (leaving b) (readScalar c) (readScalar (c.followedBy b)) := by
  rw [readScalar, readScalar]
  cases h : c.peek? with
  | none =>
    rw [peek?_followedBy_of_end h]
    rcases eq_of_isBlank blank with rfl | rfl | rfl | rfl <;> exact mirrors_error
  | some char =>
    rw [peek?_followedBy h, next_followedBy h]
    split
    · contradiction
    · exact (readKeyword_followedBy blank (by simp [isBlank]) c.next).map fun _ => rfl
    · exact (readKeyword_followedBy blank (by simp [isBlank]) c.next).map fun _ => rfl
    · exact (readKeyword_followedBy blank (by simp [isBlank]) c.next).map fun _ => rfl
    · exact (readString_followedBy blank c.next).map fun _ => rfl
    · refine mirrors_ite (fun _ => ?_) fun _ => mirrors_error
      exact (readNumber_followedBy blank h).map fun _ => rfl

end Scalars

/-- What stands there, with one more character behind the text. -/
def Separated.followedBy (b : Char) : Separated → Separated
  | .done after => .done (after.followedBy b)
  | .item start => .item (start.followedBy b)

section Containers

variable {b : Char} (blank : isBlank b = true)

include blank

theorem nextItem_followedBy (first : Bool) (c : Cursor) :
    Mirrors (Separated.followedBy b) (nextItem first c) (nextItem first (c.followedBy b)) := by
  rw [nextItem, nextItem]
  dsimp only
  cases h : c.skipBlanks.peek? with
  | none =>
    rw [skipBlanks_followedBy_of_end blank h]
    exact mirrors_error
  | some char =>
    rw [skipBlanks_followedBy h, peek?_followedBy h, next_followedBy h]
    refine mirrors_ite (fun _ => mirrors_ok (Separated.done _)) fun _ => ?_
    refine mirrors_ite (fun _ => mirrors_ok (Separated.item _)) fun _ => ?_
    refine mirrors_ite (fun _ => ?_) fun _ => mirrors_error
    cases h' : c.skipBlanks.next.skipBlanks.peek? with
    | none =>
      rw [skipBlanks_followedBy_of_end blank h']
      exact mirrors_error
    | some char' =>
      rw [skipBlanks_followedBy h', peek?_followedBy h']
      split
      · contradiction
      · exact mirrors_error
      · exact mirrors_ok (Separated.item _)

theorem nextKey_followedBy (first : Bool) (c : Cursor) :
    Mirrors (Separated.followedBy b) (nextKey first c) (nextKey first (c.followedBy b)) := by
  rw [nextKey, nextKey]
  dsimp only
  cases h : c.skipBlanks.peek? with
  | none =>
    rw [skipBlanks_followedBy_of_end blank h]
    exact mirrors_error
  | some char =>
    rw [skipBlanks_followedBy h, peek?_followedBy h, next_followedBy h]
    refine mirrors_ite (fun _ => mirrors_ok (Separated.done _)) fun _ => ?_
    refine mirrors_ite (fun _ => mirrors_ite (fun _ => mirrors_ok (Separated.item _)) fun _ => mirrors_error)
      fun _ => ?_
    refine mirrors_ite (fun _ => ?_) fun _ => mirrors_error
    cases h' : c.skipBlanks.next.skipBlanks.peek? with
    | none =>
      rw [skipBlanks_followedBy_of_end blank h']
      exact mirrors_error
    | some char' =>
      rw [skipBlanks_followedBy h', peek?_followedBy h', next_followedBy h']
      split
      · contradiction
      · exact mirrors_ok (Separated.item _)
      · exact mirrors_error
      · exact mirrors_error

theorem readColon_followedBy (c : Cursor) :
    Mirrors (·.followedBy b) (readColon c) (readColon (c.followedBy b)) := by
  rw [readColon, readColon]
  cases h : c.skipBlanks.peek? with
  | none =>
    rw [skipBlanks_followedBy_of_end blank h]
    exact mirrors_error
  | some char =>
    rw [skipBlanks_followedBy h, peek?_followedBy h, next_followedBy h]
    exact mirrors_ite (fun _ => mirrors_ok _) fun _ => mirrors_error

end Containers

section Values

variable {b : Char} (blank : isBlank b = true)

include blank

mutual

theorem readValue_followedBy (room : Nat) (c : Cursor) :
    Mirrors (leaving b) (plain (readValue room c)) (plain (readValue room (c.followedBy b))) := by
  have scalar := readScalar_followedBy blank c
  rw [readValue_eq, readValue_eq]
  cases h : c.peek? with
  | none =>
    rw [peek?_followedBy_of_end h]
    rcases eq_of_isBlank blank with rfl | rfl | rfl | rfl <;> exact scalar
  | some char =>
    have shorter : c.next.left < c.left := Cursor.left_next h
    rw [peek?_followedBy h, next_followedBy h]
    split
    · cases room with
      | zero => exact mirrors_error
      | succ room => exact (readItems_followedBy room true c.next).map fun _ => rfl
    · cases room with
      | zero => exact mirrors_error
      | succ room => exact (readMembers_followedBy room true c.next).map fun _ => rfl
    · exact scalar
termination_by 2 * c.left

theorem readItems_followedBy (room : Nat) (first : Bool) (c : Cursor) :
    Mirrors (leaving b) (plain (readItems room first c))
      (plain (readItems room first (c.followedBy b))) := by
  rw [readItems_eq, readItems_eq]
  refine (nextItem_followedBy blank first c).bind fun next found => ?_
  cases next with
  | done d => exact mirrors_ok ([], d)
  | item s =>
    have shorter : s.left ≤ c.left := left_nextItem_item found
    refine (readValue_followedBy room s).bind fun (item, d) read => ?_
    have itemShorter : d.left < s.left := left_of_plain read
    exact (readItems_followedBy room false d).map fun _ => rfl
termination_by 2 * c.left + 1

theorem readMembers_followedBy (room : Nat) (first : Bool) (c : Cursor) :
    Mirrors (leaving b) (plain (readMembers room first c))
      (plain (readMembers room first (c.followedBy b))) := by
  rw [readMembers_eq, readMembers_eq]
  refine (nextKey_followedBy blank first c).bind fun next found => ?_
  cases next with
  | done d => exact mirrors_ok ([], d)
  | item s =>
    have shorter : s.left < c.left := left_nextKey_item found
    refine (readString_followedBy blank s).bind fun (key, d) read => ?_
    have keyShorter : d.left < s.left := left_readString read
    refine (readColon_followedBy blank d).bind fun e read => ?_
    have colonShorter : e.left < d.left := left_readColon read
    have skipped : e.skipBlanks.left ≤ e.left := Cursor.left_skipBlanks e
    cases h : e.skipBlanks.peek? with
    | none =>
      obtain ⟨error, failed⟩ := readValue_of_end room h
      obtain ⟨error', failed'⟩ := readValue_of_end room (skipBlanks_followedBy_of_end blank h)
      dsimp only
      rw [failed, failed']
      exact mirrors_error
    | some char =>
      rw [skipBlanks_followedBy h]
      refine (readValue_followedBy room e.skipBlanks).bind fun (value, f) read => ?_
      have valueShorter : f.left < e.skipBlanks.left := left_of_plain read
      exact (readMembers_followedBy room false f).map fun _ => rfl
termination_by 2 * c.left + 1

end

/-- A text with one more blank at its end holds the same value, if it holds any. -/
theorem ofText_followedBy (text : List Char) :
    (ofText (String.ofList (text ++ [b]))).toOption = (ofText (String.ofList text)).toOption := by
  suffices mirrored : Mirrors id (ofText (String.ofList text)) (ofText (String.ofList (text ++ [b])))
    from mirrored.trans Option.map_id_apply
  have start : Cursor.start (String.ofList (text ++ [b])) =
      (Cursor.start (String.ofList text)).followedBy b := by
    rw [Cursor.start, Cursor.start, String.toList_ofList, String.toList_ofList]
    rfl
  rw [ofText_eq, ofText_eq, start]
  generalize Cursor.start (String.ofList text) = c
  cases h : c.skipBlanks.peek? with
  | none =>
    obtain ⟨error, failed⟩ := readValue_of_end maxNesting h
    obtain ⟨error', failed'⟩ :=
      readValue_of_end maxNesting (skipBlanks_followedBy_of_end blank h)
    rw [failed, failed']
    exact mirrors_error
  | some char =>
    rw [skipBlanks_followedBy h]
    refine (readValue_followedBy blank maxNesting c.skipBlanks).bind fun (value, after) _ => ?_
    dsimp only [leaving]
    cases h : after.skipBlanks.peek? with
    | none =>
      have ended := skipBlanks_followedBy_of_end blank h
      rw [Cursor.peek?, List.head?_eq_none_iff] at h ended
      rw [h, ended]
      exact mirrors_ok _
    | some char =>
      have goesOn : ∀ d : Cursor, d.peek? = some char → d.rest.isEmpty = false :=
        fun d here => List.isEmpty_eq_false_iff.mpr (List.ne_nil_of_mem (List.mem_of_mem_head? here))
      rw [skipBlanks_followedBy h, goesOn _ h, goesOn _ (peek?_followedBy h)]
      exact mirrors_error

end Values

end Exemplar.Json
