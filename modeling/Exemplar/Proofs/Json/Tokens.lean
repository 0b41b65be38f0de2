import Exemplar.Proofs.Json.Grammar
import Exemplar.Proofs.Json.Reader
import Mathlib.Tactic.IntervalCases

/-!
# Tokens are read back

A token is read as what it was written for, however it was written, and the reader
stops right after it. A string literal that stands for no string may be refused,
but if it is not, the reader stops at its closing quote.
-/

namespace Exemplar.Json

/-- A reader has read something, and leaves a text. -/
def Leaves {ε α : Type} (reading : Except ε (α × Cursor)) (a : α) (rest : List Char) : Prop :=
  ∃ place, reading = .ok (a, ⟨rest, place⟩)

theorem Cursor.rest_next (c : Cursor) : c.next.rest = c.rest.tail := by
  obtain ⟨rest, place⟩ := c
  cases rest <;> rfl

theorem Cursor.rest_eq_cons {c : Cursor} {char : Char} (here : c.peek? = some char) :
    c.rest = char :: c.next.rest := by
  obtain ⟨rest, place⟩ := c
  cases rest with
  | nil => cases here
  | cons first rest =>
    cases here
    rfl

/-! ## Blanks -/

theorem Blank.isBlank {text : List Char} (blank : Blank text) {c : Char} (hc : c ∈ text) :
    Cursor.isBlank c = true := by
  rcases blank c hc with rfl | rfl | rfl | rfl <;> rfl

theorem exists_skipBlanks {blank : List Char} (between : Blank blank) {c : Char}
    (token : Cursor.isBlank c = false) (rest : List Char) (place : Place) :
    ∃ place', (Cursor.mk (blank ++ c :: rest) place).skipBlanks = ⟨c :: rest, place'⟩ := by
  rw [Cursor.skipBlanks]
  dsimp only
  induction blank generalizing place with
  | nil =>
    refine ⟨place, ?_⟩
    rw [List.nil_append, Cursor.skipBlanksFrom, if_neg (by rw [token]; exact Bool.false_ne_true)]
  | cons b blank ih =>
    have here : Cursor.isBlank b = true := between.isBlank List.mem_cons_self
    obtain ⟨place', skipped⟩ := ih (fun c hc => between c (List.mem_cons_of_mem _ hc))
      (place.afterChar b)
    refine ⟨place', ?_⟩
    rw [List.cons_append, Cursor.skipBlanksFrom, if_pos here, skipped]

/-! ## Codes -/

/-- A hexadecimal digit has its value. -/
theorem HexDigit.hexValue?_eq {value : Nat} {digit : Char} (written : HexDigit value digit) :
    hexValue? digit = some value := by
  obtain ⟨small, rfl | rfl⟩ := written
  · interval_cases value <;> rfl
  · interval_cases value <;> rfl

theorem HexText.leaves {code : Nat} {digits : List Char} (written : HexText code digits)
    (rest : List Char) (place : Place) : Leaves (readHex ⟨digits ++ rest, place⟩) code rest := by
  obtain @⟨a, b, c, d, a', b', c', d', first, second, third, fourth⟩ := written
  have values : (([a', b', c', d'] ++ rest).take 4).filterMap hexValue? = [a, b, c, d] := by
    simp [first.hexValue?_eq, second.hexValue?_eq, third.hexValue?_eq, fourth.hexValue?_eq]
  refine ⟨(((place.afterChar a').afterChar b').afterChar c').afterChar d', ?_⟩
  rw [readHex]
  dsimp only
  rw [values, if_pos (show [a, b, c, d].length = 4 from rfl)]
  simp [Cursor.next]

theorem HexText.isSome_hexValue? {code : Nat} {digits : List Char} (written : HexText code digits)
    {c : Char} (hc : c ∈ digits) : (hexValue? c).isSome = true := by
  obtain ⟨first, second, third, fourth⟩ := written
  simp only [List.mem_cons, List.not_mem_nil, or_false] at hc
  rcases hc with rfl | rfl | rfl | rfl
  · rw [first.hexValue?_eq, Option.isSome_some]
  · rw [second.hexValue?_eq, Option.isSome_some]
  · rw [third.hexValue?_eq, Option.isSome_some]
  · rw [fourth.hexValue?_eq, Option.isSome_some]

/-- A code that is a character is no surrogate code. -/
theorem not_surrogate (c : Char) :
    isLowSurrogate c.toNat = false ∧ isHighSurrogate c.toNat = false := by
  have valid : c.toNat < 0xD800 ∨ (0xDFFF < c.toNat ∧ c.toNat < 0x110000) := c.valid
  constructor
  · rw [isLowSurrogate]
    simp only [Bool.and_eq_false_iff, decide_eq_false_iff_not]
    omega
  · rw [isHighSurrogate]
    simp only [Bool.and_eq_false_iff, decide_eq_false_iff_not]
    omega

theorem readCode_of_code {c : Char} {digits : List Char} (written : HexText c.toNat digits)
    (rest : List Char) (place : Place) : Leaves (readCode ⟨digits ++ rest, place⟩) c rest := by
  obtain ⟨place', read⟩ := written.leaves rest place
  refine ⟨place', ?_⟩
  rw [readCode, read]
  simp only [bind, Except.bind, not_surrogate, Char.ofNat_toNat]
  rfl

/-- The character that a pair of surrogate codes stands for. -/
theorem readCode_of_surrogates {high low : Nat} {text text' : List Char}
    (isHigh : isLowSurrogate high = false ∧ isHighSurrogate high = true)
    (isLow : isLowSurrogate low = true) (first : HexText high text) (second : HexText low text')
    (rest : List Char) (place : Place) :
    Leaves (readCode ⟨text ++ '\\' :: 'u' :: (text' ++ rest), place⟩)
      (Char.ofNat (0x10000 + (high - 0xD800) * 0x400 + (low - 0xDC00))) rest := by
  obtain ⟨place', readHigh⟩ := first.leaves ('\\' :: 'u' :: (text' ++ rest)) place
  obtain ⟨place'', readLow⟩ := second.leaves rest ((place'.afterChar '\\').afterChar 'u')
  have backslash : readBetweenSurrogates '\\' ⟨'\\' :: 'u' :: (text' ++ rest), place'⟩ =
    .ok ⟨'u' :: (text' ++ rest), place'.afterChar '\\'⟩ := rfl
  have u : readBetweenSurrogates 'u' ⟨'u' :: (text' ++ rest), place'.afterChar '\\'⟩ =
    .ok ⟨text' ++ rest, (place'.afterChar '\\').afterChar 'u'⟩ := rfl
  refine ⟨place'', ?_⟩
  rw [readCode, readHigh]
  simp only [bind, Except.bind, isHigh, backslash, u, readLow, isLow, if_true, Bool.false_eq_true,
    if_false]

theorem readCode_of_pair {c : Char} {high low : List Char} (beyond : 0x10000 ≤ c.toNat)
    (first : HexText (0xD800 + (c.toNat - 0x10000) / 0x400) high)
    (second : HexText (0xDC00 + (c.toNat - 0x10000) % 0x400) low) (rest : List Char)
    (place : Place) :
    Leaves (readCode ⟨high ++ '\\' :: 'u' :: (low ++ rest), place⟩) c rest := by
  have valid : c.toNat < 0xD800 ∨ (0xDFFF < c.toNat ∧ c.toNat < 0x110000) := c.valid
  -- The codes get names, so that no step computes with sums of this size.
  obtain ⟨upper, hUpper⟩ : ∃ upper, upper = 0xD800 + (c.toNat - 0x10000) / 0x400 := ⟨_, rfl⟩
  obtain ⟨lower, hLower⟩ : ∃ lower, lower = 0xDC00 + (c.toNat - 0x10000) % 0x400 := ⟨_, rfl⟩
  rw [← hUpper] at first
  rw [← hLower] at second
  have isHigh : isLowSurrogate upper = false ∧ isHighSurrogate upper = true := by
    simp only [isLowSurrogate, isHighSurrogate, Bool.and_eq_false_iff, Bool.and_eq_true,
      decide_eq_false_iff_not, decide_eq_true_eq]
    omega
  have isLow : isLowSurrogate lower = true := by
    simp only [isLowSurrogate, Bool.and_eq_true, decide_eq_true_eq]
    omega
  have code : 0x10000 + (upper - 0xD800) * 0x400 + (lower - 0xDC00) = c.toNat := by omega
  have read := readCode_of_surrogates isHigh isLow first second rest place
  rwa [code, Char.ofNat_toNat] at read

/-! ## Strings -/

theorem unescape?_of_mem : ∀ entry ∈ escapeLetters, unescape? entry.1 = some entry.2 := by decide

/-- However a character is written, it is read, and then what follows it. -/
theorem CharacterText.exists_readCharacters_eq {c : Char} {piece : List Char}
    (written : CharacterText c piece) (rest : List Char) (place : Place) :
    ∃ place', readCharacters ⟨piece ++ rest, place⟩ =
      (readCharacters ⟨rest, place'⟩).map fun (characters, d) => (c :: characters, d) := by
  -- Every form but the character itself goes through the reader of escapes.
  have escaped : ∀ text, Leaves (readEscape ⟨text, place.afterChar '\\'⟩) c rest →
      ∃ place', readCharacters ⟨'\\' :: text, place⟩ =
        (readCharacters ⟨rest, place'⟩).map fun (characters, d) => (c :: characters, d) := by
    rintro text ⟨place', read⟩
    refine ⟨place', ?_⟩
    rw [readCharacters_eq]
    simp only [Cursor.peek?, Cursor.next, List.head?_cons]
    rw [if_neg (by decide), if_pos trivial, read]
    rfl
  cases written with
  | plain itself =>
    obtain ⟨notQuote, notBackslash, notControl⟩ := itself
    refine ⟨place.afterChar c, ?_⟩
    rw [readCharacters_eq]
    simp only [Cursor.peek?, Cursor.next, List.singleton_append, List.head?_cons]
    rw [if_neg notQuote, if_neg notBackslash, if_neg (Nat.not_lt.mpr notControl)]
  | @letter letter stands =>
    refine escaped (letter :: rest) ⟨(place.afterChar '\\').afterChar letter, ?_⟩
    rw [readEscape]
    simp only [Cursor.peek?, Cursor.next, List.head?_cons]
    rw [unescape?_of_mem (letter, c) stands]
  | @code digits written =>
    exact escaped ('u' :: (digits ++ rest)) (readCode_of_code written rest _)
  | @pair high low beyond first second =>
    have read := readCode_of_pair beyond first second rest ((place.afterChar '\\').afterChar 'u')
    rw [List.cons_append, List.cons_append, List.append_assoc]
    exact escaped _ read

theorem CharactersText.leaves {characters text : List Char}
    (written : CharactersText characters text) (rest : List Char) (place : Place) :
    Leaves (readCharacters ⟨text ++ '"' :: rest, place⟩) characters rest := by
  induction written generalizing place with
  | nil =>
    refine ⟨place.afterChar '"', ?_⟩
    rw [readCharacters_eq]
    rfl
  | cons first _ ih =>
    rw [List.append_assoc]
    obtain ⟨place', read⟩ := first.exists_readCharacters_eq _ place
    obtain ⟨place'', follow⟩ := ih place'
    refine ⟨place'', ?_⟩
    rw [read, follow]
    rfl

/-- However a string is written, it is read back from after its opening quote. -/
theorem StringText.exists_leaves {string : String} {text : List Char}
    (written : StringText string text) (rest : List Char) :
    ∃ body, text ++ rest = '"' :: body ∧
      ∀ place, Leaves (readString ⟨body, place⟩) string rest := by
  obtain @⟨text, written⟩ := written
  refine ⟨text ++ '"' :: rest, by simp, fun place => ?_⟩
  obtain ⟨place', read⟩ := written.leaves rest place
  refine ⟨place', ?_⟩
  rw [readString, read]
  exact congrArg (fun string => Except.ok (string, _)) String.ofList_toList

/-- Whatever follows, a quoted string tells the string. -/
theorem quote_append_inj {name name' : String} {rest rest' : List Char}
    (same : (quote name).toList ++ rest = (quote name').toList ++ rest') :
    name = name' ∧ rest = rest' := by
  obtain ⟨body, opens, leaves⟩ := (stringText_quote name).exists_leaves rest
  obtain ⟨body', opens', leaves'⟩ := (stringText_quote name').exists_leaves rest'
  have inside : body = body' := (List.cons.inj (opens.symm.trans (same.trans opens'))).2
  obtain ⟨place, read⟩ := leaves (Cursor.start "").place
  obtain ⟨place', read'⟩ := leaves' (Cursor.start "").place
  rw [inside, read'] at read
  cases read
  exact ⟨rfl, rfl⟩

/-! ## The closing quote -/

/-- What follows the first quote that no backslash precedes. A code after a backslash needs no case
of its own: its digits are neither quotes nor backslashes. -/
def afterQuote : List Char → List Char
  | [] => []
  | '\\' :: _ :: rest => afterQuote rest
  | c :: rest => if c = '"' then rest else afterQuote rest

theorem afterQuote_cons {c : Char} (notQuote : c ≠ '"') (notBackslash : c ≠ '\\')
    (rest : List Char) : afterQuote (c :: rest) = afterQuote rest := by
  rw [afterQuote]
  · exact if_neg notQuote
  · exact fun _ _ same _ => notBackslash same

theorem afterQuote_append {text : List Char} (plain : ∀ c ∈ text, c ≠ '"' ∧ c ≠ '\\')
    (rest : List Char) : afterQuote (text ++ rest) = afterQuote rest := by
  induction text with
  | nil => rfl
  | cons c text ih =>
    obtain ⟨notQuote, notBackslash⟩ := plain c List.mem_cons_self
    rw [List.cons_append, afterQuote_cons notQuote notBackslash]
    exact ih fun c hc => plain c (List.mem_cons_of_mem _ hc)

theorem ne_of_hexValue? {c : Char} (some : (hexValue? c).isSome = true) : c ≠ '"' ∧ c ≠ '\\' := by
  constructor
  · rintro rfl
    cases some
  · rintro rfl
    cases some

theorem afterQuote_of_readHex {c d : Cursor} {code : Nat} (read : readHex c = .ok (code, d)) :
    afterQuote c.rest = afterQuote d.rest := by
  rw [readHex] at read
  dsimp only at read
  split at read
  next four =>
    cases read
    have digits : ∀ x ∈ c.rest.take 4, (hexValue? x).isSome = true := by
      have most := List.length_take_le 4 c.rest
      have less := List.length_filterMap_le hexValue? (c.rest.take 4)
      exact List.filterMap_length_eq_length.mp (by omega)
    have left : c.next.next.next.next.rest = c.rest.drop 4 := by
      simp only [Cursor.rest_next, ← List.drop_one, List.drop_drop]
    rw [left, ← afterQuote_append (fun x hx => ne_of_hexValue? (digits x hx)) (c.rest.drop 4),
      List.take_append_drop]
  next => cases read

theorem rest_of_readBetweenSurrogates {expected : Char} {c d : Cursor}
    (read : readBetweenSurrogates expected c = .ok d) : c.rest = expected :: d.rest := by
  rw [readBetweenSurrogates] at read
  split at read
  · cases read
  next char here =>
    split at read
    next same =>
      cases read
      rw [Cursor.rest_eq_cons here, same]
    next => cases read

theorem afterQuote_of_readCode {c d : Cursor} {char : Char} (read : readCode c = .ok (char, d)) :
    afterQuote c.rest = afterQuote d.rest := by
  rw [readCode] at read
  obtain ⟨⟨code, e⟩, readHigh, read⟩ := bind_eq_ok.mp read
  rw [afterQuote_of_readHex readHigh]
  dsimp only at read
  split at read
  · cases read
  · split at read
    · obtain ⟨f, backslash, read⟩ := bind_eq_ok.mp read
      obtain ⟨g, u, read⟩ := bind_eq_ok.mp read
      obtain ⟨⟨low, h⟩, readLow, read⟩ := bind_eq_ok.mp read
      dsimp only at read
      split at read
      next =>
        simp only [Except.ok.injEq, Prod.mk.injEq] at read
        obtain ⟨_, rfl⟩ := read
        rw [← afterQuote_of_readHex readLow, rest_of_readBetweenSurrogates backslash,
          rest_of_readBetweenSurrogates u]
        rfl
      next => cases read
    · cases read
      rfl

theorem afterQuote_of_readEscape {c d : Cursor} {char : Char}
    (read : readEscape c = .ok (char, d)) : afterQuote ('\\' :: c.rest) = afterQuote d.rest := by
  rw [readEscape] at read
  split at read
  · cases read
  next letter here =>
    rw [Cursor.rest_eq_cons here, afterQuote]
    split at read
    · cases read
      rfl
    · split at read
      · exact afterQuote_of_readCode read
      · cases read

/-- Reading a string stops after the first quote that no backslash precedes. -/
theorem rest_of_readCharacters {c d : Cursor} {characters : List Char}
    (read : readCharacters c = .ok (characters, d)) : d.rest = afterQuote c.rest := by
  fun_induction readCharacters c generalizing characters d with
  | case1 => cases read
  | case2 c here =>
    cases read
    rw [Cursor.rest_eq_cons here]
    rfl
  | case3 => cases read
  | case4 c meant e escape here notQuote less ih =>
    obtain ⟨⟨others, f⟩, follow, same⟩ := map_eq_ok.mp read
    cases same
    rw [ih follow, Cursor.rest_eq_cons here, afterQuote_of_readEscape escape]
  | case5 => cases read
  | case6 c char here notQuote notBackslash notControl less ih =>
    obtain ⟨⟨others, f⟩, follow, same⟩ := map_eq_ok.mp read
    cases same
    rw [ih follow, Cursor.rest_eq_cons here, afterQuote_cons notQuote notBackslash]

theorem LiteralBody.afterQuote_eq {text : List Char} (body : LiteralBody text) (rest : List Char) :
    afterQuote (text ++ '"' :: rest) = rest := by
  induction body with
  | nil => rfl
  | plain itself _ ih =>
    rw [List.cons_append, afterQuote_cons itself.1 itself.2.1, ih]
  | letter _ _ ih =>
    rw [List.cons_append, List.cons_append, afterQuote, ih]
  | code written _ ih =>
    rw [List.cons_append, List.cons_append, afterQuote, List.append_assoc,
      afterQuote_append (fun c hc => ne_of_hexValue? (written.isSome_hexValue? hc)), ih]

/-- A literal that is read as a string is read up to its closing quote. -/
theorem LiteralText.exists_rest_eq {text : List Char} (literal : LiteralText text)
    (rest : List Char) :
    ∃ body, text ++ rest = '"' :: body ∧ ∀ {place : Place} {string : String} {d : Cursor},
      readString ⟨body, place⟩ = .ok (string, d) → d.rest = rest := by
  obtain @⟨text, body⟩ := literal
  refine ⟨text ++ '"' :: rest, by simp, fun read => ?_⟩
  obtain ⟨⟨characters, e⟩, read, same⟩ := map_eq_ok.mp read
  cases same
  rw [rest_of_readCharacters read, body.afterQuote_eq]

/-! ## Digits -/

def StopsDigits (text : List Char) : Prop := ∀ c ∈ text.head?, c.isDigit = false

theorem exists_readDigits {digits : List Char} (all : ∀ c ∈ digits, c.isDigit = true)
    {rest : List Char} (stops : StopsDigits rest) (place : Place) :
    ∃ place', readDigits ⟨digits ++ rest, place⟩ =
      (digits.map fun c => c.toNat - '0'.toNat, ⟨rest, place'⟩) := by
  rw [readDigits]
  dsimp only
  induction digits generalizing place with
  | nil =>
    refine ⟨place, ?_⟩
    cases rest with
    | nil => rfl
    | cons c rest =>
      have stop : c.isDigit = false := stops c rfl
      rw [List.nil_append, readDigitsFrom, digit?, stop]
      rfl
  | cons c digits ih =>
    have digit : c.isDigit = true := all c List.mem_cons_self
    obtain ⟨place', read⟩ := ih (fun c hc => all c (List.mem_cons_of_mem _ hc))
      (place.afterChar c)
    refine ⟨place', ?_⟩
    rw [List.cons_append, readDigitsFrom, digit?, if_pos digit, read]
    rfl

/-- A significand takes all digits of a count that it can hold. -/
theorem absorb_eq {count : Nat} {digits : List Char} {significand : Nat}
    (value : Nat.ofDigitChars 10 digits significand = count)
    (fits : count ≤ Scaled.maxSignificand) :
    Scaled.absorb significand (digits.map fun c => c.toNat - '0'.toNat) = (count, []) := by
  induction digits generalizing significand with
  | nil =>
    cases value
    rfl
  | cons c digits ih =>
    rw [Nat.ofDigitChars_cons, Nat.mul_comm] at value
    have less : significand * 10 + (c.toNat - '0'.toNat) ≤ count := by
      rw [← value, Nat.ofDigitChars_eq_ofDigitChars_zero]
      exact Nat.le_add_right_of_le (Nat.le_mul_of_pos_left _ (Nat.pow_pos (by decide)))
    rw [List.map_cons, Scaled.absorb, if_pos (less.trans fits)]
    exact ih value

theorem eq_zero_of_isDigit {c : Char} (digit : c.isDigit = true) (zero : c.toNat - '0'.toNat = 0) :
    c = '0' := by
  have least : 48 ≤ c.toNat := by
    simp only [Char.isDigit, Bool.and_eq_true, decide_eq_true_eq] at digit
    exact digit.1
  exact Char.toNat_inj.mp (show c.toNat = 48 by change c.toNat - 48 = 0 at zero; omega)

/-- Digits without leading zeros are read up to what follows them. -/
theorem WholeText.exists_readUnsigned_eq {whole : List Char} (written : WholeText whole)
    (negative : Bool) {rest : List Char} (stops : StopsDigits rest) (place : Place) :
    ∃ place', readUnsigned negative ⟨whole ++ rest, place⟩ =
      let (significand, ignored) := Scaled.absorb 0 (whole.map fun c => c.toNat - '0'.toNat)
      readAfterInteger negative ⟨significand, ignored.length⟩ ⟨rest, place'⟩ := by
  obtain ⟨⟨notNil, digits⟩, noZeros⟩ := written
  obtain ⟨place', read⟩ := exists_readDigits digits stops place
  refine ⟨place', ?_⟩
  rw [readUnsigned, read]
  split
  next _ none => exact absurd (List.map_eq_nil_iff.mp (Prod.mk.inj none).1) notNil
  next zeros =>
    obtain ⟨c, others, rfl, zero, more⟩ := List.map_eq_cons_iff.mp (Prod.mk.inj zeros).1
    have first : c = '0' := eq_zero_of_isDigit (digits c List.mem_cons_self) zero
    cases (List.cons.inj (noZeros (congrArg some first))).2
    cases more
  next same =>
    cases same
    rfl

/-! ## Numbers -/

/-- A text that goes on with no number. -/
def StopsNumber (text : List Char) : Prop :=
  ∀ c ∈ text.head?, c.isDigit = false ∧ c ≠ '.' ∧ c ≠ 'e' ∧ c ≠ 'E'

theorem stopsNumber_of_blank {blank : List Char} (between : Blank blank) {c : Char}
    (stops : c.isDigit = false ∧ c ≠ '.' ∧ c ≠ 'e' ∧ c ≠ 'E') (rest : List Char) :
    StopsNumber (blank ++ c :: rest) := by
  intro first here
  cases blank with
  | nil =>
    cases here
    exact stops
  | cons b blank =>
    cases here
    rcases between first List.mem_cons_self with rfl | rfl | rfl | rfl <;> decide

theorem StopsNumber.stopsDigits {text : List Char} (stops : StopsNumber text) : StopsDigits text :=
  fun c hc => (stops c hc).1

theorem WholeText.readNumber_eq {whole : List Char} (written : WholeText whole) (rest : List Char)
    (place : Place) :
    readNumber ⟨whole ++ rest, place⟩ = readUnsigned false ⟨whole ++ rest, place⟩ := by
  obtain ⟨⟨notNil, digits⟩, _⟩ := written
  rw [readNumber]
  split
  next minus =>
    rw [Cursor.peek?, List.head?_append_of_ne_nil _ notNil] at minus
    exact absurd (digits '-' (List.mem_of_head? minus)) (by decide)
  next => rfl

/-- Digits are read as an integer if nothing after them belongs to a number. -/
theorem readAfterInteger_of_stops {negative : Bool} {significand : Nat} {c : Cursor}
    (stops : StopsNumber c.rest) :
    readAfterInteger negative ⟨significand, 0⟩ c = .ok (integerOf negative significand, c) := by
  rw [readAfterInteger]
  split
  next here => exact absurd rfl (stops '.' here).2.1
  next here => exact absurd rfl (stops 'e' here).2.2.1
  next here => exact absurd rfl (stops 'E' here).2.2.2
  next => rfl

theorem CountText.leaves {count : Nat} {text : List Char} (written : CountText count text)
    (fits : count < 2 ^ 64) {rest : List Char} (stops : StopsNumber rest) (place : Place) :
    Leaves (readNumber ⟨text ++ rest, place⟩) (.integer count) rest := by
  obtain ⟨whole, value⟩ := written
  have most : count ≤ Scaled.maxSignificand := Nat.le_pred_of_lt fits
  obtain ⟨place', read⟩ := whole.exists_readUnsigned_eq false stops.stopsDigits place
  refine ⟨place', ?_⟩
  rw [whole.readNumber_eq, read, absorb_eq value most]
  exact readAfterInteger_of_stops stops

theorem float_of_floatOf {negative : Bool} {decimal : Scaled} {c d : Cursor} {number : Number}
    (ok : floatOf negative decimal c = .ok (number, d)) : ∃ value, number = .float value := by
  rw [floatOf] at ok
  split at ok
  · cases ok
    exact ⟨_, rfl⟩
  · cases ok

/-- An integer ends where its digits end. -/
theorem eq_of_readAfterInteger {negative : Bool} {whole : Scaled} {c d : Cursor} {value : Int}
    (read : readAfterInteger negative whole c = .ok (.integer value, d)) :
    d = c ∧ ∀ char ∈ c.rest.head?, char ≠ '.' ∧ char ≠ 'e' ∧ char ≠ 'E' := by
  rw [readAfterInteger] at read
  split at read
  · obtain ⟨⟨_, e⟩, _, read⟩ := bind_eq_ok.mp read
    obtain ⟨⟨_, f⟩, _, read⟩ := bind_eq_ok.mp read
    obtain ⟨_, float⟩ := float_of_floatOf read
    cases float
  · obtain ⟨⟨_, e⟩, _, read⟩ := bind_eq_ok.mp read
    obtain ⟨_, float⟩ := float_of_floatOf read
    cases float
  · obtain ⟨⟨_, e⟩, _, read⟩ := bind_eq_ok.mp read
    obtain ⟨_, float⟩ := float_of_floatOf read
    cases float
  next notPoint notLower notUpper =>
    constructor
    · split at read
      · exact (Prod.mk.inj (Except.ok.inj read)).2.symm
      · obtain ⟨_, float⟩ := float_of_floatOf read
        cases float
    · intro char here
      refine ⟨?_, ?_, ?_⟩
      · rintro rfl
        exact notPoint here
      · rintro rfl
        exact notLower here
      · rintro rfl
        exact notUpper here

/-- A number that is read as an integer is read up to its end. -/
theorem NumberText.rest_eq {text : List Char} (written : NumberText text) {rest : List Char}
    (stops : StopsNumber rest) {place : Place} {value : Int} {d : Cursor}
    (read : readNumber ⟨text ++ rest, place⟩ = .ok (.integer value, d)) : d.rest = rest := by
  obtain @⟨sign, whole, fraction, exponent, signed, first, second, third⟩ := written
  have digitsStop : StopsDigits (fraction ++ (exponent ++ rest)) := by
    cases second with
    | point => exact fun _ here => Option.some.inj here ▸ rfl
    | none =>
      cases third with
      | letter power =>
        rcases power with rfl | rfl
        · exact fun _ here => Option.some.inj here ▸ rfl
        · exact fun _ here => Option.some.inj here ▸ rfl
      | none => exact stops.stopsDigits
  obtain ⟨negative, place', unsigned⟩ : ∃ negative place', readNumber
      ⟨sign ++ (whole ++ (fraction ++ exponent)) ++ rest, place⟩ =
        readUnsigned negative ⟨whole ++ (fraction ++ (exponent ++ rest)), place'⟩ := by
    simp only [List.append_assoc]
    rcases signed with rfl | rfl
    · exact ⟨false, place, first.readNumber_eq _ place⟩
    · exact ⟨true, place.afterChar '-', rfl⟩
  obtain ⟨place'', after⟩ := first.exists_readUnsigned_eq negative digitsStop place'
  rw [unsigned, after] at read
  obtain ⟨rfl, ends⟩ := eq_of_readAfterInteger read
  cases second with
  | point => exact absurd rfl (ends '.' rfl).1
  | none =>
    cases third with
    | letter power =>
      rcases power with rfl | rfl
      · exact absurd rfl (ends 'e' rfl).2.1
      · exact absurd rfl (ends 'E' rfl).2.2
    | none => rfl

/-! ## Keys -/

theorem exists_nextKey_done {blank : List Char} (between : Blank blank) (first : Bool)
    (rest : List Char) (place : Place) :
    ∃ d, nextKey first ⟨blank ++ '\x7d' :: rest, place⟩ = .ok (.done d) := by
  obtain ⟨place', skipped⟩ := exists_skipBlanks between (c := '\x7d') rfl rest place
  rw [nextKey, skipped]
  exact ⟨_, rfl⟩

theorem exists_nextKey_first {blank : List Char} (between : Blank blank) (rest : List Char)
    (place : Place) :
    ∃ place', nextKey true ⟨blank ++ '"' :: rest, place⟩ = .ok (.item ⟨rest, place'⟩) := by
  obtain ⟨place', skipped⟩ := exists_skipBlanks between (c := '"') rfl rest place
  rw [nextKey, skipped]
  exact ⟨_, rfl⟩

theorem exists_nextKey_next {blank blank' : List Char} (between : Blank blank)
    (between' : Blank blank') (rest : List Char) (place : Place) :
    ∃ place', nextKey false ⟨blank ++ ',' :: (blank' ++ '"' :: rest), place⟩ =
      .ok (.item ⟨rest, place'⟩) := by
  obtain ⟨place', skipped⟩ := exists_skipBlanks between (c := ',') rfl (blank' ++ '"' :: rest) place
  obtain ⟨place'', skipped'⟩ :=
    exists_skipBlanks between' (c := '"') rfl rest (place'.afterChar ',')
  have next : (Cursor.mk (',' :: (blank' ++ '"' :: rest)) place').next =
    ⟨blank' ++ '"' :: rest, place'.afterChar ','⟩ := rfl
  refine ⟨place''.afterChar '"', ?_⟩
  rw [nextKey, skipped]
  dsimp only [Cursor.peek?, List.head?_cons]
  rw [if_neg (by decide), if_neg Bool.false_ne_true, if_pos rfl, next, skipped']
  rfl

theorem exists_readColon {blank : List Char} (between : Blank blank) (rest : List Char)
    (place : Place) : ∃ place', readColon ⟨blank ++ ':' :: rest, place⟩ = .ok ⟨rest, place'⟩ := by
  obtain ⟨place', skipped⟩ := exists_skipBlanks between (c := ':') rfl rest place
  rw [readColon, skipped]
  exact ⟨_, rfl⟩

def StartsToken (text : List Char) : Prop :=
  ∃ c rest, text = c :: rest ∧ Cursor.isBlank c = false

theorem NumberText.startsToken {text : List Char} (written : NumberText text) :
    StartsToken text := by
  obtain ⟨c, rest, rfl, rfl | digit⟩ := written.exists_cons
  · exact ⟨'-', rest, rfl, rfl⟩
  · refine ⟨c, rest, rfl, ?_⟩
    rw [← Bool.not_eq_true]
    intro blank
    simp only [Cursor.isBlank, Bool.or_eq_true, decide_eq_true_eq, or_assoc] at blank
    rcases blank with rfl | rfl | rfl | rfl <;> cases digit

theorem ValueText.startsToken {text : List Char} (value : ValueText text) : StartsToken text := by
  rcases value.cases_head with literal | number | ⟨c, rest, rfl, other⟩
  · obtain ⟨body⟩ := literal
    exact ⟨'"', _, rfl, rfl⟩
  · exact number.startsToken
  · simp only [List.mem_cons, List.not_mem_nil, or_false] at other
    rcases other with rfl | rfl | rfl | rfl | rfl <;> exact ⟨_, rest, rfl, rfl⟩

/-- The key of a member and the colon after it are read, up to the value. -/
theorem KeyedText.exists_read {key : String} {value text : List Char}
    (written : KeyedText (key, value) text) (starts : StartsToken value) (rest : List Char) :
    ∃ body, text ++ rest = '"' :: body ∧ ∀ place, ∃ d e place',
      readString ⟨body, place⟩ = .ok (key, d) ∧ readColon d = .ok e ∧
        e.skipBlanks = ⟨value ++ rest, place'⟩ := by
  obtain @⟨_, _, named, @⟨blank, blank', between, between'⟩⟩ := written
  obtain ⟨c, others, rfl, token⟩ := starts
  obtain ⟨body, quoted, leaves⟩ :=
    named.exists_leaves (blank ++ ':' :: (blank' ++ c :: (others ++ rest)))
  refine ⟨body, by simpa using quoted, fun place => ?_⟩
  obtain ⟨place₁, read⟩ := leaves place
  obtain ⟨place₂, colon⟩ := exists_readColon between (blank' ++ c :: (others ++ rest)) place₁
  obtain ⟨place₃, skipped⟩ := exists_skipBlanks between' token (others ++ rest) place₂
  exact ⟨_, _, place₃, read, colon, skipped⟩

/-- The next member is found, and its key and the colon after it are read, up to the value. -/
theorem Listing.exists_readKey {first : Bool} {key : String} {value text : List Char}
    {members : List (String × List Char)}
    (listed : Listing KeyedText first ((key, value) :: members) text) (starts : StartsToken value)
    (rest : List Char) (place : Place) :
    ∃ after s d e place', Listing KeyedText false members after ∧
      nextKey first ⟨text ++ rest, place⟩ = .ok (.item s) ∧ readString s = .ok (key, d) ∧
      readColon d = .ok e ∧ e.skipBlanks = ⟨value ++ (after ++ rest), place'⟩ := by
  cases listed with
  | @first blank text after _ _ between written listed =>
    obtain ⟨body, quoted, read⟩ := written.exists_read starts (after ++ rest)
    obtain ⟨place₁, found⟩ := exists_nextKey_first between body place
    obtain ⟨d, e, place₂, named, colon, skipped⟩ := read place₁
    refine ⟨after, _, d, e, place₂, listed, ?_, named, colon, skipped⟩
    rw [List.append_assoc, List.append_assoc, quoted]
    exact found
  | @next blank blank' text after _ _ between between' written listed =>
    obtain ⟨body, quoted, read⟩ := written.exists_read starts (after ++ rest)
    obtain ⟨place₁, found⟩ := exists_nextKey_next between between' body place
    obtain ⟨d, e, place₂, named, colon, skipped⟩ := read place₁
    refine ⟨after, _, d, e, place₂, listed, ?_, named, colon, skipped⟩
    rw [List.append_assoc, List.cons_append, List.append_assoc, List.append_assoc, quoted]
    exact found

end Exemplar.Json
