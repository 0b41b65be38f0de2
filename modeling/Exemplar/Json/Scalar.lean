import Exemplar.Decimal.Scaled
import Exemplar.Json
import Exemplar.Json.Cursor

/-!
# Reading values without parts

Keywords, numbers and strings. Each reader starts at the first character of its
token, consumes at least that, and stops after the token.
-/

namespace Exemplar.Json

def readKeyword (c : Cursor) : List Char → Except SyntaxError Cursor
  | [] => .ok c
  | expected :: rest =>
    match c.peek? with
    | none => .error (c.errorHere .eofValue)
    | some char =>
      if char = expected then readKeyword c.next rest else .error (c.errorAtNext .expectedIdent)

def digit? (c : Char) : Option Nat :=
  if c.isDigit then some (c.toNat - '0'.toNat) else none

/-- Digits at a place in a text, and what follows them. -/
def readDigitsFrom (place : Place) : List Char → List Nat × Cursor
  | [] => ([], ⟨[], place⟩)
  | char :: rest =>
    match digit? char with
    | some digit =>
      let (digits, after) := readDigitsFrom (place.afterChar char) rest
      (digit :: digits, after)
    | none => ([], ⟨char :: rest, place⟩)

def readDigits (c : Cursor) : List Nat × Cursor := readDigitsFrom c.place c.rest

/-- The greatest exponent that is computed with; a greater one overflows. -/
def maxWrittenExponent : Nat := Nat.pow 2 31 - 1

/-- Read exponent digits. `none` is an overflow, with the cursor after the digit that caused it. -/
def exponentOfDigits (c : Cursor) (value : Nat) : List Nat → Option Nat × Cursor
  | [] => (some value, c)
  | digit :: rest =>
    if value * 10 + digit ≤ maxWrittenExponent then
      exponentOfDigits c.next (value * 10 + digit) rest
    else (none, c.next)

/-- Read the sign of an exponent, if there is one: whether it is negative. -/
def exponentSign (c : Cursor) : Bool × Cursor :=
  match c.peek? with
  | some '+' => (false, c.next)
  | some '-' => (true, c.next)
  | _ => (false, c)

/-- Read an exponent, after its letter, and apply it to a decimal. A decimal of significand zero
stays zero whatever the exponent. -/
def readExponent (c : Cursor) (decimal : Scaled) : Except SyntaxError (Scaled × Cursor) :=
  let signed := exponentSign c
  match readDigits signed.2 with
  | ([], _) =>
    match signed.2.peek? with
    | none => .error (signed.2.errorHere .eofValue)
    | some _ => .error (signed.2.errorAtNext .invalidNumber)
  | (digits, after) =>
    match exponentOfDigits signed.2 0 digits with
    | (some exponent, _) =>
      let sum := if signed.1 then decimal.exponent - exponent else decimal.exponent + exponent
      .ok (⟨decimal.significand, sum⟩, after)
    | (none, overflow) =>
      if decimal.significand ≠ 0 && !signed.1 then .error (overflow.errorHere .numberOutOfRange)
      else .ok (⟨0, 0⟩, after)

/-- Read a fraction, after its point: at least one digit. -/
def readFraction (c : Cursor) (decimal : Scaled) : Except SyntaxError (Scaled × Cursor) :=
  match readDigits c with
  | ([], _) =>
    match c.peek? with
    | none => .error (c.errorAtNext .eofValue)
    | some _ => .error (c.errorAtNext .invalidNumber)
  | (digits, after) =>
    let (significand, ignored) := Scaled.absorb decimal.significand digits
    .ok (⟨significand, decimal.exponent - (digits.length - ignored.length : Nat)⟩, after)

def readExponent? (c : Cursor) (decimal : Scaled) : Except SyntaxError (Scaled × Cursor) :=
  match c.peek? with
  | some 'e' => readExponent c.next decimal
  | some 'E' => readExponent c.next decimal
  | _ => .ok (decimal, c)

/-- The double of a decimal that was read up to a cursor. -/
def floatOf (negative : Bool) (decimal : Scaled) (c : Cursor) :
    Except SyntaxError (Number × Cursor) :=
  match decimal.toFloat? with
  | some value => .ok (.float (if negative then -value else value), c)
  | none => .error (c.errorHere .numberOutOfRange)

/-- The number of an integer that fits 64 bits. A negative number that is zero, or that does not
fit 64 bits with its sign, is a double. -/
def integerOf (negative : Bool) (significand : Nat) : Number :=
  if !negative then .integer significand
  else if significand = 0 || significand > Nat.pow 2 63 then .float (-significand.toUInt64.toFloat)
  else .integer (-significand)

/-- Read what may follow the integer part of a number. The integer part alone is an integer,
unless digits were left out of its significand. -/
def readAfterInteger (negative : Bool) (whole : Scaled) (c : Cursor) :
    Except SyntaxError (Number × Cursor) :=
  match c.peek? with
  | some '.' => do
    let (decimal, d) ← readFraction c.next whole
    let (decimal, e) ← readExponent? d decimal
    floatOf negative decimal e
  | some 'e' | some 'E' => do
    let (decimal, d) ← readExponent c.next whole
    floatOf negative decimal d
  | _ =>
    if whole.exponent = 0 then .ok (integerOf negative whole.significand, c)
    else floatOf negative whole c

def readUnsigned (negative : Bool) (c : Cursor) : Except SyntaxError (Number × Cursor) :=
  match readDigits c with
  | ([], _) =>
    match c.peek? with
    | none => .error (c.errorHere .eofValue)
    | some _ => .error (c.errorAtNext .invalidNumber)
  | (0 :: _ :: _, _) => .error (c.next.errorAtNext .invalidNumber)
  | (digits, after) =>
    let (significand, ignored) := Scaled.absorb 0 digits
    readAfterInteger negative ⟨significand, ignored.length⟩ after

def readNumber (c : Cursor) : Except SyntaxError (Number × Cursor) :=
  match c.peek? with
  | some '-' => readUnsigned true c.next
  | _ => readUnsigned false c

def hexValue? (c : Char) : Option Nat :=
  if c.isDigit then some (c.toNat - '0'.toNat)
  else if 'a' ≤ c && c ≤ 'f' then some (c.toNat - 'a'.toNat + 10)
  else if 'A' ≤ c && c ≤ 'F' then some (c.toNat - 'A'.toNat + 10)
  else none

/-- Read four hexadecimal digits. Four bytes are taken before they are looked at. -/
def readHex (c : Cursor) : Except SyntaxError (Nat × Cursor) :=
  let digits := (c.rest.take 4).filterMap hexValue?
  if digits.length = 4 then
    .ok (digits.foldl (fun n d => n * 16 + d) 0, c.next.next.next.next)
  else
    let bytes : Nat := (c.rest.take 4).foldr (fun char bytes => char.utf8Size + bytes) 0
    .error ⟨if bytes < 4 then .eofString else .invalidEscape, c.place.afterBytes 4 c.rest⟩

/-- Read one expected character between the halves of a surrogate pair. -/
def readBetweenSurrogates (expected : Char) (c : Cursor) : Except SyntaxError Cursor :=
  match c.peek? with
  | none => .error (c.errorHere .eofString)
  | some char =>
    if char = expected then .ok c.next else .error (c.errorAtNext .unfinishedSurrogate)

def isLowSurrogate (code : Nat) : Bool := 0xDC00 ≤ code && code ≤ 0xDFFF

def isHighSurrogate (code : Nat) : Bool := 0xD800 ≤ code && code ≤ 0xDBFF

/-- Read a character by its code, or by a pair of surrogate codes. -/
def readCode (c : Cursor) : Except SyntaxError (Char × Cursor) := do
  let (code, d) ← readHex c
  if isLowSurrogate code then .error (d.errorHere .loneSurrogate)
  else if isHighSurrogate code then do
    let d ← readBetweenSurrogates '\\' d
    let d ← readBetweenSurrogates 'u' d
    let (low, e) ← readHex d
    if isLowSurrogate low then
      .ok (Char.ofNat (0x10000 + (code - 0xD800) * 0x400 + (low - 0xDC00)), e)
    else .error (e.errorHere .loneSurrogate)
  else .ok (Char.ofNat code, d)

/-- The character that a letter after a backslash stands for. -/
def unescape? : Char → Option Char
  | '"' => some '"'
  | '\\' => some '\\'
  | '/' => some '/'
  | 'b' => some '\x08'
  | 'f' => some '\x0c'
  | 'n' => some '\n'
  | 'r' => some '\r'
  | 't' => some '\t'
  | _ => none

def readEscape (c : Cursor) : Except SyntaxError (Char × Cursor) :=
  match c.peek? with
  | none => .error (c.errorHere .eofString)
  | some char =>
    match unescape? char with
    | some meant => .ok (meant, c.next)
    | none =>
      if char = 'u' then readCode c.next else .error (c.errorAtNext .invalidEscape)

/-! ## What a reader leaves -/

theorem bind_eq_ok {ε α β : Type} {x : Except ε α} {f : α → Except ε β} {b : β} :
    (x >>= f) = .ok b ↔ ∃ a, x = .ok a ∧ f a = .ok b := by
  cases x <;> simp [bind, Except.bind]

theorem left_next_le (c : Cursor) : c.next.left ≤ c.left := by
  cases h : c.peek? with
  | some char => exact Nat.le_of_lt (Cursor.left_next h)
  | none => simp_all [Cursor.peek?, Cursor.next, Cursor.left]

theorem left_readKeyword {c d : Cursor} {word : List Char} (h : readKeyword c word = .ok d) :
    d.left ≤ c.left := by
  induction word generalizing c with
  | nil => cases h; exact Nat.le_refl _
  | cons expected rest ih =>
    rw [readKeyword] at h
    split at h
    · cases h
    · split at h
      · exact Nat.le_trans (ih h) (left_next_le c)
      · cases h

theorem left_readDigitsFrom (place : Place) (text : List Char) :
    (readDigitsFrom place text).2.left + (readDigitsFrom place text).1.length = text.length := by
  induction text generalizing place with
  | nil => simp [readDigitsFrom, Cursor.left]
  | cons char rest ih =>
    rw [readDigitsFrom]
    split
    · have := ih (place.afterChar char)
      simp only [List.length_cons]
      omega
    · simp [Cursor.left]

theorem left_readDigits {c d : Cursor} {digits : List Nat} (h : readDigits c = (digits, d)) :
    d.left + digits.length = c.left := by
  have := left_readDigitsFrom c.place c.rest
  unfold readDigits at h
  rw [h] at this
  exact this

theorem left_exponentSign (c : Cursor) : (exponentSign c).2.left ≤ c.left := by
  unfold exponentSign
  split
  · exact left_next_le c
  · exact left_next_le c
  · exact Nat.le_refl _

theorem left_readExponent {c d : Cursor} {decimal result : Scaled}
    (h : readExponent c decimal = .ok (result, d)) : d.left ≤ c.left := by
  have hs := left_exponentSign c
  unfold readExponent at h
  dsimp only at h
  split at h
  · split at h <;> cases h
  · rename_i digits after _ hd
    have := left_readDigits hd
    split at h
    · cases h; omega
    · split at h
      · cases h
      · cases h; omega

theorem left_readExponent? {c d : Cursor} {decimal result : Scaled}
    (h : readExponent? c decimal = .ok (result, d)) : d.left ≤ c.left := by
  have := left_next_le c
  unfold readExponent? at h
  split at h
  · exact Nat.le_trans (left_readExponent h) this
  · exact Nat.le_trans (left_readExponent h) this
  · cases h; exact Nat.le_refl _

theorem left_readFraction {c d : Cursor} {decimal result : Scaled}
    (h : readFraction c decimal = .ok (result, d)) : d.left ≤ c.left := by
  unfold readFraction at h
  split at h
  · split at h <;> cases h
  · rename_i digits after _ hd
    have := left_readDigits hd
    cases h; omega

theorem eq_of_floatOf {negative : Bool} {decimal : Scaled} {c d : Cursor} {number : Number}
    (h : floatOf negative decimal c = .ok (number, d)) : d = c := by
  unfold floatOf at h
  split at h <;> cases h
  rfl

theorem left_readAfterInteger {negative : Bool} {whole : Scaled} {c d : Cursor}
    {number : Number} (h : readAfterInteger negative whole c = .ok (number, d)) :
    d.left ≤ c.left := by
  have hn := left_next_le c
  unfold readAfterInteger at h
  split at h
  · obtain ⟨⟨_, e⟩, he, h⟩ := bind_eq_ok.1 h
    obtain ⟨⟨_, f⟩, hf, h⟩ := bind_eq_ok.1 h
    have := left_readFraction he
    have := left_readExponent? hf
    rw [eq_of_floatOf h]
    omega
  · obtain ⟨⟨_, e⟩, he, h⟩ := bind_eq_ok.1 h
    have := left_readExponent he
    rw [eq_of_floatOf h]
    omega
  · obtain ⟨⟨_, e⟩, he, h⟩ := bind_eq_ok.1 h
    have := left_readExponent he
    rw [eq_of_floatOf h]
    omega
  · split at h
    · cases h; exact Nat.le_refl _
    · exact Nat.le_of_eq (congrArg Cursor.left (eq_of_floatOf h))

theorem left_readUnsigned {negative : Bool} {c d : Cursor} {number : Number}
    (h : readUnsigned negative c = .ok (number, d)) : d.left < c.left := by
  unfold readUnsigned at h
  split at h
  · split at h <;> cases h
  · cases h
  · rename_i digits after hne _ hd
    have hl := left_readDigits hd
    have hp : 0 < digits.length := List.length_pos_iff.2 hne
    have := left_readAfterInteger h
    omega

theorem left_readNumber {c d : Cursor} {number : Number}
    (h : readNumber c = .ok (number, d)) : d.left < c.left := by
  unfold readNumber at h
  split at h
  · exact Nat.lt_of_lt_of_le (left_readUnsigned h) (left_next_le c)
  · exact left_readUnsigned h

theorem left_readHex {c d : Cursor} {code : Nat} (h : readHex c = .ok (code, d)) :
    d.left ≤ c.left := by
  unfold readHex at h
  dsimp only at h
  split at h
  · cases h
    have h₁ := left_next_le c
    have h₂ := left_next_le c.next
    have h₃ := left_next_le c.next.next
    have h₄ := left_next_le c.next.next.next
    omega
  · cases h

theorem left_readBetweenSurrogates {expected : Char} {c d : Cursor}
    (h : readBetweenSurrogates expected c = .ok d) : d.left ≤ c.left := by
  unfold readBetweenSurrogates at h
  split at h
  · cases h
  · split at h <;> cases h
    exact left_next_le c

theorem left_readCode {c d : Cursor} {char : Char} (h : readCode c = .ok (char, d)) :
    d.left ≤ c.left := by
  unfold readCode at h
  obtain ⟨⟨_, e⟩, he, h⟩ := bind_eq_ok.1 h
  have := left_readHex he
  dsimp only at h
  split at h
  · cases h
  · split at h
    · obtain ⟨f, hf, h⟩ := bind_eq_ok.1 h
      obtain ⟨g, hg, h⟩ := bind_eq_ok.1 h
      obtain ⟨⟨_, i⟩, hi, h⟩ := bind_eq_ok.1 h
      have := left_readBetweenSurrogates hf
      have := left_readBetweenSurrogates hg
      have := left_readHex hi
      dsimp only at h
      split at h
      · simp only [Except.ok.injEq, Prod.mk.injEq] at h
        obtain ⟨_, rfl⟩ := h
        omega
      · cases h
    · cases h; omega

theorem left_readEscape {c d : Cursor} {char : Char} (h : readEscape c = .ok (char, d)) :
    d.left ≤ c.left := by
  have := left_next_le c
  unfold readEscape at h
  split at h
  · cases h
  · split at h
    · cases h; exact this
    · split at h
      · exact Nat.le_trans (left_readCode h) this
      · cases h

/-! ## Strings -/

/-- Read a string after its opening quote. -/
def readCharacters (c : Cursor) : Except SyntaxError (List Char × Cursor) :=
  match hc : c.peek? with
  | none => .error (c.errorHere .eofString)
  | some char =>
    if char = '"' then .ok ([], c.next)
    else if char = '\\' then
      match he : readEscape c.next with
      | .error error => .error error
      | .ok (meant, d) =>
        have : d.left < c.left :=
          Nat.lt_of_le_of_lt (left_readEscape he) (Cursor.left_next hc)
        (readCharacters d).map fun (rest, e) => (meant :: rest, e)
    else if char.toNat < 32 then .error (c.errorAtNext .controlCharacter)
    else
      have : c.next.left < c.left := Cursor.left_next hc
      (readCharacters c.next).map fun (rest, e) => (char :: rest, e)
termination_by c.left

def readString (c : Cursor) : Except SyntaxError (String × Cursor) :=
  (readCharacters c).map fun (characters, d) => (String.ofList characters, d)

theorem map_eq_ok {ε α β : Type} {x : Except ε α} {f : α → β} {b : β} :
    x.map f = .ok b ↔ ∃ a, x = .ok a ∧ f a = b := by
  cases x <;> simp [Except.map]

theorem left_readCharacters (c d : Cursor) (characters : List Char)
    (h : readCharacters c = .ok (characters, d)) : d.left < c.left := by
  fun_induction readCharacters c generalizing characters d with
  | case1 => cases h
  | case2 c hc => cases h; exact Cursor.left_next hc
  | case3 => cases h
  | case4 c meant e he hc hq hlt ih =>
    obtain ⟨⟨rest, f⟩, hf, h⟩ := map_eq_ok.1 h
    cases h
    exact Nat.lt_trans (ih _ _ hf) hlt
  | case5 => cases h
  | case6 c char hc hq hb hlow hlt ih =>
    obtain ⟨⟨rest, f⟩, hf, h⟩ := map_eq_ok.1 h
    cases h
    exact Nat.lt_trans (ih _ _ hf) hlt

theorem left_readString {c d : Cursor} {s : String} (h : readString c = .ok (s, d)) :
    d.left < c.left := by
  obtain ⟨⟨characters, e⟩, he, h⟩ := map_eq_ok.1 h
  cases h
  exact left_readCharacters _ _ _ he

end Exemplar.Json
