import Exemplar.Json.Quoted
import Mathlib.Data.List.Forall2

/-!
# How JSON is written

The forms of a text that stand for values, apart from any reader. Blanks may stand
between tokens. A character of a string may be written in several ways: as itself,
by a letter after a backslash, or by its code, which for a character beyond the
basic plane is a pair of surrogate codes. Numbers have no leading zeros. Items are
separated by commas.

A string literal may hold codes that are no characters. So a text can be well
formed and still stand for no value.
-/

namespace Exemplar.Json

/-- A text that may stand between tokens. -/
def Blank (text : List Char) : Prop := ∀ c ∈ text, c = ' ' ∨ c = '\t' ∨ c = '\n' ∨ c = '\r'

/-! ## Strings -/

/-- The letters after a backslash, and what they stand for. -/
def escapeLetters : List (Char × Char) :=
  [('"', '"'), ('\\', '\\'), ('/', '/'), ('b', '\x08'), ('f', '\x0c'), ('n', '\n'), ('r', '\r'),
    ('t', '\t')]

def HexDigit (value : Nat) (digit : Char) : Prop :=
  value < 16 ∧ (digit = Nat.digitChar value ∨ digit = (Nat.digitChar value).toUpper)

/-- A code in four hexadecimal digits. -/
inductive HexText : Nat → List Char → Prop
  | digits {a b c d : Nat} {a' b' c' d' : Char} (first : HexDigit a a') (second : HexDigit b b')
    (third : HexDigit c c') (fourth : HexDigit d d') :
    HexText (((a * 16 + b) * 16 + c) * 16 + d) [a', b', c', d']

/-- A character that stands for itself inside quotes. -/
def IsPlain (c : Char) : Prop := c ≠ '"' ∧ c ≠ '\\' ∧ 32 ≤ c.toNat

/-- The ways to write a character inside quotes. -/
inductive CharacterText (c : Char) : List Char → Prop
  | plain (itself : IsPlain c) : CharacterText c [c]
  | letter {letter : Char} (stands : (letter, c) ∈ escapeLetters) : CharacterText c ['\\', letter]
  | code {digits : List Char} (written : HexText c.toNat digits) :
    CharacterText c ('\\' :: 'u' :: digits)
  | pair {high low : List Char} (beyond : 0x10000 ≤ c.toNat)
    (first : HexText (0xD800 + (c.toNat - 0x10000) / 0x400) high)
    (second : HexText (0xDC00 + (c.toNat - 0x10000) % 0x400) low) :
    CharacterText c ('\\' :: 'u' :: (high ++ '\\' :: 'u' :: low))

inductive CharactersText : List Char → List Char → Prop
  | nil : CharactersText [] []
  | cons {c : Char} {characters piece text : List Char} (first : CharacterText c piece)
    (rest : CharactersText characters text) : CharactersText (c :: characters) (piece ++ text)

inductive StringText (string : String) : List Char → Prop
  | quoted {text : List Char} (written : CharactersText string.toList text) :
    StringText string ('"' :: (text ++ ['"']))

/-- What may stand inside the quotes of a literal. -/
inductive LiteralBody : List Char → Prop
  | nil : LiteralBody []
  | plain {c : Char} {text : List Char} (itself : IsPlain c) (rest : LiteralBody text) :
    LiteralBody (c :: text)
  | letter {letter c : Char} {text : List Char} (stands : (letter, c) ∈ escapeLetters)
    (rest : LiteralBody text) : LiteralBody ('\\' :: letter :: text)
  | code {code : Nat} {digits text : List Char} (written : HexText code digits)
    (rest : LiteralBody text) : LiteralBody ('\\' :: 'u' :: (digits ++ text))

inductive LiteralText : List Char → Prop
  | quoted {text : List Char} (body : LiteralBody text) : LiteralText ('"' :: (text ++ ['"']))

theorem CharacterText.literalBody {c : Char} {piece text : List Char}
    (written : CharacterText c piece) (rest : LiteralBody text) : LiteralBody (piece ++ text) := by
  cases written with
  | plain itself => exact .plain itself rest
  | letter stands => exact .letter stands rest
  | code written => exact .code written rest
  | pair _ first second =>
    have second := LiteralBody.code second rest
    have both := LiteralBody.code first second
    simpa using both

theorem CharactersText.literalBody {characters text : List Char}
    (written : CharactersText characters text) : LiteralBody text := by
  induction written with
  | nil => exact .nil
  | cons first _ ih => exact first.literalBody ih

/-- However a string is written, it is a literal. -/
theorem StringText.literalText {string : String} {text : List Char}
    (written : StringText string text) : LiteralText text := by
  obtain ⟨written⟩ := written
  exact .quoted written.literalBody

theorem hexDigit_hexDigit {value : Nat} (small : value < 16) : HexDigit value (hexDigit value) :=
  ⟨small, .inl rfl⟩

theorem characterText_escapeChar (c : Char) : CharacterText c (escapeChar c) := by
  by_cases special : c ∈ ['"', '\\', '\x08', '\x0c', '\n', '\r', '\t']
  · simp only [List.mem_cons, List.not_mem_nil, or_false] at special
    have written : ∀ entry ∈ escapeLetters, CharacterText entry.2 ['\\', entry.1] :=
      fun _ stands => .letter stands
    rcases special with rfl | rfl | rfl | rfl | rfl | rfl | rfl
    · exact written ('"', '"') (by decide)
    · exact written ('\\', '\\') (by decide)
    · exact written ('b', '\x08') (by decide)
    · exact written ('f', '\x0c') (by decide)
    · exact written ('n', '\n') (by decide)
    · exact written ('r', '\r') (by decide)
    · exact written ('t', '\t') (by decide)
  · simp only [List.mem_cons, List.not_mem_nil, or_false, not_or] at special
    obtain ⟨notQuote, notBackslash, notB, notF, notN, notR, notT⟩ := special
    by_cases control : c.toNat < 32
    · simp only [escapeChar, notQuote, notBackslash, notB, notF, notN, notR, notT, control,
        if_false, if_true]
      have zero : HexDigit 0 '0' := ⟨by decide, .inl rfl⟩
      have digits := HexText.digits zero zero
        (hexDigit_hexDigit (show c.toNat / 16 < 16 by omega))
        (hexDigit_hexDigit (show c.toNat % 16 < 16 by omega))
      have code : ((0 * 16 + 0) * 16 + c.toNat / 16) * 16 + c.toNat % 16 = c.toNat := by omega
      rw [code] at digits
      exact .code digits
    · simp only [escapeChar, notQuote, notBackslash, notB, notF, notN, notR, notT, control,
        if_false]
      exact .plain ⟨notQuote, notBackslash, Nat.not_lt.mp control⟩

/-- A quoted string is one of the ways to write the string. -/
theorem stringText_quote (string : String) : StringText string (quote string).toList := by
  have written : ∀ characters : List Char,
      CharactersText characters (characters.flatMap escapeChar) := by
    intro characters
    induction characters with
    | nil => exact .nil
    | cons c characters ih => exact .cons (characterText_escapeChar c) ih
  rw [quote, String.toList_ofList]
  exact .quoted (written string.toList)

/-! ## Numbers -/

def DigitsText (text : List Char) : Prop := text ≠ [] ∧ ∀ c ∈ text, c.isDigit = true

/-- Digits without leading zeros. -/
def WholeText (text : List Char) : Prop :=
  DigitsText text ∧ (text.head? = some '0' → text = ['0'])

theorem WholeText.exists_cons {text : List Char} (written : WholeText text) :
    ∃ c rest, text = c :: rest ∧ c.isDigit = true := by
  obtain ⟨⟨notNil, digits⟩, _⟩ := written
  obtain ⟨c, rest, rfl⟩ := List.exists_cons_of_ne_nil notNil
  exact ⟨c, rest, rfl, digits c List.mem_cons_self⟩

/-- Digits after a point, or nothing. -/
inductive FractionText : List Char → Prop
  | none : FractionText []
  | point {digits : List Char} (written : DigitsText digits) : FractionText ('.' :: digits)

/-- Digits after a letter and perhaps a sign, or nothing. -/
inductive ExponentText : List Char → Prop
  | none : ExponentText []
  | letter {letter : Char} {sign digits : List Char} (power : letter = 'e' ∨ letter = 'E')
    (signed : sign = [] ∨ sign = ['+'] ∨ sign = ['-']) (written : DigitsText digits) :
    ExponentText (letter :: (sign ++ digits))

inductive NumberText : List Char → Prop
  | intro {sign whole fraction exponent : List Char} (signed : sign = [] ∨ sign = ['-'])
    (first : WholeText whole) (second : FractionText fraction) (third : ExponentText exponent) :
    NumberText (sign ++ (whole ++ (fraction ++ exponent)))

def CountText (count : Nat) (text : List Char) : Prop :=
  WholeText text ∧ Nat.ofDigitChars 10 text 0 = count

/-- The digits of a count are the way to write it. -/
theorem countText_toDigits (count : Nat) : CountText count (Nat.toDigits 10 count) := by
  refine ⟨⟨⟨Nat.toDigits_ne_nil, fun c => Nat.isDigit_of_mem_toDigits (by decide) (by decide)⟩, ?_⟩,
    Nat.ofDigitChars_ten_toDigits⟩
  induction count using Nat.strongRecOn with
  | ind count ih =>
    by_cases single : count < 10
    · rw [Nat.toDigits_of_lt_base single]
      intro zero
      rw [List.head?_cons, Option.some.injEq] at zero
      rw [zero]
    · have greater : 10 ≤ count := by omega
      rw [Nat.toDigits_of_base_le (by decide) greater,
        List.head?_append_of_ne_nil _ Nat.toDigits_ne_nil]
      intro zero
      have digits : Nat.toDigits 10 (count / 10) = ['0'] := ih (count / 10) (by omega) zero
      have value : count / 10 = 0 := by
        rw [← Nat.ofDigitChars_ten_toDigits (n := count / 10), digits]
        rfl
      omega

theorem CountText.numberText {count : Nat} {text : List Char} (written : CountText count text) :
    NumberText text := by
  have number := NumberText.intro (.inl rfl) written.1 .none .none
  simpa using number

theorem NumberText.exists_cons {text : List Char} (written : NumberText text) :
    ∃ c rest, text = c :: rest ∧ (c = '-' ∨ c.isDigit = true) := by
  obtain ⟨signed, first, _, _⟩ := written
  rcases signed with rfl | rfl
  · obtain ⟨c, rest, rfl, digit⟩ := first.exists_cons
    exact ⟨c, _, rfl, .inr digit⟩
  · exact ⟨'-', _, rfl, .inl rfl⟩

/-! ## Containers -/

/-- The ways to write things with commas between them, up to a closing bracket. The first needs no
comma. -/
inductive Listing {α : Type} (Written : α → List Char → Prop) : Bool → List α → List Char → Prop
  | done {first : Bool} {blank : List Char} (between : Blank blank) :
    Listing Written first [] blank
  | first {blank text rest : List Char} {a : α} {others : List α} (between : Blank blank)
    (written : Written a text) (after : Listing Written false others rest) :
    Listing Written true (a :: others) (blank ++ (text ++ rest))
  | next {blank blank' text rest : List Char} {a : α} {others : List α} (between : Blank blank)
    (between' : Blank blank') (written : Written a text)
    (after : Listing Written false others rest) :
    Listing Written false (a :: others) (blank ++ ',' :: (blank' ++ (text ++ rest)))

/-- The ways to write a member of an object, given how its key and its value are written. -/
inductive MemberText (key value : List Char) : List Char → Prop
  | intro {blank blank' : List Char} (between : Blank blank) (between' : Blank blank') :
    MemberText key value (key ++ (blank ++ ':' :: (blank' ++ value)))

inductive ValueText : List Char → Prop
  | null : ValueText "null".toList
  | yes : ValueText "true".toList
  | no : ValueText "false".toList
  | number {text : List Char} (written : NumberText text) : ValueText text
  | string {text : List Char} (written : LiteralText text) : ValueText text
  | array {items : List (List Char)} {text : List Char}
    (listed : Listing (fun item text => item = text) true items text)
    (values : ∀ item ∈ items, ValueText item) : ValueText ('[' :: (text ++ [']']))
  | object {members : List (List Char × List Char)} {text : List Char}
    (listed : Listing (fun member => MemberText member.1 member.2) true members text)
    (keys : ∀ member ∈ members, LiteralText member.1)
    (values : ∀ member ∈ members, ValueText member.2) : ValueText ('\x7b' :: (text ++ ['\x7d']))

/-- A value begins with a token: a string or a number, if its first character says so. -/
theorem ValueText.cases_head {text : List Char} (value : ValueText text) :
    LiteralText text ∨ NumberText text ∨
      ∃ c rest, text = c :: rest ∧ c ∈ ['n', 't', 'f', '[', '\x7b'] := by
  cases value with
  | null => exact .inr (.inr ⟨'n', _, rfl, by decide⟩)
  | yes => exact .inr (.inr ⟨'t', _, rfl, by decide⟩)
  | no => exact .inr (.inr ⟨'f', _, rfl, by decide⟩)
  | number written => exact .inr (.inl written)
  | string written => exact .inl written
  | array => exact .inr (.inr ⟨'[', _, rfl, by decide⟩)
  | object => exact .inr (.inr ⟨'\x7b', _, rfl, by decide⟩)

/-- The ways to write a member of an object, given its key and how its value is written. -/
inductive KeyedText (member : String × List Char) : List Char → Prop
  | intro {key text : List Char} (named : StringText member.1 key)
    (written : MemberText key member.2 text) : KeyedText member text

/-- The ways to write an object with blanks around it, given its keys and how their values are
written. -/
inductive ObjectText (members : List (String × List Char)) : List Char → Prop
  | intro {before text after : List Char} (between : Blank before) (between' : Blank after)
    (listed : Listing KeyedText true members text) :
    ObjectText members (before ++ '\x7b' :: (text ++ '\x7d' :: after))

end Exemplar.Json
