/-!
# The shortest decimal of a double

A finite double stands for an interval of reals: those that round to it. Of all
decimals in that interval the one with the fewest digits is written, and of
those the nearest; a tie goes to the even digit. The search is exact arithmetic
on natural numbers.

Leading digits from the sixth decimal place up to the sixteenth integral place
are written positionally, with at least one digit on either side of the point.
Beyond that an exponent follows, with its sign.
-/

namespace Exemplar.Shortest

/-- A finite positive double `significand * 2 ^ exponent`. Below a power of two the next double
is half as far away as above. -/
structure Binary where
  significand : Nat
  exponent : Int
  narrowBelow : Bool

/-- The bits of a finite double, without its sign. -/
def Binary.ofBits (bits : UInt64) : Binary :=
  let e := ((bits >>> 52) &&& 0x7FF).toNat
  let f := (bits &&& 0xFFFFFFFFFFFFF).toNat
  if e = 0 then ⟨f, -1074, false⟩ else ⟨Nat.pow 2 52 + f, (e : Int) - 1075, f = 0 && e > 1⟩

/-- The number `digits * 10 ^ exponent`. -/
structure Decimal where
  digits : Nat
  exponent : Int
deriving DecidableEq, Repr

/-- Compare `a * 10 ^ i` with `n * 2 ^ j`. -/
def compareScaled (a : Nat) (i : Int) (n : Nat) (j : Int) : Ordering :=
  compare (a * Nat.pow 10 i.toNat * Nat.pow 2 (-j).toNat) (n * Nat.pow 2 j.toNat * Nat.pow 10 (-i).toNat)

/-- Whether a decimal lies among the reals that round to a double. The ends of the interval
belong to it when the significand is even. -/
def Binary.readsBack (x : Binary) (d : Decimal) : Bool :=
  let low := if x.narrowBelow then 4 * x.significand - 1 else 4 * x.significand - 2
  let high := 4 * x.significand + 2
  let closed := x.significand % 2 = 0
  let below := compareScaled d.digits d.exponent low (x.exponent - 2)
  let above := compareScaled d.digits d.exponent high (x.exponent - 2)
  (below = .gt || (closed && below = .eq)) && (above = .lt || (closed && above = .eq))

/-- The numerator and denominator of a double in units of a power of ten. -/
def Binary.quotient (x : Binary) (unit : Int) : Nat × Nat :=
  (x.significand * Nat.pow 2 x.exponent.toNat * Nat.pow 10 (-unit).toNat,
    Nat.pow 2 (-x.exponent).toNat * Nat.pow 10 unit.toNat)

def Binary.leading (x : Binary) : Int :=
  let (num, den) := x.quotient (-400)
  ((Nat.toDigits 10 (num / den)).length : Int) - 401

/-- The neighbours of a double among the multiples of a power of ten, the nearer one first. -/
def Binary.neighbours (x : Binary) (unit : Int) : List Nat :=
  let (num, den) := x.quotient unit
  let low := num / den
  match compare (2 * (num % den)) den with
  | .lt => [low, low + 1]
  | .gt => [low + 1, low]
  | .eq => if low % 2 = 0 then [low, low + 1] else [low + 1, low]

/-- The nearest multiple of a power of ten that reads back as the double. -/
def Binary.onGrid (x : Binary) (unit : Int) : Option Decimal :=
  ((x.neighbours unit).map (⟨·, unit⟩)).find? x.readsBack

def Binary.exact (x : Binary) : Decimal :=
  if 0 ≤ x.exponent then ⟨x.significand * Nat.pow 2 x.exponent.toNat, 0⟩
  else ⟨x.significand * Nat.pow 5 (-x.exponent).toNat, x.exponent⟩

/-- The shortest decimal of a double, from one digit to seventeen. -/
def Binary.shortest (x : Binary) : Decimal :=
  ((List.range 17).findSome? fun (places : Nat) => x.onGrid (x.leading - places)).getD x.exact

/-- The digits of a decimal without trailing zeros, and the power of ten of the last one. -/
def Decimal.stripped (d : Decimal) : List Char × Int :=
  let digits := Nat.toDigits 10 d.digits
  let zeros := (digits.reverse.takeWhile (· = '0')).length
  (digits.take (digits.length - zeros), d.exponent + zeros)

def zeros (count : Int) : List Char := List.replicate count.toNat '0'

def exponentText (exponent : Int) : List Char :=
  (if exponent < 0 then '-' else '+') :: Nat.toDigits 10 exponent.natAbs

def Decimal.text (d : Decimal) : List Char :=
  let (digits, unit) := d.stripped
  let leading := unit + digits.length - 1
  if leading < -5 || 15 < leading then
    let fraction := digits.drop 1
    digits.take 1 ++ (if fraction.isEmpty then [] else '.' :: fraction) ++
      'e' :: exponentText leading
  else if 0 ≤ unit then digits ++ zeros unit ++ ['.', '0']
  else if 0 ≤ leading then
    let whole := (leading + 1).toNat
    digits.take whole ++ '.' :: digits.drop whole
  else ['0', '.'] ++ zeros (-leading - 1) ++ digits

def floatText (value : Float) : String :=
  let bits := value.toBits
  let sign := if bits >>> 63 = 1 then ['-'] else []
  let magnitude := bits &&& 0x7FFFFFFFFFFFFFFF
  let text := if magnitude = 0 then ['0', '.', '0'] else (Binary.ofBits magnitude).shortest.text
  String.ofList (sign ++ text)

end Exemplar.Shortest
