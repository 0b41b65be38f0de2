/-!
# Decimals as doubles

A decimal in a text is read as a significand of at most 64 bits and a power of
ten. Its double is the rounded significand multiplied or divided once by the
rounded power of ten. The result can differ from the nearest double in its last
bits; it is a fixed function of the significand and the exponent.
-/

namespace Exemplar

/-- The number `significand * 10 ^ exponent`. -/
structure Scaled where
  significand : Nat
  exponent : Int
deriving DecidableEq, Repr

namespace Scaled

def maxSignificand : Nat := Nat.pow 2 64 - 1

/-- Append digits to a significand while it fits. The digits that are left begin with the first
that does not fit. -/
def absorb (significand : Nat) : List Nat → Nat × List Nat
  | [] => (significand, [])
  | digit :: rest =>
    if significand * 10 + digit ≤ maxSignificand then absorb (significand * 10 + digit) rest
    else (significand, digit :: rest)

/-- A power of ten, rounded to a double. -/
def powerOfTen (exponent : Nat) : Float := Float.ofScientific 1 false exponent

/-- The greatest exponent of a finite power of ten. -/
def maxExponent : Nat := 308

/-- Divide by a power of ten, in steps where it is not finite. -/
def divide (value : Float) (exponent : Nat) : Float :=
  if exponent ≤ maxExponent then value / powerOfTen exponent
  else if value == 0 then value
  else divide (value / powerOfTen maxExponent) (exponent - maxExponent)
termination_by exponent
decreasing_by simp_all [maxExponent]; omega

/-- The double of a decimal; a decimal too great for a double has none. -/
def toFloat? (decimal : Scaled) : Option Float :=
  let value := decimal.significand.toUInt64.toFloat
  match decimal.exponent with
  | .negSucc n => some (divide value (n + 1))
  | .ofNat n =>
    if n ≤ maxExponent then
      let scaled := value * powerOfTen n
      if scaled.isInf then none else some scaled
    else if value == 0 then some value
    else none

end Scaled

end Exemplar
