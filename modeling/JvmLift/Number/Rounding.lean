import JvmLift.Number.Floating

/-!
# Rounding to a floating-point word

A fraction of natural numbers is rounded to the nearest word of a format; a half goes to the even neighbour, and what is
too large becomes infinity. Conversions between the formats, from integers and from decimals are all this one rounding.
-/

namespace JvmLift.Number

/-- `num / den` rounded to a whole number, a half to the even neighbour. -/
def roundHalfEven (num den : Nat) : Nat :=
  let q := num / den
  let r := num % den
  if 2 * r < den then q
  else if den < 2 * r then q + 1
  else q + q % 2

/-- The power of two just not above `num / den`, for positive numbers. -/
def floorLog2 (num den : Nat) : Int :=
  let e := (Nat.log2 num : Int) - Nat.log2 den
  if den * Nat.pow 2 e.toNat ≤ num * Nat.pow 2 (-e).toNat then e else e - 1

namespace Floating

variable {f g : Format}

/-- The word nearest to `num / den`, with the given sign. -/
def round (negative : Bool) (num den : Nat) : Floating f :=
  if num = 0 then ofSign negative 0 else
  let power := max f.minPower (floorLog2 num den - f.fractionBits)
  let significand := roundHalfEven (num * Nat.pow 2 (-power).toNat) (den * Nat.pow 2 power.toNat)
  let bits := (power - f.minPower).toNat * Nat.pow 2 f.fractionBits + significand
  ofSign negative (min bits f.infinityBits)

/-- The word of another format nearest to a given one. To a wider format this is exact. -/
def convert (x : Floating f) : Floating g :=
  if x.isNaN then nan
  else if x.isInfinite then infinity x.isNegative
  else
    let m := x.magnitude
    round x.isNegative (m.significand * Nat.pow 2 m.power.toNat) (Nat.pow 2 (-m.power).toNat)

def ofInt (n : Int) : Floating f :=
  round (n < 0) n.natAbs 1

/-- The word nearest to `digits * 10 ^ exponent`. Exponents far outside the formats are not expanded. -/
def ofDecimal (negative : Bool) (digits : Nat) (exponent : Int) : Floating f :=
  let places := (Nat.toDigits 10 digits).length + exponent
  if digits = 0 ∨ places < -400 then ofSign negative 0
  else if 400 < places then infinity negative
  else round negative (digits * Nat.pow 10 exponent.toNat) (Nat.pow 10 (-exponent).toNat)

end Floating

end JvmLift.Number
