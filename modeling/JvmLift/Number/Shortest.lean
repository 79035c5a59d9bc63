import JvmLift.Number.Floating

/-!
# The fewest digits that read back

The reals that round to a word form an interval around it. Going from coarse to fine powers of ten, the first grid with a
point in that interval gives the decimal with the fewest digits; of two such points the nearer one is taken, and on a tie
the larger one.
-/

namespace JvmLift.Number

/-- The number `digits * 10 ^ exponent`. -/
structure Decimal where
  digits : Nat
  exponent : Int
  deriving DecidableEq, Repr

/-- Compares `a * 10 ^ i` with `n * 2 ^ j`. -/
def compareScaled (a : Nat) (i : Int) (n : Nat) (j : Int) : Ordering :=
  compare (a * Nat.pow 10 i.toNat * Nat.pow 2 (-j).toNat) (n * Nat.pow 2 j.toNat * Nat.pow 10 (-i).toNat)

/-- Moves trailing zeros of the digits to the exponent, at most `n` of them. -/
def Decimal.strip : Nat → Decimal → Decimal
  | 0, d => d
  | n + 1, d => if d.digits % 10 = 0 then strip n ⟨d.digits / 10, d.exponent + 1⟩ else d

namespace Floating

variable {f : Format}

/-- Whether a decimal rounds to the positive finite word `x`. Below a power of two the neighbour is only half as far away,
and the ends of the interval belong to the word with the even significand. -/
def readsBack (x : Floating f) (d : Decimal) : Bool :=
  let m := x.magnitude
  let narrowBelow := m.significand = Nat.pow 2 f.fractionBits ∧ f.minPower < m.power
  let low := if narrowBelow then 4 * m.significand - 1 else 4 * m.significand - 2
  let high := 4 * m.significand + 2
  let closed := m.significand % 2 == 0
  let toLow := compareScaled d.digits d.exponent low (m.power - 2)
  let toHigh := compareScaled d.digits d.exponent high (m.power - 2)
  (toLow == .gt || (closed && toLow == .eq)) && (toHigh == .lt || (closed && toHigh == .eq))

/-- The better of the two neighbours of `x` on the grid `10 ^ exponent`, if one of them reads back. -/
def onGrid? (x : Floating f) (exponent : Int) : Option Decimal :=
  let m := x.magnitude
  let num := m.significand * Nat.pow 2 m.power.toNat * Nat.pow 10 (-exponent).toNat
  let den := Nat.pow 2 (-m.power).toNat * Nat.pow 10 exponent.toNat
  let below : Decimal := ⟨num / den, exponent⟩
  let above : Decimal := ⟨num / den + 1, exponent⟩
  match x.readsBack below, x.readsBack above with
  | true, true => some (if 2 * (num % den) < den then below else above)
  | true, false => some below
  | false, true => some above
  | false, false => none

/-- An exponent of ten at or above the one of the first digit of `x`. -/
def topExponent (x : Floating f) : Int :=
  let m := x.magnitude
  ((Nat.log2 m.significand + 1 + m.power) * 30103) / 100000 + 2

/-- The whole decimal expansion of a finite word. -/
def expansion (x : Floating f) : Decimal :=
  let m := x.magnitude
  ⟨m.significand * Nat.pow 2 m.power.toNat * Nat.pow 5 (-m.power).toNat, min m.power 0⟩

/-- The decimal with the fewest digits among those that round to the positive finite word `x`. -/
def shortest (x : Floating f) : Decimal :=
  let found := (List.range 24).findSome? fun (i : Nat) => x.onGrid? (x.topExponent - i)
  (found.getD x.expansion).strip 24

end Floating

end JvmLift.Number
