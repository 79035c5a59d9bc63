/-!
# Floating-point words

A floating-point number is held as its bits. The two formats differ only in the widths of their fields, so every
operation is defined once, by exact arithmetic on natural numbers and integers, and no arithmetic of the machine is
involved. A word that is not a number is unequal to every word, itself included, and the two zeros are equal.
-/

namespace JvmLift.Number

/-- A binary interchange format: a sign bit, an exponent field and a fraction field. -/
structure Format where
  exponentBits : Nat
  fractionBits : Nat
  deriving DecidableEq, Repr

namespace Format

def single : Format := ⟨8, 23⟩

def double : Format := ⟨11, 52⟩

def width (f : Format) : Nat :=
  1 + f.exponentBits + f.fractionBits

/-- The power of two of the smallest positive number. -/
def minPower (f : Format) : Int :=
  2 - (Nat.pow 2 (f.exponentBits - 1) : Int) - f.fractionBits

/-- The bits of positive infinity: an exponent field of ones. -/
def infinityBits (f : Format) : Nat :=
  (Nat.pow 2 f.exponentBits - 1) * Nat.pow 2 f.fractionBits

end Format

/-- A word of the format `f`. -/
structure Floating (f : Format) where
  bits : BitVec f.width
  deriving DecidableEq, Repr

abbrev Single := Floating .single

abbrev Double := Floating .double

/-- The magnitude `significand * 2 ^ power` of a finite word. -/
structure Magnitude where
  significand : Nat
  power : Int
  deriving DecidableEq, Repr

namespace Floating

variable {f : Format}

def ofNat (bits : Nat) : Floating f :=
  ⟨BitVec.ofNat _ bits⟩

/-- The sign bit. -/
def isNegative (x : Floating f) : Bool :=
  decide (Nat.pow 2 (f.exponentBits + f.fractionBits) ≤ x.bits.toNat)

/-- The bits without the sign. -/
def absBits (x : Floating f) : Nat :=
  x.bits.toNat % Nat.pow 2 (f.exponentBits + f.fractionBits)

def isNaN (x : Floating f) : Bool :=
  decide (f.infinityBits < x.absBits)

def isInfinite (x : Floating f) : Bool :=
  decide (x.absBits = f.infinityBits)

/-- The same number with the other sign. -/
def neg (x : Floating f) : Floating f :=
  ⟨x.bits ^^^ BitVec.ofNat _ (Nat.pow 2 (f.exponentBits + f.fractionBits))⟩

instance : Neg (Floating f) := ⟨neg⟩

/-- A word from its sign and the bits of its absolute value. -/
def ofSign (negative : Bool) (absBits : Nat) : Floating f :=
  ofNat (if negative then Nat.pow 2 (f.exponentBits + f.fractionBits) + absBits else absBits)

/-- Positive infinity or, with `negative`, the other one. -/
def infinity (negative : Bool) : Floating f :=
  ofSign negative f.infinityBits

/-- The quiet word that is not a number. -/
def nan : Floating f :=
  ofNat (f.infinityBits + Nat.pow 2 (f.fractionBits - 1))

/-- The order of the numbers is the order of their keys. Both zeros have key `0`. -/
def key (x : Floating f) : Int :=
  if x.isNegative then -x.absBits else x.absBits

/-- Neither of the two is the word that is not a number. -/
def ordered (x y : Floating f) : Bool :=
  !x.isNaN && !y.isNaN

/-- Equality of numbers, not of bits. -/
def eq (x y : Floating f) : Bool :=
  ordered x y && x.key == y.key

def lt (x y : Floating f) : Bool :=
  ordered x y && decide (x.key < y.key)

def le (x y : Floating f) : Bool :=
  ordered x y && decide (x.key ≤ y.key)

/-- The magnitude of a finite word. -/
def magnitude (x : Floating f) : Magnitude :=
  let exponent := x.absBits / Nat.pow 2 f.fractionBits
  let fraction := x.absBits % Nat.pow 2 f.fractionBits
  if exponent = 0 then ⟨fraction, f.minPower⟩
  else ⟨Nat.pow 2 f.fractionBits + fraction, f.minPower + (exponent - 1 : Nat)⟩

end Floating

end JvmLift.Number
