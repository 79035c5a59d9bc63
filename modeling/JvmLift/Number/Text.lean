import JvmLift.Number.Shortest

/-!
# Text of floating-point words

The shortest digits are written positionally, with a point and at least one digit on each side of it, when the number is
zero or lies between `10 ^ -4` and `10 ^ 16`, and in exponent form outside.
-/

namespace JvmLift.Number

/-- How decimals are laid out: numbers in `[10 ^ low, 10 ^ high)` are written positionally. -/
structure DecimalLayout where
  low : Int
  high : Int
  deriving DecidableEq, Repr

/-- Positional from `0.0001` up to, but without, `10000000000000000.0`. -/
def DecimalLayout.standard : DecimalLayout := ⟨-4, 16⟩

def zeros (n : Nat) : List Char :=
  List.replicate n '0'

/-- Digits with the point `point` places behind their start. -/
def positional (digits : List Char) (point : Int) : List Char :=
  if point ≤ 0 then '0' :: '.' :: (zeros (-point).toNat ++ digits)
  else if point < digits.length then
    digits.take point.toNat ++ '.' :: digits.drop point.toNat
  else
    digits ++ zeros (point.toNat - digits.length) ++ ['.', '0']

/-- Digits with the point behind the first one, and a power of ten. -/
def scientific (digits : List Char) (power : Int) : List Char :=
  let mantissa := match digits with
    | d :: rest@(_ :: _) => d :: '.' :: rest
    | _ => digits
  mantissa ++ 'e' :: (toString power).toList

/-- The text of a positive decimal. -/
def Decimal.render (layout : DecimalLayout) (d : Decimal) : List Char :=
  let digits := Nat.toDigits 10 d.digits
  let point := digits.length + d.exponent
  if layout.low < point ∧ point ≤ layout.high then positional digits point
  else scientific digits (point - 1)

/-- The text of a word. -/
def Floating.text {f : Format} (x : Floating f) : String :=
  if x.isNaN then "NaN" else
  let sign := if x.isNegative then ['-'] else []
  let body :=
    if x.isInfinite then ['i', 'n', 'f']
    else if x.absBits = 0 then ['0', '.', '0']
    else x.shortest.render .standard
  String.ofList (sign ++ body)

end JvmLift.Number
