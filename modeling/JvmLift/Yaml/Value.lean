import JvmLift.Number.Rounding
import JvmLift.Yaml.Node
import JvmLift.Yaml.Scalar

/-!
# Values of scalars

What a plain scalar stands for: null, a truth value, a number or a text. Integers may be written in decimal or, with a
mark, in hexadecimal, octal or binary; decimal digits behind a leading zero are a text. An integer that needs more than 64
bits and no more than 128 has no value here.
-/

namespace JvmLift.Yaml

open Number

inductive Value
  | null
  | bool (value : Bool)
  | natural (value : UInt64)
  | integer (value : Int64)
  | real (value : Double)
  | text (value : String)

/-- The value of a digit in a radix. -/
def digit? (radix : Nat) (c : Char) : Option Nat :=
  (hexDigit? c).filter (· < radix)

/-- The number of one or more digits. -/
def digits? (radix : Nat) (cs : List Char) : Option Nat :=
  if cs.isEmpty then none
  else (cs.mapM (digit? radix)).map fun ds => ds.foldl (fun n d => radix * n + d) 0

/-- The text without a plus sign in front. -/
def dropPlus : List Char → List Char
  | '+' :: cs => cs
  | cs => cs

/-- Whether a text is decimal digits behind a leading zero. -/
def hasLeadingZero (cs : List Char) : Bool :=
  let digits := match cs with
    | '-' :: cs | '+' :: cs => cs
    | cs => cs
  match digits with
  | '0' :: c :: rest => (c :: rest).all Char.isDigit
  | _ => false

/-- The magnitude of an integer without a sign. -/
def magnitude? : List Char → Option Nat
  | '0' :: 'x' :: cs => digits? 16 cs
  | '0' :: 'o' :: cs => digits? 8 cs
  | '0' :: 'b' :: cs => digits? 2 cs
  | cs => if hasLeadingZero cs then none else digits? 10 cs

/-- An integer below `2 ^ width`. -/
def natural? (width : Nat) (cs : List Char) : Option Nat :=
  (magnitude? (dropPlus cs)).filter (· < Nat.pow 2 width)

/-- An integer behind a minus sign that is a word of a width in two's complement. -/
def negative? (width : Nat) : List Char → Option Int
  | '-' :: cs => ((magnitude? cs).filter (· ≤ Nat.pow 2 (width - 1))).map fun n => -(n : Int)
  | _ => none

/-- A power of ten behind a mantissa: nothing, or a mark, an optional sign and digits. -/
def exponent? : List Char → Option Int
  | [] => some 0
  | c :: cs =>
    if c != 'e' && c != 'E' then none
    else
      match cs with
      | '-' :: cs => (digits? 10 cs).map fun n => -(n : Int)
      | cs => (digits? 10 (dropPlus cs)).map Int.ofNat

/-- A decimal with an optional minus sign, point and power of ten. -/
def decimal? (cs : List Char) : Option Double := do
  let (isNegative, cs) := match cs with
    | '-' :: cs => (true, cs)
    | cs => (false, cs)
  let whole := cs.takeWhile Char.isDigit
  let (fraction, rest) := match cs.dropWhile Char.isDigit with
    | '.' :: rest => (rest.takeWhile Char.isDigit, rest.dropWhile Char.isDigit)
    | rest => ([], rest)
  let digits ← digits? 10 (whole ++ fraction)
  let power ← exponent? rest
  return .ofDecimal isNegative digits (power - fraction.length)

/-- A number with a point or a power of ten, or one of the words for infinities and for what is not a number. Decimals
that are too large are none. -/
def real? (text : String) : Option Double :=
  let signed := match text.toList with
    | '+' :: c :: cs => if c == '+' || c == '-' then [] else c :: cs
    | cs => cs
  if [".inf", ".Inf", ".INF"].contains (String.ofList signed) then some (.infinity false)
  else if ["-.inf", "-.Inf", "-.INF"].contains text then some (.infinity true)
  else if [".nan", ".NaN", ".NAN"].contains text then some .nan
  else (decimal? signed).filter fun x => !x.isInfinite

/-- The value of a plain scalar. -/
def plainValue? (text : String) : Option Value :=
  let cs := text.toList
  if ["", "null", "Null", "NULL", "~"].contains text then some .null
  else if ["true", "True", "TRUE"].contains text then some (.bool true)
  else if ["false", "False", "FALSE"].contains text then some (.bool false)
  else if let some n := natural? 64 cs then some (.natural (UInt64.ofNat n))
  else if let some n := negative? 64 cs then some (.integer (Int64.ofInt n))
  else if (natural? 128 cs).isSome || (negative? 128 cs).isSome then none
  else if hasLeadingZero cs then some (.text text)
  else some ((real? text).elim (.text text) .real)

namespace Node

/-- The value of a scalar. Only plain ones can be other than text. -/
def value? : Node → Option Value
  | scalar text plain => if plain then plainValue? text else some (.text text)
  | _ => none

/-- A plain scalar as an integer without a sign below `2 ^ 16`. -/
def word? : Node → Option UInt16
  | scalar text true =>
    ((natural? 64 text.toList).filter (· < Nat.pow 2 16)).map UInt16.ofNat
  | _ => none

/-- Whether a value is left out or written as null. -/
def isNull : Node → Bool
  | scalar text plain => plain && ["", "null", "Null", "NULL", "~"].contains text
  | _ => false

mutual

/-- Whether every scalar of a tree has a value. -/
def hasValues : Node → Bool
  | scalar text plain => !plain || (plainValue? text).isSome
  | sequence items => allHaveValues items
  | mapping entries => entriesHaveValues entries

def allHaveValues : List Node → Bool
  | [] => true
  | item :: rest => item.hasValues && allHaveValues rest

def entriesHaveValues : List (Node × Node) → Bool
  | [] => true
  | (key, value) :: rest => key.hasValues && value.hasValues && entriesHaveValues rest

end

end Node

namespace Value

/-- The value as an integer from `low` to `high`. -/
def intBetween? (low high : Int) (value : Value) : Option Int :=
  let n := match value with
    | natural n => some (n.toNat : Int)
    | integer n => some n.toInt
    | _ => none
  n.filter fun n => low ≤ n && n ≤ high

/-- The value as a number of a floating-point format. -/
def floating? {f : Format} : Value → Option (Floating f)
  | natural n => some (.ofInt n.toNat)
  | integer n => some (.ofInt n.toInt)
  | real x => some x.convert
  | _ => none

def text? : Value → Option String
  | text s => some s
  | _ => none

end Value

end JvmLift.Yaml
