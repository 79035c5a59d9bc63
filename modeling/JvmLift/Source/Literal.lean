import JvmLift.Number.Rounding
import JvmLift.Number.Text
import JvmLift.Text.Blank
import JvmLift.Text.Hex

/-!
# Literals in source text

String literals escape quotes, backslashes and control characters. A floating-point literal has the fewest digits that
read back as a `double`, also where it stands for a `float`; what has no literal is written by the constant of its boxed
class.
-/

namespace JvmLift.Source

open Number

/-- A character inside a string literal. -/
def escapeChar (c : Char) : String :=
  match c with
  | '\\' => "\\\\"
  | '"' => "\\\""
  | '\n' => "\\n"
  | '\r' => "\\r"
  | '\t' => "\\t"
  | '\x00' => "\\0"
  | _ => if Text.isControl c then "\\u" ++ Text.hexDigits 4 c.toNat else c.toString

def stringLiteral (text : String) : String :=
  "\"" ++ String.join (text.toList.map escapeChar) ++ "\""

/-- The literal of a `double`, with the boxed class for the values that have none. -/
def floatingLiteral (x : Double) (boxed suffix : String) : String :=
  if x.isNaN then boxed ++ ".NaN"
  else if x.isInfinite then
    boxed ++ (if x.isNegative then ".NEGATIVE_INFINITY" else ".POSITIVE_INFINITY")
  else x.text ++ suffix

def floatLiteral (x : Single) : String :=
  floatingLiteral x.convert "Float" "f"

def doubleLiteral (x : Double) : String :=
  floatingLiteral x "Double" ""

end JvmLift.Source
