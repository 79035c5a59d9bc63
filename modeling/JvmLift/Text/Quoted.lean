import JvmLift.Text.Concealed
import JvmLift.Text.Hex

/-!
# Quoted text

A text between double quotes for a message. Quotes, backslashes and the common controls have short escapes; other
characters that do not show by themselves are written by their code point.
-/

namespace JvmLift.Text

/-- A character inside quotes. -/
def quoteChar (c : Char) : String :=
  match c with
  | '\x00' => "\\0"
  | '\t' => "\\t"
  | '\r' => "\\r"
  | '\n' => "\\n"
  | '\\' => "\\\\"
  | '"' => "\\\""
  | _ =>
    if ' ' ≤ c ∧ c ≤ '~' then c.toString
    else if isConcealed c then "\\u\x7b" ++ hexDigits 1 c.toNat ++ "\x7d"
    else c.toString

/-- A text in double quotes. -/
def quoted (text : String) : String :=
  "\"" ++ String.join (text.toList.map quoteChar) ++ "\""

end JvmLift.Text
