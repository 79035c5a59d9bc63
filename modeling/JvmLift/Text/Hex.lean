/-!
# Hexadecimal text

Lowercase hexadecimal numbers, bare and with the `0x` mark, and the reading of hex digits back to bytes. A reader
accepts both cases and looks at the bytes of the text, so a position counts bytes.
-/

namespace JvmLift.Text

/-- The lowercase hexadecimal digits of `n`, at least `width` of them. -/
def hexDigits (width n : Nat) : String :=
  let digits := Nat.toDigits 16 n
  String.ofList (List.replicate (width - digits.length) '0' ++ digits)

/-- `hexDigits` behind the mark `0x`. -/
def hexNumber (width n : Nat) : String :=
  "0x" ++ hexDigits width n

/-- Two digits for each byte, nothing between them. -/
def hexBytes (bytes : List UInt8) : String :=
  String.join (bytes.map fun b => hexDigits 2 b.toNat)

/-- Why a text is not a row of hex digit pairs. -/
inductive HexError
  | oddLength
  | badByte (byte : UInt8) (position : Nat)
  deriving DecidableEq, Repr

/-- The byte of a bad digit is shown as the character of that number. -/
def HexError.message : HexError → String
  | .oddLength => "Odd number of digits"
  | .badByte byte position =>
    s!"Invalid character '{Char.ofNat byte.toNat}' at position {position}"

/-- The value of a hex digit given by its ASCII byte. -/
def hexValue? (byte : UInt8) : Option Nat :=
  let n := byte.toNat
  if 48 ≤ n ∧ n ≤ 57 then some (n - 48)
  else if 97 ≤ n ∧ n ≤ 102 then some (n - 87)
  else if 65 ≤ n ∧ n ≤ 70 then some (n - 55)
  else none

/-- Reads digit pairs from the byte at `position` on; the first bad byte is the one named. -/
def readHexPairs (position : Nat) : List UInt8 → Except HexError (List UInt8)
  | [] => .ok []
  | [_] => .error .oddLength
  | hi :: lo :: rest =>
    match hexValue? hi, hexValue? lo with
    | none, _ => .error (.badByte hi position)
    | some _, none => .error (.badByte lo (position + 1))
    | some h, some l =>
      (readHexPairs (position + 2) rest).map (UInt8.ofNat (16 * h + l) :: ·)

/-- Reads a text of hex digit pairs. An odd number of bytes is reported before any bad digit. -/
def readHex (text : String) : Except HexError (List UInt8) :=
  let bytes := text.toUTF8.toList
  if bytes.length % 2 = 1 then .error .oddLength else readHexPairs 0 bytes

end JvmLift.Text
