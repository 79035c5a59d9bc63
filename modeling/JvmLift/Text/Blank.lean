/-!
# Blank characters

The characters that separate words: the ASCII blanks and the blanks of other scripts.
-/

namespace JvmLift.Text

/-- Whether a character counts as white space. -/
def isBlank (c : Char) : Bool :=
  let n := c.toNat
  (0x09 ≤ n && n ≤ 0x0d) || n == 0x20 || n == 0x85 || n == 0xa0 || n == 0x1680 || (0x2000 ≤ n && n ≤ 0x200a) ||
    n == 0x2028 || n == 0x2029 || n == 0x202f || n == 0x205f || n == 0x3000

/-- Whether a character is a control character. -/
def isControl (c : Char) : Bool :=
  let n := c.toNat
  n ≤ 0x1f || (0x7f ≤ n && n ≤ 0x9f)

/-- The text without its blanks. -/
def removeBlanks (text : String) : String :=
  String.ofList (text.toList.filter fun c => !isBlank c)

/-- The characters without those at the end that satisfy `p`. -/
def dropEndWhile (p : Char → Bool) (cs : List Char) : List Char :=
  (cs.reverse.dropWhile p).reverse

end JvmLift.Text
