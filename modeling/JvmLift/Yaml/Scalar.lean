import JvmLift.Text.Hex
import JvmLift.Yaml.Place

/-!
# Scalars

Readers of plain and of quoted scalars. A scalar may span lines: a single line end between two words counts as a blank,
and of several the first one is dropped. Both readers pass over the text once; between two words they keep the gap, which
is written when the next word starts.
-/

namespace JvmLift.Yaml

/-- What lies between two words, each part with its last character first. -/
structure Gap where
  /-- Blanks on the line of the word before. -/
  blanks : List Char := []
  /-- The first line end, if one was passed. It is empty when it was escaped. -/
  first : Option (List Char) := none
  /-- Further line ends. -/
  further : List Char := []

namespace Gap

def addBreak (gap : Gap) (c : Char) : Gap :=
  match gap.first with
  | none => { first := some [c] }
  | some _ => { gap with further := c :: gap.further }

def addBlank (gap : Gap) (c : Char) : Gap :=
  match gap.first with
  | none => { gap with blanks := c :: gap.blanks }
  | some _ => gap

/-- The gap after an escaped line end. -/
def escapedBreak : Gap := { first := some [] }

/-- What the gap contributes to the scalar, last character first. -/
def folded (gap : Gap) : List Char :=
  match gap.first with
  | none => gap.blanks
  | some ['\n'] => if gap.further.isEmpty then [' '] else gap.further
  | some first => gap.further ++ first

end Gap

/-! ### Plain scalars -/

/-- Characters that start something else than a plain scalar. -/
def indicators : List Char :=
  ['-', '?', ':', ',', '[', ']', '\x7b', '\x7d', '#', '&', '*', '!', '|', '>', '\'', '"', '%', '@', '\x60']

/-- Characters that end a plain scalar inside brackets. -/
def brackets : List Char := [',', '[', ']', '\x7b', '\x7d']

/-- Whether a plain scalar starts here. -/
def startsPlain (inside : Bool) (p : Place) : Bool :=
  match p.rest with
  | [] => false
  | c :: rest =>
    !(isSpace c || isBreak c || indicators.contains c) ||
      (c == '-' && !endsWord rest) || (!inside && (c == '?' || c == ':') && !endsWord rest)

/-- Whether a colon inside brackets runs into the next token. -/
def clingingColon (inside : Bool) (c : Char) (rest : List Char) : Bool :=
  inside && c == ':' && rest.head?.any fun d => d == '?' || brackets.contains d

/-- Reads a plain scalar. `text` holds what was read, its last character first, and `gap` what was passed since. Further
lines belong to the scalar if they start at `minColumn` or behind it. -/
def plainFrom (inside : Bool) (minColumn : Nat) (text : List Char) (gap : Option Gap) (line column : Nat) :
    List Char → Option (List Char × Place)
  | [] => some (text, ⟨[], line, column⟩)
  | c :: rest =>
    if isBreak c then plainFrom inside minColumn text (some ((gap.getD {}).addBreak c)) (line + 1) 0 rest
    else if isSpace c then
      if c == '\t' && column < minColumn && gap.any (·.first.isSome) then none
      else plainFrom inside minColumn text (some ((gap.getD {}).addBlank c)) line (column + 1) rest
    else if gap.isSome && (c == '#' || (⟨c :: rest, line, column⟩ : Place).atDocumentMark ||
        (!inside && column < minColumn)) then
      some (text, ⟨c :: rest, line, column⟩)
    else if clingingColon inside c rest then none
    else if (c == ':' && endsWord rest) || (inside && brackets.contains c) then some (text, ⟨c :: rest, line, column⟩)
    else plainFrom inside minColumn (c :: ((gap.map Gap.folded).getD [] ++ text)) none line (column + 1) rest

/-! ### Quoted scalars -/

/-- The character of a short escape. -/
def shortEscape? (c : Char) : Option Char :=
  [('0', '\x00'), ('a', '\x07'), ('b', '\x08'), ('t', '\t'), ('\t', '\t'), ('n', '\n'), ('v', '\x0b'), ('f', '\x0c'),
    ('r', '\r'), ('e', '\x1b'), (' ', ' '), ('"', '"'), ('/', '/'), ('\\', '\\'), ('N', '\u0085'), ('_', '\u00a0'),
    ('L', '\u2028'), ('P', '\u2029')].lookup c

/-- The value of a hexadecimal digit. -/
def hexDigit? (c : Char) : Option Nat :=
  if c.toNat < 128 then Text.hexValue? (UInt8.ofNat c.toNat) else none

/-- The character with a hexadecimal number. -/
def charOfHex? (digits : List Char) : Option Char := do
  let n := (← digits.mapM hexDigit?).foldl (fun n d => 16 * n + d) 0
  if n.isValidChar then return Char.ofNat n else none

/-- Reads a scalar up to its closing quote. `text` and `gap` are as for a plain scalar. -/
def quotedFrom (quote : Char) (text : List Char) (gap : Gap) (line column : Nat) :
    List Char → Option (List Char × Place)
  | [] => none
  | c :: rest =>
    if isBreak c then quotedFrom quote text (gap.addBreak c) (line + 1) 0 rest
    else if isSpace c then quotedFrom quote text (gap.addBlank c) line (column + 1) rest
    else if (⟨c :: rest, line, column⟩ : Place).atDocumentMark then none
    else
      let text := gap.folded ++ text
      if c == quote then
        match rest with
        | '\'' :: rest =>
          if quote == '\'' then quotedFrom quote ('\'' :: text) {} line (column + 2) rest
          else some (text, ⟨'\'' :: rest, line, column + 1⟩)
        | rest => some (text, ⟨rest, line, column + 1⟩)
      else if c == '\\' && quote == '"' then
        match rest with
        | 'x' :: a :: b :: rest =>
          (charOfHex? [a, b]).bind fun d => quotedFrom quote (d :: text) {} line (column + 4) rest
        | 'u' :: a :: b :: c :: d :: rest =>
          (charOfHex? [a, b, c, d]).bind fun d => quotedFrom quote (d :: text) {} line (column + 6) rest
        | 'U' :: a :: b :: c :: d :: e :: f :: g :: h :: rest =>
          (charOfHex? [a, b, c, d, e, f, g, h]).bind fun d => quotedFrom quote (d :: text) {} line (column + 10) rest
        | e :: rest =>
          if isBreak e then quotedFrom quote text .escapedBreak (line + 1) 0 rest
          else (shortEscape? e).bind fun d => quotedFrom quote (d :: text) {} line (column + 2) rest
        | [] => none
      else quotedFrom quote (c :: text) {} line (column + 1) rest

end JvmLift.Yaml
