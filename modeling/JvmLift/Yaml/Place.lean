/-!
# Places in a text

What is left of a text, with its line and column. Lines end with a line feed or with one of the two separators of
Unicode; other line ends are made line feeds before.
-/

namespace JvmLift.Yaml

def isBreak (c : Char) : Bool :=
  c == '\n' || c == '\u2028' || c == '\u2029'

def isSpace (c : Char) : Bool :=
  c == ' ' || c == '\t'

/-- Whether a word ends here: at a blank, a line end or the end of the text. -/
def endsWord : List Char → Bool
  | [] => true
  | c :: _ => isSpace c || isBreak c

/-- Characters that a text may hold. -/
def isAllowed (c : Char) : Bool :=
  let n := c.toNat
  n == 0x09 || n == 0x0a || n == 0x0d || (0x20 ≤ n && n ≤ 0x7e) || n == 0x85 || (0xa0 ≤ n && n ≤ 0xd7ff) ||
    (0xe000 ≤ n && n ≤ 0xfffd) || 0x10000 ≤ n

/-- Makes carriage returns and next-line characters line feeds. -/
def normalizeBreaks : List Char → List Char
  | '\r' :: '\n' :: rest => '\n' :: normalizeBreaks rest
  | c :: rest => (if c == '\r' || c == '\u0085' then '\n' else c) :: normalizeBreaks rest
  | [] => []

structure Place where
  rest : List Char
  line : Nat := 0
  column : Nat := 0

namespace Place

def atEnd (p : Place) : Bool :=
  p.rest.isEmpty

/-- The place `n` characters further on the line. -/
def advance (n : Nat) (p : Place) : Place :=
  { p with rest := p.rest.drop n, column := p.column + n }

/-- Whether the line starts here with a mark of three equal characters. -/
def atMark (mark : Char) (p : Place) : Bool :=
  p.column == 0 &&
    match p.rest with
    | a :: b :: c :: rest => a == mark && b == mark && c == mark && endsWord rest
    | _ => false

/-- Whether a document starts or ends here. -/
def atDocumentMark (p : Place) : Bool :=
  p.atMark '-' || p.atMark '.'

/-- Whether an item of a block sequence starts here. -/
def atItem (p : Place) : Bool :=
  match p.rest with
  | '-' :: rest => endsWord rest
  | _ => false

/-- Whether the mark between a key and its value stands here, outside of brackets. -/
def atValueMark (p : Place) : Bool :=
  match p.rest with
  | ':' :: rest => endsWord rest
  | _ => false

/-- Goes on past blanks, line ends and comments. Tabs count as blanks inside brackets; outside they do only with `tabs`,
and only up to the end of the line. -/
def skipFrom (brackets : Bool) (tabs comment : Bool) (line column : Nat) : List Char → Place
  | [] => ⟨[], line, column⟩
  | c :: rest =>
    if isBreak c then skipFrom brackets brackets false (line + 1) 0 rest
    else if comment || c == ' ' || (c == '\t' && tabs) then skipFrom brackets tabs comment line (column + 1) rest
    else if c == '#' then skipFrom brackets tabs true line (column + 1) rest
    else ⟨c :: rest, line, column⟩

/-- The next token inside brackets. -/
def nextInside (p : Place) : Place :=
  skipFrom true true false p.line p.column p.rest

/-- The next token outside of brackets. -/
def nextOutside (tabs : Bool) (p : Place) : Place :=
  skipFrom false tabs false p.line p.column p.rest

/-- Whether what lies between two places can be a key: it is on one line and not too long. -/
def spansKey (start stop : Place) : Bool :=
  start.line == stop.line && start.rest.length ≤ stop.rest.length + 1024

end Place

end JvmLift.Yaml
