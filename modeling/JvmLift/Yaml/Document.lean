import JvmLift.Yaml.Node
import JvmLift.Yaml.Scalar

/-!
# Documents

Reads one document of block and flow collections and of plain and quoted scalars, with comments. A node that is followed
by a colon on its own line is a key. In block style the column of a collection's first token is its own; a value stands
further to the right, except that the items of a sequence may stand at the column of the key they belong to. Tags,
anchors, directives, block scalars and marked keys are not read.

The readers take a budget of steps. Each step but a bounded number takes a character, so a small multiple of the length of
the text is enough.
-/

namespace JvmLift.Yaml

/-- A node with the place behind it. -/
abbrev Parsed := Option (Node × Place)

mutual

/-- Reads a flow collection or a scalar. `minColumn` is where further lines of a plain scalar may start. -/
def inlineNode (inside : Bool) (minColumn : Nat) : Nat → Place → Parsed
  | 0, _ => none
  | fuel + 1, p =>
    if p.atDocumentMark then none
    else
      match p.rest with
      | '[' :: _ => (flowItems true fuel (p.advance 1).nextInside).map fun (items, q) => (.sequence items, q)
      | '\x7b' :: _ => (flowEntries true fuel (p.advance 1).nextInside).map fun (entries, q) => (.mapping entries, q)
      | '"' :: rest =>
        (quotedFrom '"' [] {} p.line (p.column + 1) rest).map fun (text, q) =>
          (.scalar (String.ofList text.reverse) false, q)
      | '\'' :: rest =>
        (quotedFrom '\'' [] {} p.line (p.column + 1) rest).map fun (text, q) =>
          (.scalar (String.ofList text.reverse) false, q)
      | rest =>
        if startsPlain inside p then
          (plainFrom inside minColumn [] none p.line p.column rest).map fun (text, q) =>
            (.scalar (String.ofList text.reverse) true, q)
        else none

/-- Reads an entry inside brackets: a node, and a value if a colon follows. -/
def flowEntry : Nat → Place → Option (Node × Option Node × Place)
  | 0, _ => none
  | fuel + 1, p => do
    let (key, q) ← inlineNode true 0 fuel p
    let q := q.nextInside
    if q.rest.head? != some ':' then return (key, none, q)
    if !p.spansKey q then none
    let v := (q.advance 1).nextInside
    if v.rest.head?.any fun c => c == ',' || c == ']' || c == '\x7d' then return (key, some .empty, v)
    let (value, r) ← inlineNode true 0 fuel v
    return (key, some value, r.nextInside)

/-- Reads the items of a flow sequence and the bracket behind them. An item with a value is a mapping of its own. -/
def flowItems (first : Bool) : Nat → Place → Option (List Node × Place)
  | 0, _ => none
  | fuel + 1, p => do
    if p.rest.head? == some ']' then return ([], p.advance 1)
    let q ← if first then some p else if p.rest.head? == some ',' then some (p.advance 1).nextInside else none
    if q.rest.head? == some ']' then return ([], q.advance 1)
    let (key, value, r) ← flowEntry fuel q
    let (items, s) ← flowItems false fuel r
    return (value.elim key (fun v => .mapping [(key, v)]) :: items, s)

/-- Reads the entries of a flow mapping and the brace behind them. -/
def flowEntries (first : Bool) : Nat → Place → Option (List (Node × Node) × Place)
  | 0, _ => none
  | fuel + 1, p => do
    if p.rest.head? == some '\x7d' then return ([], p.advance 1)
    let q ← if first then some p else if p.rest.head? == some ',' then some (p.advance 1).nextInside else none
    if q.rest.head? == some '\x7d' then return ([], q.advance 1)
    let (key, value, r) ← flowEntry fuel q
    let (entries, s) ← flowEntries false fuel r
    return ((key, value.getD .empty) :: entries, s)

end

/-- Whether nothing more of a block at a column follows. -/
def Place.leavesBlock (p : Place) (column : Nat) : Bool :=
  p.atEnd || p.atDocumentMark || p.column < column

mutual

/-- Reads a block node at its first token, and goes on to the next token. With `keys`, the node may be a block
collection. -/
def blockNode (minColumn : Nat) (keys : Bool) : Nat → Place → Parsed
  | 0, _ => none
  | fuel + 1, p => do
    if p.atItem then
      if !keys then none
      let (items, q) ← blockItems p.column fuel p
      if q.leavesBlock p.column then return (.sequence items, q) else none
    let (node, q) ← inlineNode false minColumn (fuel + 1) p
    let q := q.nextOutside true
    if !q.atValueMark then return (node, q)
    if !keys || !p.spansKey q then none
    let (value, r) ← blockValue p.column fuel (q.advance 1)
    let (entries, s) ← blockEntries p.column fuel r
    return (.mapping ((node, value) :: entries), s)
termination_by structural fuel => fuel

/-- Reads the value behind a colon, for a mapping at a column. -/
def blockValue (column : Nat) : Nat → Place → Parsed
  | 0, _ => none
  | fuel + 1, p =>
    let q := p.nextOutside true
    if q.atEnd || q.atDocumentMark then some (.empty, q)
    else if q.line == p.line then blockNode (column + 1) false fuel q
    else if column < q.column then blockNode (column + 1) true fuel q
    else if q.column == column && q.atItem then
      (blockItems column fuel q).map fun (items, r) => (.sequence items, r)
    else some (.empty, q)
termination_by structural fuel => fuel

/-- Reads the further entries of a mapping at a column. -/
def blockEntries (column : Nat) : Nat → Place → Option (List (Node × Node) × Place)
  | 0, _ => none
  | fuel + 1, p => do
    if p.leavesBlock column then return ([], p)
    if p.column != column || p.atItem then none
    let (key, q) ← inlineNode false (column + 1) (fuel + 1) p
    let q := q.nextOutside true
    if !q.atValueMark || !p.spansKey q then none
    let (value, r) ← blockValue column fuel (q.advance 1)
    let (entries, s) ← blockEntries column fuel r
    return ((key, value) :: entries, s)
termination_by structural fuel => fuel

/-- Reads the items of a sequence whose marks stand at a column. -/
def blockItems (column : Nat) : Nat → Place → Option (List Node × Place)
  | 0, _ => none
  | fuel + 1, p => do
    let q := (p.advance 1).nextOutside false
    let isEmpty := q.atEnd || q.atDocumentMark || (q.line != p.line && q.column ≤ column)
    let (item, r) ← if isEmpty then some (.empty, q) else blockNode (column + 1) true fuel q
    if r.column == column && r.atItem then
      let (items, s) ← blockItems column fuel r
      return (item :: items, s)
    else return ([item], r)
termination_by structural fuel => fuel

end

/-- Whether only marks for the end of the document are left. -/
def atDocumentEnd : Nat → Place → Bool
  | 0, _ => false
  | fuel + 1, p => p.atEnd || (p.atMark '.' && atDocumentEnd fuel ((p.advance 3).nextOutside true))

/-- Reads a text that holds one document. -/
def parse? (text : String) : Option Node := do
  let chars := match text.toList with
    | '\ufeff' :: rest => rest
    | chars => chars
  if !chars.all isAllowed then none
  let chars := normalizeBreaks chars
  let fuel := 4 * (chars.length + 1)
  let first := (⟨chars, 0, 0⟩ : Place).nextOutside false
  let start := if first.atMark '-' then (first.advance 3).nextOutside true else first
  let marked := first.atMark '-'
  if start.atEnd || start.atDocumentMark then
    if marked && atDocumentEnd fuel start then return .empty else none
  let (node, stop) ← blockNode 0 (!marked || start.line != first.line) fuel start
  if atDocumentEnd fuel stop then return node else none

end JvmLift.Yaml
