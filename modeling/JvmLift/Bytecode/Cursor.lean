import JvmLift.Bytecode.Opcode

/-!
# A cursor over code bytes

A `Cursor` reads big-endian numbers from left to right and remembers where the current instruction starts. A read that
runs past the end fails with that start, not with the place where the bytes ran out, so the whole instruction can be
reported as undecodable; the cursor it was asked of is still there to go on with.
-/

namespace JvmLift.Bytecode

/-- Why an instruction could not be decoded. -/
inductive DecodeError
  | unknownOpcode (offset : Nat) (opcode : UInt8)
  | truncated (offset : Nat)
  | widePrefix (offset : Nat)
  | malformedSwitch (offset : Nat)
  | invalidTarget (offset : Nat) (target : Int)
  deriving DecidableEq, Repr

namespace DecodeError

def message : DecodeError → String
  | unknownOpcode offset opcode =>
    s!"unknown opcode {Text.hexNumber 2 opcode.toNat} at offset {offset}"
  | truncated offset => s!"truncated instruction at offset {offset}"
  | widePrefix offset => s!"unsupported wide prefix at offset {offset}"
  | malformedSwitch offset => s!"malformed switch table at offset {offset}"
  | invalidTarget offset target => s!"branch at offset {offset} targets invalid offset {target}"

/-- The start of the instruction that the error is about. -/
def offset : DecodeError → Nat
  | unknownOpcode offset _ | truncated offset | widePrefix offset | malformedSwitch offset
  | invalidTarget offset _ => offset

end DecodeError

/-- The number that `bytes` spell, most significant byte first. -/
def bigEndian (bytes : List UInt8) : Nat :=
  bytes.foldl (fun n b => 256 * n + b.toNat) 0

/-- A place in the code. `unread` are the bytes from `position` on, `pending` those from `start` on. -/
structure Cursor where
  position : Nat
  unread : List UInt8
  start : Nat
  pending : List UInt8
  deriving DecidableEq, Repr

/-- A computation that moves a cursor, or fails and leaves it to the caller. -/
abbrev Read := StateT Cursor (Except DecodeError)

namespace Cursor

/-- The cursor before the first byte of `code`. -/
def ofBytes (code : List UInt8) : Cursor :=
  ⟨0, code, 0, code⟩

def atEnd (c : Cursor) : Bool :=
  c.unread.isEmpty

/-- Starts a new instruction here. -/
def mark (c : Cursor) : Cursor :=
  { c with start := c.position, pending := c.unread }

/-- The next `n` bytes. -/
def take (n : Nat) : Read (List UInt8) := fun c =>
  let bytes := c.unread.take n
  if bytes.length = n then
    .ok (bytes, { c with position := c.position + n, unread := c.unread.drop n })
  else
    .error (.truncated c.start)

/-- The next `width` bytes as an unsigned number. -/
def unsigned (width : Nat) : Read Nat := do
  return bigEndian (← take width)

/-- The next `width` bytes as a number in two's complement. -/
def signed (width : Nat) : Read Int := do
  return Int.bmod (bigEndian (← take width)) (Nat.pow 256 width)

/-- Bytes from `position` to the next multiple of four, counted from the start of the code. -/
def padding (position : Nat) : Nat :=
  (4 - position % 4) % 4

/-- Skips to the next multiple of four. -/
def align : Read Unit := do
  let _ ← take (padding (← get).position)

/-! ### Single requests

One request at a time, with the cursor that is left after it. A failed request leaves the cursor unchanged, and further
requests may follow it.
-/

inductive Request
  | unsigned (width : Nat)
  | signed (width : Nat)
  | align
  | mark
  | pending
  deriving DecidableEq, Repr

inductive Answer
  | number (value : Int)
  | done
  | bytes (values : List UInt8)
  deriving DecidableEq, Repr

/-- The answer to a request, and the cursor after it. -/
def Request.read : Request → Read Answer
  | .unsigned width => return .number (← Cursor.unsigned width)
  | .signed width => return .number (← Cursor.signed width)
  | .align => do Cursor.align; return .done
  | .mark => do modify Cursor.mark; return .done
  | .pending => return .bytes (← get).pending

def perform (request : Request) (c : Cursor) : Except DecodeError Answer × Cursor :=
  match request.read c with
  | .ok (answer, c') => (.ok answer, c')
  | .error e => (.error e, c)

end Cursor

end JvmLift.Bytecode
