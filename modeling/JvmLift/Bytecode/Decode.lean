import JvmLift.Bytecode.Instruction

/-!
# Decoding

One pass from left to right. The first instruction that cannot be decoded becomes an undecoded tail that carries every
byte from its start on, and the pass ends there. Decoding therefore always succeeds, and the sizes of the instructions
add up to the number of bytes.
-/

namespace JvmLift.Bytecode

/-- The absolute target of a jump from `offset` over `distance`. Targets are 32-bit offsets. -/
def jumpTarget (offset : Nat) (distance : Int) : Except DecodeError Nat :=
  let target := (offset : Int) + distance
  if 0 ≤ target ∧ target < Nat.pow 2 32 then .ok target.toNat else .error (.invalidTarget offset target)

/-- Reads a jump distance of `width` bytes and makes it absolute. -/
def readTarget (offset width : Nat) : Read Nat := do
  let distance ← Cursor.signed width
  jumpTarget offset distance

/-- Reads `count` targets for the keys from `key` on. -/
def readTableCases (offset : Nat) (key : Int) : Nat → Read (List (Int32 × Nat))
  | 0 => pure []
  | count + 1 => do
    let target ← readTarget offset 4
    let rest ← readTableCases offset (key + 1) count
    return (Int32.ofInt key, target) :: rest

/-- Reads `count` pairs of a key and a target. -/
def readLookupCases (offset : Nat) : Nat → Read (List (Int32 × Nat))
  | 0 => pure []
  | count + 1 => do
    let key ← Cursor.signed 4
    let target ← readTarget offset 4
    let rest ← readLookupCases offset count
    return (Int32.ofInt key, target) :: rest

/-- Reads a switch with one target for each key of a range. -/
def readTableSwitch (offset : Nat) : Read SwitchTable := do
  Cursor.align
  let default ← readTarget offset 4
  let low ← Cursor.signed 4
  let high ← Cursor.signed 4
  if high < low then throw (.malformedSwitch offset)
  let cases ← readTableCases offset low (high - low + 1).toNat
  return ⟨default, cases⟩

/-- Reads a switch with listed keys. -/
def readLookupSwitch (offset : Nat) : Read SwitchTable := do
  Cursor.align
  let default ← readTarget offset 4
  let count ← Cursor.signed 4
  if count < 0 then throw (.malformedSwitch offset)
  let cases ← readLookupCases offset count.toNat
  return ⟨default, cases⟩

/-- Reads the operand of an opcode at `offset`. -/
def readOperand (offset : Nat) (opcode : Opcode) : Layout → Read Operand
  | .bare => return (opcode.implicitSlot?.map Operand.slot).getD .none
  | .slot => return .slot (UInt16.ofNat (← Cursor.unsigned 1))
  | .byte => return .immediate (Int32.ofInt (← Cursor.signed 1))
  | .short => return .immediate (Int32.ofInt (← Cursor.signed 2))
  | .arrayType => return .immediate (Int32.ofNat (← Cursor.unsigned 1))
  | .poolNarrow => return .pool (UInt16.ofNat (← Cursor.unsigned 1))
  | .pool => return .pool (UInt16.ofNat (← Cursor.unsigned 2))
  | .increment => do
    let slot ← Cursor.unsigned 1
    let amount ← Cursor.signed 1
    return .increment (UInt16.ofNat slot) (Int16.ofInt amount)
  | .branch => return .branch (← readTarget offset 2)
  | .branchWide => return .branch (← readTarget offset 4)
  | .tableSwitch => return .switch (← readTableSwitch offset)
  | .lookupSwitch => return .switch (← readLookupSwitch offset)
  | .interfaceCall => do
    let index ← Cursor.unsigned 2
    let count ← Cursor.unsigned 1
    let _ ← Cursor.unsigned 1
    return .interfaceCall (UInt16.ofNat index) (UInt8.ofNat count)
  | .dynamicCall => do
    let index ← Cursor.unsigned 2
    let _ ← Cursor.unsigned 2
    return .pool (UInt16.ofNat index)
  | .multiArray => do
    let index ← Cursor.unsigned 2
    let dimensions ← Cursor.unsigned 1
    return .multiArray (UInt16.ofNat index) (UInt8.ofNat dimensions)
  | .wide => throw (.widePrefix offset)

/-- Reads the instruction that starts at the cursor's mark. -/
def readInstruction : Read Instruction := do
  let offset := (← get).start
  let raw := UInt8.ofNat (← Cursor.unsigned 1)
  let opcode : Opcode := ⟨raw⟩
  match opcode.info? with
  | none => throw (.unknownOpcode offset raw)
  | some info =>
    let operand ← readOperand offset opcode info.layout
    return { offset, opcode, operand, size := (← get).position - offset }

/-- The instruction that stands for everything from the cursor's mark on. -/
def undecodedTail (c : Cursor) (reason : DecodeError) : Instruction :=
  { offset := c.start, opcode := ⟨c.pending.headD 0⟩, operand := .undecoded c.pending reason,
    size := c.pending.length }

/-- At most `n` instructions from the cursor on. -/
def decodeUpTo : Nat → Cursor → List Instruction
  | 0, _ => []
  | n + 1, c =>
    if c.atEnd then [] else
    match readInstruction c.mark with
    | .ok (i, c') => i :: decodeUpTo n c'
    | .error reason => [undecodedTail c.mark reason]

/-- The instructions of a method's code. Each takes at least one byte, so there are no more of them than bytes. -/
def decode (code : List UInt8) : List Instruction :=
  decodeUpTo code.length (Cursor.ofBytes code)

end JvmLift.Bytecode
