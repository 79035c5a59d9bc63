import JvmLift.Recovery.Branch

/-!
# Effects of opcodes

What an opcode does to the operand stack, as a class of effects. Values of type `long` and `double` are wide: they count
as two words for the instructions that move words.
-/

namespace JvmLift.Recovery

open Bytecode Number Source

/-- A value on the operand stack. -/
structure StackValue where
  expr : Expr
  wide : Bool

/-- Words that a value takes. -/
def StackValue.words (v : StackValue) : Nat :=
  if v.wide then 2 else 1

/-- An operand stack, its top first. -/
abbrev Stack := List StackValue

/-- What an instruction does with the pool entry that it refers to. -/
inductive PoolUse
  /-- Loads a constant. `wide` tells the width of one that cannot be resolved. -/
  | constant (wide : Bool)
  | getStatic
  | putStatic
  | getField
  | putField
  | invoke (isStatic : Bool)
  | invokeDynamic
  | newObject
  | newArray
  | newMultiArray
  | checkCast
  | instanceOf
  deriving DecidableEq, Repr

inductive Effect
  | nothing
  | push (value : StackValue)
  /-- Pushes the immediate operand. -/
  | pushImmediate
  | load (wide : Bool)
  | store
  | arrayLoad (wide : Bool)
  | arrayStore
  | pop (words : Nat)
  /-- Copies the top `words` words beneath the next `skip` words. -/
  | dup (words skip : Nat)
  | swap
  | binary (op : BinOp) (wide : Bool)
  | negate (wide : Bool)
  | increment
  /-- A conversion. Widening ones need no cast. -/
  | convert (cast : Option String) (wide : Bool)
  | compare
  | branch
  /-- Pushes the offset behind the instruction. -/
  | subroutineCall
  | switch
  | returnValue
  | returnVoid
  | throwValue
  | arrayLength
  | newPrimitiveArray
  /-- Enters or leaves a monitor, shown as a call of this name. -/
  | monitor (name : String)
  | pooled (use : PoolUse)

/-- The operators of the arithmetic instructions, each of which has four operand types. -/
def arithmeticOps : List BinOp := [.add, .sub, .mul, .div, .rem]

/-- The operators of the shift and bit instructions, each of which has two operand types. -/
def bitOps : List BinOp := [.shl, .shr, .ushr, .bitAnd, .bitOr, .bitXor]

/-- The conversions in opcode order: the cast that they need, and whether their result is wide. -/
def conversions : List (Option String × Bool) :=
  [(none, true), (none, false), (none, true),
    (some "int", false), (none, false), (none, true),
    (some "int", false), (some "long", true), (none, true),
    (some "int", false), (some "long", true), (some "float", false),
    (some "byte", false), (some "char", false), (some "short", false)]

/-- The effect of an opcode, by the ranges of its byte. Jumps, returns from subroutines and unknown bytes do nothing to
the stack. -/
def effectOf (op : Opcode) : Effect :=
  let raw := op.raw.toNat
  if raw = 0x01 then .push ⟨.null, false⟩
  else if 0x02 ≤ raw ∧ raw ≤ 0x08 then .push ⟨.int (Int32.ofInt (raw - 3)), false⟩
  else if 0x09 ≤ raw ∧ raw ≤ 0x0a then .push ⟨.long (Int64.ofNat (raw - 0x09)), true⟩
  else if 0x0b ≤ raw ∧ raw ≤ 0x0d then
    .push ⟨.float (.ofNat ([0x00000000, 0x3f800000, 0x40000000].getD (raw - 0x0b) 0)), false⟩
  else if 0x0e ≤ raw ∧ raw ≤ 0x0f then
    .push ⟨.double (.ofNat ([0x0000000000000000, 0x3ff0000000000000].getD (raw - 0x0e) 0)), true⟩
  else if raw = 0x10 ∨ raw = 0x11 then .pushImmediate
  else if 0x12 ≤ raw ∧ raw ≤ 0x14 then .pooled (.constant (raw = 0x14))
  else if 0x15 ≤ raw ∧ raw ≤ 0x19 then .load (raw = 0x16 ∨ raw = 0x18)
  else if 0x1a ≤ raw ∧ raw ≤ 0x2d then .load ((raw - 0x1a) / 4 % 2 = 1)
  else if 0x2e ≤ raw ∧ raw ≤ 0x35 then .arrayLoad (raw = 0x2f ∨ raw = 0x31)
  else if 0x36 ≤ raw ∧ raw ≤ 0x4e then .store
  else if 0x4f ≤ raw ∧ raw ≤ 0x56 then .arrayStore
  else if raw = 0x57 then .pop 1
  else if raw = 0x58 then .pop 2
  else if 0x59 ≤ raw ∧ raw ≤ 0x5b then .dup 1 (raw - 0x59)
  else if 0x5c ≤ raw ∧ raw ≤ 0x5e then .dup 2 (raw - 0x5c)
  else if raw = 0x5f then .swap
  else if 0x60 ≤ raw ∧ raw ≤ 0x73 then
    .binary (arithmeticOps.getD ((raw - 0x60) / 4) .add) ((raw - 0x60) % 2 = 1)
  else if 0x74 ≤ raw ∧ raw ≤ 0x77 then .negate ((raw - 0x74) % 2 = 1)
  else if 0x78 ≤ raw ∧ raw ≤ 0x83 then .binary (bitOps.getD ((raw - 0x78) / 2) .shl) ((raw - 0x78) % 2 = 1)
  else if raw = 0x84 then .increment
  else if 0x85 ≤ raw ∧ raw ≤ 0x93 then
    let (cast, wide) := conversions.getD (raw - 0x85) (none, false)
    .convert cast wide
  else if 0x94 ≤ raw ∧ raw ≤ 0x98 then .compare
  else if (0x99 ≤ raw ∧ raw ≤ 0xa6) ∨ raw = 0xc6 ∨ raw = 0xc7 then .branch
  else if raw = 0xa8 ∨ raw = 0xc9 then .subroutineCall
  else if raw = 0xaa ∨ raw = 0xab then .switch
  else if 0xac ≤ raw ∧ raw ≤ 0xb0 then .returnValue
  else if raw = 0xb1 then .returnVoid
  else if raw = 0xb2 then .pooled .getStatic
  else if raw = 0xb3 then .pooled .putStatic
  else if raw = 0xb4 then .pooled .getField
  else if raw = 0xb5 then .pooled .putField
  else if 0xb6 ≤ raw ∧ raw ≤ 0xb9 then .pooled (.invoke (raw = 0xb8))
  else if raw = 0xba then .pooled .invokeDynamic
  else if raw = 0xbb then .pooled .newObject
  else if raw = 0xbc then .newPrimitiveArray
  else if raw = 0xbd then .pooled .newArray
  else if raw = 0xbe then .arrayLength
  else if raw = 0xbf then .throwValue
  else if raw = 0xc0 then .pooled .checkCast
  else if raw = 0xc1 then .pooled .instanceOf
  else if raw = 0xc2 then .monitor "monitorenter"
  else if raw = 0xc3 then .monitor "monitorexit"
  else if raw = 0xc5 then .pooled .newMultiArray
  else .nothing

end JvmLift.Recovery
