import JvmLift.Text.Hex

/-!
# Opcodes

The instruction set as a table. Each opcode has a mnemonic, the layout of the operand bytes that follow it, and the role
it plays in the control flow of a method. The table starts at opcode `0x00` and has no gaps, so the place of a row is its
opcode, and every byte past the last row is unknown.
-/

namespace JvmLift.Bytecode

/-- Layout of the operand bytes that follow an opcode. -/
inductive Layout
  /-- No operand bytes. -/
  | bare
  /-- A one-byte local slot. -/
  | slot
  /-- A signed one-byte immediate. -/
  | byte
  /-- A signed two-byte immediate. -/
  | short
  /-- A one-byte constant-pool index. -/
  | poolNarrow
  /-- A two-byte constant-pool index. -/
  | pool
  /-- A one-byte slot, then a signed one-byte amount. -/
  | increment
  /-- A signed two-byte jump distance. -/
  | branch
  /-- A signed four-byte jump distance. -/
  | branchWide
  /-- Padding, default, low and high key, then one distance per key. -/
  | tableSwitch
  /-- Padding, default, number of pairs, then key and distance pairs. -/
  | lookupSwitch
  /-- A two-byte index, a one-byte argument count, a reserved byte. -/
  | interfaceCall
  /-- A two-byte index, two reserved bytes. -/
  | dynamicCall
  /-- A two-byte index, then a one-byte number of dimensions. -/
  | multiArray
  /-- A one-byte code for a primitive element type. -/
  | arrayType
  /-- A mark that changes the layout of the instruction after it. -/
  | wide
  deriving DecidableEq, Repr

/-- Number of operand bytes, where it does not depend on the position or on the bytes themselves. -/
def Layout.length? : Layout → Option Nat
  | .bare => some 0
  | .slot | .byte | .poolNarrow | .arrayType => some 1
  | .short | .pool | .increment | .branch => some 2
  | .multiArray => some 3
  | .branchWide | .interfaceCall | .dynamicCall => some 4
  | .tableSwitch | .lookupSwitch | .wide => none

/-- A property of an opcode, in the order of its bit. -/
inductive Trait
  | jump | conditional | returns | throws | switch | invoke | field | subroutine
  deriving DecidableEq, Repr

/-- All traits, lowest bit first. -/
def Trait.all : List Trait :=
  [.jump, .conditional, .returns, .throws, .switch, .invoke, .field, .subroutine]

/-- The number of the trait's bit in a set of traits. -/
def Trait.index : Trait → Nat
  | .jump => 0
  | .conditional => 1
  | .returns => 2
  | .throws => 3
  | .switch => 4
  | .invoke => 5
  | .field => 6
  | .subroutine => 7

/-- What an opcode does to the control flow, or which kind of pool reference it uses. -/
inductive Role
  | plain
  | branch
  | goto
  | subroutineCall
  | subroutineReturn
  | methodReturn
  | throw
  | switch
  | invoke
  | field
  deriving DecidableEq, Repr

/-- The traits of a role, lowest bit first. -/
def Role.traits : Role → List Trait
  | .plain => []
  | .branch => [.jump, .conditional]
  | .goto => [.jump]
  | .subroutineCall => [.jump, .subroutine]
  | .subroutineReturn => [.returns, .subroutine]
  | .methodReturn => [.returns]
  | .throw => [.throws]
  | .switch => [.switch]
  | .invoke => [.invoke]
  | .field => [.field]

/-- A jump that is taken only when a condition holds. -/
def Role.isConditional : Role → Bool
  | .branch => true
  | _ => false

/-- A jump that is always taken. -/
def Role.isJump : Role → Bool
  | .goto | .subroutineCall => true
  | _ => false

/-- No execution continues inside the method: a return, a throw, or the end of a subroutine. -/
def Role.isExit : Role → Bool
  | .subroutineReturn | .methodReturn | .throw => true
  | _ => false

def Role.isSwitch : Role → Bool
  | .switch => true
  | _ => false

/-- Any transfer of control to a target named by the instruction. -/
def Role.isTransfer (role : Role) : Bool :=
  role.isConditional || role.isJump || role.isSwitch

/-- The row of an opcode in the table. -/
structure OpcodeInfo where
  mnemonic : String
  layout : Layout
  role : Role
  deriving DecidableEq, Repr

/-- Encoded size with the opcode byte, where it is fixed. -/
def OpcodeInfo.size? (info : OpcodeInfo) : Option Nat :=
  info.layout.length?.map (· + 1)

/-- A one-byte opcode. Bytes outside the table are opcodes too, so that an undecodable byte can be reported. -/
structure Opcode where
  raw : UInt8
  deriving DecidableEq, Repr

namespace Opcode

/-- Rows that share layout and role. -/
private def rows (layout : Layout) (role : Role) (mnemonics : List String) : List OpcodeInfo :=
  mnemonics.map fun mnemonic => ⟨mnemonic, layout, role⟩

/-- Every known opcode, in ascending order from `0x00`. -/
def table : Array OpcodeInfo := List.toArray <|
  rows .bare .plain
    ["nop", "aconst_null", "iconst_m1", "iconst_0", "iconst_1", "iconst_2", "iconst_3", "iconst_4", "iconst_5",
      "lconst_0", "lconst_1", "fconst_0", "fconst_1", "fconst_2", "dconst_0", "dconst_1"] ++
  rows .byte .plain ["bipush"] ++
  rows .short .plain ["sipush"] ++
  rows .poolNarrow .plain ["ldc"] ++
  rows .pool .plain ["ldc_w", "ldc2_w"] ++
  rows .slot .plain ["iload", "lload", "fload", "dload", "aload"] ++
  rows .bare .plain
    ["iload_0", "iload_1", "iload_2", "iload_3", "lload_0", "lload_1", "lload_2", "lload_3",
      "fload_0", "fload_1", "fload_2", "fload_3", "dload_0", "dload_1", "dload_2", "dload_3",
      "aload_0", "aload_1", "aload_2", "aload_3",
      "iaload", "laload", "faload", "daload", "aaload", "baload", "caload", "saload"] ++
  rows .slot .plain ["istore", "lstore", "fstore", "dstore", "astore"] ++
  rows .bare .plain
    ["istore_0", "istore_1", "istore_2", "istore_3", "lstore_0", "lstore_1", "lstore_2", "lstore_3",
      "fstore_0", "fstore_1", "fstore_2", "fstore_3", "dstore_0", "dstore_1", "dstore_2", "dstore_3",
      "astore_0", "astore_1", "astore_2", "astore_3",
      "iastore", "lastore", "fastore", "dastore", "aastore", "bastore", "castore", "sastore",
      "pop", "pop2", "dup", "dup_x1", "dup_x2", "dup2", "dup2_x1", "dup2_x2", "swap",
      "iadd", "ladd", "fadd", "dadd", "isub", "lsub", "fsub", "dsub", "imul", "lmul", "fmul", "dmul",
      "idiv", "ldiv", "fdiv", "ddiv", "irem", "lrem", "frem", "drem", "ineg", "lneg", "fneg", "dneg",
      "ishl", "lshl", "ishr", "lshr", "iushr", "lushr", "iand", "land", "ior", "lor", "ixor", "lxor"] ++
  rows .increment .plain ["iinc"] ++
  rows .bare .plain
    ["i2l", "i2f", "i2d", "l2i", "l2f", "l2d", "f2i", "f2l", "f2d", "d2i", "d2l", "d2f", "i2b", "i2c", "i2s",
      "lcmp", "fcmpl", "fcmpg", "dcmpl", "dcmpg"] ++
  rows .branch .branch
    ["ifeq", "ifne", "iflt", "ifge", "ifgt", "ifle", "if_icmpeq", "if_icmpne", "if_icmplt", "if_icmpge",
      "if_icmpgt", "if_icmple", "if_acmpeq", "if_acmpne"] ++
  rows .branch .goto ["goto"] ++
  rows .branch .subroutineCall ["jsr"] ++
  rows .slot .subroutineReturn ["ret"] ++
  rows .tableSwitch .switch ["tableswitch"] ++
  rows .lookupSwitch .switch ["lookupswitch"] ++
  rows .bare .methodReturn ["ireturn", "lreturn", "freturn", "dreturn", "areturn", "return"] ++
  rows .pool .field ["getstatic", "putstatic", "getfield", "putfield"] ++
  rows .pool .invoke ["invokevirtual", "invokespecial", "invokestatic"] ++
  rows .interfaceCall .invoke ["invokeinterface"] ++
  rows .dynamicCall .invoke ["invokedynamic"] ++
  rows .pool .plain ["new"] ++
  rows .arrayType .plain ["newarray"] ++
  rows .pool .plain ["anewarray"] ++
  rows .bare .plain ["arraylength"] ++
  rows .bare .throw ["athrow"] ++
  rows .pool .plain ["checkcast", "instanceof"] ++
  rows .bare .plain ["monitorenter", "monitorexit"] ++
  rows .wide .plain ["wide"] ++
  rows .multiArray .plain ["multianewarray"] ++
  rows .branch .branch ["ifnull", "ifnonnull"] ++
  rows .branchWide .goto ["goto_w"] ++
  rows .branchWide .subroutineCall ["jsr_w"]

/-- The row of an opcode, if it is known. -/
def info? (op : Opcode) : Option OpcodeInfo :=
  table[op.raw.toNat]?

def mnemonic (op : Opcode) : String :=
  (op.info?.map OpcodeInfo.mnemonic).getD "<unknown>"

/-- The role of an opcode. An unknown byte has none of the special roles. -/
def role (op : Opcode) : Role :=
  (op.info?.map OpcodeInfo.role).getD .plain

/-- The raw byte and the mnemonic together. -/
def describe (op : Opcode) : String :=
  s!"Opcode({Text.hexNumber 2 op.raw.toNat} {op.mnemonic})"

/-- The slot that an opcode of a `_0` to `_3` family names by itself. -/
def implicitSlot? (op : Opcode) : Option UInt16 :=
  let raw := op.raw.toNat
  if 0x1a ≤ raw ∧ raw ≤ 0x2d then some (UInt16.ofNat ((raw - 0x1a) % 4))
  else if 0x3b ≤ raw ∧ raw ≤ 0x4e then some (UInt16.ofNat ((raw - 0x3b) % 4))
  else none

/-- An opcode that stores a reference to a local slot. -/
def storesReference (op : Opcode) : Bool :=
  op.raw == 0x3a || (0x4b ≤ op.raw && op.raw ≤ 0x4e)

/-- A jump without any other effect. -/
def isGoto (op : Opcode) : Bool :=
  op.raw == 0xa7 || op.raw == 0xc8

end Opcode

end JvmLift.Bytecode
