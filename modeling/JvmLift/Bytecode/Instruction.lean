import JvmLift.Bytecode.Cursor

/-!
# Instructions

A decoded instruction knows its offset, its size and its operand. Jump targets are absolute. What could not be decoded is
one instruction too: it carries the remaining bytes and takes part in no control flow.
-/

namespace JvmLift.Bytecode

/-- Targets of a multi-way branch, as absolute offsets. -/
structure SwitchTable where
  default : Nat
  /-- Keys with their targets, in encoding order. -/
  cases : List (Int32 × Nat)
  deriving DecidableEq

inductive Operand
  | none
  | slot (index : UInt16)
  | immediate (value : Int32)
  | branch (target : Nat)
  | pool (index : UInt16)
  | increment (slot : UInt16) (amount : Int16)
  | interfaceCall (index : UInt16) (count : UInt8)
  | multiArray (index : UInt16) (dimensions : UInt8)
  | switch (table : SwitchTable)
  | undecoded (bytes : List UInt8) (reason : DecodeError)
  deriving DecidableEq

/-- One instruction at its place in the code. -/
structure Instruction where
  offset : Nat
  opcode : Opcode
  operand : Operand
  /-- Encoded size in bytes. -/
  size : Nat
  deriving DecidableEq

namespace Instruction

/-- Offset of the instruction behind this one. -/
def next (i : Instruction) : Nat :=
  i.offset + i.size

def target? (i : Instruction) : Option Nat :=
  match i.operand with
  | .branch target => some target
  | _ => none

def switchTable? (i : Instruction) : Option SwitchTable :=
  match i.operand with
  | .switch table => some table
  | _ => none

def isUndecoded (i : Instruction) : Bool :=
  match i.operand with
  | .undecoded .. => true
  | _ => false

/-- The role in the control flow. An undecoded tail has none, whatever its first byte. -/
def role (i : Instruction) : Role :=
  if i.isUndecoded then .plain else i.opcode.role

def isConditional (i : Instruction) : Bool := i.role.isConditional

def isJump (i : Instruction) : Bool := i.role.isJump

def isSwitch (i : Instruction) : Bool := i.role.isSwitch

def isExit (i : Instruction) : Bool := i.role.isExit

/-- A transfer of control, behind which a new block starts. -/
def isTransfer (i : Instruction) : Bool := i.role.isTransfer

/-- All offsets that the instruction may jump to. -/
def targets (i : Instruction) : List Nat :=
  i.target?.toList ++
    match i.switchTable? with
    | some table => table.default :: table.cases.map Prod.snd
    | none => []

end Instruction

end JvmLift.Bytecode
