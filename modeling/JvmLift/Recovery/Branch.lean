import JvmLift.Bytecode.Opcode
import JvmLift.Source.Expr

/-!
# Branch conditions

The comparison that a conditional branch makes on the values at the top of the stack. A zero test of a three-way
comparison compares its operands directly.
-/

namespace JvmLift.Recovery

open Bytecode Source

/-- What a branch compares with. -/
inductive Comparand
  /-- One value with the number zero. -/
  | zero
  /-- One reference with `null`. -/
  | null
  /-- Two values, of which the top of the stack is the right one. -/
  | pair
  deriving DecidableEq, Repr

/-- Number of values that a comparison takes from the stack. -/
def Comparand.count : Comparand → Nat
  | .zero | .null => 1
  | .pair => 2

/-- The comparison under which a conditional branch is taken. -/
def branchTest? (op : Opcode) : Option (BinOp × Comparand) :=
  match op.raw.toNat with
  | 0x99 => some (.eq, .zero)
  | 0x9a => some (.ne, .zero)
  | 0x9b => some (.lt, .zero)
  | 0x9c => some (.ge, .zero)
  | 0x9d => some (.gt, .zero)
  | 0x9e => some (.le, .zero)
  | 0x9f => some (.eq, .pair)
  | 0xa0 => some (.ne, .pair)
  | 0xa1 => some (.lt, .pair)
  | 0xa2 => some (.ge, .pair)
  | 0xa3 => some (.gt, .pair)
  | 0xa4 => some (.le, .pair)
  | 0xa5 => some (.eq, .pair)
  | 0xa6 => some (.ne, .pair)
  | 0xc6 => some (.eq, .null)
  | 0xc7 => some (.ne, .null)
  | _ => none

/-- Number of values that a conditional branch takes from the stack. -/
def branchOperandCount? (op : Opcode) : Option Nat :=
  (branchTest? op).map fun (_, against) => against.count

/-- The condition under which a branch is taken, and the one under which it falls through. -/
structure Condition where
  taken : Expr
  fallthrough : Expr

/-- A comparison of a value with zero. -/
def compareToZero (op : BinOp) : Expr → Expr
  | .binary .cmp a b => .binary op a b
  | e => .binary op e (.int 0)

/-- The taken condition of a test on a stack whose top is its first element. -/
def takenCondition? : BinOp × Comparand → List Expr → Option Expr
  | (op, .zero), top :: _ => some (compareToZero op top)
  | (op, .null), top :: _ => some (.binary op top .null)
  | (op, .pair), rhs :: lhs :: _ => some (.binary op lhs rhs)
  | _, _ => none

/-- Both conditions of a branch on a stack whose top is its first element. There are none for another instruction, or on
a stack that is too short. -/
def condition? (op : Opcode) (stack : List Expr) : Option Condition := do
  let taken ← takenCondition? (← branchTest? op) stack
  return ⟨taken, taken.invert⟩

end JvmLift.Recovery
