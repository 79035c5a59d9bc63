import Mathlib.Tactic.Lemma
import Mathlib.Tactic.Common
import JvmLift.Recovery.Step

/-!
# Straight-line code on ints

Two ways to run the same code. The machine runs instructions on a frame of local slots and an operand stack of 32-bit
words; it knows its instructions by their bytes alone. Source text is run on an assignment of words to names.
Arithmetic is that of two's complement in both: results wrap, a shift takes the low five bits of its distance, and a
division by zero raises an exception.
-/

namespace JvmLift.IntCode

open Bytecode Source

/-! ### Arithmetic -/

/-- The value of an operator on two words. A division by zero has none. -/
def compute? (op : BinOp) (a b : Int32) : Option Int32 :=
  match op with
  | .add => some (a + b)
  | .sub => some (a - b)
  | .mul => some (a * b)
  | .div => if b = 0 then none else some (a / b)
  | .rem => if b = 0 then none else some (a % b)
  | .shl => some (a <<< (b &&& 31))
  | .shr => some (a >>> (b &&& 31))
  | .ushr => some (a.toUInt32 >>> (b &&& 31).toUInt32).toInt32
  | .bitAnd => some (a &&& b)
  | .bitOr => some (a ||| b)
  | .bitXor => some (a ^^^ b)
  | _ => none

/-! ### The machine -/

/-- The instructions on ints that neither branch nor refer to a pool. -/
inductive IntOp
  | const (value : Int32)
  | load (slot : UInt16)
  | store (slot : UInt16)
  | increment (slot : UInt16) (amount : Int16)
  | binary (op : BinOp)
  | negate
  | pop
  | pop2
  | dup
  | dupX1
  | dupX2
  | dup2
  | dup2X1
  | dup2X2
  | swap
  | returnValue
  | returnVoid
  deriving DecidableEq

/-- The operations without an operand, each with its byte. -/
def bareOps : List (UInt8 × IntOp) :=
  [(0x02, .const (-1)), (0x03, .const 0), (0x04, .const 1), (0x05, .const 2), (0x06, .const 3), (0x07, .const 4),
    (0x08, .const 5), (0x57, .pop), (0x58, .pop2), (0x59, .dup), (0x5a, .dupX1), (0x5b, .dupX2), (0x5c, .dup2),
    (0x5d, .dup2X1), (0x5e, .dup2X2), (0x5f, .swap), (0x60, .binary .add), (0x64, .binary .sub), (0x68, .binary .mul),
    (0x6c, .binary .div), (0x70, .binary .rem), (0x74, .negate), (0x78, .binary .shl), (0x7a, .binary .shr),
    (0x7c, .binary .ushr), (0x7e, .binary .bitAnd), (0x80, .binary .bitOr), (0x82, .binary .bitXor),
    (0xac, .returnValue), (0xb1, .returnVoid)]

/-- The bytes that load a slot: the general one, and those that name one of the first four slots themselves. -/
def isLoad (raw : UInt8) (slot : UInt16) : Bool :=
  raw == 0x15 || [(0x1a, 0), (0x1b, 1), (0x1c, 2), (0x1d, 3)].contains (raw, slot)

/-- The bytes that store to a slot. -/
def isStore (raw : UInt8) (slot : UInt16) : Bool :=
  raw == 0x36 || [(0x3b, 0), (0x3c, 1), (0x3d, 2), (0x3e, 3)].contains (raw, slot)

/-- The operation of an instruction, by its byte and its operand. -/
def intOp? (i : Instruction) : Option IntOp :=
  let raw := i.opcode.raw
  match i.operand with
  | .none => bareOps.lookup raw
  | .immediate n => if raw = 0x10 ∨ raw = 0x11 then some (.const n) else none
  | .slot slot =>
    if isLoad raw slot then some (.load slot) else if isStore raw slot then some (.store slot) else none
  | .increment slot amount => if raw = 0x84 then some (.increment slot amount) else none
  | _ => none

/-- The frame of a method. -/
structure Frame where
  locals : UInt16 → Int32
  /-- The operand stack, its top first. -/
  stack : List Int32
  /-- Set by a return, to the value that it returns if there is one. -/
  returned : Option (Option Int32) := none

/-- Why the machine stops in front of an instruction. -/
inductive Fault
  | arithmetic
  /-- The operand stack is too short, or the instruction is none of the above. -/
  | malformed
  deriving DecidableEq

/-- What an operation that only moves words does to an operand stack. It fails on a stack that is too short. -/
def IntOp.move? : IntOp → List Int32 → Option (List Int32)
  | pop, _ :: s => some s
  | pop2, _ :: _ :: s => some s
  | dup, a :: s => some (a :: a :: s)
  | dupX1, a :: b :: s => some (a :: b :: a :: s)
  | dupX2, a :: b :: c :: s => some (a :: b :: c :: a :: s)
  | dup2, a :: b :: s => some (a :: b :: a :: b :: s)
  | dup2X1, a :: b :: c :: s => some (a :: b :: c :: a :: b :: s)
  | dup2X2, a :: b :: c :: d :: s => some (a :: b :: c :: d :: a :: b :: s)
  | swap, a :: b :: s => some (b :: a :: s)
  | _, _ => none

/-- Runs one operation. -/
def IntOp.exec (op : IntOp) (f : Frame) : Except Fault Frame :=
  match op with
  | const n => .ok { f with stack := n :: f.stack }
  | load slot => .ok { f with stack := f.locals slot :: f.stack }
  | store slot =>
    match f.stack with
    | a :: s => .ok { f with locals := Function.update f.locals slot a, stack := s }
    | [] => .error .malformed
  | increment slot amount =>
    .ok { f with locals := Function.update f.locals slot (f.locals slot + amount.toInt32) }
  | binary op =>
    match f.stack with
    | b :: a :: s => ((compute? op a b).map fun c => { f with stack := c :: s }).elim (.error .arithmetic) .ok
    | _ => .error .malformed
  | negate =>
    match f.stack with
    | a :: s => .ok { f with stack := -a :: s }
    | [] => .error .malformed
  | returnValue =>
    match f.stack with
    | a :: s => .ok { f with stack := s, returned := some (some a) }
    | [] => .error .malformed
  | returnVoid => .ok { f with returned := some none }
  | _ => ((op.move? f.stack).map fun s => { f with stack := s }).elim (.error .malformed) .ok

lemma exec_binary (op : BinOp) (locals : UInt16 → Int32) (a b : Int32) (s : List Int32) (ret : Option (Option Int32)) :
    (IntOp.binary op).exec ⟨locals, b :: a :: s, ret⟩ =
      ((compute? op a b).map fun c => Frame.mk locals (c :: s) ret).elim (.error .arithmetic) .ok := rfl

/-- Runs one instruction. -/
def machineStep (i : Instruction) (f : Frame) : Except Fault Frame :=
  match intOp? i with
  | some op => op.exec f
  | none => .error .malformed

/-- Runs instructions up to their end or to a return. -/
def machineRun : List Instruction → Frame → Except Fault Frame
  | [], f => .ok f
  | i :: rest, f =>
    match f.returned, machineStep i f with
    | some _, _ => .ok f
    | none, .ok f' => machineRun rest f'
    | none, .error e => .error e

/-! ### Source text -/

/-- An assignment of words to names. -/
abbrev Store := String → Int32

/-- The value of an expression. -/
def value? (σ : Store) : Expr → Option Int32
  | .int n => some n
  | .var x => some (σ x)
  | .binary op a b =>
    match value? σ a, value? σ b with
    | some m, some n => compute? op m n
    | _, _ => none
  | .unary .neg a => (value? σ a).map (- ·)
  | _ => none

/-- Runs statements in order, up to a return. The result is the last assignment, with what was returned if anything
was. -/
def execute? : List Stmt → Store → Option (Store × Option (Option Int32))
  | [], σ => some (σ, none)
  | .assign (.var x) e :: rest, σ =>
    match value? σ e with
    | some n => execute? rest (Function.update σ x n)
    | none => none
  | .returnValue e :: _, σ => (value? σ e).map fun n => (σ, some (some n))
  | .returnVoid :: _, σ => some (σ, some none)
  | _ :: _, _ => none

end JvmLift.IntCode
