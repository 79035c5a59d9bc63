import JvmLift.Naming
import JvmLift.Options
import JvmLift.Recovery.Concat
import JvmLift.Source.Stmt

/-!
# Running instructions on a symbolic stack

An instruction takes expressions from the stack and pushes expressions; what it stores, returns, throws or calls without
using the value becomes a statement. Nothing else fails than taking a value from an empty stack. A run of instructions is
the composition of its steps: the statements of the steps one behind the other, the last stack, and the last transfer of
control.
-/

namespace JvmLift.Recovery

open Bytecode Source

/-- What the steps of a method depend on. Without a pool, instructions that refer to one are skipped. -/
structure Context where
  method : String
  names : Naming
  pool : Option Pool := none
  options : Options := {}

/-- A transfer of control that took values from the stack. -/
inductive Exit
  | conditional (condition : Condition)
  /-- A multi-way branch on a selector. -/
  | switch (selector : Expr)

/-- What a step or a run comes to. -/
structure Recovered where
  stmts : List Stmt := []
  stack : Stack
  exit : Option Exit := none

/-! ### Taking values -/

/-- The values of the top `words` words, top first, and the stack below them. A wide value is taken whole. -/
def takeWords? : Nat → Stack → Option (List StackValue × Stack)
  | 0, stack => some ([], stack)
  | _ + 1, [] => none
  | words + 1, v :: stack =>
    (takeWords? (words + 1 - v.words) stack).map fun (taken, below) => (v :: taken, below)

/-- The top `n` values in the order in which they were pushed, and the stack below them. -/
def takeValues? (n : Nat) (stack : Stack) : Option (List Expr × Stack) :=
  if stack.length < n then none
  else some ((stack.take n).reverse.map StackValue.expr, stack.drop n)

/-! ### Pool references -/

/-- The index of the pool entry that an operand refers to. -/
def poolIndex? : Operand → Option UInt16
  | .pool index | .interfaceCall index _ | .multiArray index _ => some index
  | _ => none

/-- The member at an index, or one that shows the index. -/
def memberAt (pool : Pool) (kind : String) (index : UInt16) : Member :=
  (pool.member? index).getD ⟨"", s!"{kind}#{index.toNat}", ""⟩

/-- The source name of the class at an index, or one that shows the index. -/
def classNameAt (pool : Pool) (index : UInt16) : String :=
  ((pool.className? index).map classOperandName).getD s!"class#{index.toNat}"

/-- The constant at an index, or a variable that shows the index. -/
def constantAt (pool : Pool) (wide : Bool) (index : UInt16) : StackValue :=
  ((pool.constant? index).map constantValue).getD ⟨.var s!"const#{index.toNat}", wide⟩

/-- A static field, as a field of its class. -/
def staticField (member : Member) : Expr :=
  .field (.var (simpleClassName member.owner)) member.name

/-- Whether a field is a wide value. One with an unreadable descriptor is not. -/
def isWideField (member : Member) : Bool :=
  match FieldType.parse member.descriptor with
  | .ok type => type.isWide
  | .error _ => false

/-- The element type that is written for an array of the class at an index with `dims` given dimensions. -/
def multiArrayElement (pool : Pool) (index : UInt16) (dims : Nat) : String :=
  match (pool.className? index).map FieldType.parse with
  | some (.ok type) => (type.elementType dims).javaName
  | _ => classNameAt pool index

/-! ### Calls -/

/-- Whether a void static call is left out. -/
def Context.hides (ctx : Context) (member : Member) : Bool :=
  (ctx.options.hideKotlinIntrinsics && member.owner == "kotlin/jvm/internal/Intrinsics") ||
    (ctx.options.hideDollarCalls && member.name.startsWith "$")

/-- What becomes of the value of a call: a statement if there is none, else a value on the stack. -/
def finishCall (ret : Option FieldType) (value : Expr) (stack : Stack) : Recovered :=
  match ret with
  | none => { stmts := [.evaluate value], stack }
  | some type => { stack := ⟨value, type.isWide⟩ :: stack }

/-- A constructor call on a new object. If a copy of the object is on top of the stack, it is the finished object;
otherwise nobody uses it. -/
def construct (type : String) (args : List Expr) : Stack → Recovered
  | ⟨.uninit type', wide⟩ :: stack =>
    if type' = type then { stack := ⟨.new type args, wide⟩ :: stack }
    else { stmts := [.evaluate (.new type args)], stack := ⟨.uninit type', wide⟩ :: stack }
  | stack => { stmts := [.evaluate (.new type args)], stack }

/-- A call on a receiver. -/
def callOn (receiver : Expr) (member : Member) (ret : Option FieldType) (args : List Expr) (stack : Stack) :
    Recovered :=
  let plain := finishCall ret (.call receiver (simpleClassName member.owner) member.name args) stack
  if member.name = "<init>" then
    match receiver with
    | .uninit type => construct type args stack
    | _ => plain
  else plain

/-- A call of a resolved method. The arguments lie on top of the receiver. -/
def invoke? (ctx : Context) (isStatic : Bool) (member : Member) (stack : Stack) : Option Recovered := do
  let d := MethodDescriptor.parseD member.descriptor
  let (args, stack) ← takeValues? d.params.length stack
  if isStatic then
    if d.isVoid && ctx.hides member then return { stack }
    return finishCall d.ret (.staticCall (simpleClassName member.owner) member.name args) stack
  match stack with
  | [] => none
  | receiver :: stack => return callOn receiver.expr member d.ret args stack

/-- A call of a resolved dynamic call site. -/
def invokeDynamic? (site : CallSite) (stack : Stack) : Option Recovered := do
  let d := MethodDescriptor.parseD site.descriptor
  let (args, stack) ← takeValues? d.params.length stack
  return finishCall d.ret (dynamicCall site args) stack

/-! ### Steps -/

/-- The effect of a pool reference. `none` means that the stack is too short. -/
def usePool? (ctx : Context) (pool : Pool) (operand : Operand) (index : UInt16) (use : PoolUse) (stack : Stack) :
    Option Recovered :=
  match use, stack with
  | .constant wide, _ => some { stack := constantAt pool wide index :: stack }
  | .getStatic, _ =>
    let member := memberAt pool "field" index
    some { stack := ⟨staticField member, isWideField member⟩ :: stack }
  | .putStatic, value :: stack =>
    some { stmts := [.assign (staticField (memberAt pool "field" index)) value.expr], stack }
  | .getField, object :: stack =>
    let member := memberAt pool "field" index
    some { stack := ⟨.field object.expr member.name, isWideField member⟩ :: stack }
  | .putField, value :: object :: stack =>
    some { stmts := [.assign (.field object.expr (memberAt pool "field" index).name) value.expr], stack }
  | .invoke isStatic, _ => invoke? ctx isStatic (memberAt pool "method" index) stack
  | .invokeDynamic, _ =>
    match pool.callSite? index with
    | some site => invokeDynamic? site stack
    | none => some { stack }
  | .newObject, _ => some { stack := ⟨.uninit (classNameAt pool index), false⟩ :: stack }
  | .newArray, count :: stack =>
    some { stack := ⟨.newArray (classNameAt pool index) [count.expr], false⟩ :: stack }
  | .newMultiArray, _ => do
    let count := match operand with
      | .multiArray _ dimensions => dimensions.toNat
      | _ => 1
    let (dims, stack) ← takeValues? count stack
    return { stack := ⟨.newArray (multiArrayElement pool index dims.length) dims, false⟩ :: stack }
  | .checkCast, value :: stack =>
    some { stack := ⟨.cast (classNameAt pool index) value.expr, value.wide⟩ :: stack }
  | .instanceOf, value :: stack =>
    some { stack := ⟨.instanceOf value.expr (classNameAt pool index), false⟩ :: stack }
  | .putStatic, _ | .getField, _ | .putField, _ | .newArray, _ | .checkCast, _ | .instanceOf, _ => none

/-- The effect of an instruction. `none` means that the stack is too short. -/
def applyEffect? (ctx : Context) (i : Instruction) (effect : Effect) (stack : Stack) : Option Recovered :=
  match effect, stack with
  | .nothing, _ => some { stack }
  | .push value, _ => some { stack := value :: stack }
  | .pushImmediate, _ =>
    match i.operand with
    | .immediate n => some { stack := ⟨.int n, false⟩ :: stack }
    | _ => some { stack }
  | .load wide, _ =>
    match i.operand with
    | .slot slot => some { stack := ⟨.var (ctx.names slot i.offset), wide⟩ :: stack }
    | _ => some { stack }
  | .store, value :: stack =>
    match i.operand with
    -- A variable is in scope only behind the store that starts it.
    | .slot slot => some { stmts := [.assign (.var (ctx.names slot i.next)) value.expr], stack }
    | _ => some { stack }
  | .arrayLoad wide, position :: array :: stack =>
    some { stack := ⟨.index array.expr position.expr, wide⟩ :: stack }
  | .arrayStore, value :: position :: array :: stack =>
    some { stmts := [.assign (.index array.expr position.expr) value.expr], stack }
  | .pop words, _ => do
    let (taken, stack) ← takeWords? words stack
    return { stmts := (taken.reverse.filter (·.expr.hasSideEffects)).map (.evaluate ·.expr), stack }
  | .dup words skip, _ => do
    let (top, stack) ← takeWords? words stack
    let (below, stack) ← takeWords? skip stack
    return { stack := top ++ below ++ top ++ stack }
  | .swap, a :: b :: stack => some { stack := b :: a :: stack }
  | .binary op wide, rhs :: lhs :: stack => some { stack := ⟨.binary op lhs.expr rhs.expr, wide⟩ :: stack }
  | .negate wide, value :: stack => some { stack := ⟨.unary .neg value.expr, wide⟩ :: stack }
  | .increment, _ =>
    match i.operand with
    | .increment slot amount =>
      let var := Expr.var (ctx.names slot i.offset)
      let value := if amount < 0 then Expr.binary .sub var (.int (-amount.toInt32))
        else .binary .add var (.int amount.toInt32)
      some { stmts := [.assign var value], stack }
    | _ => some { stack }
  | .convert cast wide, value :: stack =>
    some { stack := ⟨cast.elim value.expr (.cast · value.expr), wide⟩ :: stack }
  | .compare, rhs :: lhs :: stack => some { stack := ⟨.binary .cmp lhs.expr rhs.expr, false⟩ :: stack }
  | .branch, _ => do
    let count := (branchOperandCount? i.opcode).getD 1
    let (operands, stack) ← takeValues? count stack
    let condition ← condition? i.opcode operands.reverse
    return { stack, exit := some (.conditional condition) }
  | .subroutineCall, _ => some { stack := ⟨.int (Int32.ofNat i.next), false⟩ :: stack }
  | .switch, selector :: stack => some { stack, exit := some (.switch selector.expr) }
  | .returnValue, value :: stack => some { stmts := [.returnValue value.expr], stack }
  | .returnVoid, _ => some { stmts := [.returnVoid], stack }
  | .throwValue, value :: stack => some { stmts := [.throwValue value.expr], stack }
  | .arrayLength, array :: stack => some { stack := ⟨.length array.expr, false⟩ :: stack }
  | .newPrimitiveArray, count :: stack =>
    let element := match i.operand with
      | .immediate code => (primitiveArrayType? code).getD "?"
      | _ => "?"
    some { stack := ⟨.newArray element [count.expr], false⟩ :: stack }
  | .monitor name, monitor :: stack =>
    some { stmts := [.evaluate (.staticCall "" name [monitor.expr])], stack }
  | .pooled use, _ =>
    match ctx.pool, poolIndex? i.operand with
    | some pool, some index => usePool? ctx pool i.operand index use stack
    | _, _ => some { stack }
  | .store, _ | .arrayLoad _, _ | .arrayStore, _ | .swap, _ | .binary .., _ | .negate _, _ | .convert .., _
  | .compare, _ | .switch, _ | .returnValue, _ | .throwValue, _ | .arrayLength, _ | .newPrimitiveArray, _
  | .monitor _, _ => none

/-- Runs one instruction. An undecoded tail leaves a comment. -/
def step (ctx : Context) (i : Instruction) (stack : Stack) : Except LiftError Recovered :=
  match i.operand with
  | .undecoded bytes _ =>
    .ok { stmts := [.comment s!"{bytes.length} undecodable bytes at offset {i.offset}"], stack }
  | _ =>
    match applyEffect? ctx i (effectOf i.opcode) stack with
    | some recovery => .ok recovery
    | none => .error (.stackUnderflow ctx.method i.offset)

/-- What two stages come to, one behind the other. -/
def Recovered.andThen (first second : Recovered) : Recovered :=
  { stmts := first.stmts ++ second.stmts, stack := second.stack, exit := second.exit.or first.exit }

/-- Runs instructions from a stack. -/
def run (ctx : Context) : List Instruction → Stack → Except LiftError Recovered
  | [], stack => .ok { stack }
  | i :: rest, stack => do
    let first ← step ctx i stack
    let second ← run ctx rest first.stack
    return first.andThen second

/-- The stack just before the first transfer of control, or at the end, from an empty stack. Its top is first. -/
def stackBeforeTransfer (ctx : Context) (insns : List Instruction) : Except LiftError (List Expr) := do
  let recovery ← run ctx (insns.takeWhile fun i => !i.isTransfer) []
  return recovery.stack.map StackValue.expr

end JvmLift.Recovery
