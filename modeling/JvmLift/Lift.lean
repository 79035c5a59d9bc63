import JvmLift.Idiom
import JvmLift.Naming
import JvmLift.Source.Print
import JvmLift.Source.Simplify
import JvmLift.Structure.Walk

/-!
# Lifting methods

A method is lifted to a tree of statements. Its statements in code order come first: they decide whether lifting
succeeds, and they are the result when nothing better is found. A method that is one choice between two returns is
written as such at once; any other method with more than one block is structured as a whole, and falls back to code order
where that cannot be done.
-/

namespace JvmLift

open Bytecode JvmLift.Flow Recovery Source

/-- How far a method was lifted. -/
inductive Outcome
  /-- There is no code, and the body is empty. -/
  | noCode
  /-- The body is a tree of constructs. -/
  | structured
  /-- The body holds the statements in code order. -/
  | flat
  deriving DecidableEq, Repr

/-- A lifted method. -/
structure Lifted where
  tree : MethodTree
  outcome : Outcome

namespace Lift

/-- The statements of blocks in code order, with one stack passed along. A handler starts with the caught exception on
top. -/
def runBlocks (context : Recovery.Context) (handlers : List BlockId) :
    List Block → Stack → Except LiftError (List Stmt)
  | [], _ => .ok []
  | b :: rest, stack => do
    let entry := if handlers.contains b.id then Structure.Setting.caught :: stack else stack
    let recovery ← run context b.body entry
    let later ← runBlocks context handlers rest recovery.stack
    return recovery.stmts ++ later

/-- The statements of a method in code order. -/
def flatStatements (context : Recovery.Context) (shape : CodeShape) : Except LiftError (List Stmt) :=
  let handlers := shape.regions.flatMap fun region => region.handlers.map Handler.block
  runBlocks context handlers shape.graph.blocks.toList []

/-- The condition of the first block that ends in a conditional branch, if the block pushes the operands itself. -/
def firstCondition? (context : Recovery.Context) (g : FlowGraph) : Option Condition := do
  let b ← g.blocks.toList.find? Block.endsInConditional
  let branch ← b.last?
  match stackBeforeTransfer context b.body with
  | .ok stack => condition? branch.opcode stack
  | .error _ => none

def isValueReturn : Stmt → Bool
  | .returnValue _ => true
  | _ => false

/-- A choice between the first two returns of a value. -/
def twoReturns? (flat : List Stmt) (cond : Expr) : Option (List Stmt) :=
  match flat.filter isValueReturn with
  | first :: second :: _ => some [.ifElse cond [first] [second]]
  | _ => none

/-- Whether exactly one block branches, and no edge leads back. -/
def hasSingleForwardBranch (g : FlowGraph) : Bool :=
  (g.blocks.toList.filter fun b => b.endsInConditional || b.switch.isSome).length == 1 &&
    !g.blocks.toList.any fun b => b.successors.any (g.isBackEdge b.id)

/-- Whether a descriptor has the result type `boolean`. -/
def returnsBoolean (descriptor : String) : Bool :=
  ((MethodDescriptor.read? descriptor.toList).bind MethodDescriptor.ret) == some .boolean

/-- The body that stands for a method that could not be structured. -/
def fallback (name : String) (flat : List Stmt) : List Stmt :=
  .comment s!"could not structure {name}; statements shown in code order" :: flat

/-- The body of a method with the given statements in code order, before simplification. -/
def chooseBody (m : Method) (context : Recovery.Context) (options : Options) (shape : CodeShape) (flat : List Stmt) :
    List Stmt × Outcome :=
  let narrow := (firstCondition? context shape.graph).bind fun cond => twoReturns? flat cond.fallthrough
  let isWhole := flat.length == 2 && hasSingleForwardBranch shape.graph
  let needsStructure := 1 < shape.graph.size || !shape.regions.isEmpty
  match narrow.filter fun _ => isWhole || !options.structureRegions with
  | some body => (body, .structured)
  | none =>
    if options.structureRegions && needsStructure then
      match Structure.structureBody context shape with
      | .ok body => (Idiom.recover (returnsBoolean m.descriptor) body, .structured)
      | .error _ => (fallback m.name flat, .flat)
    else (flat, .flat)

end Lift

/-- Lifts a method. It fails only where an instruction takes more values than the stack holds. -/
def Method.lift (m : Method) (pool : Option Pool) (options : Options) : Except LiftError Lifted := do
  match m.code with
  | none => return ⟨⟨m.name, m.descriptor, []⟩, .noCode⟩
  | some code =>
    let shape := CodeShape.ofCode code
    let context : Recovery.Context := { method := m.name, names := Naming.ofMethod m, pool, options }
    let flat ← Lift.flatStatements context shape
    let (body, outcome) := Lift.chooseBody m context options shape flat
    let body := if options.simplify then simplifyBody body else body
    return ⟨⟨m.name, m.descriptor, body⟩, outcome⟩

end JvmLift
