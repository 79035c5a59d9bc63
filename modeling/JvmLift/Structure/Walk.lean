import JvmLift.Recovery.Step
import JvmLift.Structure.Join

/-!
# From blocks to statements

The walk follows the blocks in the order of the flow and runs each on the stack that its predecessor left. What it meets
becomes a construct: a protected range a `try`, a loop header a `while`, a conditional branch an `if` or a choice of
values, a multi-way branch a `switch`. A construct is written by a function that is given the walk for its parts; the
walk itself ties them together. Every step takes a block or a region into the tree or enters a loop whose header is next,
so its budget is bounded by their numbers.
-/

namespace JvmLift.Structure

open Bytecode JvmLift.Flow Recovery Source

/-- What a walk depends on and does not change. -/
structure Setting where
  graph : FlowGraph
  regions : List Region
  loops : List Loop
  context : Recovery.Context

/-- A part of a walk. -/
abbrev Walk := StateT Todo (Except Obstacle)

/-- What a part of a walk comes to: statements, the block to go on with unless control has left, and the stack there. -/
structure Progress where
  stmts : List Stmt := []
  next : Option BlockId
  stack : Stack

/-- The stack behind a part of a walk, or another one where control does not come to its end. -/
def Progress.stackOr (p : Progress) (other : Stack) : Stack :=
  if p.next.isSome then p.stack else other

/-- A walk from a block up to the bounds of a scope. With `entering`, the block is the header of the loop whose body
starts here, and not a jump back to it. -/
abbrev Walker := Scope → (entering : Bool) → BlockId → Stack → Walk Progress

namespace Setting

variable (s : Setting)

def loop? (header : BlockId) : Option Loop :=
  s.loops.find? (·.header == header)

def block (id : BlockId) : Walk Block :=
  match s.graph.block? id with
  | some b => pure b
  | none => throw (.missingBlock id)

/-- Whether a block of the graph is not yet part of the tree. -/
def isOpen (id : BlockId) : Walk Bool := do
  let _ ← s.block id
  return (← get).isOpen id

/-- Runs instructions; a failure ends the walk. -/
def runFrom (insns : List Instruction) (stack : Stack) : Walk Recovered :=
  match run s.context insns stack with
  | .ok recovery => pure recovery
  | .error e => throw (.failedRun e)

/-- Runs a block, without the store that became the binding of a `catch`. -/
def runBlock (id : BlockId) (stack : Stack) : Walk Recovered := do
  let b ← s.block id
  let skip := if (← get).captured.contains id then 1 else 0
  s.runFrom (b.body.drop skip) stack

def jump? (scope : Scope) (id : BlockId) : Walk (Option Stmt) :=
  match scope.jump? s.graph id with
  | .ok jump => pure jump
  | .error e => throw e

/-- Whether a block starts no construct of its own, so that it may become a part of another one. -/
def isPlain (scope : Scope) (id : BlockId) : Walk Bool := do
  let todo ← get
  return todo.isOpen id && !scope.stopsAt s.graph id && !scope.isTarget id && (s.loop? id).isNone &&
    (todo.regionAt? s.graph id).isNone

/-! ### Tests -/

/-- A test with the blocks behind it. -/
structure Fork where
  /-- The condition under which `taken` is next. -/
  cond : Expr
  taken : BlockId
  fall : BlockId

/-- The condition and the successors of a block that does nothing but test, with the stack behind it. -/
def bareTest? (id : BlockId) (stack : Stack) : Walk (Option (Condition × BlockId × BlockId × Stack)) := do
  let b ← s.block id
  match b.succs with
  | [taken, fall] =>
    let recovery ← s.runBlock id stack
    match recovery.exit with
    | some (.conditional cond) =>
      if recovery.stmts.isEmpty && recovery.stack.length == stack.length then
        return some (cond, taken, fall, recovery.stack)
      else return none
    | _ => return none
  | _ => return none

/-- Takes the next test into a condition, when the next block does nothing but test, is entered only from here, and
shares a target. -/
def mergeNext? (scope : Scope) (stack : Stack) (fork : Fork) : Walk (Option Fork) := do
  let b ← s.block fork.fall
  if !(← s.isPlain scope fork.fall) || b.preds.length != 1 || !b.endsInConditional then return none
  match ← s.bareTest? fork.fall stack with
  | none => return none
  | some (cond, taken, fall, left) =>
    if taken = fork.taken then
      modify fun todo => (todo.visit fork.fall).meet stack left
      return some { fork with cond := .binary .or fork.cond cond.taken, fall }
    else if fall = fork.taken then
      modify fun todo => (todo.visit fork.fall).meet stack left
      return some { fork with cond := .binary .or fork.cond cond.fallthrough, fall := taken }
    else return none

/-- Takes further tests into a condition, fewer than `n` of them. -/
def mergeTests (scope : Scope) (stack : Stack) : Nat → Fork → Walk Fork
  | 0, _ => throw .budget
  | n + 1, fork => do
    match ← s.mergeNext? scope stack fork with
    | some merged => mergeTests scope stack n merged
    | none => return fork

/-- The value of a choice between two arms that do nothing but push one value each. -/
def choice? (cond : Expr) (join : BlockId) (depth : Nat) (thenArm elseArm : Progress) : Option Stack :=
  match thenArm.stack, elseArm.stack with
  | v :: below, w :: _ =>
    if thenArm.stmts.isEmpty && elseArm.stmts.isEmpty && thenArm.next == some join && elseArm.next == some join &&
        thenArm.stack.length == depth + 1 && elseArm.stack.length == depth + 1 then
      some (⟨.ternary cond v.expr w.expr, v.wide⟩ :: below)
    else none
  | _, _ => none

/-- The stack of a choice, as it is seen from the second arm: it comes from the first arm but for the value. -/
def seenFrom (elseArm thenArm : Progress) : Stack :=
  match thenArm.stack, elseArm.stack with
  | v :: below, w :: _ => { v with expr := w.expr } :: below
  | stack, _ => stack

/-- An `if` without empty arms where they can be avoided. -/
def ifStmt (cond negated : Expr) (thenBody elseBody : List Stmt) : Stmt :=
  if elseBody.isEmpty then .ifThen cond thenBody
  else if thenBody.isEmpty then .ifThen negated elseBody
  else .ifElse cond thenBody elseBody

/-- An `if` without an `else`, whose arm from `arm` goes on at `join`. -/
def emitArm (walk : Walker) (scope : Scope) (stack : Stack) (cond : Expr) (arm join : BlockId) : Walk Progress := do
  let body ← walk (scope.withStop (some join)) false arm stack
  let kept := body.stackOr stack
  modify fun todo => (todo.noteStop body.next (some join)).meet kept stack
  return { stmts := [.ifThen cond body.stmts], next := some join, stack := kept }

/-- Two arms, either as a choice of values or as an `if` with both. -/
def emitArms (walk : Walker) (scope : Scope) (stack : Stack) (fork : Fork) (join : Option BlockId) :
    Walk Progress := do
  let negated := fork.cond.negate
  let thenArm ← walk (scope.withStop join) false fork.fall stack
  let elseArm ← walk (scope.withStop join) false fork.taken stack
  match join.bind fun join => choice? negated join stack.length thenArm elseArm with
  | some merged =>
    modify (·.meet (seenFrom elseArm thenArm) elseArm.stack)
    return { next := join, stack := merged }
  | none =>
    let next := join.or (thenArm.next.or elseArm.next)
    let kept := thenArm.stackOr (elseArm.stackOr stack)
    modify fun todo =>
      ((todo.noteStop thenArm.next next).noteStop elseArm.next next).meet kept (elseArm.stackOr kept)
    return { stmts := [ifStmt negated fork.cond thenArm.stmts elseArm.stmts], next, stack := kept }

/-- A conditional branch. An arm that only jumps to a construct around becomes `if (…) break;`. -/
def emitFork (walk : Walker) (scope : Scope) (stack : Stack) (fork : Fork) : Walk Progress := do
  match ← s.jump? scope fork.taken, ← s.jump? scope fork.fall with
  | some taken, some fall =>
    modify fun todo => (todo.land scope fork.taken stack).land scope fork.fall stack
    return { stmts := [.ifThen fork.cond [taken], fall], next := none, stack }
  | some taken, none =>
    modify (·.land scope fork.taken stack)
    return { stmts := [.ifThen fork.cond [taken]], next := some fork.fall, stack }
  | none, some fall =>
    modify (·.land scope fork.fall stack)
    return { stmts := [.ifThen fork.cond.negate [fall]], next := some fork.taken, stack }
  | none, none =>
    let join := (← get).earliestJoin s.graph scope fork.fall fork.taken
    if join = some fork.taken then emitArm walk scope stack fork.cond.negate fork.fall fork.taken
    else if join = some fork.fall then emitArm walk scope stack fork.cond fork.taken fork.fall
    else emitArms walk scope stack fork join

/-! ### Switches -/

/-- The bodies of switch arms, each walked up to the next arm. -/
def emitBodies (walk : Walker) (scope : Scope) (exit : Option BlockId) (stack : Stack) :
    List BlockId → Walk (List (BlockId × List Stmt))
  | [] => return []
  | target :: rest => do
    let body ← walk (scope.enterArm exit rest.head? stack) false target stack
    modify (·.noteStop body.next rest.head?)
    let bodies ← emitBodies walk scope exit stack rest
    return (target, body.stmts) :: bodies

/-- The cases of one target: all keys but the last fall through. -/
def casesOf (edges : SwitchEdges) (target : BlockId) (body : List Stmt) : List (Int32 × List Stmt) :=
  let keys := (edges.cases.filter (·.2 == target)).map Prod.fst
  keys.dropLast.map (·, []) ++ keys.getLast?.toList.map (·, body)

/-- The arms of a switch with the given bodies. -/
def armsOf (edges : SwitchEdges) (bodies : List (BlockId × List Stmt)) : Arms :=
  let default := (bodies.find? fun (target, _) => edges.default == some target).map Prod.snd
  .ofCases default (bodies.flatMap fun (target, body) => casesOf edges target body)

/-- A multi-way branch. -/
def emitSwitch (walk : Walker) (scope : Scope) (id : BlockId) (selector : Expr) (stack : Stack) : Walk Progress := do
  match (← s.block id).switch with
  | none => throw (.noSwitchTargets (s.graph.startOf id))
  | some edges =>
    let targets := ascending edges.targets
    let todo ← get
    if targets.any fun target => !todo.admits scope target then throw (.switchLeaves (s.graph.startOf id))
    let exit := todo.switchExit s.graph scope edges targets
    let bodies ← emitBodies walk scope exit stack (targets.filter fun target => some target != exit)
    return { stmts := [.switch selector (armsOf edges bodies)], next := exit, stack }

/-! ### Loops -/

/-- The condition and the first block of the body of a loop whose header does nothing but test whether to leave, with
the stack behind the test. -/
def loopTest? (loop : Loop) (stack : Stack) : Walk (Option (Expr × BlockId × Stack)) := do
  if ((← get).regionAt? s.graph loop.header).isSome then return none
  match ← s.bareTest? loop.header stack with
  | none => return none
  | some (cond, taken, fall, left) =>
    if loop.body.contains taken && !loop.body.contains fall && loop.exit == some fall then
      return some (cond.taken, taken, left)
    else if !loop.body.contains taken && loop.body.contains fall && loop.exit == some taken then
      return some (cond.fallthrough, fall, left)
    else return none

/-- The body without a `continue` at its end, where it says nothing. -/
def dropContinue (body : List Stmt) : List Stmt :=
  match body.getLast? with
  | some .continueLoop => body.dropLast
  | _ => body

/-- A loop. Unless its header is a bare test it runs until a `break`. -/
def emitLoop (walk : Walker) (scope : Scope) (loop : Loop) (stack : Stack) : Walk Progress := do
  let inner := scope.enterLoop loop stack
  match ← s.loopTest? loop stack with
  | some (cond, entry, left) =>
    modify fun todo => (todo.visit loop.header).meet stack left
    let body ← walk inner false entry stack
    return { stmts := [.whileLoop cond (dropContinue body.stmts)], next := loop.exit, stack }
  | none =>
    let body ← walk inner true loop.header stack
    return { stmts := [.whileLoop (.bool true) (dropContinue body.stmts)], next := loop.exit, stack }

/-! ### Protected ranges -/

/-- The name of a caught type. -/
def catchTypeName : CatchType → String
  | .any => "Throwable"
  | .named index =>
    ((s.context.pool.bind (·.className? index)).map classOperandName).getD s!"class#{index.toNat}"

/-- A caught exception on the stack. -/
def caught : StackValue := ⟨.var "e", false⟩

/-- The variable to which a handler's first instruction stores the exception. -/
def storedName? (handler : Block) : Walk (Option String) := do
  match handler.body.head? with
  | none => return none
  | some first =>
    if !first.opcode.storesReference then return none
    match (← s.runFrom [first] [caught]).stmts with
    | .assign (.var name) _ :: _ => return some name
    | _ => return none

/-- The name that a handler gives to the exception, and the stack that it starts with. -/
def catchBinding (id : BlockId) : Walk (String × Stack) := do
  match ← s.storedName? (← s.block id) with
  | some name =>
    modify (·.capture id)
    return (name, [])
  | none => return ("e", [caught])

/-- The clauses of handlers that are not yet part of the tree, and where the construct goes on. -/
def emitHandlers (walk : Walker) (scope : Scope) (continuation : Option BlockId) :
    List Handler → Walk (List CatchClause × Option BlockId)
  | [] => return ([], continuation)
  | handler :: rest => do
    if !(← s.isOpen handler.block) then emitHandlers walk scope continuation rest
    else
      let (binding, entry) ← s.catchBinding handler.block
      let body ← walk (scope.withStop continuation) false handler.block entry
      let (clauses, continuation) ← emitHandlers walk scope (continuation.or body.next) rest
      return (⟨s.catchTypeName handler.catchType, binding, body.stmts⟩ :: clauses, continuation)

/-- The block behind a lone jump at the end of a protected range, so that the range and its handlers meet at one
block. -/
def throughGoto (scope : Scope) (id : BlockId) : Walk BlockId := do
  let b ← s.block id
  match b.body, b.succs with
  | [i], [target] =>
    if i.opcode.isGoto && b.preds.length == 1 && (← s.isPlain scope id) then
      modify (·.visit id)
      return target
    else return id
  | _, _ => return id

/-- A protected range with its handlers. Without a handler of its own it is only its body. -/
def emitTry (walk : Walker) (scope : Scope) (region : Region) (id : BlockId) (stack : Stack) : Walk Progress := do
  modify (·.enter region)
  let body ← walk (scope.within region) false id stack
  let continuation ← body.next.mapM (s.throughGoto scope)
  let (clauses, continuation) ← s.emitHandlers walk scope continuation region.handlers
  let stmts := if clauses.isEmpty then body.stmts else [.tryCatch body.stmts (.ofCatches none clauses)]
  return { stmts, next := continuation, stack := if continuation.isSome then body.stack else stack }

/-! ### The walk -/

/-- What follows from the branch at the end of a block that has been run. -/
def emitExit (walk : Walker) (scope : Scope) (b : Block) (id : BlockId) (recovery : Recovered) : Walk Progress :=
  match recovery.exit, b.succs with
  | some (.switch selector), _ => s.emitSwitch walk scope id selector recovery.stack
  | some (.conditional cond), [taken, fall] => do
    let fork ← s.mergeTests scope recovery.stack s.graph.size ⟨cond.taken, taken, fall⟩
    s.emitFork walk scope recovery.stack fork
  | _, [] => return { next := none, stack := recovery.stack }
  | _, [next] => return { next := some next, stack := recovery.stack }
  | _, _ => throw (.unexpectedSuccessors b.start)

/-- A block by itself, with the branch at its end. -/
def emitBlock (walk : Walker) (scope : Scope) (id : BlockId) (stack : Stack) : Walk Progress := do
  let b ← s.block id
  modify (·.visit id)
  let recovery ← s.runBlock id stack
  let tail ← s.emitExit walk scope b id recovery
  return { tail with stmts := recovery.stmts ++ tail.stmts }

/-- The construct that starts at a block. A loop that contains a protected range with the same start is around it. -/
def emitConstruct (walk : Walker) (scope : Scope) (id : BlockId) (stack : Stack) : Walk Progress := do
  let loop := if scope.isInLoop id then none else s.loop? id
  let region := ((← get).regionAt? s.graph id).filter fun region => !loop.any (region.stop ≤ ·.stop)
  match region, loop with
  | some region, _ => s.emitTry walk scope region id stack
  | none, some loop => s.emitLoop walk scope loop stack
  | none, none => s.emitBlock walk scope id stack

/-- The statement for a jump to a block, unless the block is the header of the loop whose body starts here. -/
def entryJump? (scope : Scope) (entering : Bool) (id : BlockId) : Walk (Option Stmt) :=
  if entering then return none else s.jump? scope id

/-- Walks up to the bounds of the scope. -/
def walk : Nat → Walker
  | 0, _, _, _, _ => throw .budget
  | fuel + 1, scope, entering, id, stack => do
    let b ← s.block id
    match ← s.entryJump? scope entering id with
    | some jump =>
      modify (·.land scope id stack)
      return { stmts := [jump], next := none, stack }
    | none =>
      let todo ← get
      if scope.stopsAt s.graph id then return { next := some id, stack }
      else if !todo.isOpen id then throw (.reachedTwice b.start)
      else
        let first ← s.emitConstruct (walk fuel) scope id stack
        match first.next with
        | none => return first
        | some next =>
          let rest ← walk fuel scope false next first.stack
          return { rest with stmts := first.stmts ++ rest.stmts }

/-- The blocks that can be reached from the entry, also through the handlers of a block's protected ranges. -/
def reachable : List BlockId :=
  let handlers (id : BlockId) : List BlockId :=
    (s.regions.filter (·.covers (s.graph.startOf id))).flatMap fun region => region.handlers.map Handler.block
  reach s.graph.size (fun id => s.graph.successors id ++ handlers id) [0]

/-- Walks from the entry and checks that no reachable block is left out. -/
def structured : Walk (List Stmt) := do
  let body ← s.walk (2 * (s.graph.size + s.regions.length) + 2) {} false 0 []
  let todo ← get
  match s.reachable.find? todo.isOpen with
  | some id => throw (.leftOut (s.graph.startOf id))
  | none => return body.stmts

end Setting

/-- What a walk depends on for the code of a method. -/
def Setting.ofShape (context : Recovery.Context) (shape : CodeShape) : Setting :=
  { graph := shape.graph, regions := shape.regions, loops := Loop.all shape.graph, context }

/-- All that there is to place. -/
def Todo.ofShape (shape : CodeShape) : Todo :=
  { blocks := List.range shape.graph.size, regions := shape.regions }

/-- The body of a method as a tree of constructs, with what the walk came to. -/
def structureWalk (context : Recovery.Context) (shape : CodeShape) : Except Obstacle (List Stmt × Todo) :=
  if shape.graph.size = 0 then .ok ([], Todo.ofShape shape)
  else (Setting.ofShape context shape).structured.run (Todo.ofShape shape)

/-- The body of a method as a tree of constructs. -/
def structureBody (context : Recovery.Context) (shape : CodeShape) : Except Obstacle (List Stmt) :=
  (structureWalk context shape).map Prod.fst

end JvmLift.Structure
