import JvmLift.Bytecode.Decode

/-!
# Control-flow graphs

Instructions are cut into basic blocks at leaders: the first instruction, every target of a transfer, the instruction
behind a transfer, and any further offsets asked for. A leader that is not the offset of an instruction starts no block,
and an edge to it is dropped. Blocks are numbered in the order of their starts.
-/

namespace JvmLift.Flow

open Bytecode

/-- The number of a block in its graph. -/
abbrev BlockId := Nat

/-- The edges out of a multi-way branch that lead to blocks. -/
structure SwitchEdges where
  default : Option BlockId
  /-- Keys with their targets, in encoding order. -/
  cases : List (Int32 × BlockId)
  deriving DecidableEq

/-- The distinct targets: the default first, then the cases in order. -/
def SwitchEdges.targets (e : SwitchEdges) : List BlockId :=
  (e.default.toList ++ e.cases.map Prod.snd).eraseDups

/-- A run of instructions that is entered only at its start and left only at its end. -/
structure Block where
  id : BlockId
  start : Nat
  /-- The offset behind the last instruction. -/
  stop : Nat
  body : List Instruction
  /-- Successors other than those of a multi-way branch. A taken branch comes before the fallthrough. -/
  succs : List BlockId
  switch : Option SwitchEdges
  preds : List BlockId
  deriving DecidableEq

namespace Block

def last? (b : Block) : Option Instruction :=
  b.body.getLast?

def endsInConditional (b : Block) : Bool :=
  b.last?.any Instruction.isConditional

def endsInExit (b : Block) : Bool :=
  b.last?.any Instruction.isExit

end Block

/-! ### Leaders -/

/-- Leaders that follow from the instructions themselves. With `afterExits`, what stands behind a return or a throw
starts a block too. -/
def inherentLeaders (afterExits : Bool) : List Instruction → List Nat
  | [] => []
  | i :: rest =>
    (if i.isTransfer then i.targets else []) ++
    (if i.isTransfer || (afterExits && i.isExit) then (rest.head?.map Instruction.offset).toList else []) ++
    inherentLeaders afterExits rest

/-- Puts a number in its place in an ascending list, unless it is there. -/
def insertAscending (n : Nat) : List Nat → List Nat
  | [] => [n]
  | m :: rest => if n < m then n :: m :: rest else if n = m then m :: rest else m :: insertAscending n rest

/-- The distinct numbers of a list in ascending order. -/
def ascending (ns : List Nat) : List Nat :=
  ns.foldr insertAscending []

/-- Where the blocks start: the leaders that are offsets of instructions, in ascending order. -/
def blockStarts (afterExits : Bool) (extra : List Nat) (insns : List Instruction) : List Nat :=
  let leaders := (insns.head?.map Instruction.offset).toList ++ extra ++ inherentLeaders afterExits insns
  ascending ((insns.map Instruction.offset).filter leaders.contains)

/-- The instructions from each start up to the next one. -/
def cutAt (insns : List Instruction) : List Nat → List (Nat × List Instruction)
  | [] => []
  | [start] => [(start, insns.filter fun i => start ≤ i.offset)]
  | start :: stop :: rest =>
    (start, insns.filter fun i => start ≤ i.offset && i.offset < stop) :: cutAt insns (stop :: rest)

/-! ### Edges -/

/-- The edges of a block with the given last instruction. `next` is the block behind it, and `resolve` finds the block
that starts at an offset. -/
def edgesOf (resolve : Nat → Option BlockId) (next : Option BlockId) (last : Option Instruction) :
    List BlockId × Option SwitchEdges :=
  match last with
  | none => (next.toList, none)
  | some i =>
    if i.isJump then ((i.target?.bind resolve).toList, none)
    else if i.isConditional then (((i.target?.bind resolve).toList ++ next.toList).eraseDups, none)
    else if i.isExit then ([], none)
    else if i.isSwitch then
      ([], i.switchTable?.map fun table =>
        { default := resolve table.default
          cases := table.cases.filterMap fun (key, target) => (resolve target).map (key, ·) })
    else (next.toList, none)

/-- The successors of a block: first its ordinary ones, then the targets of its multi-way branch. -/
def outgoing (succs : List BlockId) (switch : Option SwitchEdges) : List BlockId :=
  match switch with
  | none => succs
  | some edges => succs ++ edges.targets.filter fun b => !succs.contains b

def Block.successors (b : Block) : List BlockId :=
  outgoing b.succs b.switch

structure FlowGraph where
  blocks : Array Block
  deriving DecidableEq

namespace FlowGraph

/-- The blocks of a graph before their predecessors are known. -/
def blocksOf (starts : List Nat) (insns : List Instruction) : List Block :=
  (cutAt insns starts).zipIdx.map fun ((start, body), id) =>
    let next := if id + 1 < starts.length then some (id + 1) else none
    let (succs, switch) := edgesOf (starts.idxOf? ·) next body.getLast?
    { id, start, stop := (body.getLast?.map Instruction.next).getD start, body, succs, switch, preds := [] }

/-- Lists each block's predecessors in ascending order. -/
def linkPreds (blocks : List Block) : List Block :=
  let sources := blocks.map fun b => (b.id, b.successors)
  blocks.map fun b =>
    { b with preds := (sources.filter fun (_, succs) => succs.contains b.id).map Prod.fst }

/-- The graph of an instruction list, cut also at the offsets in `extra` and, with `afterExits`, behind every exit. -/
def build (insns : List Instruction) (extra : List Nat) (afterExits : Bool) : FlowGraph :=
  ⟨(linkPreds (blocksOf (blockStarts afterExits extra insns) insns)).toArray⟩

/-- The graph that is cut at transfers only. -/
def ofInstructions (insns : List Instruction) : FlowGraph :=
  build insns [] false

/-- The graph that is cut also at the given offsets and behind exits, so that exception handlers get blocks of their
own. -/
def withLeaders (insns : List Instruction) (extra : List Nat) : FlowGraph :=
  build insns extra true

def size (g : FlowGraph) : Nat :=
  g.blocks.size

def block? (g : FlowGraph) (id : BlockId) : Option Block :=
  g.blocks[id]?

/-- The start of a block. -/
def startOf (g : FlowGraph) (id : BlockId) : Nat :=
  ((g.block? id).map Block.start).getD 0

def stopOf (g : FlowGraph) (id : BlockId) : Nat :=
  ((g.block? id).map Block.stop).getD 0

def successors (g : FlowGraph) (id : BlockId) : List BlockId :=
  ((g.block? id).map Block.successors).getD []

def preds (g : FlowGraph) (id : BlockId) : List BlockId :=
  ((g.block? id).map Block.preds).getD []

/-- The block that starts at an offset. -/
def startingAt? (g : FlowGraph) (offset : Nat) : Option BlockId :=
  (g.blocks.find? (·.start == offset)).map Block.id

/-- The block that contains an offset. -/
def containing? (g : FlowGraph) (offset : Nat) : Option BlockId :=
  ((g.blocks.filter (·.start ≤ offset)).back?.filter (offset < ·.stop)).map Block.id

/-- Whether an edge does not lead forward in the code. -/
def isBackEdge (g : FlowGraph) (source target : BlockId) : Bool :=
  g.startOf target ≤ g.startOf source

end FlowGraph

end JvmLift.Flow
