import JvmLift.Flow.Graph
import JvmLift.Method

/-!
# Protected regions

The rows of an exception table, grouped by the range that they protect. Regions stand in the order in which their ranges
first occur, handlers in table order. A row whose handler starts no block is left out, and so is a range that keeps no
handler.
-/

namespace JvmLift.Flow

open Bytecode

/-- What a handler catches. -/
inductive CatchType
  | any
  /-- A class by its pool index. -/
  | named (index : UInt16)
  deriving DecidableEq, Repr

def CatchType.ofIndex (index : UInt16) : CatchType :=
  if index = 0 then any else named index

structure Handler where
  catchType : CatchType
  block : BlockId
  deriving DecidableEq, Repr

/-- A protected range `[start, stop)` with its handlers. -/
structure Region where
  start : Nat
  stop : Nat
  handlers : List Handler
  deriving DecidableEq, Repr

namespace Region

def covers (r : Region) (offset : Nat) : Bool :=
  r.start ≤ offset && offset < r.stop

/-- The range that a row protects. -/
def rangeOf (row : HandlerRow) : Nat × Nat :=
  (row.start.toNat, row.stop.toNat)

/-- The handler of a row, if a block starts at it. -/
def handler? (g : FlowGraph) (row : HandlerRow) : Option Handler :=
  (g.startingAt? row.handler.toNat).map (⟨CatchType.ofIndex row.catchType, ·⟩)

/-- The region of a range in a table. -/
def ofRange (g : FlowGraph) (rows : List HandlerRow) (range : Nat × Nat) : Region :=
  ⟨range.1, range.2, (rows.filter (rangeOf · == range)).filterMap (handler? g)⟩

/-- The regions of a table. -/
def ofTable (g : FlowGraph) (rows : List HandlerRow) : List Region :=
  ((rows.map rangeOf).eraseDups.map (ofRange g rows)).filter fun r => !r.handlers.isEmpty

end Region

/-- What is known of a method's code before it is run: instructions, blocks and regions. -/
structure CodeShape where
  instructions : List Instruction
  graph : FlowGraph
  regions : List Region

/-- Offsets at which an exception table asks for block boundaries. -/
def tableLeaders (rows : List HandlerRow) : List Nat :=
  rows.flatMap fun row => [row.handler.toNat, row.start.toNat, row.stop.toNat]

/-- Decodes a method's code and cuts it into blocks and regions. Handlers and the ends of protected ranges start
blocks. -/
def CodeShape.ofCode (code : Code) : CodeShape :=
  let instructions := decode code.bytes
  let graph := FlowGraph.withLeaders instructions (tableLeaders code.handlers)
  { instructions, graph, regions := Region.ofTable graph code.handlers }

end JvmLift.Flow
