import JvmLift.Flow.Graph
import JvmLift.Flow.Reach

/-!
# Natural loops

Every edge that does not lead forward closes a loop at its target, the header. The body of the loop is the header with
all blocks that reach the source of such an edge without passing the header.
-/

namespace JvmLift.Flow

structure Loop where
  header : BlockId
  body : List BlockId
  /-- Where the loop is left to. -/
  exit : Option BlockId
  /-- The greatest end of a block of the body. -/
  stop : Nat
  deriving DecidableEq, Repr

namespace Loop

/-- The sources of the edges that close a loop at `header`. -/
def latches (g : FlowGraph) (header : BlockId) : List BlockId :=
  (List.range g.size).filter fun b => (g.successors b).contains header && g.isBackEdge b header

/-- The header and the blocks that reach a latch without passing it. -/
def bodyOf (g : FlowGraph) (header : BlockId) : List BlockId :=
  reach g.size (fun b => if b = header then [] else g.preds b) (header :: latches g header)

/-- A header that tests is left by its branch out of the body. Otherwise the exit is the first block at or past the end
of the body that the body leads to. -/
def exitOf (g : FlowGraph) (header : BlockId) (body : List BlockId) (stop : Nat) : Option BlockId :=
  let tested := (g.block? header).bind fun b =>
    if b.endsInConditional then b.succs.find? fun s => !body.contains s else none
  tested.or <| leastBy? g.startOf <|
    (body.flatMap g.successors).filter fun s => !body.contains s && stop ≤ g.startOf s

def ofHeader (g : FlowGraph) (header : BlockId) : Loop :=
  let body := bodyOf g header
  let stop := (body.map g.stopOf).foldl max 0
  { header, body, exit := exitOf g header body stop, stop }

/-- The loops of a graph, one for each header. -/
def all (g : FlowGraph) : List Loop :=
  ((List.range g.size).filter fun header => !(latches g header).isEmpty).map (ofHeader g)

end Loop

end JvmLift.Flow
