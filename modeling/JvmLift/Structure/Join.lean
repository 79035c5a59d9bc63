import JvmLift.Structure.Scope

/-!
# Joins

What is still open in a walk, and the search for the block at which two ways through the open blocks meet again. The
search goes forward only: along edges to later blocks, through blocks that are open and no target of a construct around,
and not beyond a block at which the scope stops.
-/

namespace JvmLift.Structure

open JvmLift.Flow Recovery

/-- What a walk still has to place. -/
structure Todo where
  /-- Blocks that are not yet part of the tree. -/
  blocks : List BlockId
  /-- Regions that are not yet part of the tree. -/
  regions : List Region
  /-- Handlers whose first instruction stored the exception and became the binding of a `catch`. -/
  captured : List BlockId := []
  /-- Blocks at which an arm stopped although its construct goes on elsewhere. The tree does not show these jumps. -/
  strays : List BlockId := []
  /-- Stacks that met: the one with which the tree goes on, and one that it drops. -/
  meetings : List (Stack × Stack) := []

namespace Todo

def isOpen (todo : Todo) (id : BlockId) : Bool :=
  todo.blocks.contains id

/-- Takes a block into the tree. -/
def visit (todo : Todo) (id : BlockId) : Todo :=
  { todo with blocks := todo.blocks.erase id }

/-- Takes a region into the tree. -/
def enter (todo : Todo) (region : Region) : Todo :=
  { todo with regions := todo.regions.erase region }

/-- Notes that the first instruction of a handler is not to be run. -/
def capture (todo : Todo) (handler : BlockId) : Todo :=
  { todo with captured := handler :: todo.captured }

/-- Notes where an arm stopped, unless its construct goes on there. -/
def noteStop (todo : Todo) (stop next : Option BlockId) : Todo :=
  { todo with strays := (stop.filter (some · != next)).toList ++ todo.strays }

/-- Notes that the tree goes on with one stack where control may also come with another one. -/
def meet (todo : Todo) (kept dropped : Stack) : Todo :=
  { todo with meetings := (kept, dropped) :: todo.meetings }

/-- Notes the stack of a jump to a target of the scope. -/
def land (todo : Todo) (scope : Scope) (id : BlockId) (stack : Stack) : Todo :=
  { todo with meetings := (scope.landing? id).toList.map (·, stack) ++ todo.meetings }

/-- The outermost open region that starts at a block. -/
def regionAt? (todo : Todo) (g : FlowGraph) (id : BlockId) : Option Region :=
  lastGreatestBy? Region.stop (todo.regions.filter (·.start == g.startOf id))

/-- Whether a forward search may enter a block. -/
def admits (todo : Todo) (scope : Scope) (id : BlockId) : Bool :=
  todo.isOpen id && !scope.isTarget id

/-- The blocks to which a forward search goes on from a block. -/
def forward (todo : Todo) (g : FlowGraph) (scope : Scope) (id : BlockId) : List BlockId :=
  if scope.stopsAt g id then []
  else (g.successors id).filter fun next => !g.isBackEdge id next && todo.admits scope next

/-- The blocks that a forward search finds, its start included. -/
def forwardReach (todo : Todo) (g : FlowGraph) (scope : Scope) (start : BlockId) : List BlockId :=
  if todo.admits scope start then reach g.size (todo.forward g scope) [start] else []

/-- The earliest block that forward searches from both blocks find. -/
def earliestJoin (todo : Todo) (g : FlowGraph) (scope : Scope) (a b : BlockId) : Option BlockId :=
  let fromB := todo.forwardReach g scope b
  leastBy? g.startOf ((todo.forwardReach g scope a).filter fromB.contains)

/-- Where a switch with the given targets ends. A default that stands behind every case and is entered from one of them
is the end. Otherwise it is the earliest block behind all targets that is found from two of them. -/
def switchExit (todo : Todo) (g : FlowGraph) (scope : Scope) (edges : SwitchEdges) (targets : List BlockId) :
    Option BlockId :=
  let reaches := targets.map fun target => (target, todo.forwardReach g scope target)
  let isEnd (d : BlockId) : Bool :=
    edges.cases.all (fun (_, target) => g.startOf target < g.startOf d) &&
      (edges.cases.isEmpty || reaches.any fun (target, found) => target != d && found.contains d)
  let behind (id : BlockId) : Bool :=
    targets.all (g.startOf · < g.startOf id) && 2 ≤ reaches.countP fun (_, found) => found.contains id
  (edges.default.filter isEnd).or <| leastBy? g.startOf ((List.range g.size).filter behind)

end Todo

end JvmLift.Structure
