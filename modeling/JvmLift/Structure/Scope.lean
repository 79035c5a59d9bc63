import JvmLift.Error
import JvmLift.Flow.Loop
import JvmLift.Flow.Region
import JvmLift.Recovery.Effect
import JvmLift.Source.Stmt

/-!
# Scopes

Where a walk over the blocks of a method stands: the loops and switches around it, the blocks at which it has to stop,
and the protected ranges that it may not leave. A jump to the exit or the header of a construct around is a `break` or a
`continue`, but only for the innermost one, since there are no labels.
-/

namespace JvmLift.Structure

open JvmLift.Flow Recovery Source

/-- Why the control flow of a method could not be written as a tree. -/
inductive Obstacle
  /-- A block could not be run on the stack it was entered with. -/
  | failedRun (error : LiftError)
  /-- A jump past the innermost construct. -/
  | labeledJump (offset : Nat)
  /-- A block that is already part of the tree. -/
  | reachedTwice (offset : Nat)
  /-- A reachable block that is not part of the tree. -/
  | leftOut (offset : Nat)
  /-- A switch with a target outside of it. -/
  | switchLeaves (offset : Nat)
  | noSwitchTargets (offset : Nat)
  | unexpectedSuccessors (offset : Nat)
  | missingBlock (id : BlockId)
  /-- The walk took more steps than there are blocks and regions for. -/
  | budget
  deriving DecidableEq, Repr

/-- A construct that `break` and `continue` can refer to, with the stack that it was entered with. -/
inductive Frame
  | loop (header : BlockId) (exit : Option BlockId) (stack : Stack)
  | switch (exit : Option BlockId) (stack : Stack)

def Frame.exit : Frame → Option BlockId
  | .loop _ exit _ | .switch exit _ => exit

def Frame.header : Frame → Option BlockId
  | .loop header _ _ => some header
  | .switch _ _ => none

def Frame.stack : Frame → Stack
  | .loop _ _ stack | .switch _ stack => stack

/-- Whether a jump to a block concerns the frame. -/
def Frame.hasTarget (frame : Frame) (id : BlockId) : Bool :=
  frame.exit == some id || frame.header == some id

structure Scope where
  /-- Constructs around, innermost first. -/
  frames : List Frame := []
  /-- Blocks that belong to what follows. -/
  stops : List BlockId := []
  /-- Protected ranges around. -/
  ranges : List (Nat × Nat) := []

namespace Scope

/-- Whether a block is the header or the exit of a construct around. -/
def isTarget (scope : Scope) (id : BlockId) : Bool :=
  scope.frames.any (·.hasTarget id)

/-- Whether the loop of a header is around. -/
def isInLoop (scope : Scope) (header : BlockId) : Bool :=
  scope.frames.any (·.header == some header)

/-- Whether a walk stops in front of a block. -/
def stopsAt (scope : Scope) (g : FlowGraph) (id : BlockId) : Bool :=
  scope.stops.contains id ||
    scope.ranges.any fun (start, stop) => g.startOf id < start || stop ≤ g.startOf id

/-- The scope of an arm that ends at a join. -/
def withStop (scope : Scope) (stop : Option BlockId) : Scope :=
  { scope with stops := stop.toList ++ scope.stops }

/-- The scope of a protected body. -/
def within (scope : Scope) (region : Region) : Scope :=
  { scope with ranges := (region.start, region.stop) :: scope.ranges }

/-- The scope of a loop's body, which is left by `break` only. -/
def enterLoop (scope : Scope) (loop : Loop) (stack : Stack) : Scope :=
  { scope with frames := .loop loop.header loop.exit stack :: scope.frames, stops := [] }

/-- The scope of a switch arm, which stops at the next arm and reaches the exit by `break`. -/
def enterArm (scope : Scope) (exit nextArm : Option BlockId) (stack : Stack) : Scope :=
  { scope with
    frames := .switch exit stack :: scope.frames
    stops := nextArm.toList ++ scope.stops.filter fun stop => some stop != exit }

/-- The statement for a jump to a block, if the block is a target of a construct around. -/
def jump? (scope : Scope) (g : FlowGraph) (id : BlockId) : Except Obstacle (Option Stmt) :=
  if scope.frames.head?.any (·.exit == some id) then .ok (some .breakOut)
  else if scope.frames.findSome? Frame.header == some id then .ok (some .continueLoop)
  else if scope.isTarget id then .error (.labeledJump (g.startOf id))
  else .ok none

/-- The stack with which the tree goes on behind a jump to a block: the one that the construct was entered with. -/
def landing? (scope : Scope) (id : BlockId) : Option Stack :=
  (scope.frames.head?.filter (·.exit == some id)).or (scope.frames.find? (·.header == some id)) |>.map Frame.stack

end Scope

end JvmLift.Structure
