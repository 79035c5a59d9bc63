import JvmLift.Main
import JvmLift.Proofs.RoundTrip
import JvmLift.Proofs.Simulation
import JvmLift.Proofs.StraightLine
import JvmLift.Proofs.Balance
import JvmLift.Proofs.Simplification
import JvmLift.Proofs.WordMachine
import JvmLift.Proofs.Idioms
import JvmLift.Proofs.Joins
import JvmLift.Proofs.CodeOrder
import JvmLift.Proofs.SwitchRuns
import JvmLift.Proofs.Coverage
import JvmLift.Proofs.Partition
import JvmLift.Proofs.Blindness
import JvmLift.Proofs.JumpTargets
import JvmLift.Proofs.TwoReturns
import JvmLift.Proofs.DescriptorText
import JvmLift.Proofs.RegionTable
import JvmLift.Proofs.CallOrder
import JvmLift.Proofs.NormalForm
import JvmLift.Proofs.Effects
import JvmLift.Proofs.FloatComparisons
import JvmLift.Proofs.ShortCircuit
import JvmLift.Proofs.Underneath
import JvmLift.Proofs.Concatenation
import JvmLift.Proofs.PoolBuilding
import JvmLift.Proofs.ParameterNames
import JvmLift.Proofs.LockOrder
import JvmLift.Proofs.BooleanChoices
import JvmLift.Proofs.Iteration
import JvmLift.Proofs.CatchBindings
import JvmLift.Proofs.UniqueReading
import JvmLift.Proofs.Extension
import JvmLift.Proofs.ArrayCreations
import JvmLift.Proofs.UnfinishedObjects
import JvmLift.Proofs.NaturalLoops
import JvmLift.Proofs.JoinSearch
import JvmLift.Proofs.CursorSessions
