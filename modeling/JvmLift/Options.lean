/-!
# Options

What can be chosen when a method is lifted. None of it decides whether lifting succeeds.
-/

namespace JvmLift

structure Options where
  /-- Leave out void static calls on the intrinsics class of Kotlin, which are checks that its compiler adds. -/
  hideKotlinIntrinsics : Bool := true
  /-- Leave out void static calls whose name starts with a dollar sign. -/
  hideDollarCalls : Bool := true
  /-- Structure the whole control flow, not only a method that is one choice between two returns. -/
  structureRegions : Bool := true
  /-- Simplify the expressions of the result. -/
  simplify : Bool := true
  deriving DecidableEq, Repr

end JvmLift
