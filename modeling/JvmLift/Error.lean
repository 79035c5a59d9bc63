import JvmLift.Text.Quoted

/-!
# Errors of lifting a method

Only two things make lifting fail. Whatever else is wrong with a method (undecodable bytes, jumps to nowhere, shapes that
cannot be structured) shows in the output instead.
-/

namespace JvmLift

inductive LiftError
  /-- An instruction took more values than the operand stack held. -/
  | stackUnderflow (method : String) (offset : Nat)
  | invalidDescriptor (text : String)
  deriving DecidableEq, Repr

def LiftError.message : LiftError → String
  | .stackUnderflow method offset => s!"operand stack underflow in {method} at offset {offset}"
  | .invalidDescriptor text => s!"invalid descriptor {Text.quoted text}"

end JvmLift
