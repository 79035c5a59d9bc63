import JvmLift.Idiom.Choices
import JvmLift.Idiom.Loops
import JvmLift.Idiom.Synchronized

/-!
# Idioms of source code

The passes that turn a tree of plain constructs into what a programmer would have written. They are applied to every
body, innermost bodies first, and at last the whole body loses a `return` without a value at its end.
-/

namespace JvmLift.Idiom

open Source

/-- All passes on one body. -/
def recoverBody (returnsBoolean : Bool) (body : List Stmt) : List Stmt :=
  let body := recoverFor (recoverForEach (recoverSynchronized body))
  foldAssigns (if returnsBoolean then foldReturns body else body)

/-- The body without a bare `return` at its end. -/
def dropReturn (body : List Stmt) : List Stmt :=
  match body.getLast? with
  | some .returnVoid => body.dropLast
  | _ => body

/-- All passes on a body and on every body inside it. -/
def recover (returnsBoolean : Bool) (body : List Stmt) : List Stmt :=
  dropReturn (Stmt.bottomUp (recoverBody returnsBoolean) body)

end JvmLift.Idiom
