import JvmLift.Source.Stmt

/-!
# Choices as values

A method with a boolean result returns the numbers one and zero, which choose between `true` and `false`. A choice
between them is a return of the condition itself, and a choice between two assignments to one target is one assignment.
-/

namespace JvmLift.Idiom

open Source

/-! ### Boolean returns -/

/-- The number that an expression is. -/
def literal? : Expr → Option Int32
  | .int n => some n
  | _ => none

/-- The number that a statement returns. -/
def returnedLiteral? : Stmt → Option Int32
  | .returnValue value => literal? value
  | _ => none

/-- The number that a body of one statement returns. -/
def onlyReturn? : List Stmt → Option Int32
  | [s] => returnedLiteral? s
  | _ => none

/-- The condition under which a choice of two numbers is a one, if the other one is zero. -/
def chosen? (cond : Expr) (thenValue elseValue : Option Int32) : Option Expr :=
  if thenValue == some 1 && elseValue == some 0 then some cond
  else if thenValue == some 0 && elseValue == some 1 then some cond.negate
  else none

/-- A return that chooses between one and zero, as the return of its condition. -/
def foldReturn : Stmt → Stmt
  | .ifElse cond thenBody elseBody =>
    match chosen? cond (onlyReturn? thenBody) (onlyReturn? elseBody) with
    | some value => .returnValue value
    | none => .ifElse cond thenBody elseBody
  | .returnValue (.ternary cond a b) =>
    match chosen? cond (literal? a) (literal? b) with
    | some value => .returnValue value
    | none => .returnValue (.ternary cond a b)
  | s => s

/-- Adds a statement to the finished ones, the last one first. A return behind an `if` with the other return is joined
with it. -/
def pushReturn (done : List Stmt) (s : Stmt) : List Stmt :=
  match done with
  | .ifThen cond body :: earlier =>
    match chosen? cond (onlyReturn? body) (returnedLiteral? s) with
    | some value => .returnValue value :: earlier
    | none => s :: done
  | _ => s :: done

/-- The return of a number as that of a truth value. -/
def returnTruth : Stmt → Stmt
  | .returnValue (.int n) =>
    if n == 1 then .returnValue (.bool true)
    else if n == 0 then .returnValue (.bool false)
    else .returnValue (.int n)
  | s => s

/-- Writes the returns of a boolean method with truth values and conditions. -/
def foldReturns (body : List Stmt) : List Stmt :=
  ((body.map foldReturn).foldl pushReturn []).reverse.map returnTruth

/-! ### Assignments -/

/-- `if (c) t = a; else t = b;` as `t = c ? a : b;`. -/
def foldAssign : Stmt → Stmt
  | .ifElse cond [.assign target a] [.assign target' b] =>
    if target.same target' then .assign target (.ternary cond a b)
    else .ifElse cond [.assign target a] [.assign target' b]
  | s => s

def foldAssigns (body : List Stmt) : List Stmt :=
  body.map foldAssign

end JvmLift.Idiom
