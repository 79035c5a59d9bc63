import JvmLift.Source.Stmt

/-!
# Loops with a head

A `while` whose preceding statement sets up an iterator or a counter is a `for`. Both passes read a body once and look
back at the last finished statement.
-/

namespace JvmLift.Idiom

open Source

/-- Whether an expression is a call without arguments on a variable. -/
def isCallOn (var method : String) : Expr → Bool
  | .call (.var receiver) _ name [] => name == method && receiver == var
  | _ => false

/-! ### Iterators -/

/-- The variable and the collection of `it = xs.iterator()`. -/
def iteratorSetup? : Stmt → Option (String × Expr)
  | .assign (.var it) (.call iterable _ name []) => if name == "iterator" then some (it, iterable) else none
  | _ => none

/-- Whether a condition is `it.hasNext()`, by itself or compared with zero. -/
def testsHasNext (it : String) : Expr → Bool
  | .binary .ne call (.int n) => n == 0 && isCallOn it "hasNext" call
  | cond => isCallOn it "hasNext" cond

/-- The type and the name of the element in `x = (T) it.next()`. -/
def element? (it : String) : Stmt → Option (String × String)
  | .assign (.var name) (.cast type call) => if isCallOn it "next" call then some (type, name) else none
  | .assign (.var name) call => if isCallOn it "next" call then some ("Object", name) else none
  | _ => none

/-- The loop over a collection that a set-up and a `while` make. -/
def forEach? (setup : Stmt) (cond : Expr) (body : List Stmt) : Option Stmt := do
  let (it, iterable) ← iteratorSetup? setup
  match body with
  | first :: rest =>
    let (type, name) ← if testsHasNext it cond then element? it first else none
    return .forEach type name iterable rest
  | [] => none

/-! ### Counters -/

/-- The variable of `i = i + c` or `i = i - c`. -/
def steppedVar? : Stmt → Option String
  | .assign (.var name) (.binary .add (.var name') (.int _)) | .assign (.var name) (.binary .add (.var name') (.long _))
  | .assign (.var name) (.binary .sub (.var name') (.int _))
  | .assign (.var name) (.binary .sub (.var name') (.long _)) => if name == name' then some name else none
  | _ => none

/-- The variable that a statement assigns to. -/
def assignedVar? : Stmt → Option String
  | .assign (.var name) _ => some name
  | _ => none

/-- The counting loop that a set-up and a `while` make. A `continue` in the `while` would skip the step, but not in the
`for`. -/
def forLoop? (setup : Stmt) (cond : Expr) (body : List Stmt) : Option Stmt := do
  let update ← body.getLast?
  let var ← steppedVar? update
  if assignedVar? setup == some var && cond.mentions var && !Stmt.anyOwnContinue body then
    return .forLoop [setup] cond [update] body.dropLast
  else none

/-! ### Passes -/

/-- Adds a statement to the finished ones, the last one first. A `while` is joined with the statement before it where
`head?` says so. -/
def pushLoop (head? : Stmt → Expr → List Stmt → Option Stmt) (done : List Stmt) (s : Stmt) : List Stmt :=
  match s, done with
  | .whileLoop cond body, setup :: earlier =>
    match head? setup cond body with
    | some loop => loop :: earlier
    | none => s :: done
  | _, _ => s :: done

/-- Joins every `while` with the statement before it where `head?` says so. -/
def joinHeads (head? : Stmt → Expr → List Stmt → Option Stmt) (body : List Stmt) : List Stmt :=
  (body.foldl (pushLoop head?) []).reverse

/-- Writes `it = xs.iterator(); while (it.hasNext()) …` as `for (T x : xs) …`. -/
def recoverForEach : List Stmt → List Stmt :=
  joinHeads forEach?

/-- Writes `i = a; while (p(i)) …` with a last step of `i` as `for (i = a; p(i); i = i + c) …`. -/
def recoverFor : List Stmt → List Stmt :=
  joinHeads forLoop?

end JvmLift.Idiom
