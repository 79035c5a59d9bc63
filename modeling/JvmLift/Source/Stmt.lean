import JvmLift.Source.Expr

/-!
# Statements

Statement trees in the style of Java source. A body is a list of statements. The arms of a switch and the clauses of a
try are chains of their own, so that a default arm and a finally clause stand last and at most once.
-/

namespace JvmLift.Source

mutual

inductive Stmt
  | block (body : List Stmt)
  | ifThen (cond : Expr) (body : List Stmt)
  | ifElse (cond : Expr) (thenBody elseBody : List Stmt)
  | whileLoop (cond : Expr) (body : List Stmt)
  /-- A loop with a head of three parts. `init` and `update` are usually one statement each. -/
  | forLoop (init : List Stmt) (cond : Expr) (update body : List Stmt)
  | forEach (type name : String) (iterable : Expr) (body : List Stmt)
  | switch (selector : Expr) (arms : Arms)
  | assign (target value : Expr)
  | returnVoid
  | returnValue (value : Expr)
  | evaluate (value : Expr)
  | throwValue (value : Expr)
  | tryCatch (body : List Stmt) (clauses : Clauses)
  | synchronized (monitor : Expr) (body : List Stmt)
  | breakOut
  | continueLoop
  | comment (text : String)

/-- The arms of a switch. An arm without statements falls through to the next. -/
inductive Arms
  | done
  | case (key : Int32) (body : List Stmt) (rest : Arms)
  | default (body : List Stmt)

/-- The clauses behind the body of a try. -/
inductive Clauses
  | done
  | handler (type binding : String) (body : List Stmt) (rest : Clauses)
  | finally (body : List Stmt)

end

namespace Arms

/-- The arms of a list of cases with an optional default arm. -/
def ofCases (default : Option (List Stmt)) : List (Int32 × List Stmt) → Arms
  | [] => default.elim .done .default
  | (key, body) :: rest => .case key body (ofCases default rest)

end Arms

/-- A `catch` clause. -/
structure CatchClause where
  type : String
  binding : String
  body : List Stmt

namespace Clauses

/-- The clauses of a list of catches with an optional body of a finally clause. -/
def ofCatches (final : Option (List Stmt)) : List CatchClause → Clauses
  | [] => final.elim .done .finally
  | c :: rest => .handler c.type c.binding c.body (ofCatches final rest)

end Clauses

namespace Stmt

/-- Whether control never goes on behind the statement. -/
def isExit : Stmt → Bool
  | returnVoid | returnValue _ | throwValue _ | breakOut | continueLoop => true
  | _ => false

/-! ### Mapping bodies -/

mutual

/-- Applies `f` to every body inside a statement, innermost bodies first. -/
def mapBodies (f : List Stmt → List Stmt) : Stmt → Stmt
  | block body => block (f (mapBodiesEach f body))
  | ifThen cond body => ifThen cond (f (mapBodiesEach f body))
  | ifElse cond thenBody elseBody => ifElse cond (f (mapBodiesEach f thenBody)) (f (mapBodiesEach f elseBody))
  | whileLoop cond body => whileLoop cond (f (mapBodiesEach f body))
  | forLoop init cond update body => forLoop init cond update (f (mapBodiesEach f body))
  | forEach type name iterable body => forEach type name iterable (f (mapBodiesEach f body))
  | switch selector arms => switch selector (mapBodiesArms f arms)
  | tryCatch body clauses => tryCatch (f (mapBodiesEach f body)) (mapBodiesClauses f clauses)
  | synchronized monitor body => synchronized monitor (f (mapBodiesEach f body))
  | s@(assign ..) | s@returnVoid | s@(returnValue _) | s@(evaluate _) | s@(throwValue _) | s@breakOut
  | s@continueLoop | s@(comment _) => s

def mapBodiesEach (f : List Stmt → List Stmt) : List Stmt → List Stmt
  | [] => []
  | s :: rest => s.mapBodies f :: mapBodiesEach f rest

def mapBodiesArms (f : List Stmt → List Stmt) : Arms → Arms
  | .done => .done
  | .case key body rest => .case key (f (mapBodiesEach f body)) (mapBodiesArms f rest)
  | .default body => .default (f (mapBodiesEach f body))

def mapBodiesClauses (f : List Stmt → List Stmt) : Clauses → Clauses
  | .done => .done
  | .handler type binding body rest => .handler type binding (f (mapBodiesEach f body)) (mapBodiesClauses f rest)
  | .finally body => .finally (f (mapBodiesEach f body))

end

/-- Applies `f` to a body and to every body inside it, innermost bodies first. -/
def bottomUp (f : List Stmt → List Stmt) (body : List Stmt) : List Stmt :=
  f (mapBodiesEach f body)

/-! ### Own continues -/

mutual

/-- Whether the statement holds a `continue` for a loop around it. -/
def hasOwnContinue : Stmt → Bool
  | continueLoop => true
  | block body | synchronized _ body | ifThen _ body => anyOwnContinue body
  | ifElse _ thenBody elseBody => anyOwnContinue thenBody || anyOwnContinue elseBody
  | switch _ arms => armsOwnContinue arms
  | tryCatch body clauses => anyOwnContinue body || clausesOwnContinue clauses
  | whileLoop .. | forLoop .. | forEach .. | assign .. | returnVoid | returnValue _ | evaluate _ | throwValue _
  | breakOut | comment _ => false

/-- Whether a body holds a `continue` for the loop that owns it. -/
def anyOwnContinue : List Stmt → Bool
  | [] => false
  | s :: rest => s.hasOwnContinue || anyOwnContinue rest

def armsOwnContinue : Arms → Bool
  | .done => false
  | .case _ body rest => anyOwnContinue body || armsOwnContinue rest
  | .default body => anyOwnContinue body

def clausesOwnContinue : Clauses → Bool
  | .done => false
  | .handler _ _ body rest => anyOwnContinue body || clausesOwnContinue rest
  | .finally body => anyOwnContinue body

end

/-! ### Mapping expressions -/

mutual

/-- Applies `f` to every expression of a statement. -/
def mapExprs (f : Expr → Expr) : Stmt → Stmt
  | block body => block (mapExprsEach f body)
  | ifThen cond body => ifThen (f cond) (mapExprsEach f body)
  | ifElse cond thenBody elseBody => ifElse (f cond) (mapExprsEach f thenBody) (mapExprsEach f elseBody)
  | whileLoop cond body => whileLoop (f cond) (mapExprsEach f body)
  | forLoop init cond update body =>
    forLoop (mapExprsEach f init) (f cond) (mapExprsEach f update) (mapExprsEach f body)
  | forEach type name iterable body => forEach type name (f iterable) (mapExprsEach f body)
  | switch selector arms => switch (f selector) (mapExprsArms f arms)
  | assign target value => assign (f target) (f value)
  | returnVoid => returnVoid
  | returnValue value => returnValue (f value)
  | evaluate value => evaluate (f value)
  | throwValue value => throwValue (f value)
  | tryCatch body clauses => tryCatch (mapExprsEach f body) (mapExprsClauses f clauses)
  | synchronized monitor body => synchronized (f monitor) (mapExprsEach f body)
  | breakOut => breakOut
  | continueLoop => continueLoop
  | comment text => comment text

/-- Applies `f` to every expression of a body. -/
def mapExprsEach (f : Expr → Expr) : List Stmt → List Stmt
  | [] => []
  | s :: rest => s.mapExprs f :: mapExprsEach f rest

def mapExprsArms (f : Expr → Expr) : Arms → Arms
  | .done => .done
  | .case key body rest => .case key (mapExprsEach f body) (mapExprsArms f rest)
  | .default body => .default (mapExprsEach f body)

def mapExprsClauses (f : Expr → Expr) : Clauses → Clauses
  | .done => .done
  | .handler type binding body rest => .handler type binding (mapExprsEach f body) (mapExprsClauses f rest)
  | .finally body => .finally (mapExprsEach f body)

end

end Stmt

end JvmLift.Source
