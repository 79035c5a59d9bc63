import Mathlib
import JvmLift.Proofs.WalkCases

/-!
# Outlines

The tree that a walk writes does not say which block a statement comes from. An outline does: it is the tree with the
blocks still in it, also those that have no statements of their own, because they only test, only jump or only push a
value. Statements about blocks and the constructs around them are statements about an outline and the body that is
written for it.
-/

/-- The condition under which a branch is taken, or is not. -/
def JvmLift.Recovery.Condition.on (cond : JvmLift.Recovery.Condition) (taken : Bool) : JvmLift.Source.Expr :=
  if taken then cond.taken else cond.fallthrough

namespace JvmLift.Structure

open Bytecode JvmLift.Flow Recovery Source

/-- The tests of a condition with the blocks that make them. -/
inductive Guard
  /-- The condition holds if the branch at the end of a block is taken. -/
  | test (id : BlockId) (cond : Condition)
  /-- Where the condition before does not hold, a block behind it tests too. `sense` is the outcome with which the whole
  condition holds. -/
  | orElse (before : Guard) (id : BlockId) (cond : Condition) (sense : Bool)

namespace Guard

def expr : Guard → Expr
  | test _ cond => cond.taken
  | orElse before _ cond sense => .binary .or before.expr (cond.on sense)

/-- The block whose branch is the first test. -/
def first : Guard → BlockId
  | test id _ => id
  | orElse before _ _ _ => before.first

/-- The blocks of the further tests. -/
def merged : Guard → List BlockId
  | test _ _ => []
  | orElse before id _ _ => before.merged ++ [id]

end Guard

mutual

/-- A construct with the blocks in it. -/
inductive Part
  | block (id : BlockId) (stmts : List Stmt)
  | breakOut
  | continueLoop
  /-- An arm for one outcome of a condition. -/
  | ifThen (cond : Guard) (sense : Bool) (body : List Part)
  | ifElse (cond : Guard) (taken fall : List Part)
  /-- Arms that only push a value. -/
  | choice (cond : Guard) (taken fall : List Part)
  | forever (body : List Part)
  /-- A loop whose header only tests. Its body is entered with the outcome `sense`. -/
  | whileTest (header : BlockId) (cond : Condition) (sense : Bool) (body : List Part)
  | switch (id : BlockId) (selector : Expr) (arms : Cases)
  | tryCatch (body : List Part) (catches : Catches)

/-- The arms of a switch as they are written, with their targets. -/
inductive Cases
  | done
  | case (key : Int32) (target : BlockId) (body : List Part) (rest : Cases)
  | default (target : BlockId) (body : List Part)

/-- The `catch` clauses of a protected range. -/
inductive Catches
  | done
  | clause (type binding : String) (body : List Part) (rest : Catches)

end

/-! ### What is written -/

mutual

/-- The statements of a construct. -/
def Part.stmts : Part → List Stmt
  | .block _ stmts => stmts
  | .breakOut => [.breakOut]
  | .continueLoop => [.continueLoop]
  | .ifThen cond sense body => [.ifThen (if sense then cond.expr else cond.expr.negate) (written body)]
  | .ifElse cond taken fall => [Setting.ifStmt cond.expr.negate cond.expr (written fall) (written taken)]
  | .choice .. => []
  | .forever body => [.whileLoop (.bool true) (Setting.dropContinue (written body))]
  | .whileTest _ cond sense body => [.whileLoop (cond.on sense) (Setting.dropContinue (written body))]
  | .switch _ selector arms => [.switch selector arms.arms]
  | .tryCatch body .done => written body
  | .tryCatch body (.clause type binding handler rest) =>
    [.tryCatch (written body) (.handler type binding (written handler) rest.clauses)]

/-- The body that is written for an outline. -/
def written : List Part → List Stmt
  | [] => []
  | part :: rest => part.stmts ++ written rest

def Cases.arms : Cases → Arms
  | .done => .done
  | .case key _ body rest => .case key (written body) rest.arms
  | .default _ body => .default (written body)

def Catches.clauses : Catches → Clauses
  | .done => .done
  | .clause type binding body rest => .handler type binding (written body) rest.clauses

end

@[simp] lemma written_nil : written [] = [] := rfl

@[simp] lemma written_cons (part : Part) (rest : List Part) : written (part :: rest) = part.stmts ++ written rest := rfl

@[simp] lemma written_append (front back : List Part) : written (front ++ back) = written front ++ written back := by
  induction front with
  | nil => rfl
  | cons part front ih => simp [ih]

/-! ### Labels -/

/-- What a block may be recovered as. The store at the start of a handler may be the binding of its clause instead. -/
def Setting.Recovers (s : Setting) (id : BlockId) (r : Recovered) : Prop :=
  ∃ b stack skip, s.graph.block? id = some b ∧ run s.context (b.body.drop skip) stack = .ok r ∧
    (skip = 0 ∨ skip = 1 ∧ ∃ region ∈ s.regions, ∃ handler ∈ region.handlers, handler.block = id)

/-- The tests of a condition are those of its blocks, and the further ones do nothing but test. -/
def Guard.Valid (s : Setting) : Guard → Prop
  | test id cond => ∃ r, s.Recovers id r ∧ r.exit = some (.conditional cond)
  | orElse before id cond _ =>
    before.Valid s ∧ ∃ r, s.Recovers id r ∧ r.exit = some (.conditional cond) ∧ r.stmts = []

mutual

/-- What a construct says of its blocks is so: they are recovered as its statements, conditions and selectors. A choice
of values has no statements. -/
def Part.Valid (s : Setting) : Part → Prop
  | .block id stmts => ∃ r, s.Recovers id r ∧ r.stmts = stmts
  | .breakOut => True
  | .continueLoop => True
  | .ifThen cond _ body => cond.Valid s ∧ ValidEach s body
  | .ifElse cond taken fall => cond.Valid s ∧ ValidEach s taken ∧ ValidEach s fall
  | .choice cond taken fall =>
    cond.Valid s ∧ ValidEach s taken ∧ ValidEach s fall ∧ written taken = [] ∧ written fall = []
  | .forever body => ValidEach s body
  | .whileTest header cond _ body =>
    (∃ r, s.Recovers header r ∧ r.exit = some (.conditional cond) ∧ r.stmts = []) ∧ ValidEach s body
  | .switch id selector arms => (∃ r, s.Recovers id r ∧ r.exit = some (.switch selector)) ∧ arms.Valid s
  | .tryCatch body catches => ValidEach s body ∧ catches.Valid s

def ValidEach (s : Setting) : List Part → Prop
  | [] => True
  | part :: rest => part.Valid s ∧ ValidEach s rest

def Cases.Valid (s : Setting) : Cases → Prop
  | .done => True
  | .case _ _ body rest => ValidEach s body ∧ rest.Valid s
  | .default _ body => ValidEach s body

def Catches.Valid (s : Setting) : Catches → Prop
  | .done => True
  | .clause _ _ body rest => ValidEach s body ∧ rest.Valid s

end

@[simp] lemma validEach_nil (s : Setting) : ValidEach s [] := trivial

@[simp] lemma validEach_cons {s : Setting} {part : Part} {rest : List Part} :
    ValidEach s (part :: rest) ↔ part.Valid s ∧ ValidEach s rest := Iff.rfl

@[simp] lemma validEach_append {s : Setting} {front back : List Part} :
    ValidEach s (front ++ back) ↔ ValidEach s front ∧ ValidEach s back := by
  induction front with
  | nil => simp
  | cons part front ih => simp [ih, and_assoc]

end JvmLift.Structure
