import Mathlib
import JvmLift.Source.Stmt

/-!
# Leaves of statement trees

The statements of a tree that hold no other statement, in the order of the text and without the jumps `break` and
`continue`.
-/

namespace JvmLift.Source

namespace Stmt

mutual

/-- The leaves of a statement other than `break` and `continue`. -/
def leaves : Stmt → List Stmt
  | block body | ifThen _ body | whileLoop _ body | forEach _ _ _ body | synchronized _ body => leavesEach body
  | ifElse _ thenBody elseBody => leavesEach thenBody ++ leavesEach elseBody
  | forLoop init _ update body => leavesEach init ++ leavesEach update ++ leavesEach body
  | switch _ arms => leavesArms arms
  | tryCatch body clauses => leavesEach body ++ leavesClauses clauses
  | breakOut | continueLoop => []
  | s@(assign ..) | s@returnVoid | s@(returnValue _) | s@(evaluate _) | s@(throwValue _) | s@(comment _) => [s]

/-- The leaves of a body. -/
def leavesEach : List Stmt → List Stmt
  | [] => []
  | s :: rest => s.leaves ++ leavesEach rest

def leavesArms : Arms → List Stmt
  | .done => []
  | .case _ body rest => leavesEach body ++ leavesArms rest
  | .default body => leavesEach body

def leavesClauses : Clauses → List Stmt
  | .done => []
  | .handler _ _ body rest => leavesEach body ++ leavesClauses rest
  | .finally body => leavesEach body

end

@[simp] lemma leavesEach_nil : leavesEach [] = [] := rfl

@[simp] lemma leavesEach_cons (s : Stmt) (rest : List Stmt) :
    leavesEach (s :: rest) = s.leaves ++ leavesEach rest := rfl

@[simp] lemma leavesEach_append (a b : List Stmt) : leavesEach (a ++ b) = leavesEach a ++ leavesEach b := by
  induction a with
  | nil => rfl
  | cons s rest ih => simp [ih]

@[simp] lemma leaves_ifThen (cond : Expr) (body : List Stmt) : (ifThen cond body).leaves = leavesEach body := rfl

@[simp] lemma leaves_ifElse (cond : Expr) (thenBody elseBody : List Stmt) :
    (ifElse cond thenBody elseBody).leaves = leavesEach thenBody ++ leavesEach elseBody := rfl

@[simp] lemma leaves_whileLoop (cond : Expr) (body : List Stmt) : (whileLoop cond body).leaves = leavesEach body := rfl

@[simp] lemma leaves_switch (selector : Expr) (arms : Arms) : (switch selector arms).leaves = leavesArms arms := rfl

/-- Cases in order, then the default. -/
lemma leavesArms_ofCases (default : Option (List Stmt)) (cases : List (Int32 × List Stmt)) :
    leavesArms (.ofCases default cases) =
      cases.flatMap (fun case => leavesEach case.2) ++ (default.map leavesEach).getD [] := by
  induction cases with
  | nil => cases default <;> rfl
  | cons case rest ih =>
    obtain ⟨key, body⟩ := case
    simp only [Arms.ofCases, leavesArms, ih, List.flatMap_cons, List.append_assoc]

/-- A statement that holds no other one and is no jump. -/
def isLeaf : Stmt → Bool
  | assign .. | returnVoid | returnValue _ | evaluate _ | throwValue _ | comment _ => true
  | _ => false

lemma leaves_of_isLeaf {s : Stmt} (h : s.isLeaf = true) : s.leaves = [s] := by
  cases s <;> first | rfl | cases h

lemma leavesEach_eq_self {ss : List Stmt} (h : ∀ s ∈ ss, s.isLeaf = true) : leavesEach ss = ss := by
  induction ss with
  | nil => rfl
  | cons s rest ih =>
    obtain ⟨hs, hrest⟩ := List.forall_mem_cons.mp h
    rw [leavesEach_cons, leaves_of_isLeaf hs, ih hrest]
    rfl

end Stmt

end JvmLift.Source
