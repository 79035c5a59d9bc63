import Mathlib
import JvmLift.Proofs.Evaluation
import JvmLift.Source.Stmt

/-!
# Execution with effects

What statements do to variables and to what can be seen from outside, as a relation between the situation before, the
situation behind and the way in which they end. A run that does not end is related to nothing. Expressions are evaluated
with all their effects, and a call on a receiver goes to whatever method the receiver has. What operations come to is
left to the surroundings, where it may depend on all that has been seen so far.
-/

namespace JvmLift.Source

namespace Expr

mutual

/-- The expression with no classes named in calls on receivers. -/
def dispatched : Expr → Expr
  | call receiver _ name args => call receiver.dispatched "" name (dispatchedEach args)
  | binary op a b => binary op a.dispatched b.dispatched
  | unary op a => unary op a.dispatched
  | field a name => field a.dispatched name
  | index a i => index a.dispatched i.dispatched
  | length a => length a.dispatched
  | cast type a => cast type a.dispatched
  | instanceOf a type => instanceOf a.dispatched type
  | new type args => new type (dispatchedEach args)
  | newArray element dims => newArray element (dispatchedEach dims)
  | staticCall owner name args => staticCall owner name (dispatchedEach args)
  | ternary c a b => ternary c.dispatched a.dispatched b.dispatched
  | e@(int _) | e@(long _) | e@(float _) | e@(double _) | e@(string _) | e@(classLit _) | e@null | e@(bool _)
  | e@(var _) | e@(uninit _) => e

def dispatchedEach : List Expr → List Expr
  | [] => []
  | a :: as => a.dispatched :: dispatchedEach as

end

end Expr

/-! ### Conduct -/

/-- How statements come to an end. -/
inductive WayOut
  | done
  | returned (value : Option Datum)
  | raised (x : Raised)
  | broken
  | continued

namespace WayOut

/-- The ending of a round of a loop, whose `continue` leads on to the next round. -/
def pastContinue : WayOut → WayOut
  | continued => done
  | o => o

/-- The ending of a construct that a `break` leads out of. -/
def pastBreak : WayOut → WayOut
  | broken => done
  | o => o

end WayOut

/-- The variables, and what has been seen. -/
@[ext] structure Situation where
  vars : String → Datum
  history : History

/-- The situation in which a variable has another value. -/
def Situation.set (σ : Situation) (name : String) (x : Datum) : Situation :=
  { σ with vars := Function.update σ.vars name x }

/-- The situations and endings to which a situation leads. -/
abbrev Conduct := Situation → Situation → WayOut → Prop

namespace Conduct

variable {α β : Type}

/-- Ends at once. -/
def stop (o : WayOut) : Conduct := fun σ τ o' => τ = σ ∧ o' = o

/-- Gives a value to a variable. -/
def set (name : String) (x : Datum) : Conduct := fun σ τ o => τ = σ.set name x ∧ o = .done

/-- Goes on with what a course comes to. Where it throws, so does the conduct. -/
def following (c : (String → Datum) → Course α) (k : α → Conduct) : Conduct := fun σ τ o =>
  match c σ.vars σ.history with
  | (h, .ok a) => k a ⟨σ.vars, h⟩ τ o
  | (h, .error x) => stop (.raised x) ⟨σ.vars, h⟩ τ o

/-- One conduct behind another, which depends on the ending. -/
def bind (r : Conduct) (k : WayOut → Conduct) : Conduct := fun σ τ o => ∃ υ o', r σ υ o' ∧ k o' υ τ o

/-- One conduct behind another that is done. -/
def andThen (r q : Conduct) : Conduct :=
  r.bind fun
    | .done => q
    | o => stop o

/-- The same conduct with other endings. -/
def mapWayOut (f : WayOut → WayOut) (r : Conduct) : Conduct :=
  r.bind fun o => stop (f o)

/-- Handles what is thrown. -/
def orCatch (r : Conduct) (handle : Raised → Conduct) : Conduct :=
  r.bind fun
    | .raised x => handle x
    | o => stop o

/-- Goes on with `q` in any case. The first ending holds, unless `q` has another one than to be done. -/
def andFinally (r q : Conduct) : Conduct :=
  r.bind fun o => q.andThen (stop o)

/-- One round behind another, up to the first one that is not done. -/
inductive Forever (round : Conduct) : Conduct
  | leave {σ τ : Situation} {o : WayOut} : round σ τ o → o ≠ .done → Forever round σ τ o
  | again {σ υ τ : Situation} {o : WayOut} : round σ υ .done → Forever round υ τ o → Forever round σ τ o

/-- Conducts one behind the other. -/
def inTurn : List Conduct → Conduct
  | [] => stop .done
  | r :: rest => r.andThen (inTurn rest)

/-- A course behind another one. -/
lemma following_bind (c : (String → Datum) → Course α) (d : (String → Datum) → α → Course β) (k : β → Conduct) :
    following (fun vars => c vars >>= d vars) k = following c fun a => following (fun vars => d vars a) k := by
  funext σ τ o
  simp only [following]
  rcases hc : c σ.vars σ.history with ⟨h, x | a⟩
  · rw [Course.bind_of_error hc]
  · rw [Course.bind_of_ok hc]

end Conduct

/-! ### Statements -/

/-- What execution leaves to the surroundings. -/
structure Surroundings where
  /-- What an operation comes to behind the events so far, its own one included. -/
  perform : History → Operation → List Datum → Except Raised Datum
  /-- Whether a condition holds that is no truth value. -/
  holds : Datum → Bool
  /-- What a `throw` of a value throws. -/
  thrown : Datum → Raised
  /-- Whether a handler of a type catches what is thrown. -/
  catches : String → Raised → Bool
  /-- What the variable of a handler holds. -/
  caught : Raised → Datum

/-- Whether a value is the key of an arm of a switch. -/
def Datum.isKey (key : Int32) : Datum → Bool
  | .plain (.int n) => n == key
  | _ => false

namespace Surroundings

open Conduct

variable (S : Surroundings)

/-- The world of evaluation with some values of variables. -/
def world (vars : String → Datum) : World where
  vars := vars
  perform := S.perform
  holds := S.holds

def truth : Datum → Bool
  | .plain (.bool b) => b
  | x => S.holds x

/-- Goes on with the value of an expression. -/
def evaluating (e : Expr) (k : Datum → Conduct) : Conduct :=
  following (fun vars => (S.world vars).eval e.dispatched) k

/-- Goes on with what an operation comes to. -/
def applying (f : Operation) (xs : List Datum) (k : Datum → Conduct) : Conduct :=
  following (fun vars => (S.world vars).apply f xs) k

/-- Something that can be seen and leaves no value, such as a store to a field. -/
def recording (f : Operation) (xs : List Datum) : Conduct :=
  following (fun _ h => (h ++ [⟨f, xs⟩], S.perform (h ++ [⟨f, xs⟩]) f xs)) fun _ => stop .done

/-- Stores a value in a variable, a field or an array. -/
def storing : Expr → Expr → Conduct
  | .var name, value => S.evaluating value (set name)
  | .field a name, value =>
    S.evaluating a fun x => S.evaluating value fun v => S.recording (.field name) [x, v]
  | .index a i, value =>
    S.evaluating a fun x => S.evaluating i fun y => S.evaluating value fun v => S.recording .index [x, y, v]
  | target, value => S.evaluating target fun _ => S.evaluating value fun _ => stop .done

/-- One round of a loop with a test in front of it. A test that fails leads out of the loop. -/
def testedRound (test : (Datum → Conduct) → Conduct) (round : Conduct) : Conduct :=
  test fun v => if S.truth v then round.mapWayOut .pastContinue else stop .broken

/-- A loop over what an iterator gives. -/
def iterating (type name : String) (it : Datum) (body : Conduct) : Conduct :=
  let element := S.applying (.call "" "next") [it] fun x => S.applying (.cast type) [x] (set name)
  (Forever (S.testedRound (S.applying (.call "" "hasNext") [it]) (element.andThen body))).mapWayOut .pastBreak

mutual

/-- What a statement does. -/
def exec : Stmt → Conduct
  | .block body => execEach body
  | .ifThen cond body => S.evaluating cond fun v => if S.truth v then execEach body else stop .done
  | .ifElse cond thenBody elseBody =>
    S.evaluating cond fun v => if S.truth v then execEach thenBody else execEach elseBody
  | .whileLoop cond body => (Forever (S.testedRound (S.evaluating cond) (execEach body))).mapWayOut .pastBreak
  | .forLoop init cond update body =>
    let round := ((execEach body).mapWayOut .pastContinue).andThen (execEach update)
    ((execEach init).andThen (Forever (S.testedRound (S.evaluating cond) round))).mapWayOut .pastBreak
  | .forEach type name iterable body =>
    S.evaluating iterable fun x => S.applying (.call "" "iterator") [x] fun it =>
      S.iterating type name it (execEach body)
  | .switch selector arms =>
    S.evaluating selector fun v =>
      let entered := (execArms arms).dropWhile fun (key, _) => !key.all v.isKey
      (inTurn (entered.map Prod.snd)).mapWayOut .pastBreak
  | .assign target value => S.storing target value
  | .returnVoid => stop (.returned none)
  | .returnValue value => S.evaluating value fun v => stop (.returned (some v))
  | .evaluate value => S.evaluating value fun _ => stop .done
  | .throwValue value => S.evaluating value fun v => stop (.raised (S.thrown v))
  | .tryCatch body clauses =>
    let handle (x : Raised) : Conduct :=
      match (execClauses clauses).1.find? fun (type, _) => S.catches type x with
      | some (_, binding, handler) => (set binding (S.caught x)).andThen handler
      | none => stop (.raised x)
    ((execEach body).orCatch handle).andFinally (execClauses clauses).2
  | .synchronized monitor body =>
    S.evaluating monitor fun m => (S.recording (.staticCall "" "monitorenter") [m]).andThen
      ((execEach body).andFinally (S.recording (.staticCall "" "monitorexit") [m]))
  | .breakOut => stop .broken
  | .continueLoop => stop .continued
  | .comment _ => stop .done

/-- What a body does. -/
def execEach : List Stmt → Conduct
  | [] => stop .done
  | s :: rest => (exec s).andThen (execEach rest)

/-- What the arms of a switch do, with their keys. The default arm has none, and stands last. -/
def execArms : Arms → List (Option Int32 × Conduct)
  | .done => []
  | .case key body rest => (some key, execEach body) :: execArms rest
  | .default body => [(none, execEach body)]

/-- What the handlers of a `try` do, with their types and variables, and what its last clause does. -/
def execClauses : Clauses → List (String × String × Conduct) × Conduct
  | .done => ([], stop .done)
  | .handler type binding body rest =>
    let (handlers, final) := execClauses rest
    ((type, binding, execEach body) :: handlers, final)
  | .finally body => ([], execEach body)

end

end Surroundings

end JvmLift.Source
