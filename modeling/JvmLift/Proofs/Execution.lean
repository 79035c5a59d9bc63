import Mathlib
import JvmLift.Proofs.Values
import JvmLift.Source.Stmt

/-!
# Execution of statements

What statements do to a store, as a relation between the store before, the store behind and the outcome. A run that does
not end is related to nothing. Expressions have values in a store and change nothing; how they come by their values and
what a store is made of is left open. The meaning of a statement is put together from the meanings of its parts, so that
parts that mean the same can stand for each other.
-/

namespace JvmLift.Source

/-- How statements come to an end. -/
inductive Outcome
  | done
  | returned (value : Option Value)
  | thrown (value : Value)
  | broken
  | continued
  deriving DecidableEq

namespace Outcome

/-- The outcome behind a loop's body, whose `continue` leads on to the next round. -/
def pastContinue : Outcome → Outcome
  | continued => done
  | o => o

/-- The outcome behind a construct that a `break` leads out of. -/
def pastBreak : Outcome → Outcome
  | broken => done
  | o => o

/-- The outcome behind a whole method. To come to its end is to return. -/
def atEnd : Outcome → Outcome
  | done => returned none
  | o => o

end Outcome

/-! ### Runs -/

/-- The stores and outcomes to which a store leads. -/
abbrev Run (Store : Type) := Store → Store → Outcome → Prop

namespace Run

variable {Store : Type} {α : Type}

/-- Ends at once. -/
def stop (o : Outcome) : Run Store := fun s t o' => t = s ∧ o' = o

/-- Changes the store. -/
def change (f : Store → Store) : Run Store := fun s t o => t = f s ∧ o = .done

/-- Goes on with what the store holds, if it holds that. -/
def reading (r : Store → Option α) (k : α → Run Store) : Run Store := fun s t o => ∃ a, r s = some a ∧ k a s t o

/-- One run behind another, which depends on the outcome. -/
def bind (r : Run Store) (k : Outcome → Run Store) : Run Store := fun s t o => ∃ u o', r s u o' ∧ k o' u t o

/-- Goes on only behind what is done. -/
def onDone (q : Run Store) : Outcome → Run Store
  | .done => q
  | o => stop o

/-- One run behind another that is done. -/
def andThen (r q : Run Store) : Run Store :=
  r.bind (onDone q)

/-- The same run with other outcomes. -/
def mapOutcome (f : Outcome → Outcome) (r : Run Store) : Run Store :=
  r.bind fun o => stop (f o)

/-- Handles what is thrown. -/
def orCatch (r : Run Store) (handle : Value → Run Store) : Run Store :=
  r.bind fun
    | .thrown v => handle v
    | o => stop o

/-- Runs `q` in any case. The first outcome holds, unless `q` has another one than to be done. -/
def andFinally (r q : Run Store) : Run Store :=
  r.bind fun o => q.andThen (stop o)

/-- Goes one of two ways. -/
def branch (test : Store → Option Bool) (r q : Run Store) : Run Store :=
  reading test fun
    | true => r
    | false => q

/-- Rounds of a loop while a test holds. A round that is not done is the last one. -/
inductive Rounds (test : Store → Option Bool) (round : Run Store) : Run Store
  | stop {s : Store} (h : test s = some false) : Rounds test round s s .done
  | leave {s t : Store} {o : Outcome} (h : test s = some true) (hround : round s t o) (ho : o ≠ .done) :
      Rounds test round s t o
  | again {s t u : Store} {o : Outcome} (h : test s = some true) (hround : round s t .done)
      (hrest : Rounds test round t u o) : Rounds test round s u o

/-- Runs one behind the other. -/
def inTurn : List (Run Store) → Run Store
  | [] => stop .done
  | r :: rest => r.andThen (inTurn rest)

/-! ### Laws -/

variable {r q p : Run Store} {k l : Outcome → Run Store} {s t : Store} {o : Outcome}

@[simp] lemma stop_bind (o : Outcome) (k : Outcome → Run Store) : (stop o).bind k = k o := by
  funext s t o'
  refine propext ⟨?_, fun h => ⟨s, o, ⟨rfl, rfl⟩, h⟩⟩
  rintro ⟨_, _, ⟨rfl, rfl⟩, h⟩
  exact h

@[simp] lemma bind_stop (r : Run Store) : r.bind stop = r := by
  funext s t o
  refine propext ⟨?_, fun h => ⟨t, o, h, rfl, rfl⟩⟩
  rintro ⟨_, _, h, rfl, rfl⟩
  exact h

lemma bind_assoc (r : Run Store) (k l : Outcome → Run Store) : (r.bind k).bind l = r.bind fun o => (k o).bind l := by
  funext s t o
  refine propext ⟨?_, ?_⟩
  · rintro ⟨u, o₁, ⟨v, o₂, hr, hk⟩, hl⟩
    exact ⟨v, o₂, hr, u, o₁, hk, hl⟩
  · rintro ⟨v, o₂, hr, u, o₁, hk, hl⟩
    exact ⟨u, o₁, ⟨v, o₂, hr, hk⟩, hl⟩

/-- Only outcomes that occur matter for what comes behind. -/
lemma bind_congr (h : ∀ s t o, r s t o → k o = l o) : r.bind k = r.bind l := by
  funext s t o
  refine propext ⟨?_, ?_⟩
  · rintro ⟨u, o', hr, hk⟩
    exact ⟨u, o', hr, h _ _ _ hr ▸ hk⟩
  · rintro ⟨u, o', hr, hl⟩
    exact ⟨u, o', hr, (h _ _ _ hr).symm ▸ hl⟩

/-- Behind a run that ends at once in a store, the next one starts in that store. -/
lemma bind_apply (h : r s = stop o s) (k : Outcome → Run Store) : r.bind k s = k o s := by
  rw [← stop_bind o k]
  funext t o'
  simp only [bind, h]

/-- In a store that holds what is read, a run goes on with that. -/
lemma reading_apply {f : Store → Option α} {a : α} (h : f s = some a) (g : α → Run Store) : reading f g s = g a s := by
  funext t o
  simp [reading, h]

lemma branch_apply {test : Store → Option Bool} {b : Bool} (h : test s = some b) (r q : Run Store) :
    branch test r q s = (if b then r else q) s := by
  rw [branch, reading_apply h]
  cases b <;> rfl

lemma reading_bind (f : Store → Option α) (g : α → Run Store) (k : Outcome → Run Store) :
    (reading f g).bind k = reading f fun a => (g a).bind k := by
  funext s t o
  refine propext ⟨?_, ?_⟩
  · rintro ⟨u, o', ⟨a, ha, hg⟩, hk⟩
    exact ⟨a, ha, u, o', hg, hk⟩
  · rintro ⟨a, ha, u, o', hg, hk⟩
    exact ⟨u, o', ⟨a, ha, hg⟩, hk⟩

lemma branch_bind (test : Store → Option Bool) (r q : Run Store) (k : Outcome → Run Store) :
    (branch test r q).bind k = branch test (r.bind k) (q.bind k) := by
  rw [branch, reading_bind]
  exact congrArg _ (funext fun b => by cases b <;> rfl)

@[simp] lemma done_andThen (q : Run Store) : (stop .done).andThen q = q :=
  stop_bind _ _

lemma onDone_of_ne (h : o ≠ .done) (q : Run Store) : onDone q o = stop o := by
  cases o <;> first | rfl | exact absurd rfl h

@[simp] lemma andThen_done (r : Run Store) : r.andThen (stop .done) = r := by
  conv_rhs => rw [← bind_stop r]
  refine bind_congr fun _ _ o _ => ?_
  cases o <;> rfl

lemma andThen_assoc (r q p : Run Store) : (r.andThen q).andThen p = r.andThen (q.andThen p) := by
  rw [andThen, andThen, bind_assoc]
  refine bind_congr fun _ _ o _ => ?_
  by_cases h : o = .done
  · rw [h]
    rfl
  · rw [onDone_of_ne h, onDone_of_ne h, stop_bind, onDone_of_ne h]

/-- Nothing comes behind a run that is never done. -/
lemma andThen_of_never (h : ∀ s t, ¬ r s t .done) (q : Run Store) : r.andThen q = r := by
  conv_rhs => rw [← bind_stop r]
  refine bind_congr fun s t o hr => onDone_of_ne (fun ho => ?_) q
  exact h s t (ho ▸ hr)

lemma mapOutcome_eq_self {f : Outcome → Outcome} (h : ∀ s t o, r s t o → f o = o) : r.mapOutcome f = r := by
  conv_rhs => rw [← bind_stop r]
  exact bind_congr fun s t o hr => by rw [h s t o hr]

end Run

/-! ### Statements -/

/-- What execution is about: values of expressions in stores, and how stores change. -/
structure Evaluation (Store : Type) where
  /-- The value of an expression, if it has one. -/
  eval : Store → Expr → Option Value
  /-- The store behind an assignment of a value to a target. -/
  assign : Store → Expr → Value → Store
  /-- The store in which the variable of a loop over a collection, or of a handler, has a value. -/
  bind : Store → String → Value → Store
  /-- What there is in a collection. -/
  elements : Store → Value → List Value
  /-- Whether a handler of a type catches an exception. -/
  catches : String → Value → Bool

/-- What a returned value counts as. Where truth values are returned, one and zero count as such. -/
def Value.asResult (returnsBoolean : Bool) : Value → Value
  | .int n => if returnsBoolean && n == 1 then .bool true else if returnsBoolean && n == 0 then .bool false else .int n
  | v => v

namespace Evaluation

variable {Store : Type} (E : Evaluation Store) (returnsBoolean : Bool)

/-- The truth value of a condition. -/
def test (cond : Expr) (s : Store) : Option Bool :=
  (E.eval s cond).bind Value.truth?

open Run

mutual

/-- The runs of a statement. A `break` or `continue` in the head of a loop is one of that loop. -/
def exec : Stmt → Run Store
  | .block body => execEach body
  | .ifThen cond body => branch (E.test cond) (execEach body) (stop .done)
  | .ifElse cond thenBody elseBody => branch (E.test cond) (execEach thenBody) (execEach elseBody)
  | .whileLoop cond body =>
    (Rounds (E.test cond) ((execEach body).mapOutcome .pastContinue)).mapOutcome .pastBreak
  | .forLoop init cond update body =>
    let round := ((execEach body).mapOutcome .pastContinue).andThen (execEach update)
    (((execEach init).andThen (Rounds (E.test cond) (round.mapOutcome .pastContinue))).mapOutcome
      .pastContinue).mapOutcome .pastBreak
  | .forEach _ name iterable body =>
    let round (v : Value) := (change (E.bind · name v)).andThen ((execEach body).mapOutcome .pastContinue)
    reading (fun s => (E.eval s iterable).map (E.elements s)) fun vs => (inTurn (vs.map round)).mapOutcome .pastBreak
  | .switch selector arms =>
    reading (E.eval · selector) fun v =>
      let entered := (execArms arms).dropWhile fun (key, _) => !key.all fun n => v = .int n
      (inTurn (entered.map Prod.snd)).mapOutcome .pastBreak
  | .assign target value => reading (E.eval · value) fun v => change (E.assign · target v)
  | .returnVoid => stop (.returned none)
  | .returnValue value => reading (E.eval · value) fun v => stop (.returned (some (v.asResult returnsBoolean)))
  | .evaluate _ => stop .done
  | .throwValue value => reading (E.eval · value) fun v => stop (.thrown v)
  | .tryCatch body clauses =>
    let handle (v : Value) : Run Store :=
      match (execClauses clauses).1.find? fun (type, _) => E.catches type v with
      | some (_, binding, handler) => (change (E.bind · binding v)).andThen handler
      | none => stop (.thrown v)
    ((execEach body).orCatch handle).andFinally (execClauses clauses).2
  | .synchronized _ body => execEach body
  | .breakOut => stop .broken
  | .continueLoop => stop .continued
  | .comment _ => stop .done

/-- The runs of a body. -/
def execEach : List Stmt → Run Store
  | [] => stop .done
  | s :: rest => (exec s).andThen (execEach rest)

/-- The runs of the arms of a switch with their keys. The default arm has none, and stands last. -/
def execArms : Arms → List (Option Int32 × Run Store)
  | .done => []
  | .case key body rest => (some key, execEach body) :: execArms rest
  | .default body => [(none, execEach body)]

/-- The runs of the handlers of a `try` with their types and variables, and the run of its last clause. -/
def execClauses : Clauses → List (String × String × Run Store) × Run Store
  | .done => ([], stop .done)
  | .handler type binding body rest =>
    let (handlers, final) := execClauses rest
    ((type, binding, execEach body) :: handlers, final)
  | .finally body => ([], execEach body)

end

@[simp] lemma execEach_singleton (s : Stmt) : E.execEach returnsBoolean [s] = E.exec returnsBoolean s := by
  simp only [execEach, andThen_done]

lemma execEach_append (front back : List Stmt) : E.execEach returnsBoolean (front ++ back) =
    (E.execEach returnsBoolean front).andThen (E.execEach returnsBoolean back) := by
  induction front with
  | nil => simp only [List.nil_append, execEach, done_andThen]
  | cons s front ih => simp only [List.cons_append, execEach, ih, andThen_assoc]

/-- The runs of the body of a method. -/
def call (body : List Stmt) : Run Store :=
  (E.execEach returnsBoolean body).mapOutcome .atEnd

/-- Evaluation over variables that hold ints. There are no collections and no handlers that would catch anything. -/
def ofInts : Evaluation (String → Int32) where
  eval σ e := e.value? fun x => .int (σ x)
  assign
    | σ, .var x, .int n => Function.update σ x n
    | σ, _, _ => σ
  bind
    | σ, x, .int n => Function.update σ x n
    | σ, _, _ => σ
  elements _ _ := []
  catches _ _ := false

end Evaluation

end JvmLift.Source
