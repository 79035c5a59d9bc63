import Mathlib
import JvmLift.Proofs.Execution
import JvmLift.Proofs.PlainBodies

/-!
# Idioms do the same

The passes that look for idioms keep what a method does, where no expression calls anything. A step at the end of a
`while` may become the step of a `for`, since no `continue` skips it; branches that return or assign become values,
since a condition and its negation have opposite truth values. Passes are applied to all bodies, inner ones first, and
it is enough that each keeps the runs of one body.
-/

namespace JvmLift.Source

/-! ### Outcomes that do not occur -/

namespace Run

variable {Store α : Type} {r q : Run Store} {o : Outcome}

/-- An outcome that a run never has. -/
def Avoids (r : Run Store) (o : Outcome) : Prop :=
  ∀ s t, ¬ r s t o

lemma avoids_stop {o' : Outcome} (h : o ≠ o') : (stop o' : Run Store).Avoids o :=
  fun _ _ hstop => h hstop.2

lemma avoids_change (h : o ≠ .done) (f : Store → Store) : (change f).Avoids o :=
  fun _ _ hchange => h hchange.2

lemma avoids_reading {f : Store → Option α} {k : α → Run Store} (h : ∀ a, (k a).Avoids o) : (reading f k).Avoids o :=
  fun s t ⟨a, _, hk⟩ => h a s t hk

lemma avoids_branch {test : Store → Option Bool} (hr : r.Avoids o) (hq : q.Avoids o) : (branch test r q).Avoids o :=
  avoids_reading fun b => by cases b <;> assumption

lemma avoids_andThen (hr : r.Avoids o) (hq : q.Avoids o) : (r.andThen q).Avoids o := by
  rintro s t ⟨u, o', hrun, hthen⟩
  by_cases ho : o' = .done
  · rw [ho] at hthen
    exact hq u t hthen
  · rw [onDone_of_ne ho] at hthen
    exact hr s u (hthen.2 ▸ hrun)

lemma avoids_mapOutcome {f : Outcome → Outcome} (h : ∀ s t o', r s t o' → f o' ≠ o) : (r.mapOutcome f).Avoids o := by
  rintro s t ⟨u, o', hrun, -, rfl⟩
  exact h s u o' hrun rfl

lemma avoids_pastContinue (r : Run Store) : (r.mapOutcome .pastContinue).Avoids .continued :=
  avoids_mapOutcome fun _ _ o' _ => by cases o' <;> simp [Outcome.pastContinue]

lemma avoids_pastBreak (h : r.Avoids .continued) : (r.mapOutcome .pastBreak).Avoids .continued := by
  refine avoids_mapOutcome fun s t o' hrun ho => ?_
  cases o' <;> simp only [Outcome.pastBreak, reduceCtorEq] at ho
  exact h s t hrun

lemma mapOutcome_andThen (h : ∀ s t o, r s t o → o = .done) (q : Run Store) (f : Outcome → Outcome) :
    (r.andThen q).mapOutcome f = r.andThen (q.mapOutcome f) := by
  rw [mapOutcome, andThen, bind_assoc]
  refine bind_congr fun s t o' hrun => ?_
  rw [h s t o' hrun]
  rfl

/-- A run without `continue` is the same as the body of a loop. -/
lemma mapOutcome_pastContinue (h : r.Avoids .continued) : r.mapOutcome .pastContinue = r := by
  refine mapOutcome_eq_self fun s t o' hrun => ?_
  cases o' with
  | continued => exact absurd hrun (h s t)
  | _ => rfl

lemma avoids_rounds {test : Store → Option Bool} (hr : r.Avoids o) (ho : o ≠ .done) : (Rounds test r).Avoids o := by
  intro s t h
  induction h with
  | stop => exact ho rfl
  | leave _ hround => exact hr _ _ hround
  | again _ _ _ ih => exact ih hr ho

lemma avoids_inTurn {runs : List (Run Store)} (h : ∀ r ∈ runs, r.Avoids o) (ho : o ≠ .done) :
    (inTurn runs).Avoids o := by
  induction runs with
  | nil => exact avoids_stop ho
  | cons r runs ih =>
    rw [List.forall_mem_cons] at h
    exact avoids_andThen h.1 (ih h.2)

lemma avoids_orCatch {handle : Value → Run Store} (hr : r.Avoids o) (hhandle : ∀ v, (handle v).Avoids o) :
    (r.orCatch handle).Avoids o := by
  rintro s t ⟨u, o', hrun, hcatch⟩
  cases o' with
  | thrown v => exact hhandle v u t hcatch
  | _ => exact hr s u (hcatch.2 ▸ hrun)

lemma avoids_andFinally (hr : r.Avoids o) (hq : q.Avoids o) : (r.andFinally q).Avoids o := by
  rintro s t ⟨u, o', hrun, v, o'', hfinal, hthen⟩
  by_cases ho : o'' = .done
  · rw [ho] at hthen
    exact hr s u (hthen.2 ▸ hrun)
  · rw [onDone_of_ne ho] at hthen
    exact hq u v (hthen.2 ▸ hfinal)

end Run

namespace Evaluation

open Run Stmt

variable {Store : Type} (E : Evaluation Store) (returnsBoolean : Bool)

mutual

/-- A statement without a `continue` of a loop around it does not end so. -/
lemma avoids_continued : ∀ {s : Stmt}, s.hasOwnContinue = false → (E.exec returnsBoolean s).Avoids .continued
  | .block _, h | .synchronized .., h => by
    simp only [hasOwnContinue] at h
    simpa only [exec] using avoids_continued_each h
  | .ifThen .., h => by
    simp only [hasOwnContinue] at h
    simp only [exec]
    exact avoids_branch (avoids_continued_each h) (avoids_stop (by simp))
  | .ifElse .., h => by
    simp only [hasOwnContinue, Bool.or_eq_false_iff] at h
    simpa only [exec] using avoids_branch (avoids_continued_each h.1) (avoids_continued_each h.2)
  | .whileLoop .., _ => by
    simpa only [exec] using avoids_pastBreak (avoids_rounds (avoids_pastContinue _) (by simp))
  | .forLoop .., _ => by
    simpa only [exec] using avoids_pastBreak (avoids_pastContinue _)
  | .forEach .., _ => by
    simp only [exec]
    refine avoids_reading fun vs => avoids_pastBreak (avoids_inTurn ?_ (by simp))
    refine List.forall_mem_map.mpr fun v _ => ?_
    exact avoids_andThen (avoids_change (by simp) _) (avoids_pastContinue _)
  | .switch _ arms, h => by
    simp only [hasOwnContinue] at h
    simp only [exec]
    refine avoids_reading fun v => avoids_pastBreak (avoids_inTurn ?_ (by simp))
    refine List.forall_mem_map.mpr fun arm harm => ?_
    exact avoids_continued_arms h arm (List.dropWhile_subset _ harm)
  | .tryCatch _ clauses, h => by
    simp only [hasOwnContinue, Bool.or_eq_false_iff] at h
    obtain ⟨hhandlers, hfinal⟩ := avoids_continued_clauses h.2
    simp only [exec]
    refine avoids_andFinally (avoids_orCatch (avoids_continued_each h.1) fun v => ?_) hfinal
    split
    · rename_i handler hfind
      exact avoids_andThen (avoids_change (by simp) _) (hhandlers _ (List.mem_of_find?_eq_some hfind))
    · exact avoids_stop (by simp)
  | .assign .., _ => by
    simp only [exec]
    exact avoids_reading fun v => avoids_change (by simp) _
  | .returnVoid, _ | .evaluate _, _ | .breakOut, _ | .comment _, _ => by
    simp only [exec]
    exact avoids_stop (by simp)
  | .returnValue _, _ | .throwValue _, _ => by
    simp only [exec]
    exact avoids_reading fun v => avoids_stop (by simp)
  | .continueLoop, h => by simp [hasOwnContinue] at h

lemma avoids_continued_each : ∀ {body : List Stmt}, anyOwnContinue body = false →
    (E.execEach returnsBoolean body).Avoids .continued
  | [], _ => avoids_stop (by simp)
  | _ :: _, h => by
    simp only [anyOwnContinue, Bool.or_eq_false_iff] at h
    simpa only [execEach] using avoids_andThen (avoids_continued h.1) (avoids_continued_each h.2)

lemma avoids_continued_arms : ∀ {arms : Arms}, armsOwnContinue arms = false →
    ∀ arm ∈ E.execArms returnsBoolean arms, arm.2.Avoids .continued
  | .done, _ => by simp [execArms]
  | .case .., h => by
    simp only [armsOwnContinue, Bool.or_eq_false_iff] at h
    simpa only [execArms, List.forall_mem_cons] using ⟨avoids_continued_each h.1, avoids_continued_arms h.2⟩
  | .default _, h => by
    simp only [armsOwnContinue] at h
    simpa only [execArms, List.forall_mem_singleton] using avoids_continued_each h

lemma avoids_continued_clauses : ∀ {clauses : Clauses}, clausesOwnContinue clauses = false →
    (∀ handler ∈ (E.execClauses returnsBoolean clauses).1, handler.2.2.Avoids .continued) ∧
      (E.execClauses returnsBoolean clauses).2.Avoids .continued
  | .done, _ => by
    simp only [execClauses]
    exact ⟨List.forall_mem_nil _, avoids_stop (by simp)⟩
  | .handler .., h => by
    simp only [clausesOwnContinue, Bool.or_eq_false_iff] at h
    obtain ⟨hhandlers, hfinal⟩ := avoids_continued_clauses h.2
    simpa only [execClauses, List.forall_mem_cons] using ⟨⟨avoids_continued_each h.1, hhandlers⟩, hfinal⟩
  | .finally _, h => by
    simp only [clausesOwnContinue] at h
    simpa [execClauses] using avoids_continued_each h

end

/-! ### Conditions -/

/-- What the passes rely on: literals are what they say, a choice is decided by its condition, complementary comparisons
have opposite values, and the logical operators are those of truth values. -/
structure Lawful : Prop where
  int : ∀ s n, E.eval s (.int n) = some (.int n)
  bool : ∀ s b, E.eval s (.bool b) = some (.bool b)
  ternary : ∀ {s c b} x y, E.eval s c = some (.bool b) → E.eval s (.ternary c x y) = E.eval s (if b then x else y)
  complement : ∀ {s op op' x y b}, op.complement? = some op' → E.eval s (.binary op x y) = some (.bool b) →
    E.eval s (.binary op' x y) = some (.bool !b)
  and : ∀ {s x y a b}, E.eval s x = some (.bool a) → E.eval s y = some (.bool b) →
    E.eval s (.binary .and x y) = some (.bool (a && b))
  or : ∀ {s x y a b}, E.eval s x = some (.bool a) → E.eval s y = some (.bool b) →
    E.eval s (.binary .or x y) = some (.bool (a || b))
  not : ∀ {s x a}, E.eval s x = some (.bool a) → E.eval s (.unary .not x) = some (.bool !a)

/-- A condition that always has a truth value. The operands of logical operators are conditions, too. -/
def IsTest : Expr → Prop
  | .unary .not a => IsTest a
  | .binary .and a b | .binary .or a b => IsTest a ∧ IsTest b
  | e => ∀ s, ∃ b, E.eval s e = some (.bool b)

variable {E returnsBoolean}

lemma Lawful.exists_bool (hE : E.Lawful) {c : Expr} (h : E.IsTest c) (s : Store) :
    ∃ b, E.eval s c = some (.bool b) := by
  fun_induction IsTest E c with
  | case1 a ih =>
    obtain ⟨b, hb⟩ := ih h
    exact ⟨_, hE.not hb⟩
  | case2 x y ihx ihy =>
    obtain ⟨a, ha⟩ := ihx h.1
    obtain ⟨b, hb⟩ := ihy h.2
    exact ⟨_, hE.and ha hb⟩
  | case3 x y ihx ihy =>
    obtain ⟨a, ha⟩ := ihx h.1
    obtain ⟨b, hb⟩ := ihy h.2
    exact ⟨_, hE.or ha hb⟩
  | case4 e => exact h s

/-- The negation of a condition has the opposite truth value. -/
lemma Lawful.eval_negate (hE : E.Lawful) {c : Expr} (h : E.IsTest c) {s : Store} {b : Bool}
    (hb : E.eval s c = some (.bool b)) : E.eval s c.negate = some (.bool !b) := by
  revert h b
  refine Expr.negate_induction (P := fun c c' => E.IsTest c → ∀ b, E.eval s c = some (.bool b) →
    E.eval s c' = some (.bool !b)) ?_ ?_ ?_ ?_ ?_ c
  · intro x h b hb
    simp only [IsTest] at h
    obtain ⟨a, ha⟩ := hE.exists_bool h s
    obtain rfl : b = !a := by simpa using hb.symm.trans (hE.not ha)
    simpa using ha
  · intro x y ihx ihy h b hb
    simp only [IsTest] at h
    obtain ⟨a, ha⟩ := hE.exists_bool h.1 s
    obtain ⟨a', ha'⟩ := hE.exists_bool h.2 s
    obtain rfl : b = (a && a') := by simpa using hb.symm.trans (hE.and ha ha')
    simpa using hE.or (ihx h.1 a ha) (ihy h.2 a' ha')
  · intro x y ihx ihy h b hb
    simp only [IsTest] at h
    obtain ⟨a, ha⟩ := hE.exists_bool h.1 s
    obtain ⟨a', ha'⟩ := hE.exists_bool h.2 s
    obtain rfl : b = (a || a') := by simpa using hb.symm.trans (hE.or ha ha')
    simpa using hE.and (ihx h.1 a ha) (ihy h.2 a' ha')
  · exact fun op op' x y hop _ b hb => hE.complement hop hb
  · exact fun x _ b hb => hE.not hb

/-- Reading a choice is a choice of what to read. -/
lemma Lawful.reading_ternary (hE : E.Lawful) {c : Expr} (h : E.IsTest c) (x y : Expr) (k : Value → Run Store) :
    reading (E.eval · (.ternary c x y)) k = branch (E.test c) (reading (E.eval · x) k) (reading (E.eval · y) k) := by
  funext s t o
  obtain ⟨b, hb⟩ := hE.exists_bool h s
  have hchoice := hE.ternary x y hb
  cases b <;> simp_all [reading, branch, test, Value.truth?]

end Evaluation

end JvmLift.Source

namespace JvmLift.Idiom

open Source Stmt Run Evaluation

variable {Store : Type} {E : Evaluation Store} {returnsBoolean : Bool}

/-! ### Passes keep runs -/

/-- A pass that looks back at the finished statements keeps the runs of a body, if each of its steps does. -/
lemma execEach_foldl {P : Stmt → Prop} {push : List Stmt → Stmt → List Stmt}
    (hP : ∀ {done s}, (∀ x ∈ s :: done, P x) → ∀ x ∈ push done s, P x)
    (hexec : ∀ {done s}, (∀ x ∈ s :: done, P x) →
      E.execEach returnsBoolean (push done s).reverse = E.execEach returnsBoolean (s :: done).reverse)
    {body done : List Stmt} (hbody : ∀ s ∈ body, P s) (hdone : ∀ s ∈ done, P s) :
    E.execEach returnsBoolean (body.foldl push done).reverse = E.execEach returnsBoolean (done.reverse ++ body) := by
  induction body generalizing done with
  | nil => simp
  | cons s body ih =>
    rw [List.forall_mem_cons] at hbody
    have hpushed : ∀ x ∈ s :: done, P x := List.forall_mem_cons.mpr ⟨hbody.1, hdone⟩
    rw [List.foldl_cons, ih hbody.2 (hP hpushed), execEach_append, hexec hpushed, ← execEach_append]
    simp

lemma anyOwnContinue_append (front back : List Stmt) :
    anyOwnContinue (front ++ back) = (anyOwnContinue front || anyOwnContinue back) := by
  induction front with
  | nil => rfl
  | cons s front ih => simp only [List.cons_append, anyOwnContinue, ih, Bool.or_assoc]

/-- **Counting loops.** No `continue` skips the step, so that it may be made behind the body. -/
lemma exec_of_forLoop? {setup loop : Stmt} {cond : Expr} {body : List Stmt} (h : forLoop? setup cond body = some loop) :
    E.exec returnsBoolean loop =
      (E.exec returnsBoolean setup).andThen (E.exec returnsBoolean (.whileLoop cond body)) := by
  obtain ⟨front, start, startValue, target, value, rfl, rfl, hcontinue, rfl⟩ := of_forLoop? h
  rw [anyOwnContinue_append, Bool.or_eq_false_iff] at hcontinue
  have hfront := E.avoids_continued_each returnsBoolean hcontinue.1
  simp only [exec, execEach_singleton, execEach_append, mapOutcome_pastContinue hfront]
  rw [mapOutcome_pastContinue, mapOutcome_andThen]
  · exact fun _ _ _ ⟨_, _, hchange⟩ => hchange.2
  · exact avoids_andThen (avoids_reading fun _ => avoids_change (by simp) _)
      (avoids_rounds (avoids_pastContinue _) (by simp))

lemma execEach_recoverFor (body : List Stmt) :
    E.execEach returnsBoolean (recoverFor body) = E.execEach returnsBoolean body := by
  refine execEach_foldl (P := fun _ => True) (by simp) (fun {done s} _ => ?_) (by simp) (by simp)
  unfold pushLoop
  split
  · split
    · rename_i loop hloop
      simp only [List.reverse_cons, execEach_append, execEach_singleton, exec_of_forLoop? hloop, andThen_assoc]
    · rfl
  · rfl

/-! ### Choices -/

/-- The conditions of a statement always have truth values. -/
def HasTests (E : Evaluation Store) (s : Stmt) : Prop :=
  ∀ c ∈ s.conditions, E.IsTest c

/-- **Boolean returns.** Where truth values are returned, a choice between one and zero returns its condition. -/
lemma exec_of_chosen? (hE : E.Lawful) {cond value : Expr} (hcond : E.IsTest cond) {x y : Option Int32}
    (h : chosen? cond x y = some value) : ∃ m n, x = some m ∧ y = some n ∧ E.exec true (.returnValue value) =
      branch (E.test cond) (E.exec true (.returnValue (.int m))) (E.exec true (.returnValue (.int n))) := by
  obtain ⟨rfl, rfl, rfl⟩ | ⟨rfl, rfl, rfl⟩ := of_chosen? h
  all_goals
    refine ⟨_, _, rfl, rfl, ?_⟩
    funext s t o
    obtain ⟨b, hb⟩ := hE.exists_bool hcond s
    have hneg := hE.eval_negate hcond hb
    cases b <;> simp [exec, reading, branch, test, Value.truth?, Value.asResult, hE.int, hb, hneg]

lemma exec_foldReturn (hE : E.Lawful) {s : Stmt} (h : HasTests E s) : E.exec true (foldReturn s) = E.exec true s := by
  unfold foldReturn
  split
  · split
    · rename_i value hvalue
      obtain ⟨m, n, hm, hn, hexec⟩ := exec_of_chosen? hE (h _ (List.mem_singleton.mpr rfl)) hvalue
      rw [hexec, of_onlyReturn? hm, of_onlyReturn? hn]
      simp only [exec, execEach_singleton]
    · rfl
  · split
    · rename_i value hvalue
      have hcond := h _ (List.mem_singleton.mpr rfl)
      obtain ⟨m, n, hm, hn, hexec⟩ := exec_of_chosen? hE hcond hvalue
      rw [hexec, of_literal? hm, of_literal? hn]
      simp only [exec, hE.reading_ternary hcond]
    · rfl
  · rfl

/-- The condition of an `if` always has a truth value. -/
def GuardedByTest (E : Evaluation Store) : Stmt → Prop
  | .ifThen cond _ | .ifElse cond _ _ => E.IsTest cond
  | _ => True

lemma HasTests.guarded {s : Stmt} (h : HasTests E s) : GuardedByTest E s := by
  cases s <;> first | trivial | exact h _ (List.mem_singleton.mpr rfl)

lemma guardedByTest_foldReturn {s : Stmt} (h : GuardedByTest E s) : GuardedByTest E (foldReturn s) := by
  unfold foldReturn
  split
  · split <;> trivial
  · split <;> trivial
  · exact h

lemma guardedByTest_pushReturn {done : List Stmt} {s : Stmt} (h : ∀ x ∈ s :: done, GuardedByTest E x) :
    ∀ x ∈ pushReturn done s, GuardedByTest E x := by
  unfold pushReturn
  split
  · split
    · rw [List.forall_mem_cons, List.forall_mem_cons] at h
      exact List.forall_mem_cons.mpr ⟨trivial, h.2.2⟩
    · exact h
  · exact h

lemma guardedByTest_returnTruth {s : Stmt} (h : GuardedByTest E s) : GuardedByTest E (returnTruth s) := by
  unfold returnTruth
  split
  · split_ifs <;> trivial
  · exact h

lemma guardedByTest_foldReturns {body : List Stmt} (h : ∀ s ∈ body, GuardedByTest E s) :
    ∀ s ∈ foldReturns body, GuardedByTest E s := by
  refine List.forall_mem_map.mpr fun s hs => guardedByTest_returnTruth ?_
  refine forall_mem_foldl guardedByTest_pushReturn ?_ (List.forall_mem_nil _) s (List.mem_reverse.mp hs)
  exact List.forall_mem_map.mpr fun s hs => guardedByTest_foldReturn (h s hs)

/-- Two returns, of which the first one is under a condition. -/
lemma execEach_pushReturn (hE : E.Lawful) {done : List Stmt} {s : Stmt} (h : ∀ x ∈ s :: done, GuardedByTest E x) :
    E.execEach true (pushReturn done s).reverse = E.execEach true (s :: done).reverse := by
  unfold pushReturn
  split
  · rename_i cond body earlier
    split
    · rename_i value hvalue
      obtain ⟨m, n, hm, hn, hexec⟩ := exec_of_chosen? hE (h (.ifThen cond body) (by simp)) hvalue
      simp only [List.reverse_cons, execEach_append, execEach_singleton, andThen_assoc, hexec, of_returnedLiteral? hn,
        of_onlyReturn? hm]
      refine congrArg _ ?_
      rw [exec, execEach_singleton, andThen, branch_bind, stop_bind]
      refine congrArg (branch _ · _) (andThen_of_never (fun s t hdone => ?_) _).symm
      obtain ⟨v, -, hstop⟩ := by simpa only [exec] using hdone
      cases hstop.2
    · rfl
  · rfl

lemma exec_returnTruth (hE : E.Lawful) (s : Stmt) : E.exec true (returnTruth s) = E.exec true s := by
  unfold returnTruth
  split
  · funext s t o
    split_ifs <;> simp_all [exec, reading, Value.asResult, hE.int, hE.bool]
  · rfl

lemma execEach_map {body : List Stmt} {f : Stmt → Stmt}
    (h : ∀ s ∈ body, E.exec returnsBoolean (f s) = E.exec returnsBoolean s) :
    E.execEach returnsBoolean (body.map f) = E.execEach returnsBoolean body := by
  induction body with
  | nil => rfl
  | cons s body ih =>
    rw [List.forall_mem_cons] at h
    simp only [List.map_cons, execEach, h.1, ih h.2]

lemma execEach_foldReturns (hE : E.Lawful) {body : List Stmt} (h : ∀ s ∈ body, HasTests E s) :
    E.execEach true (foldReturns body) = E.execEach true body := by
  have hguards : ∀ s ∈ body.map foldReturn, GuardedByTest E s :=
    List.forall_mem_map.mpr fun s hs => guardedByTest_foldReturn (h s hs).guarded
  calc E.execEach true (foldReturns body)
      = E.execEach true ((body.map foldReturn).foldl pushReturn []).reverse :=
        execEach_map fun s _ => exec_returnTruth hE s
    _ = E.execEach true (body.map foldReturn) :=
        execEach_foldl guardedByTest_pushReturn (execEach_pushReturn hE) hguards (List.forall_mem_nil _)
    _ = E.execEach true body := execEach_map fun s hs => exec_foldReturn hE (h s hs)

/-- **Assignments.** A choice between assignments to one target is the assignment of a choice. -/
lemma exec_foldAssign (hE : E.Lawful) {s : Stmt} (hplain : s.Every IsPlain) (h : GuardedByTest E s) :
    E.exec returnsBoolean (foldAssign s) = E.exec returnsBoolean s := by
  unfold foldAssign
  split
  · rename_i cond target a target' b
    split_ifs with hsame
    · have htarget : target.isPlain = true := by
        simp only [Every, EveryIn] at hplain
        exact hplain.2.1.1 _ List.mem_cons_self
      obtain rfl := Expr.eq_of_same htarget hsame
      simp only [exec, execEach_singleton, hE.reading_ternary h]
    · rfl
  · rfl

lemma hasTests_pushLoop {done : List Stmt} {s : Stmt} (h : ∀ x ∈ s :: done, HasTests E x) :
    ∀ x ∈ pushLoop forLoop? done s, HasTests E x := by
  unfold pushLoop
  split
  · split
    · rename_i loop hloop
      obtain ⟨front, start, startValue, target, value, -, -, -, rfl⟩ := of_forLoop? hloop
      rw [List.forall_mem_cons, List.forall_mem_cons] at h
      exact List.forall_mem_cons.mpr ⟨h.1, h.2.2⟩
    · exact h
  · exact h

/-- **All passes on one body** keep its runs. -/
lemma execEach_recoverBody (hE : E.Lawful) {body : List Stmt} (hplain : EveryIn IsPlain body)
    (h : ∀ s ∈ body, HasTests E s) :
    E.execEach returnsBoolean (recoverBody returnsBoolean body) = E.execEach returnsBoolean body := by
  have hloops : ∀ s ∈ recoverFor body, HasTests E s := fun s hs =>
    forall_mem_foldl hasTests_pushLoop h (List.forall_mem_nil _) s (List.mem_reverse.mp hs)
  have hassigns {body : List Stmt} (hplain : EveryIn IsPlain body) (h : ∀ s ∈ body, GuardedByTest E s) :
      E.execEach returnsBoolean (foldAssigns body) = E.execEach returnsBoolean body :=
    execEach_map fun s hs => exec_foldAssign hE (everyIn_iff.mp hplain s hs) (h s hs)
  have hguards := fun s hs => (hloops s hs).guarded
  have hkept := everyIn_recoverFor restsOn_isPlain hplain
  rw [recoverBody, recoverSynchronized_eq_self hplain, recoverForEach_eq_self hplain, ← execEach_recoverFor body]
  cases returnsBoolean with
  | false => exact hassigns hkept hguards
  | true =>
    rw [if_pos rfl, hassigns (everyIn_foldReturns restsOn_isPlain hkept) (guardedByTest_foldReturns hguards)]
    exact execEach_foldReturns hE hloops

/-! ### All bodies -/

lemma hasTests_mapBodies {f : List Stmt → List Stmt} {body : List Stmt} (h : EveryIn (HasTests E) body) :
    ∀ s ∈ mapBodiesEach f body, HasTests E s := by
  rw [mapBodiesEach_eq_map, List.forall_mem_map]
  intro s hs
  rw [HasTests, conditions_mapBodies]
  exact (everyIn_iff.mp h s hs).self

/-- A body whose inner bodies have kept their runs has the same runs when it is recovered itself. -/
lemma execEach_of_inner (hE : E.Lawful) {body : List Stmt} (hplain : EveryIn IsPlain body)
    (htests : EveryIn (HasTests E) body)
    (h : E.execEach returnsBoolean (mapBodiesEach (recoverBody returnsBoolean) body) = E.execEach returnsBoolean body) :
    E.execEach returnsBoolean (recoverBody returnsBoolean (mapBodiesEach (recoverBody returnsBoolean) body)) =
      E.execEach returnsBoolean body := by
  have hinner := everyIn_isPlain_mapBodiesEach (keepsPlain_recoverBody returnsBoolean) hplain
  exact (execEach_recoverBody hE hinner (hasTests_mapBodies htests)).trans h

mutual

/-- A statement whose bodies are replaced by ones with the same runs has the same runs. -/
lemma exec_mapBodies (hE : E.Lawful) : ∀ {s : Stmt}, s.Every IsPlain → s.Every (HasTests E) →
    E.exec returnsBoolean (s.mapBodies (recoverBody returnsBoolean)) = E.exec returnsBoolean s
  | .block _, hplain, htests | .ifThen .., hplain, htests | .whileLoop .., hplain, htests
  | .forEach .., hplain, htests | .synchronized .., hplain, htests => by
    simp only [Every] at hplain htests
    simp only [mapBodies, exec, execEach_of_inner hE hplain.2 htests.2 (execEach_mapBodiesEach hE hplain.2 htests.2)]
  | .ifElse .., hplain, htests => by
    simp only [Every] at hplain htests
    have hthen := execEach_mapBodiesEach hE hplain.2.1 htests.2.1
    have helse := execEach_mapBodiesEach hE hplain.2.2 htests.2.2
    simp only [mapBodies, exec, execEach_of_inner hE hplain.2.1 htests.2.1 hthen,
      execEach_of_inner hE hplain.2.2 htests.2.2 helse]
  | .forLoop .., hplain, htests => by
    simp only [Every] at hplain htests
    obtain ⟨-, -, -, hplain⟩ := hplain
    obtain ⟨-, -, -, htests⟩ := htests
    simp only [mapBodies, exec, execEach_of_inner hE hplain htests (execEach_mapBodiesEach hE hplain htests)]
  | .switch .., hplain, htests => by
    simp only [Every] at hplain htests
    simp only [mapBodies, exec, execArms_mapBodies hE hplain.2 htests.2]
  | .tryCatch .., hplain, htests => by
    simp only [Every] at hplain htests
    simp only [mapBodies, exec, execClauses_mapBodies hE hplain.2.2 htests.2.2,
      execEach_of_inner hE hplain.2.1 htests.2.1 (execEach_mapBodiesEach hE hplain.2.1 htests.2.1)]
  | .assign .., _, _ | .returnVoid, _, _ | .returnValue _, _, _ | .evaluate _, _, _ | .throwValue _, _, _
  | .breakOut, _, _ | .continueLoop, _, _ | .comment _, _, _ => by simp only [mapBodies]

/-- Inner bodies first: what they have become has the same runs. -/
lemma execEach_mapBodiesEach (hE : E.Lawful) : ∀ {body : List Stmt}, EveryIn IsPlain body → EveryIn (HasTests E) body →
    E.execEach returnsBoolean (mapBodiesEach (recoverBody returnsBoolean) body) = E.execEach returnsBoolean body
  | [], _, _ => rfl
  | _ :: _, hplain, htests => by
    simp only [mapBodiesEach, execEach, exec_mapBodies hE hplain.1 htests.1,
      execEach_mapBodiesEach hE hplain.2 htests.2]

lemma execArms_mapBodies (hE : E.Lawful) : ∀ {arms : Arms}, EveryInArms IsPlain arms → EveryInArms (HasTests E) arms →
    E.execArms returnsBoolean (mapBodiesArms (recoverBody returnsBoolean) arms) = E.execArms returnsBoolean arms
  | .done, _, _ => rfl
  | .case .., hplain, htests => by
    simp only [mapBodiesArms, execArms, execArms_mapBodies hE hplain.2 htests.2,
      execEach_of_inner hE hplain.1 htests.1 (execEach_mapBodiesEach hE hplain.1 htests.1)]
  | .default _, hplain, htests => by
    simp only [EveryInArms] at hplain htests
    simp only [mapBodiesArms, execArms, execEach_of_inner hE hplain htests (execEach_mapBodiesEach hE hplain htests)]

lemma execClauses_mapBodies (hE : E.Lawful) : ∀ {clauses : Clauses}, EveryInClauses IsPlain clauses →
    EveryInClauses (HasTests E) clauses → E.execClauses returnsBoolean
      (mapBodiesClauses (recoverBody returnsBoolean) clauses) = E.execClauses returnsBoolean clauses
  | .done, _, _ => rfl
  | .handler .., hplain, htests => by
    simp only [mapBodiesClauses, execClauses, execClauses_mapBodies hE hplain.2 htests.2,
      execEach_of_inner hE hplain.1 htests.1 (execEach_mapBodiesEach hE hplain.1 htests.1)]
  | .finally _, hplain, htests => by
    simp only [EveryInClauses] at hplain htests
    simp only [mapBodiesClauses, execClauses,
      execEach_of_inner hE hplain htests (execEach_mapBodiesEach hE hplain htests)]

end

/-- A `return` without a value at the end of a method says nothing. -/
lemma call_dropReturn (body : List Stmt) : E.call returnsBoolean (dropReturn body) = E.call returnsBoolean body := by
  unfold dropReturn
  split
  · rename_i hlast
    have hbody : body = body.dropLast ++ [.returnVoid] := (List.dropLast_append_getLast? _ hlast).symm
    conv_rhs => rw [hbody]
    simp only [call, execEach_append, execEach_singleton, exec, mapOutcome, andThen, bind_assoc]
    refine bind_congr fun s t o _ => ?_
    cases o <;> simp [onDone, Outcome.atEnd]
  · rfl

/-- **Idioms do the same.** For an evaluation that keeps the laws, and a body without calls, new objects and
floating-point literals whose conditions have truth values: from every store, the body with its idioms ends if and only
if the body does, with the same store and the same outcome. -/
theorem recover_runs_alike (hE : E.Lawful) (returnsBoolean : Bool) {body : List Stmt} (hplain : EveryIn IsPlain body)
    (htests : EveryIn (HasTests E) body) (s t : Store) (o : Outcome) :
    E.call returnsBoolean (recover returnsBoolean body) s t o ↔ E.call returnsBoolean body s t o := by
  rw [recover, call_dropReturn, call, call, bottomUp,
    execEach_of_inner hE hplain htests (execEach_mapBodiesEach hE hplain htests)]

/-! ### Ints -/

lemma lawful_ofInts : ofInts.Lawful where
  int _ _ := rfl
  bool _ _ := rfl
  ternary {s c b} x y h := by
    ext v
    exact Expr.value?_ternary.trans ⟨fun ⟨t, ht, hv⟩ => by simp_all [ofInts], fun hv => ⟨b, h, hv⟩⟩
  complement hop h := Expr.value?_complement hop h
  and {s x y a b} ha hb := Expr.value?_and.mpr (by cases a <;> simp_all [ofInts])
  or {s x y a b} ha hb := Expr.value?_or.mpr (by cases a <;> simp_all [ofInts])
  not ha := Expr.value?_not.mpr ⟨_, ha, rfl⟩

/-- `i = 0; while (i < n) { if (i == a) { x = 1; } else { x = 2; } if (x == b) break; i = i + 1; }`, and then
`return x == 2 ? 0 : 1;`. -/
def countUp : List Stmt :=
  [.assign (.var "i") (.int 0),
    .whileLoop (.binary .lt (.var "i") (.var "n"))
      [.ifElse (.binary .eq (.var "i") (.var "a")) [.assign (.var "x") (.int 1)] [.assign (.var "x") (.int 2)],
        .ifThen (.binary .eq (.var "x") (.var "b")) [.breakOut],
        .assign (.var "i") (.binary .add (.var "i") (.int 1))],
    .returnValue (.ternary (.binary .eq (.var "x") (.int 2)) (.int 0) (.int 1))]

/-- The theorem at a body in which a loop, an assignment and a return are written in another way. -/
theorem countUp_runs_alike :
    recover true countUp =
      [.forLoop [.assign (.var "i") (.int 0)] (.binary .lt (.var "i") (.var "n"))
        [.assign (.var "i") (.binary .add (.var "i") (.int 1))]
        [.assign (.var "x") (.ternary (.binary .eq (.var "i") (.var "a")) (.int 1) (.int 2)),
          .ifThen (.binary .eq (.var "x") (.var "b")) [.breakOut]],
        .returnValue (.binary .ne (.var "x") (.int 2))] ∧
    EveryIn IsPlain countUp ∧ EveryIn (HasTests ofInts) countUp ∧
      ∀ σ τ o, ofInts.call true (recover true countUp) σ τ o ↔ ofInts.call true countUp σ τ o := by
  have hplain : EveryIn IsPlain countUp := by simp [countUp, EveryIn, Every, IsPlain, exprs, Expr.isPlain]
  have htests : EveryIn (HasTests ofInts) countUp := by
    simp only [countUp, EveryIn, Every, HasTests, conditions, List.forall_mem_singleton, List.not_mem_nil,
      false_implies, implies_true, IsTest, true_and, and_true]
    exact ⟨⟨fun σ => ⟨_, rfl⟩, fun σ => ⟨_, rfl⟩, fun σ => ⟨_, rfl⟩⟩, fun σ => ⟨_, rfl⟩⟩
  exact ⟨rfl, hplain, htests, recover_runs_alike lawful_ofInts true hplain htests⟩

end JvmLift.Idiom
