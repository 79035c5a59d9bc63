import Mathlib
import JvmLift.Idiom

/-!
# Plain bodies

Bodies whose expressions hold no calls, no new objects and no floating-point literals, at any depth. There are no
monitors and no iterators in them, so that the passes for these idioms have nothing to do, and what the other passes
make of such a body is such a body again.
-/

namespace JvmLift.Source

/-! ### Trees -/

namespace Expr

mutual

/-- Whether an expression holds no call, no new object and no floating-point literal. -/
def isPlain : Expr → Bool
  | float _ | double _ | new .. | call .. | staticCall .. => false
  | int _ | long _ | string _ | classLit _ | null | bool _ | var _ | uninit _ => true
  | unary _ a | field a _ | length a | cast _ a | instanceOf a _ => a.isPlain
  | binary _ a b | index a b => a.isPlain && b.isPlain
  | newArray _ dims => allPlain dims
  | ternary c a b => c.isPlain && a.isPlain && b.isPlain

def allPlain : List Expr → Bool
  | [] => true
  | a :: as => a.isPlain && allPlain as

end

mutual

/-- Plain expressions that are the same are equal. -/
lemma eq_of_same : ∀ {a b : Expr}, a.isPlain = true → a.same b = true → a = b
  | int _, b, _, h | long _, b, _, h | string _, b, _, h | classLit _, b, _, h | null, b, _, h | bool _, b, _, h
  | var _, b, _, h | uninit _, b, _, h => by cases b <;> simp_all [same]
  | binary _ x y, b, hplain, h => by
    simp only [isPlain, Bool.and_eq_true] at hplain
    cases b <;> simp only [same, Bool.and_eq_true, beq_iff_eq, Bool.false_eq_true] at h
    rw [h.1.1, eq_of_same hplain.1 h.1.2, eq_of_same hplain.2 h.2]
  | index x y, b, hplain, h => by
    simp only [isPlain, Bool.and_eq_true] at hplain
    cases b <;> simp only [same, Bool.and_eq_true, Bool.false_eq_true] at h
    rw [eq_of_same hplain.1 h.1, eq_of_same hplain.2 h.2]
  | unary _ x, b, hplain, h | cast _ x, b, hplain, h => by
    simp only [isPlain] at hplain
    cases b <;> simp only [same, Bool.and_eq_true, beq_iff_eq, Bool.false_eq_true] at h
    rw [h.1, eq_of_same hplain h.2]
  | field x _, b, hplain, h | instanceOf x _, b, hplain, h => by
    simp only [isPlain] at hplain
    cases b <;> simp only [same, Bool.and_eq_true, beq_iff_eq, Bool.false_eq_true] at h
    rw [eq_of_same hplain h.1, h.2]
  | length x, b, hplain, h => by
    simp only [isPlain] at hplain
    cases b <;> simp only [same, Bool.false_eq_true] at h
    rw [eq_of_same hplain h]
  | newArray _ dims, b, hplain, h => by
    simp only [isPlain] at hplain
    cases b <;> simp only [same, Bool.and_eq_true, beq_iff_eq, Bool.false_eq_true] at h
    rw [h.1, eq_of_sameAll hplain h.2]
  | ternary c x y, b, hplain, h => by
    simp only [isPlain, Bool.and_eq_true] at hplain
    cases b <;> simp only [same, Bool.and_eq_true, Bool.false_eq_true] at h
    rw [eq_of_same hplain.1.1 h.1.1, eq_of_same hplain.1.2 h.1.2, eq_of_same hplain.2 h.2]
  | float _, _, hplain, _ | double _, _, hplain, _ | new .., _, hplain, _ | call .., _, hplain, _
  | staticCall .., _, hplain, _ => by simp [isPlain] at hplain

lemma eq_of_sameAll : ∀ {as bs : List Expr}, allPlain as = true → sameAll as bs = true → as = bs
  | [], bs, _, h => by cases bs <;> simp_all [sameAll]
  | a :: as, bs, hplain, h => by
    simp only [allPlain, Bool.and_eq_true] at hplain
    cases bs <;> simp only [sameAll, Bool.and_eq_true, Bool.false_eq_true] at h
    rw [eq_of_same hplain.1 h.1, eq_of_sameAll hplain.2 h.2]

end

lemma isPlain_negate {e : Expr} (h : e.isPlain = true) : e.negate.isPlain = true := by
  revert h
  induction e using negate_induction <;> simp_all [isPlain]

end Expr

namespace Stmt

/-- The expressions of a statement, without those of statements inside. -/
def exprs : Stmt → List Expr
  | ifThen cond _ | ifElse cond _ _ | whileLoop cond _ | forLoop _ cond _ _ => [cond]
  | forEach _ _ iterable _ => [iterable]
  | switch selector _ => [selector]
  | assign target value => [target, value]
  | returnValue value | evaluate value | throwValue value => [value]
  | synchronized monitor _ => [monitor]
  | block _ | returnVoid | tryCatch .. | breakOut | continueLoop | comment _ => []

/-- The conditions of a statement: what it tests, and what decides on the value that it returns. -/
def conditions : Stmt → List Expr
  | ifThen cond _ | ifElse cond _ _ | whileLoop cond _ | forLoop _ cond _ _ | returnValue (.ternary cond _ _) => [cond]
  | _ => []

mutual

/-- A statement and all statements inside satisfy `P`. -/
def Every (P : Stmt → Prop) : Stmt → Prop
  | s@(block body) | s@(ifThen _ body) | s@(whileLoop _ body) | s@(forEach _ _ _ body) | s@(synchronized _ body) =>
    P s ∧ EveryIn P body
  | s@(ifElse _ thenBody elseBody) => P s ∧ EveryIn P thenBody ∧ EveryIn P elseBody
  | s@(forLoop init _ update body) => P s ∧ EveryIn P init ∧ EveryIn P update ∧ EveryIn P body
  | s@(switch _ arms) => P s ∧ EveryInArms P arms
  | s@(tryCatch body clauses) => P s ∧ EveryIn P body ∧ EveryInClauses P clauses
  | s@(assign ..) | s@returnVoid | s@(returnValue _) | s@(evaluate _) | s@(throwValue _) | s@breakOut
  | s@continueLoop | s@(comment _) => P s

/-- All statements of a body, at any depth, satisfy `P`. -/
def EveryIn (P : Stmt → Prop) : List Stmt → Prop
  | [] => True
  | s :: rest => Every P s ∧ EveryIn P rest

def EveryInArms (P : Stmt → Prop) : Arms → Prop
  | .done => True
  | .case _ body rest => EveryIn P body ∧ EveryInArms P rest
  | .default body => EveryIn P body

def EveryInClauses (P : Stmt → Prop) : Clauses → Prop
  | .done => True
  | .handler _ _ body rest => EveryIn P body ∧ EveryInClauses P rest
  | .finally body => EveryIn P body

end

variable {P : Stmt → Prop} {f : List Stmt → List Stmt}

lemma Every.self {s : Stmt} (h : s.Every P) : P s := by
  cases s <;> simp only [Every] at h <;> first | exact h | exact h.1

lemma everyIn_iff {body : List Stmt} : EveryIn P body ↔ ∀ s ∈ body, s.Every P := by
  induction body with
  | nil => simp [EveryIn]
  | cons s body ih => simp [EveryIn, ih]

@[simp] lemma exprs_mapBodies (s : Stmt) : (s.mapBodies f).exprs = s.exprs := by
  cases s <;> rfl

@[simp] lemma conditions_mapBodies (s : Stmt) : (s.mapBodies f).conditions = s.conditions := by
  cases s <;> rfl

lemma mapBodiesEach_eq_map (body : List Stmt) : mapBodiesEach f body = body.map (mapBodies f) := by
  induction body with
  | nil => rfl
  | cons s body ih => simp [mapBodiesEach, ih]

/-! ### Expressions at any depth -/

/-- The expressions of a statement are plain. -/
def IsPlain (s : Stmt) : Prop :=
  ∀ e ∈ s.exprs, e.isPlain = true

/-- A pass on one body that leaves it plain. -/
def KeepsPlain (f : List Stmt → List Stmt) : Prop :=
  ∀ {body : List Stmt}, EveryIn IsPlain body → EveryIn IsPlain (f body)

/-- A pass on one body keeps a property of statements. -/
structure KeptBy (f : List Stmt → List Stmt) (P : Stmt → Prop) : Prop where
  stmt : ∀ {s : Stmt}, P s → P (s.mapBodies f)
  body : ∀ {body : List Stmt}, EveryIn P body → EveryIn P (f body)

mutual

/-- What a pass keeps of one body and of one statement, it keeps at any depth. -/
lemma Every.mapBodies (hf : KeptBy f P) : ∀ {s : Stmt}, s.Every P → (s.mapBodies f).Every P
  | block _, h | ifThen .., h | whileLoop .., h | forEach .., h | synchronized .., h =>
    ⟨hf.stmt h.1, hf.body (EveryIn.mapBodies hf h.2)⟩
  | ifElse .., h => ⟨hf.stmt h.1, hf.body (EveryIn.mapBodies hf h.2.1), hf.body (EveryIn.mapBodies hf h.2.2)⟩
  | forLoop .., h => ⟨hf.stmt h.1, h.2.1, h.2.2.1, hf.body (EveryIn.mapBodies hf h.2.2.2)⟩
  | switch .., h => ⟨hf.stmt h.1, EveryInArms.mapBodies hf h.2⟩
  | tryCatch .., h => ⟨hf.stmt h.1, hf.body (EveryIn.mapBodies hf h.2.1), EveryInClauses.mapBodies hf h.2.2⟩
  | assign .., h | returnVoid, h | returnValue _, h | evaluate _, h | throwValue _, h | breakOut, h | continueLoop, h
  | comment _, h => h

lemma EveryIn.mapBodies (hf : KeptBy f P) : ∀ {body : List Stmt}, EveryIn P body → EveryIn P (mapBodiesEach f body)
  | [], _ => trivial
  | _ :: _, h => ⟨Every.mapBodies hf h.1, EveryIn.mapBodies hf h.2⟩

lemma EveryInArms.mapBodies (hf : KeptBy f P) : ∀ {arms : Arms}, EveryInArms P arms →
    EveryInArms P (mapBodiesArms f arms)
  | .done, _ => trivial
  | .case .., h => ⟨hf.body (EveryIn.mapBodies hf h.1), EveryInArms.mapBodies hf h.2⟩
  | .default _, h => hf.body (EveryIn.mapBodies hf h)

lemma EveryInClauses.mapBodies (hf : KeptBy f P) : ∀ {clauses : Clauses}, EveryInClauses P clauses →
    EveryInClauses P (mapBodiesClauses f clauses)
  | .done, _ => trivial
  | .handler .., h => ⟨hf.body (EveryIn.mapBodies hf h.1), EveryInClauses.mapBodies hf h.2⟩
  | .finally _, h => hf.body (EveryIn.mapBodies hf h)

end

/-- Where a pass leaves bodies plain, it does so at any depth. -/
lemma everyIn_isPlain_mapBodiesEach (hf : KeepsPlain f) {body : List Stmt} (h : EveryIn IsPlain body) :
    EveryIn IsPlain (mapBodiesEach f body) :=
  EveryIn.mapBodies ⟨fun hs => by simpa [IsPlain] using hs, hf⟩ h

end Stmt

end JvmLift.Source

namespace JvmLift.Idiom

open Source Stmt

/-! ### Passes on plain bodies -/

lemma monitorCall?_eq_none {s : Stmt} (h : s.IsPlain) (which : String) : monitorCall? which s = none := by
  unfold monitorCall?
  split
  · have := h _ (List.mem_singleton.mpr rfl)
    simp [Expr.isPlain] at this
  · rfl

/-- No monitor is entered without a call. -/
lemma recoverSynchronized_eq_self {body : List Stmt} (h : EveryIn IsPlain body) : recoverSynchronized body = body := by
  have hfold (done : List Stmt) : body.foldl Sections.push ⟨done, none⟩ = ⟨body.reverse ++ done, none⟩ := by
    induction body generalizing done with
    | nil => rfl
    | cons s body ih =>
      have hpush : Sections.push ⟨done, none⟩ s = ⟨s :: done, none⟩ := by
        simp [Sections.push, Sections.next, monitorCall?_eq_none h.1.self]
      rw [List.foldl_cons, hpush, ih h.2]
      simp
  rw [recoverSynchronized]
  have := hfold []
  simp_all [Sections.finish]

lemma iteratorSetup?_eq_none {s : Stmt} (h : s.IsPlain) : iteratorSetup? s = none := by
  unfold iteratorSetup?
  split
  · have := h _ (List.mem_cons_of_mem _ (List.mem_singleton.mpr rfl))
    simp [Expr.isPlain] at this
  · rfl

/-- No iterator is set up without a call. -/
lemma recoverForEach_eq_self {body : List Stmt} (h : EveryIn IsPlain body) : recoverForEach body = body := by
  have hfold {done : List Stmt} (hdone : ∀ s ∈ done, s.IsPlain) :
      body.foldl (pushLoop forEach?) done = body.reverse ++ done := by
    induction body generalizing done with
    | nil => rfl
    | cons s body ih =>
      have hpush : pushLoop forEach? done s = s :: done := by
        unfold pushLoop
        split
        · rename_i setup earlier
          simp [forEach?, iteratorSetup?_eq_none (hdone setup List.mem_cons_self)]
        · rfl
      rw [List.foldl_cons, hpush, ih h.2 (List.forall_mem_cons.mpr ⟨h.1.self, hdone⟩)]
      simp
  rw [recoverForEach, joinHeads, hfold (by simp)]
  simp

/-- What a pass keeps that looks back at the finished statements, the last one first. -/
lemma forall_mem_foldl {P : Stmt → Prop} {push : List Stmt → Stmt → List Stmt}
    (hpush : ∀ {done s}, (∀ x ∈ s :: done, P x) → ∀ x ∈ push done s, P x) {body done : List Stmt}
    (hbody : ∀ s ∈ body, P s) (hdone : ∀ s ∈ done, P s) : ∀ s ∈ body.foldl push done, P s := by
  induction body generalizing done with
  | nil => exact hdone
  | cons s body ih =>
    rw [List.forall_mem_cons] at hbody
    exact ih hbody.2 (hpush (List.forall_mem_cons.mpr ⟨hbody.1, hdone⟩))

/-- What a counting loop is made of. -/
lemma of_forLoop? {setup loop : Stmt} {cond : Expr} {body : List Stmt} (h : forLoop? setup cond body = some loop) :
    ∃ front start startValue target value, body = front ++ [.assign target value] ∧ setup = .assign start startValue ∧
      anyOwnContinue body = false ∧ loop = .forLoop [setup] cond [.assign target value] front := by
  simp only [forLoop?, Option.bind_eq_bind, Option.bind_eq_some_iff] at h
  obtain ⟨update, hlast, var, hstep, h⟩ := h
  split at h
  · next hif =>
    simp only [Bool.and_eq_true, Bool.not_eq_true', beq_iff_eq] at hif
    obtain ⟨target, value, rfl⟩ : ∃ target value, update = .assign target value := by
      unfold steppedVar? at hstep
      split at hstep <;> first | exact ⟨_, _, rfl⟩ | cases hstep
    obtain ⟨start, startValue, rfl⟩ : ∃ start startValue, setup = .assign start startValue := by
      have := hif.1.1
      unfold assignedVar? at this
      split at this <;> first | exact ⟨_, _, rfl⟩ | cases this
    exact ⟨_, _, _, _, _, (List.dropLast_append_getLast? _ hlast).symm, rfl, hif.2, (Option.some.inj h).symm⟩
  · cases h

lemma of_chosen? {cond value : Expr} {m n : Option Int32} (h : chosen? cond m n = some value) :
    (m = some 1 ∧ n = some 0 ∧ value = cond) ∨ (m = some 0 ∧ n = some 1 ∧ value = cond.negate) := by
  unfold chosen? at h
  split_ifs at h with h₁ h₂
  · simp_all
  · simp_all

lemma of_literal? {e : Expr} {n : Int32} (h : literal? e = some n) : e = .int n := by
  unfold literal? at h
  split at h <;> simp_all

lemma of_returnedLiteral? {s : Stmt} {n : Int32} (h : returnedLiteral? s = some n) : s = .returnValue (.int n) := by
  unfold returnedLiteral? at h
  split at h
  · rw [of_literal? h]
  · cases h

lemma of_onlyReturn? {body : List Stmt} {n : Int32} (h : onlyReturn? body = some n) :
    body = [.returnValue (.int n)] := by
  unfold onlyReturn? at h
  split at h
  · rw [of_returnedLiteral? h]
  · cases h

/-- A property of statements that is one of their expressions, as far as the passes on counting loops and choices can
tell. -/
structure RestsOn (P : Stmt → Prop) (E : Expr → Prop) : Prop where
  exprs : ∀ {s : Stmt}, P s → ∀ e ∈ s.exprs, E e
  forLoop : ∀ {init update body : List Stmt} {cond : Expr}, E cond → P (.forLoop init cond update body)
  assign : ∀ {target value : Expr}, E target → E value → P (.assign target value)
  returnValue : ∀ {value : Expr}, E value → P (.returnValue value)
  bool : ∀ b, E (.bool b)
  negate : ∀ {e : Expr}, E e → E e.negate
  ternary : ∀ {c a b : Expr}, E (.ternary c a b) ↔ E c ∧ E a ∧ E b

section

variable {P : Stmt → Prop} {E : Expr → Prop} (hP : RestsOn P E) {s : Stmt} {body : List Stmt}

include hP

lemma every_pushLoop {done : List Stmt} (h : ∀ x ∈ s :: done, x.Every P) :
    ∀ x ∈ pushLoop forLoop? done s, x.Every P := by
  unfold pushLoop
  split
  · rename_i cond inner setup earlier
    split
    · rename_i loop hloop
      obtain ⟨front, start, startValue, target, value, rfl, -, -, rfl⟩ := of_forLoop? hloop
      rw [List.forall_mem_cons, List.forall_mem_cons] at h
      obtain ⟨⟨hwhile, hinner⟩, hsetup, hearlier⟩ := h
      rw [everyIn_iff, List.forall_mem_append] at hinner
      refine List.forall_mem_cons.mpr ⟨⟨hP.forLoop (hP.exprs hwhile cond List.mem_cons_self), ?_⟩, hearlier⟩
      exact ⟨⟨hsetup, trivial⟩, everyIn_iff.mpr hinner.2, everyIn_iff.mpr hinner.1⟩
    · exact h
  · exact h

lemma everyIn_recoverFor (h : EveryIn P body) : EveryIn P (recoverFor body) := by
  rw [everyIn_iff] at h ⊢
  intro s hs
  exact forall_mem_foldl (every_pushLoop hP) h (List.forall_mem_nil _) s (List.mem_reverse.mp hs)

lemma every_of_chosen? {cond value : Expr} {m n : Option Int32} (h : chosen? cond m n = some value) (hcond : E cond) :
    (Stmt.returnValue value).Every P := by
  obtain ⟨-, -, rfl⟩ | ⟨-, -, rfl⟩ := of_chosen? h
  · exact hP.returnValue hcond
  · exact hP.returnValue (hP.negate hcond)

lemma every_foldReturn (h : s.Every P) : (foldReturn s).Every P := by
  unfold foldReturn
  split
  · split
    · next hvalue => exact every_of_chosen? hP hvalue (hP.exprs h.self _ List.mem_cons_self)
    · exact h
  · split
    · next hvalue =>
      have hternary := hP.exprs h.self _ List.mem_cons_self
      exact every_of_chosen? hP hvalue (hP.ternary.mp hternary).1
    · exact h
  · exact h

lemma every_returnTruth (h : s.Every P) : (returnTruth s).Every P := by
  unfold returnTruth
  split
  · split_ifs
    · exact hP.returnValue (hP.bool _)
    · exact hP.returnValue (hP.bool _)
    · exact h
  · exact h

lemma every_pushReturn {done : List Stmt} (h : ∀ x ∈ s :: done, x.Every P) : ∀ x ∈ pushReturn done s, x.Every P := by
  unfold pushReturn
  split
  · split
    · next hvalue =>
      rw [List.forall_mem_cons, List.forall_mem_cons] at h
      have hcond := hP.exprs h.2.1.self _ List.mem_cons_self
      exact List.forall_mem_cons.mpr ⟨every_of_chosen? hP hvalue hcond, h.2.2⟩
    · exact h
  · exact h

lemma everyIn_foldReturns (h : EveryIn P body) : EveryIn P (foldReturns body) := by
  rw [everyIn_iff] at h ⊢
  have hfolded : ∀ s ∈ body.map foldReturn, s.Every P :=
    List.forall_mem_map.mpr fun s hs => every_foldReturn hP (h s hs)
  refine List.forall_mem_map.mpr fun s hs => every_returnTruth hP ?_
  exact forall_mem_foldl (every_pushReturn hP) hfolded (List.forall_mem_nil _) s (List.mem_reverse.mp hs)

lemma everyIn_foldAssigns (h : EveryIn P body) : EveryIn P (foldAssigns body) := by
  rw [everyIn_iff] at h ⊢
  refine List.forall_mem_map.mpr fun s hs => ?_
  have hs := h s hs
  unfold foldAssign
  split
  · split_ifs
    · obtain ⟨hif, ⟨hthen, -⟩, helse, -⟩ := hs
      have hcond := hP.exprs hif
      have ha := hP.exprs hthen.self
      have hb := hP.exprs helse.self
      simp only [exprs, List.forall_mem_cons] at hcond ha hb
      exact hP.assign ha.1 (hP.ternary.mpr ⟨hcond.1, ha.2.1, hb.2.1⟩)
    · exact hs
  · exact hs

end

lemma restsOn_isPlain : RestsOn IsPlain (Expr.isPlain · = true) where
  exprs h := h
  forLoop h := by simpa [IsPlain, exprs] using h
  assign ha hb := by simpa [IsPlain, exprs] using ⟨ha, hb⟩
  returnValue h := by simpa [IsPlain, exprs] using h
  bool _ := rfl
  negate h := Expr.isPlain_negate h
  ternary := by simp [Expr.isPlain, and_assoc]

lemma keepsPlain_recoverBody (returnsBoolean : Bool) : KeepsPlain (recoverBody returnsBoolean) := by
  intro body h
  rw [recoverBody, recoverSynchronized_eq_self h, recoverForEach_eq_self h]
  refine everyIn_foldAssigns restsOn_isPlain ?_
  split
  · exact everyIn_foldReturns restsOn_isPlain (everyIn_recoverFor restsOn_isPlain h)
  · exact everyIn_recoverFor restsOn_isPlain h

end JvmLift.Idiom
