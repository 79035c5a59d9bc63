import Mathlib
import JvmLift.Proofs.Conduct
import JvmLift.Proofs.PlainBodies

/-!
# Variables that a statement does not use

A statement in which a variable does not occur does the same whatever the value of that variable is, and leaves the
variable as it was. This is said of conducts first, where it holds of what is put together from conducts of which it
holds, and then of statements by their shape.
-/

namespace JvmLift.Source

/-! ### Expressions -/

namespace Expr

lemma mentionsAny_eq_false {name : String} {es : List Expr} :
    mentionsAny name es = false ↔ ∀ e ∈ es, e.mentions name = false := by
  induction es with
  | nil => simp [mentionsAny]
  | cons e es ih => simp [mentionsAny, ih]

lemma mentions_operands {name : String} {e a : Expr} (h : e.mentions name = false) (ha : a ∈ e.operands) :
    a.mentions name = false := by
  cases e <;> simp_all only [mentions, operands, List.mem_cons, List.not_mem_nil, or_false, Bool.or_eq_false_iff,
    mentionsAny_eq_false]
  case call => rcases ha with rfl | ha <;> grind
  all_goals grind

mutual

lemma mentions_dispatched (name : String) : ∀ e : Expr, e.dispatched.mentions name = e.mentions name
  | call receiver _ _ args => by
    simp only [dispatched, mentions, mentions_dispatched name receiver, mentionsAny_dispatchedEach name args]
  | binary _ a b | index a b => by
    simp only [dispatched, mentions, mentions_dispatched name a, mentions_dispatched name b]
  | unary _ a | field a _ | length a | cast _ a | instanceOf a _ => by
    simp only [dispatched, mentions, mentions_dispatched name a]
  | new _ args | newArray _ args | staticCall _ _ args => by
    simp only [dispatched, mentions, mentionsAny_dispatchedEach name args]
  | ternary c a b => by
    simp only [dispatched, mentions, mentions_dispatched name c, mentions_dispatched name a, mentions_dispatched name b]
  | int _ | long _ | float _ | double _ | string _ | classLit _ | null | bool _ | var _ | uninit _ => rfl

lemma mentionsAny_dispatchedEach (name : String) :
    ∀ es : List Expr, mentionsAny name (dispatchedEach es) = mentionsAny name es
  | [] => rfl
  | e :: es => by
    simp only [dispatchedEach, mentionsAny, mentions_dispatched name e, mentionsAny_dispatchedEach name es]

end

end Expr

namespace Surroundings

variable {S : Surroundings} {name : String} {vars : String → Datum} {d : Datum}

lemma evalEach_update {es : List Expr}
    (h : ∀ e ∈ es, (S.world (Function.update vars name d)).eval e = (S.world vars).eval e) :
    (S.world (Function.update vars name d)).evalEach es = (S.world vars).evalEach es := by
  induction es with
  | nil => simp only [World.evalEach]
  | cons e es ih =>
    rw [List.forall_mem_cons] at h
    simp only [World.evalEach, h.1, ih h.2]

/-- The value of an expression does not depend on a variable that does not occur in it. -/
lemma eval_update {e : Expr} (h : e.mentions name = false) :
    (S.world (Function.update vars name d)).eval e = (S.world vars).eval e := by
  induction e using Expr.evaluation_induction with
  | atom e he =>
    cases e with
    | var x =>
      have hne : x ≠ name := by simpa [Expr.mentions] using h
      simp [World.eval, world, Function.update_of_ne hne]
    | int | long | float | double | string | null | bool => simp only [World.eval]
    | _ => cases he
  | strict e f hop ih =>
    rw [World.eval_of_operation? hop, World.eval_of_operation? hop,
      evalEach_update fun a ha => ih a ha (Expr.mentions_operands h ha)]
    rfl
  | and a b iha ihb | or a b iha ihb =>
    simp only [Expr.mentions, Bool.or_eq_false_iff] at h
    simp only [World.eval, iha h.1, ihb h.2]
    rfl
  | ternary c a b ihc iha ihb =>
    simp only [Expr.mentions, Bool.or_eq_false_iff] at h
    simp only [World.eval, ihc h.1.1, iha h.1.2, ihb h.2]
    rfl

end Surroundings

/-! ### Conducts -/

namespace Conduct

/-- A conduct leaves a variable as it was, and does the same with any other value of it. -/
structure Ignores (name : String) (r : Conduct) : Prop where
  kept : ∀ {σ τ : Situation} {o : WayOut}, r σ τ o → τ.vars name = σ.vars name
  shift : ∀ {σ τ : Situation} {o : WayOut}, r σ τ o → ∀ d, r (σ.set name d) (τ.set name d) o

variable {α : Type} {name : String} {r q : Conduct}

lemma ignores_stop (o : WayOut) : Ignores name (stop o) := by
  constructor <;> rintro σ τ o' ⟨rfl, rfl⟩
  · rfl
  · exact fun d => ⟨rfl, rfl⟩

lemma ignores_set {target : String} (h : target ≠ name) (x : Datum) : Ignores name (set target x) := by
  constructor <;> rintro σ τ o ⟨rfl, rfl⟩
  · simp [Situation.set, Function.update_of_ne h.symm]
  · refine fun d => ⟨?_, rfl⟩
    simp only [Situation.set]
    rw [Function.update_comm h]

lemma ignores_following {c : (String → Datum) → Course α} {k : α → Conduct}
    (hc : ∀ vars d, c (Function.update vars name d) = c vars) (hk : ∀ a, Ignores name (k a)) :
    Ignores name (following c k) := by
  constructor <;> intro σ τ o h <;> simp only [following, Situation.set, hc] at h ⊢ <;>
    rcases hr : c σ.vars σ.history with ⟨h', x | a⟩ <;> simp only [hr] at h ⊢
  · obtain ⟨rfl, rfl⟩ := h
    rfl
  · exact ((hk a).kept h :)
  · obtain ⟨rfl, rfl⟩ := h
    exact fun d => ⟨rfl, rfl⟩
  · exact (hk a).shift h

lemma ignores_bind {k : WayOut → Conduct} (hr : Ignores name r) (hk : ∀ o, Ignores name (k o)) :
    Ignores name (r.bind k) := by
  constructor <;> rintro σ τ o ⟨υ, o', hrun, hrest⟩
  · exact ((hk o').kept hrest).trans (hr.kept hrun)
  · exact fun d => ⟨υ.set name d, o', hr.shift hrun d, (hk o').shift hrest d⟩

lemma ignores_andThen (hr : Ignores name r) (hq : Ignores name q) : Ignores name (r.andThen q) :=
  ignores_bind hr fun
    | .done => hq
    | .returned _ | .raised _ | .broken | .continued => ignores_stop _

lemma ignores_mapWayOut (f : WayOut → WayOut) (hr : Ignores name r) : Ignores name (r.mapWayOut f) :=
  ignores_bind hr fun _ => ignores_stop _

lemma ignores_orCatch {handle : Raised → Conduct} (hr : Ignores name r) (hhandle : ∀ x, Ignores name (handle x)) :
    Ignores name (r.orCatch handle) :=
  ignores_bind hr fun
    | .raised x => hhandle x
    | .done | .returned _ | .broken | .continued => ignores_stop _

lemma ignores_andFinally (hr : Ignores name r) (hq : Ignores name q) : Ignores name (r.andFinally q) :=
  ignores_bind hr fun _ => ignores_andThen hq (ignores_stop _)

lemma ignores_forever (hr : Ignores name r) : Ignores name (Forever r) := by
  constructor <;> intro σ τ o h
  · induction h with
    | leave hround _ => exact hr.kept hround
    | again hround _ ih => exact ih.trans (hr.kept hround)
  · intro d
    induction h with
    | leave hround ho => exact .leave (hr.shift hround d) ho
    | again hround _ ih => exact .again (hr.shift hround d) ih

lemma ignores_inTurn {rs : List Conduct} (h : ∀ r ∈ rs, Ignores name r) : Ignores name (inTurn rs) := by
  induction rs with
  | nil => exact ignores_stop _
  | cons r rs ih =>
    rw [List.forall_mem_cons] at h
    exact ignores_andThen h.1 (ih h.2)

end Conduct

/-! ### Statements -/

/-- The variables of the handlers of a `try`. -/
def Clauses.bindings : Clauses → List String
  | .done | .finally _ => []
  | .handler _ binding _ rest => binding :: rest.bindings

/-- The variables that a statement gives values to by its form, without an assignment. -/
def Stmt.binders : Stmt → List String
  | forEach _ name _ _ => [name]
  | tryCatch _ clauses => clauses.bindings
  | _ => []

/-- A variable does not occur in a statement, statements inside apart. -/
structure Stmt.Avoids (name : String) (s : Stmt) : Prop where
  exprs : ∀ e ∈ s.exprs, e.mentions name = false
  binders : name ∉ s.binders

namespace Surroundings

open Conduct Stmt

variable (S : Surroundings) {name : String}

lemma ignores_evaluating {e : Expr} {k : Datum → Conduct} (he : e.mentions name = false)
    (hk : ∀ v, Ignores name (k v)) : Ignores name (S.evaluating e k) :=
  ignores_following (fun _ _ => eval_update (by rwa [Expr.mentions_dispatched])) hk

lemma ignores_applying {f : Operation} {xs : List Datum} {k : Datum → Conduct} (hk : ∀ v, Ignores name (k v)) :
    Ignores name (S.applying f xs k) :=
  ignores_following (fun _ _ => rfl) hk

lemma ignores_recording (f : Operation) (xs : List Datum) : Ignores name (S.recording f xs) :=
  ignores_following (fun _ _ => rfl) fun _ => ignores_stop _

lemma ignores_storing {target value : Expr} (htarget : target.mentions name = false)
    (hvalue : value.mentions name = false) : Ignores name (S.storing target value) := by
  unfold storing
  split
  · next x =>
    have hne : x ≠ name := by simpa [Expr.mentions] using htarget
    exact S.ignores_evaluating hvalue (ignores_set hne)
  · exact S.ignores_evaluating htarget fun _ => S.ignores_evaluating hvalue fun _ => S.ignores_recording _ _
  · simp only [Expr.mentions, Bool.or_eq_false_iff] at htarget
    exact S.ignores_evaluating htarget.1 fun _ => S.ignores_evaluating htarget.2 fun _ =>
      S.ignores_evaluating hvalue fun _ => S.ignores_recording _ _
  · exact S.ignores_evaluating htarget fun _ => S.ignores_evaluating hvalue fun _ => ignores_stop _

lemma ignores_testedRound {test : (Datum → Conduct) → Conduct} {round : Conduct}
    (htest : ∀ {k : Datum → Conduct}, (∀ v, Ignores name (k v)) → Ignores name (test k)) (hround : Ignores name round) :
    Ignores name (S.testedRound test round) := by
  refine htest fun v => ?_
  split
  · exact ignores_mapWayOut _ hround
  · exact ignores_stop _

lemma ignores_iterating {type target : String} {it : Datum} {body : Conduct} (htarget : target ≠ name)
    (hbody : Ignores name body) : Ignores name (S.iterating type target it body) := by
  have helement : Ignores name
      (S.applying (.call "" "next") [it] fun x => S.applying (.cast type) [x] (set target)) :=
    S.ignores_applying fun _ => S.ignores_applying (ignores_set htarget)
  refine ignores_mapWayOut _ (ignores_forever (S.ignores_testedRound ?_ (ignores_andThen helement hbody)))
  exact S.ignores_applying

mutual

/-- A statement in which a variable does not occur ignores it. -/
lemma ignores_exec : ∀ {s : Stmt}, s.Every (Avoids name) → Ignores name (S.exec s)
  | .block _, h => ignores_execEach h.2
  | .ifThen .., h => by
    refine S.ignores_evaluating (h.1.exprs _ List.mem_cons_self) fun v => ?_
    split
    · exact ignores_execEach h.2
    · exact ignores_stop _
  | .ifElse .., h => by
    refine S.ignores_evaluating (h.1.exprs _ List.mem_cons_self) fun v => ?_
    split
    · exact ignores_execEach h.2.1
    · exact ignores_execEach h.2.2
  | .whileLoop .., h =>
    ignores_mapWayOut _ (ignores_forever (S.ignores_testedRound
      (S.ignores_evaluating (h.1.exprs _ List.mem_cons_self)) (ignores_execEach h.2)))
  | .forLoop .., h => by
    have hround :=
      ignores_andThen (ignores_mapWayOut .pastContinue (ignores_execEach h.2.2.2)) (ignores_execEach h.2.2.1)
    exact ignores_mapWayOut _ (ignores_andThen (ignores_execEach h.2.1) (ignores_forever (S.ignores_testedRound
      (S.ignores_evaluating (h.1.exprs _ List.mem_cons_self)) hround)))
  | .forEach .., h => by
    have hne := h.1.binders
    simp only [Stmt.binders, List.mem_singleton] at hne
    exact S.ignores_evaluating (h.1.exprs _ List.mem_cons_self) fun _ => S.ignores_applying fun _ =>
      S.ignores_iterating (Ne.symm hne) (ignores_execEach h.2)
  | .switch _ arms, h => by
    refine S.ignores_evaluating (h.1.exprs _ List.mem_cons_self) fun v => ignores_mapWayOut _ (ignores_inTurn ?_)
    intro r hr
    obtain ⟨arm, harm, rfl⟩ := List.mem_map.mp hr
    exact ignores_execArms h.2 arm (List.dropWhile_subset _ harm)
  | .assign .., h =>
    S.ignores_storing (h.self.exprs _ List.mem_cons_self) (h.self.exprs _ (List.mem_cons_of_mem _ List.mem_cons_self))
  | .returnValue _, h | .evaluate _, h | .throwValue _, h =>
    S.ignores_evaluating (h.self.exprs _ List.mem_cons_self) fun _ => ignores_stop _
  | .tryCatch body clauses, h => by
    obtain ⟨hhandlers, hfinal⟩ := ignores_execClauses h.2.2 h.1.binders
    refine ignores_andFinally (ignores_orCatch (ignores_execEach h.2.1) fun x => ?_) hfinal
    simp only
    split
    · next found =>
      obtain ⟨hne, hhandler⟩ := hhandlers _ (List.mem_of_find?_eq_some found)
      exact ignores_andThen (ignores_set hne _) hhandler
    · exact ignores_stop _
  | .synchronized .., h =>
    S.ignores_evaluating (h.1.exprs _ List.mem_cons_self) fun _ => ignores_andThen (S.ignores_recording _ _)
      (ignores_andFinally (ignores_execEach h.2) (S.ignores_recording _ _))
  | .returnVoid, _ | .breakOut, _ | .continueLoop, _ | .comment _, _ => ignores_stop _

lemma ignores_execEach : ∀ {body : List Stmt}, EveryIn (Avoids name) body → Ignores name (S.execEach body)
  | [], _ => ignores_stop _
  | _ :: _, h => ignores_andThen (ignores_exec h.1) (ignores_execEach h.2)

lemma ignores_execArms : ∀ {arms : Arms}, EveryInArms (Avoids name) arms → ∀ arm ∈ S.execArms arms, Ignores name arm.2
  | .done, _ => by simp [execArms]
  | .case .., h => by
    simp only [execArms, List.forall_mem_cons]
    exact ⟨ignores_execEach h.1, ignores_execArms h.2⟩
  | .default _, h => by
    simp only [execArms, List.forall_mem_singleton]
    exact ignores_execEach h

lemma ignores_execClauses : ∀ {clauses : Clauses}, EveryInClauses (Avoids name) clauses → name ∉ clauses.bindings →
    (∀ handler ∈ (S.execClauses clauses).1, handler.2.1 ≠ name ∧ Ignores name handler.2.2) ∧
      Ignores name (S.execClauses clauses).2
  | .done, _, _ => ⟨by simp [execClauses], ignores_stop _⟩
  | .handler .., h, hne => by
    simp only [Clauses.bindings, List.mem_cons, not_or] at hne
    obtain ⟨hhandlers, hfinal⟩ := ignores_execClauses h.2 hne.2
    simp only [execClauses, List.forall_mem_cons]
    exact ⟨⟨⟨Ne.symm hne.1, ignores_execEach h.1⟩, hhandlers⟩, hfinal⟩
  | .finally _, h, _ => ⟨by simp [execClauses], ignores_execEach h⟩

end

end Surroundings

end JvmLift.Source
