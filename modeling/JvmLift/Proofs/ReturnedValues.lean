import Mathlib
import JvmLift.Proofs.PlainBodies

/-!
# Trees up to the returned values

Two trees of statements that differ in no more than the values of their `return` statements. The passes for monitors,
loops and assignments do not look at these values, so what they make of two such trees differs in no more again.
-/

namespace JvmLift.Source

open List

/-! ### The relation -/

mutual

/-- Two statements of one shape whose returned values are related by `R`. -/
inductive Like (R : Expr → Expr → Prop) : Stmt → Stmt → Prop
  | block {body body'} : Forall₂ (Like R) body body' → Like R (.block body) (.block body')
  | ifThen {cond body body'} : Forall₂ (Like R) body body' → Like R (.ifThen cond body) (.ifThen cond body')
  | ifElse {cond thenBody thenBody' elseBody elseBody'} : Forall₂ (Like R) thenBody thenBody' →
    Forall₂ (Like R) elseBody elseBody' → Like R (.ifElse cond thenBody elseBody) (.ifElse cond thenBody' elseBody')
  | whileLoop {cond body body'} : Forall₂ (Like R) body body' → Like R (.whileLoop cond body) (.whileLoop cond body')
  | forLoop {init init' cond update update' body body'} : Forall₂ (Like R) init init' →
    Forall₂ (Like R) update update' → Forall₂ (Like R) body body' →
    Like R (.forLoop init cond update body) (.forLoop init' cond update' body')
  | forEach {type name iterable body body'} : Forall₂ (Like R) body body' →
    Like R (.forEach type name iterable body) (.forEach type name iterable body')
  | switch {selector arms arms'} : LikeArms R arms arms' → Like R (.switch selector arms) (.switch selector arms')
  | assign {target value} : Like R (.assign target value) (.assign target value)
  | returnVoid : Like R .returnVoid .returnVoid
  | returnValue {value value'} : R value value' → Like R (.returnValue value) (.returnValue value')
  | evaluate {value} : Like R (.evaluate value) (.evaluate value)
  | throwValue {value} : Like R (.throwValue value) (.throwValue value)
  | tryCatch {body body' clauses clauses'} : Forall₂ (Like R) body body' → LikeClauses R clauses clauses' →
    Like R (.tryCatch body clauses) (.tryCatch body' clauses')
  | synchronized {monitor body body'} : Forall₂ (Like R) body body' →
    Like R (.synchronized monitor body) (.synchronized monitor body')
  | breakOut : Like R .breakOut .breakOut
  | continueLoop : Like R .continueLoop .continueLoop
  | comment {text} : Like R (.comment text) (.comment text)

inductive LikeArms (R : Expr → Expr → Prop) : Arms → Arms → Prop
  | done : LikeArms R .done .done
  | case {key body body' rest rest'} : Forall₂ (Like R) body body' → LikeArms R rest rest' →
    LikeArms R (.case key body rest) (.case key body' rest')
  | default {body body'} : Forall₂ (Like R) body body' → LikeArms R (.default body) (.default body')

inductive LikeClauses (R : Expr → Expr → Prop) : Clauses → Clauses → Prop
  | done : LikeClauses R .done .done
  | handler {type binding body body' rest rest'} : Forall₂ (Like R) body body' → LikeClauses R rest rest' →
    LikeClauses R (.handler type binding body rest) (.handler type binding body' rest')
  | finally {body body'} : Forall₂ (Like R) body body' → LikeClauses R (.finally body) (.finally body')

end

/-- Two bodies of one shape whose returned values are related by `R`. -/
abbrev LikeIn (R : Expr → Expr → Prop) : List Stmt → List Stmt → Prop :=
  Forall₂ (Like R)

variable {R : Expr → Expr → Prop}

mutual

lemma Like.refl (hR : ∀ e, R e e) : ∀ s : Stmt, Like R s s
  | .block body => .block (likeIn_refl hR body)
  | .ifThen _ body => .ifThen (likeIn_refl hR body)
  | .ifElse _ thenBody elseBody => .ifElse (likeIn_refl hR thenBody) (likeIn_refl hR elseBody)
  | .whileLoop _ body => .whileLoop (likeIn_refl hR body)
  | .forLoop init _ update body => .forLoop (likeIn_refl hR init) (likeIn_refl hR update) (likeIn_refl hR body)
  | .forEach _ _ _ body => .forEach (likeIn_refl hR body)
  | .switch _ arms => .switch (likeArms_refl hR arms)
  | .assign .. => .assign
  | .returnVoid => .returnVoid
  | .returnValue value => .returnValue (hR value)
  | .evaluate _ => .evaluate
  | .throwValue _ => .throwValue
  | .tryCatch body clauses => .tryCatch (likeIn_refl hR body) (likeClauses_refl hR clauses)
  | .synchronized _ body => .synchronized (likeIn_refl hR body)
  | .breakOut => .breakOut
  | .continueLoop => .continueLoop
  | .comment _ => .comment

lemma likeIn_refl (hR : ∀ e, R e e) : ∀ body : List Stmt, LikeIn R body body
  | [] => .nil
  | s :: rest => .cons (Like.refl hR s) (likeIn_refl hR rest)

lemma likeArms_refl (hR : ∀ e, R e e) : ∀ arms : Arms, LikeArms R arms arms
  | .done => .done
  | .case _ body rest => .case (likeIn_refl hR body) (likeArms_refl hR rest)
  | .default body => .default (likeIn_refl hR body)

lemma likeClauses_refl (hR : ∀ e, R e e) : ∀ clauses : Clauses, LikeClauses R clauses clauses
  | .done => .done
  | .handler _ _ body rest => .handler (likeIn_refl hR body) (likeClauses_refl hR rest)
  | .finally body => .finally (likeIn_refl hR body)

end

/-! ### Bodies at any depth -/

namespace Stmt

mutual

/-- The statement lists inside a statement, at any depth. -/
def bodies : Stmt → List (List Stmt)
  | block body | ifThen _ body | whileLoop _ body | forEach _ _ _ body | synchronized _ body => body :: bodiesEach body
  | ifElse _ thenBody elseBody => thenBody :: bodiesEach thenBody ++ elseBody :: bodiesEach elseBody
  | forLoop init _ update body =>
    init :: bodiesEach init ++ update :: bodiesEach update ++ body :: bodiesEach body
  | switch _ arms => bodiesArms arms
  | tryCatch body clauses => body :: bodiesEach body ++ bodiesClauses clauses
  | assign .. | returnVoid | returnValue _ | evaluate _ | throwValue _ | breakOut | continueLoop | comment _ => []

def bodiesEach : List Stmt → List (List Stmt)
  | [] => []
  | s :: rest => s.bodies ++ bodiesEach rest

def bodiesArms : Arms → List (List Stmt)
  | .done => []
  | .case _ body rest => body :: bodiesEach body ++ bodiesArms rest
  | .default body => body :: bodiesEach body

def bodiesClauses : Clauses → List (List Stmt)
  | .done => []
  | .handler _ _ body rest => body :: bodiesEach body ++ bodiesClauses rest
  | .finally body => body :: bodiesEach body

end

/-- A body and all statement lists inside it, at any depth. -/
def bodiesIn (body : List Stmt) : List (List Stmt) :=
  body :: bodiesEach body

end Stmt

open Stmt

mutual

/-- Trees that are alike have alike bodies. -/
lemma forall₂_bodies : ∀ {s s' : Stmt}, Like R s s' → Forall₂ (LikeIn R) s.bodies s'.bodies
  | .block _, _, .block h | .ifThen .., _, .ifThen h | .whileLoop .., _, .whileLoop h | .forEach .., _, .forEach h
  | .synchronized .., _, .synchronized h => .cons h (forall₂_bodiesEach h)
  | .ifElse .., _, .ifElse h₁ h₂ => rel_append (.cons h₁ (forall₂_bodiesEach h₁)) (.cons h₂ (forall₂_bodiesEach h₂))
  | .forLoop .., _, .forLoop h₁ h₂ h₃ =>
    rel_append (rel_append (.cons h₁ (forall₂_bodiesEach h₁)) (.cons h₂ (forall₂_bodiesEach h₂)))
      (.cons h₃ (forall₂_bodiesEach h₃))
  | .switch .., _, .switch h => forall₂_bodiesArms h
  | .tryCatch .., _, .tryCatch h₁ h₂ => rel_append (.cons h₁ (forall₂_bodiesEach h₁)) (forall₂_bodiesClauses h₂)
  | .assign .., _, .assign | .returnVoid, _, .returnVoid | .returnValue _, _, .returnValue _ | .evaluate _, _, .evaluate
  | .throwValue _, _, .throwValue | .breakOut, _, .breakOut | .continueLoop, _, .continueLoop
  | .comment _, _, .comment => .nil
termination_by structural s => s

lemma forall₂_bodiesEach : ∀ {body body' : List Stmt}, LikeIn R body body' →
    Forall₂ (LikeIn R) (bodiesEach body) (bodiesEach body')
  | [], _, .nil => .nil
  | _ :: _, _, .cons h hrest => rel_append (forall₂_bodies h) (forall₂_bodiesEach hrest)

lemma forall₂_bodiesArms : ∀ {arms arms' : Arms}, LikeArms R arms arms' →
    Forall₂ (LikeIn R) (bodiesArms arms) (bodiesArms arms')
  | .done, _, .done => .nil
  | .case .., _, .case h hrest => rel_append (.cons h (forall₂_bodiesEach h)) (forall₂_bodiesArms hrest)
  | .default _, _, .default h => .cons h (forall₂_bodiesEach h)

lemma forall₂_bodiesClauses : ∀ {clauses clauses' : Clauses}, LikeClauses R clauses clauses' →
    Forall₂ (LikeIn R) (bodiesClauses clauses) (bodiesClauses clauses')
  | .done, _, .done => .nil
  | .handler .., _, .handler h hrest => rel_append (.cons h (forall₂_bodiesEach h)) (forall₂_bodiesClauses hrest)
  | .finally _, _, .finally h => .cons h (forall₂_bodiesEach h)

end

/-! ### Mapping bodies -/

/-- Two passes whose results on alike bodies are alike. The first one may rely on `P`, which holds of all statements
that it has been through. -/
structure AlikePasses (R : Expr → Expr → Prop) (P : Stmt → Prop) (f f' : List Stmt → List Stmt) : Prop where
  through : ∀ s : Stmt, P (s.mapBodies f)
  alike : ∀ {body body' : List Stmt}, (∀ s ∈ body, P s) → LikeIn R body body' → LikeIn R (f body) (f' body')

section MapBodies

variable {P : Stmt → Prop} {f f' : List Stmt → List Stmt} {body body' : List Stmt}

/-- The passes may be run on bodies that are alike up to the statements inside. -/
lemma AlikePasses.bottomUp (hf : AlikePasses R P f f') (h : LikeIn R (mapBodiesEach f body) (mapBodiesEach f' body')) :
    LikeIn R (bottomUp f body) (bottomUp f' body') := by
  refine hf.alike ?_ h
  rw [mapBodiesEach_eq_map]
  simpa using fun s _ => hf.through s

mutual

lemma Like.mapBodies (hf : AlikePasses R P f f') : ∀ {s s' : Stmt}, Like R s s' →
    Like R (s.mapBodies f) (s'.mapBodies f')
  | .block _, _, .block h => .block (hf.bottomUp (likeIn_mapBodiesEach hf h))
  | .ifThen .., _, .ifThen h => .ifThen (hf.bottomUp (likeIn_mapBodiesEach hf h))
  | .ifElse .., _, .ifElse h₁ h₂ =>
    .ifElse (hf.bottomUp (likeIn_mapBodiesEach hf h₁)) (hf.bottomUp (likeIn_mapBodiesEach hf h₂))
  | .whileLoop .., _, .whileLoop h => .whileLoop (hf.bottomUp (likeIn_mapBodiesEach hf h))
  | .forLoop .., _, .forLoop h₁ h₂ h₃ => .forLoop h₁ h₂ (hf.bottomUp (likeIn_mapBodiesEach hf h₃))
  | .forEach .., _, .forEach h => .forEach (hf.bottomUp (likeIn_mapBodiesEach hf h))
  | .switch .., _, .switch h => .switch (likeArms_mapBodies hf h)
  | .tryCatch .., _, .tryCatch h₁ h₂ =>
    .tryCatch (hf.bottomUp (likeIn_mapBodiesEach hf h₁)) (likeClauses_mapBodies hf h₂)
  | .synchronized .., _, .synchronized h => .synchronized (hf.bottomUp (likeIn_mapBodiesEach hf h))
  | .assign .., _, .assign => .assign
  | .returnVoid, _, .returnVoid => .returnVoid
  | .returnValue _, _, .returnValue h => .returnValue h
  | .evaluate _, _, .evaluate => .evaluate
  | .throwValue _, _, .throwValue => .throwValue
  | .breakOut, _, .breakOut => .breakOut
  | .continueLoop, _, .continueLoop => .continueLoop
  | .comment _, _, .comment => .comment
termination_by structural s => s

lemma likeIn_mapBodiesEach (hf : AlikePasses R P f f') : ∀ {body body' : List Stmt}, LikeIn R body body' →
    LikeIn R (mapBodiesEach f body) (mapBodiesEach f' body')
  | [], _, .nil => .nil
  | _ :: _, _, .cons h hrest => .cons (h.mapBodies hf) (likeIn_mapBodiesEach hf hrest)

lemma likeArms_mapBodies (hf : AlikePasses R P f f') : ∀ {arms arms' : Arms}, LikeArms R arms arms' →
    LikeArms R (mapBodiesArms f arms) (mapBodiesArms f' arms')
  | .done, _, .done => .done
  | .case .., _, .case h hrest => .case (hf.bottomUp (likeIn_mapBodiesEach hf h)) (likeArms_mapBodies hf hrest)
  | .default _, _, .default h => .default (hf.bottomUp (likeIn_mapBodiesEach hf h))

lemma likeClauses_mapBodies (hf : AlikePasses R P f f') : ∀ {clauses clauses' : Clauses},
    LikeClauses R clauses clauses' → LikeClauses R (mapBodiesClauses f clauses) (mapBodiesClauses f' clauses')
  | .done, _, .done => .done
  | .handler .., _, .handler h hrest =>
    .handler (hf.bottomUp (likeIn_mapBodiesEach hf h)) (likeClauses_mapBodies hf hrest)
  | .finally _, _, .finally h => .finally (hf.bottomUp (likeIn_mapBodiesEach hf h))

end

lemma likeIn_bottomUp (hf : AlikePasses R P f f') (h : LikeIn R body body') :
    LikeIn R (bottomUp f body) (bottomUp f' body') :=
  hf.bottomUp (likeIn_mapBodiesEach hf h)

end MapBodies

mutual

lemma Like.hasOwnContinue_eq : ∀ {s s' : Stmt}, Like R s s' → s.hasOwnContinue = s'.hasOwnContinue
  | .block _, _, .block h | .ifThen .., _, .ifThen h | .synchronized .., _, .synchronized h => anyOwnContinue_eq h
  | .ifElse .., _, .ifElse h₁ h₂ => by
    simp only [hasOwnContinue, anyOwnContinue_eq h₁, anyOwnContinue_eq h₂]
  | .switch .., _, .switch h => armsOwnContinue_eq h
  | .tryCatch .., _, .tryCatch h₁ h₂ => by
    simp only [hasOwnContinue, anyOwnContinue_eq h₁, clausesOwnContinue_eq h₂]
  | .whileLoop .., _, .whileLoop _ | .forLoop .., _, .forLoop .. | .forEach .., _, .forEach _ | .assign .., _, .assign
  | .returnVoid, _, .returnVoid | .returnValue _, _, .returnValue _ | .evaluate _, _, .evaluate
  | .throwValue _, _, .throwValue | .breakOut, _, .breakOut | .continueLoop, _, .continueLoop
  | .comment _, _, .comment => rfl
termination_by structural s => s

lemma anyOwnContinue_eq : ∀ {body body' : List Stmt}, LikeIn R body body' → anyOwnContinue body = anyOwnContinue body'
  | [], _, .nil => rfl
  | _ :: _, _, .cons h hrest => by simp only [anyOwnContinue, h.hasOwnContinue_eq, anyOwnContinue_eq hrest]

lemma armsOwnContinue_eq : ∀ {arms arms' : Arms}, LikeArms R arms arms' → armsOwnContinue arms = armsOwnContinue arms'
  | .done, _, .done => rfl
  | .case .., _, .case h hrest => by simp only [armsOwnContinue, anyOwnContinue_eq h, armsOwnContinue_eq hrest]
  | .default _, _, .default h => anyOwnContinue_eq h

lemma clausesOwnContinue_eq : ∀ {clauses clauses' : Clauses}, LikeClauses R clauses clauses' →
    clausesOwnContinue clauses = clausesOwnContinue clauses'
  | .done, _, .done => rfl
  | .handler .., _, .handler h hrest => by
    simp only [clausesOwnContinue, anyOwnContinue_eq h, clausesOwnContinue_eq hrest]
  | .finally _, _, .finally h => anyOwnContinue_eq h

end

end JvmLift.Source

namespace JvmLift.Idiom

open Source Stmt List

variable {R : Expr → Expr → Prop} {s s' : Stmt} {body body' : List Stmt}

/-- The ends of two lists whose entries are related. -/
lemma rel_getLast? {α β : Type*} {S : α → β → Prop} {xs : List α} {ys : List β} (h : Forall₂ S xs ys) :
    Option.Rel S xs.getLast? ys.getLast? := by
  have hrev := rel_reverse h
  rw [← head?_reverse, ← head?_reverse]
  generalize xs.reverse = front at hrev ⊢
  generalize ys.reverse = front' at hrev ⊢
  cases hrev with
  | nil => exact .none
  | cons hxy _ => exact .some hxy

lemma forall₂_dropLast {α β : Type*} {S : α → β → Prop} {xs : List α} {ys : List β} (h : Forall₂ S xs ys) :
    Forall₂ S xs.dropLast ys.dropLast := by
  rw [dropLast_eq_take, dropLast_eq_take, h.length_eq]
  exact forall₂_take _ h

/-! ### Monitors -/

lemma monitorCall?_eq_of_like (h : Like R s s') (which : String) : monitorCall? which s = monitorCall? which s' := by
  cases h <;> rfl

lemma isMonitorExit_eq_of_like (h : Like R s s') : isMonitorExit s = isMonitorExit s' := by
  rw [isMonitorExit, isMonitorExit, monitorCall?_eq_of_like h]

lemma likeIn_dropMonitorExits (h : LikeIn R body body') :
    LikeIn R (dropMonitorExits body) (dropMonitorExits body') := by
  have hpass : AlikePasses R (fun _ => True) (·.filter fun s => !isMonitorExit s)
      (·.filter fun s => !isMonitorExit s) :=
    ⟨fun _ => trivial, fun _ hbody => rel_filter (fun _ _ hs => by simp [isMonitorExit_eq_of_like hs]) hbody⟩
  exact likeIn_bottomUp hpass h

lemma throwsAgain_eq_of_like (h : LikeIn R body body') : throwsAgain body = throwsAgain body' := by
  have hlast := rel_getLast? h
  unfold throwsAgain
  generalize body.getLast? = last at hlast ⊢
  generalize body'.getLast? = last' at hlast ⊢
  cases hlast with
  | none => rfl
  | some hs => cases hs <;> rfl

lemma rel_guardedBody? (h : Like R s s') : Option.Rel (LikeIn R) (guardedBody? s) (guardedBody? s') := by
  cases h with
  | tryCatch hbody hclauses =>
    cases hclauses with
    | handler hhandler hrest =>
      cases hrest <;> simp only [guardedBody?, throwsAgain_eq_of_like hhandler]
      · split_ifs
        · exact .some hbody
        · exact .none
      · exact .none
      · split_ifs
        · exact .some hbody
        · exact .none
    | _ => exact .none
  | _ => exact .none

namespace Sections

lemma likeIn_dropCopy (monitor : Expr) (h : LikeIn R body body') :
    LikeIn R (dropCopy monitor body) (dropCopy monitor body') := by
  cases h with
  | nil => exact .nil
  | cons hs hrest =>
    cases hs with
    | assign =>
      simp only [dropCopy]
      split_ifs
      · exact hrest
      · exact .cons .assign hrest
    | _ => exact .cons (by constructor <;> assumption) hrest

/-- Two states that differ in no more than returned values. -/
structure Alike (R : Expr → Expr → Prop) (state state' : Sections) : Prop where
  done : LikeIn R state.done state'.done
  current : Option.Rel (fun a b => Like R a.enter b.enter ∧ a.monitor = b.monitor ∧ LikeIn R a.body b.body)
    state.current state'.current

variable {state state' : Sections}

lemma Alike.push (h : state.Alike R state') (hs : Like R s s') : (state.push s).Alike R (state'.push s') := by
  obtain ⟨done, current⟩ := state
  obtain ⟨done', current'⟩ := state'
  obtain ⟨hdone, hcurrent⟩ := h
  cases hcurrent with
  | none =>
    simp only [Sections.push, next, ← monitorCall?_eq_of_like hs]
    cases monitorCall? "monitorenter" s with
    | none => exact ⟨.cons hs hdone, .none⟩
    | some monitor => exact ⟨likeIn_dropCopy monitor hdone, .some ⟨hs, rfl, .nil⟩⟩
  | @some current current' hparts =>
    obtain ⟨enter, monitor, body⟩ := current
    obtain ⟨enter', _, body'⟩ := current'
    obtain ⟨henter, rfl, hbody⟩ := hparts
    have hguarded : Option.Rel (LikeIn R) (if body.isEmpty then guardedBody? s else none)
        (if body'.isEmpty then guardedBody? s' else none) := by
      cases hbody with
      | nil => exact rel_guardedBody? hs
      | cons => exact .none
    simp only [Sections.push, extend]
    generalize (if body.isEmpty then guardedBody? s else none) = guarded at hguarded ⊢
    generalize (if body'.isEmpty then guardedBody? s' else none) = guarded' at hguarded ⊢
    cases hguarded with
    | some hinner => exact ⟨.cons (.synchronized (likeIn_dropMonitorExits hinner)) hdone, .none⟩
    | none =>
      simp only [isMonitorExit_eq_of_like hs]
      split_ifs
      · exact ⟨.cons (.synchronized (rel_reverse hbody)) hdone, .none⟩
      · exact ⟨hdone, .some ⟨henter, rfl, .cons hs hbody⟩⟩

lemma Alike.foldl (h : state.Alike R state') (hbody : LikeIn R body body') :
    (body.foldl Sections.push state).Alike R (body'.foldl Sections.push state') := by
  induction hbody generalizing state state' with
  | nil => exact h
  | cons hs _ ih => exact ih (h.push hs)

lemma Alike.finish (h : state.Alike R state') : LikeIn R state.finish state'.finish := by
  obtain ⟨done, current⟩ := state
  obtain ⟨done', current'⟩ := state'
  obtain ⟨hdone, hcurrent⟩ := h
  cases hcurrent with
  | none => exact rel_reverse hdone
  | some hparts =>
    obtain ⟨henter, -, hbody⟩ := hparts
    exact rel_append (rel_reverse hdone) (.cons henter (rel_reverse hbody))

end Sections

lemma likeIn_recoverSynchronized (h : LikeIn R body body') :
    LikeIn R (recoverSynchronized body) (recoverSynchronized body') :=
  (Sections.Alike.foldl ⟨.nil, .none⟩ h).finish

/-! ### Loops -/

lemma rel_forEach? {setup setup' : Stmt} (cond : Expr) (hsetup : Like R setup setup') (h : LikeIn R body body') :
    Option.Rel (Like R) (forEach? setup cond body) (forEach? setup' cond body') := by
  have hhead : iteratorSetup? setup = iteratorSetup? setup' := by cases hsetup <;> rfl
  have helement {s s' : Stmt} (hs : Like R s s') (it : String) : element? it s = element? it s' := by cases hs <;> rfl
  simp only [forEach?, hhead]
  cases iteratorSetup? setup' with
  | none => exact .none
  | some head =>
    cases h with
    | nil => exact .none
    | cons hs hrest =>
      simp only [Option.bind_eq_bind, Option.bind_some, helement hs]
      split_ifs
      · cases element? head.1 _ with
        | none => exact .none
        | some element => exact .some (.forEach hrest)
      · exact .none

lemma rel_forLoop? {setup setup' : Stmt} (cond : Expr) (hsetup : Like R setup setup') (h : LikeIn R body body') :
    Option.Rel (Like R) (forLoop? setup cond body) (forLoop? setup' cond body') := by
  have hhead : assignedVar? setup = assignedVar? setup' := by cases hsetup <;> rfl
  have hstepped {s s' : Stmt} (hs : Like R s s') : steppedVar? s = steppedVar? s' := by cases hs <;> rfl
  simp only [forLoop?, hhead, anyOwnContinue_eq h]
  have hlast := rel_getLast? h
  generalize body.getLast? = last at hlast ⊢
  generalize body'.getLast? = last' at hlast ⊢
  cases hlast with
  | none => exact .none
  | some hs =>
    simp only [Option.bind_eq_bind, Option.bind_some, hstepped hs]
    cases steppedVar? _ with
    | none => exact .none
    | some var =>
      simp only [Option.bind_some]
      split_ifs
      · exact .some (.forLoop (.cons hsetup .nil) (.cons hs .nil) (forall₂_dropLast h))
      · exact .none

lemma likeIn_joinHeads {head? : Stmt → Expr → List Stmt → Option Stmt}
    (hhead : ∀ {setup setup' : Stmt} {body body' : List Stmt} (cond : Expr), Like R setup setup' → LikeIn R body body' →
      Option.Rel (Like R) (head? setup cond body) (head? setup' cond body'))
    (h : LikeIn R body body') : LikeIn R (joinHeads head? body) (joinHeads head? body') := by
  have hpush : Relator.LiftFun (LikeIn R) (Relator.LiftFun (Like R) (LikeIn R)) (pushLoop head?) (pushLoop head?) := by
    intro done done' hdone s s' hs
    cases hs with
    | @whileLoop cond inner inner' hinner =>
      cases hdone with
      | nil => exact .cons (.whileLoop hinner) .nil
      | cons hsetup hearlier =>
        simp only [pushLoop]
        have hjoined := hhead cond hsetup hinner
        generalize head? _ cond inner = loop at hjoined ⊢
        generalize head? _ cond inner' = loop' at hjoined ⊢
        cases hjoined with
        | none => exact .cons (.whileLoop hinner) (.cons hsetup hearlier)
        | some hloop => exact .cons hloop hearlier
    | _ => exact .cons (by constructor <;> assumption) hdone
  exact rel_reverse (rel_foldl hpush .nil h)

/-! ### Assignments and the last return -/

/-- A body of one assignment is alike to no body but itself. -/
lemma likeIn_assign_left {target value : Expr} (h : LikeIn R [.assign target value] body') :
    body' = [.assign target value] := by
  cases h with
  | cons hs hrest => cases hs; cases hrest; rfl

lemma likeIn_assign_right {target value : Expr} (h : LikeIn R body [.assign target value]) :
    body = [.assign target value] := by
  cases h with
  | cons hs hrest => cases hs; cases hrest; rfl

lemma like_foldAssign (h : Like R s s') : Like R (foldAssign s) (foldAssign s') := by
  cases h with
  | @ifElse cond thenBody thenBody' elseBody elseBody' h₁ h₂ =>
    unfold foldAssign
    split
    · next heq =>
      obtain ⟨rfl, rfl, rfl⟩ := Stmt.ifElse.inj heq
      obtain rfl := likeIn_assign_left h₁
      obtain rfl := likeIn_assign_left h₂
      simp only
      split_ifs
      · exact .assign
      · exact .ifElse h₁ h₂
    · next hne =>
      split
      · next heq =>
        obtain ⟨-, rfl, rfl⟩ := Stmt.ifElse.inj heq
        exact absurd (by rw [likeIn_assign_right h₁, likeIn_assign_right h₂]) (hne _ _ _ _ _)
      · exact .ifElse h₁ h₂
  | _ => constructor <;> assumption

lemma likeIn_foldAssigns (h : LikeIn R body body') : LikeIn R (foldAssigns body) (foldAssigns body') :=
  rel_map (fun _ _ hs => like_foldAssign hs) h

lemma likeIn_dropReturn (h : LikeIn R body body') : LikeIn R (dropReturn body) (dropReturn body') := by
  have hlast := rel_getLast? h
  unfold dropReturn
  generalize body.getLast? = last at hlast ⊢
  generalize body'.getLast? = last' at hlast ⊢
  cases hlast with
  | none => exact h
  | some hs =>
    cases hs with
    | returnVoid => exact forall₂_dropLast h
    | _ => exact h

end JvmLift.Idiom
