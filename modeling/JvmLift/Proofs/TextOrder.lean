import Mathlib
import JvmLift.Proofs.BlockRuns
import JvmLift.Proofs.Conservation

/-!
# The order of the text

A run of a body without loops performs its statements in the order in which they are written, and each of them at most
once: all jumps lead forward in the text.
-/

namespace JvmLift.Source

mutual

/-- Whether a statement holds no loop. -/
def Stmt.isStraight : Stmt → Bool
  | .whileLoop .. | .forLoop .. | .forEach .. => false
  | .block body | .ifThen _ body | .synchronized _ body => isStraightEach body
  | .ifElse _ thenBody elseBody => isStraightEach thenBody && isStraightEach elseBody
  | .switch _ arms => arms.isStraight
  | .tryCatch body clauses => isStraightEach body && clauses.isStraight
  | .assign .. | .returnVoid | .returnValue _ | .evaluate _ | .throwValue _ | .breakOut | .continueLoop | .comment _ =>
    true

def isStraightEach : List Stmt → Bool
  | [] => true
  | s :: rest => s.isStraight && isStraightEach rest

def Arms.isStraight : Arms → Bool
  | .done => true
  | .case _ body rest => isStraightEach body && rest.isStraight
  | .default body => isStraightEach body

def Clauses.isStraight : Clauses → Bool
  | .done => true
  | .handler _ _ body rest => isStraightEach body && rest.isStraight
  | .finally body => isStraightEach body

end

@[simp] lemma isStraightEach_nil : isStraightEach [] = true := rfl

@[simp] lemma isStraightEach_cons (s : Stmt) (rest : List Stmt) :
    isStraightEach (s :: rest) = (s.isStraight && isStraightEach rest) := rfl

@[simp] lemma isStraightEach_append (front back : List Stmt) :
    isStraightEach (front ++ back) = (isStraightEach front && isStraightEach back) := by
  induction front with
  | nil => rfl
  | cons s front ih => simp [ih, Bool.and_assoc]

end JvmLift.Source

namespace JvmLift.Structure

open Bytecode JvmLift.Flow Recovery Source Stmt

lemma Setting.isStraight_ifStmt (cond negated : Expr) (thenBody elseBody : List Stmt) :
    (ifStmt cond negated thenBody elseBody).isStraight = (isStraightEach thenBody && isStraightEach elseBody) := by
  unfold ifStmt
  split_ifs with helse hthen
  · simp [List.isEmpty_iff.mp helse, Stmt.isStraight]
  · simp [List.isEmpty_iff.mp hthen, Stmt.isStraight]
  · rfl

/-- Each block is recovered as the same statements wherever it is run. -/
def Setting.RecoversAs (s : Setting) (recovered : BlockId → List Stmt) : Prop :=
  ∀ id r, s.Recovers id r → r.stmts = recovered id

/-- The statements that a run performs. -/
def performed (recovered : BlockId → List Stmt) (t : List Sight) : List Stmt :=
  t.flatMap fun
    | .visit id => recovered id
    | _ => []

/-- All runs perform a part of some statements in their order. -/
def Runs.Within (recovered : BlockId → List Stmt) (A : Runs) (stmts : List Stmt) : Prop :=
  ∀ t, A t → (performed recovered t).Sublist stmts

/-- Whatever follows performs a part of some statements in their order. -/
structure Exits.Within (K : Exits) (recovered : BlockId → List Stmt) (stmts : List Stmt) : Prop where
  done : K.done.Within recovered stmts
  broken : K.broken.Within recovered stmts
  continued : K.continued.Within recovered stmts

/-- From wherever the arms of a switch are entered, they perform a part of some statements in their order. -/
structure Entries.Within (E : Entries) (recovered : BlockId → List Stmt) (stmts : List Stmt) : Prop where
  first : E.first.Within recovered stmts
  keyed : ∀ x ∈ E.keyed, x.2.Within recovered stmts
  default : E.default.Within recovered stmts

variable {recovered : BlockId → List Stmt} {stmts stmts' : List Stmt} {A : Runs} {K : Exits} {s : Setting}

lemma Runs.Within.mono (h : A.Within recovered stmts) (hsub : stmts.Sublist stmts') : A.Within recovered stmts' :=
  fun t ht => (h t ht).trans hsub

lemma Exits.Within.behind (h : K.Within recovered stmts) (front : List Stmt) : K.Within recovered (front ++ stmts) :=
  ⟨h.done.mono (List.sublist_append_right _ _), h.broken.mono (List.sublist_append_right _ _),
    h.continued.mono (List.sublist_append_right _ _)⟩

lemma within_halt : Runs.halt.Within recovered stmts
  | [], _ => List.nil_sublist _

lemma within_visit {id : BlockId} (h : A.Within recovered stmts) :
    (Runs.visit id A).Within recovered (recovered id ++ stmts)
  | [], _ => List.nil_sublist _
  | _ :: t, ⟨rfl, ht⟩ => (h t ht).append_left _

lemma within_test {id : BlockId} {A : Bool → Runs} (h : ∀ taken, (A taken).Within recovered stmts) :
    (Runs.test id A).Within recovered stmts
  | [], _ => List.nil_sublist _
  | _ :: t, ⟨taken, rfl, ht⟩ => h taken t ht

lemma within_select {id : BlockId} {E : Entries} (h : E.Within recovered stmts) :
    (Runs.select id (.choose (fun runs => runs) E.keyed (some E.default))).Within recovered stmts
  | [], _ => List.nil_sublist _
  | _ :: t, ⟨_, rfl, .inl ⟨x, hx, _, ht⟩⟩ => h.keyed x hx t ht
  | _ :: t, ⟨_, rfl, .inr ⟨_, _, rfl, ht⟩⟩ => h.default t ht

/-- The tests of a condition perform nothing. -/
lemma Guard.within (hrecovered : s.RecoversAs recovered) {cond : Guard} (hvalid : cond.Valid s) {A : Bool → Runs}
    (h : ∀ holds, (A holds).Within recovered stmts) : (cond.runs A).Within recovered stmts := by
  induction cond generalizing A with
  | test id c => exact within_test h
  | orElse before id c sense ih =>
    obtain ⟨hbefore, r, hr, -, hstmts⟩ := hvalid
    have hnone : recovered id = [] := (hrecovered id r hr).symm.trans hstmts
    refine ih hbefore fun holds => ?_
    cases holds with
    | true => exact h true
    | false =>
      have hvisit : (Runs.visit id (.test id fun taken => A (taken == sense))).Within recovered (recovered id ++ stmts) :=
        within_visit (within_test fun taken => h (taken == sense))
      rwa [hnone, List.nil_append] at hvisit

lemma Part.within_block (hrecovered : s.RecoversAs recovered) {id : BlockId} {own : List Stmt}
    (hvalid : (Part.block id own).Valid s) (hK : K.done.Within recovered stmts) :
    ((Part.block id own).runs K).Within recovered (leavesEach own ++ stmts) := by
  obtain ⟨r, hr, rfl⟩ := hvalid
  have hleaves : leavesEach r.stmts = r.stmts := by
    obtain ⟨b, stack, skip, -, hrun, -⟩ := hr
    exact leavesEach_eq_self (proper_of_run hrun).leaf
  rw [hleaves, hrecovered id r hr]
  refine within_visit ?_
  split
  · exact within_halt
  · exact hK

mutual

lemma Part.within (hrecovered : s.RecoversAs recovered) {part : Part} {K : Exits} {stmts : List Stmt}
    (hvalid : part.Valid s) (hstraight : isStraightEach part.stmts = true) (hK : K.Within recovered stmts) :
    (part.runs K).Within recovered (leavesEach part.stmts ++ stmts) := by
  match part with
  | .block id own => exact Part.within_block hrecovered hvalid hK.done
  | .breakOut => exact hK.broken
  | .continueLoop => exact hK.continued
  | .ifThen cond sense body =>
    have hbody := Part.withinEach hrecovered hvalid.2 (by simpa [Part.stmts, Stmt.isStraight] using hstraight) hK
    simp only [Part.stmts, leavesEach_cons, leaves_ifThen, leavesEach_nil, List.append_nil]
    refine Guard.within hrecovered hvalid.1 fun holds => ?_
    split
    · exact hbody
    · exact (hK.behind _).done
  | .ifElse cond taken fall =>
    simp only [Part.stmts, isStraightEach_cons, Setting.isStraight_ifStmt, isStraightEach_nil, Bool.and_true,
      Bool.and_eq_true] at hstraight
    have hfall := Part.withinEach hrecovered hvalid.2.2 hstraight.1 (hK.behind (leavesEach (written taken)))
    have htaken := Part.withinEach hrecovered hvalid.2.1 hstraight.2 hK
    simp only [Part.stmts, leavesEach_cons, Setting.leaves_ifStmt, leavesEach_nil, List.append_nil, List.append_assoc]
    refine Guard.within hrecovered hvalid.1 fun holds => ?_
    cases holds with
    | true => exact htaken.mono (List.sublist_append_right _ _)
    | false => exact hfall
  | .choice cond taken fall =>
    obtain ⟨hcond, htaken, hfall, htakenStmts, hfallStmts⟩ := hvalid
    have htaken := Part.withinEach hrecovered htaken (by rw [htakenStmts]; rfl) hK
    have hfall := Part.withinEach hrecovered hfall (by rw [hfallStmts]; rfl) hK
    rw [htakenStmts] at htaken
    rw [hfallStmts] at hfall
    refine Guard.within hrecovered hcond fun holds => ?_
    cases holds with
    | true => exact htaken
    | false => exact hfall
  | .forever body => simp [Part.stmts, Stmt.isStraight] at hstraight
  | .whileTest header cond sense body => simp [Part.stmts, Stmt.isStraight] at hstraight
  | .switch id selector arms =>
    have harms := Cases.within hrecovered hvalid.2 (by simpa [Part.stmts, Stmt.isStraight] using hstraight)
      (K := ⟨K.done, K.done, K.continued⟩) ⟨hK.done, hK.done, hK.continued⟩
    simp only [Part.stmts, leavesEach_cons, leaves_switch, leavesEach_nil, List.append_nil]
    exact within_select harms
  | .tryCatch body .done => exact Part.withinEach hrecovered hvalid.1 hstraight hK
  | .tryCatch body (.clause type binding handler rest) =>
    simp only [Part.stmts, isStraightEach_cons, Stmt.isStraight, isStraightEach_nil, Bool.and_true,
      Bool.and_eq_true] at hstraight
    have hbody := Part.withinEach hrecovered hvalid.1 hstraight.1
      (hK.behind (leavesClauses (.handler type binding (written handler) rest.clauses)))
    simp only [Part.stmts, leavesEach_cons, leaves, leavesEach_nil, List.append_nil, List.append_assoc]
    exact hbody

/-- **Without loops, statements are performed in the order in which they are written.** By induction on the outline, for
whatever follows behind it. -/
lemma Part.withinEach (hrecovered : s.RecoversAs recovered) {o : List Part} {K : Exits} {stmts : List Stmt}
    (hvalid : ValidEach s o) (hstraight : isStraightEach (written o) = true) (hK : K.Within recovered stmts) :
    (Part.runsEach o K).Within recovered (leavesEach (written o) ++ stmts) := by
  match o with
  | [] => exact hK.done
  | part :: rest =>
    simp only [written_cons, isStraightEach_append, Bool.and_eq_true] at hstraight
    have hrest := Part.withinEach hrecovered hvalid.2 hstraight.2 hK
    have hbehind := hK.behind (leavesEach (written rest))
    rw [written_cons, leavesEach_append, List.append_assoc]
    exact Part.within hrecovered hvalid.1 hstraight.1 ⟨hrest, hbehind.broken, hbehind.continued⟩

lemma Cases.within (hrecovered : s.RecoversAs recovered) {arms : Cases} {K : Exits} {stmts : List Stmt}
    (hvalid : arms.Valid s) (hstraight : arms.arms.isStraight = true) (hK : K.Within recovered stmts) :
    (arms.entries K).Within recovered (leavesArms arms.arms ++ stmts) := by
  match arms with
  | .done => exact ⟨hK.done, nofun, hK.done⟩
  | .case key target body rest =>
    simp only [Cases.arms, Arms.isStraight, Bool.and_eq_true] at hstraight
    have hrest := Cases.within hrecovered hvalid.2 hstraight.2 hK
    have hbehind := hK.behind (leavesArms rest.arms)
    have hbody := Part.withinEach hrecovered hvalid.1 hstraight.1
      (K := { K with done := (rest.entries K).first }) ⟨hrest.first, hbehind.broken, hbehind.continued⟩
    rw [Cases.arms, leavesArms, List.append_assoc]
    refine ⟨hbody, List.forall_mem_cons.mpr ⟨hbody, fun x hx => ?_⟩, ?_⟩
    · exact (hrest.keyed x hx).mono (List.sublist_append_right _ _)
    · exact hrest.default.mono (List.sublist_append_right _ _)
  | .default target body =>
    have hbody := Part.withinEach hrecovered hvalid hstraight hK
    exact ⟨hbody, nofun, hbody⟩

end

end JvmLift.Structure
