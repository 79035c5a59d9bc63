import Mathlib
import JvmLift.Proofs.Leaves
import JvmLift.Proofs.PlainBodies

/-!
# The scope of jumps

A `break` needs a loop or a switch around it, and a `continue` needs a loop. Both refer to the innermost one. The passes
that recover idioms join statements and lift bodies out of constructs, but never out of a loop or a switch.
-/

namespace JvmLift.Source.Stmt

mutual

/-- Whether each `break` of a statement is in a loop or a switch and each `continue` is in a loop, where `breakable` and
`inLoop` say what is around the statement. -/
def jumpsFit (breakable inLoop : Bool) : Stmt → Bool
  | breakOut => breakable
  | continueLoop => inLoop
  | block body | ifThen _ body | synchronized _ body => jumpsFitEach breakable inLoop body
  | ifElse _ thenBody elseBody => jumpsFitEach breakable inLoop thenBody && jumpsFitEach breakable inLoop elseBody
  | whileLoop _ body | forEach _ _ _ body => jumpsFitEach true true body
  | forLoop init _ update body =>
    jumpsFitEach breakable inLoop init && jumpsFitEach breakable inLoop update && jumpsFitEach true true body
  | switch _ arms => jumpsFitArms true inLoop arms
  | tryCatch body clauses => jumpsFitEach breakable inLoop body && jumpsFitClauses breakable inLoop clauses
  | assign .. | returnVoid | returnValue _ | evaluate _ | throwValue _ | comment _ => true

/-- Whether the jumps of a body fit what is around it. -/
def jumpsFitEach (breakable inLoop : Bool) : List Stmt → Bool
  | [] => true
  | s :: rest => s.jumpsFit breakable inLoop && jumpsFitEach breakable inLoop rest

def jumpsFitArms (breakable inLoop : Bool) : Arms → Bool
  | .done => true
  | .case _ body rest => jumpsFitEach breakable inLoop body && jumpsFitArms breakable inLoop rest
  | .default body => jumpsFitEach breakable inLoop body

def jumpsFitClauses (breakable inLoop : Bool) : Clauses → Bool
  | .done => true
  | .handler _ _ body rest => jumpsFitEach breakable inLoop body && jumpsFitClauses breakable inLoop rest
  | .finally body => jumpsFitEach breakable inLoop body

end

variable {breakable inLoop : Bool} {body : List Stmt}

lemma jumpsFitEach_iff : jumpsFitEach breakable inLoop body = true ↔ ∀ s ∈ body, s.jumpsFit breakable inLoop = true := by
  induction body with
  | nil => simp [jumpsFitEach]
  | cons s rest ih => simp [jumpsFitEach, ih]

@[simp] lemma jumpsFitEach_append (a b : List Stmt) :
    jumpsFitEach breakable inLoop (a ++ b) = (jumpsFitEach breakable inLoop a && jumpsFitEach breakable inLoop b) := by
  rw [Bool.eq_iff_iff, Bool.and_eq_true]
  simp only [jumpsFitEach_iff, List.forall_mem_append]

@[simp] lemma jumpsFitEach_reverse (body : List Stmt) :
    jumpsFitEach breakable inLoop body.reverse = jumpsFitEach breakable inLoop body := by
  rw [Bool.eq_iff_iff]
  simp only [jumpsFitEach_iff, List.mem_reverse]

lemma jumpsFit_of_isLeaf {s : Stmt} (h : s.isLeaf = true) : s.jumpsFit breakable inLoop = true := by
  cases s <;> first | rfl | cases h

lemma jumpsFitEach_of_leaves (h : ∀ s ∈ body, s.isLeaf = true) : jumpsFitEach breakable inLoop body = true :=
  jumpsFitEach_iff.mpr fun s hs => jumpsFit_of_isLeaf (h s hs)

/-- What is left of a body fits too. -/
lemma jumpsFitEach_of_subset {kept : List Stmt} (hsub : kept ⊆ body) (h : jumpsFitEach breakable inLoop body = true) :
    jumpsFitEach breakable inLoop kept = true :=
  jumpsFitEach_iff.mpr fun s hs => jumpsFitEach_iff.mp h s (hsub hs)

lemma jumpsFitClauses_ofCatches {clauses : List CatchClause}
    (h : ∀ c ∈ clauses, jumpsFitEach breakable inLoop c.body = true) :
    jumpsFitClauses breakable inLoop (.ofCatches none clauses) = true := by
  induction clauses with
  | nil => rfl
  | cons c rest ih =>
    rw [List.forall_mem_cons] at h
    simp only [Clauses.ofCatches, jumpsFitClauses, Bool.and_eq_true]
    exact ⟨h.1, ih h.2⟩

/-! ### Passes over trees -/

/-- A pass on one body whose result fits wherever the body does. -/
def KeepsFit (f : List Stmt → List Stmt) : Prop :=
  ∀ {breakable inLoop body}, jumpsFitEach breakable inLoop body = true → jumpsFitEach breakable inLoop (f body) = true

variable {f : List Stmt → List Stmt}

mutual

/-- Where a pass keeps jumps in their scope, it does so at any depth. -/
lemma jumpsFit_mapBodies (hf : KeepsFit f) : ∀ {breakable inLoop : Bool} {s : Stmt},
    s.jumpsFit breakable inLoop = true → (s.mapBodies f).jumpsFit breakable inLoop = true
  | _, _, block _, h | _, _, ifThen .., h | _, _, whileLoop .., h | _, _, forEach .., h
  | _, _, synchronized .., h => by
    simp only [jumpsFit, mapBodies] at h ⊢
    exact hf (jumpsFitEach_mapBodiesEach hf h)
  | _, _, ifElse .., h => by
    simp only [jumpsFit, mapBodies, Bool.and_eq_true] at h ⊢
    exact ⟨hf (jumpsFitEach_mapBodiesEach hf h.1), hf (jumpsFitEach_mapBodiesEach hf h.2)⟩
  | _, _, forLoop .., h => by
    simp only [jumpsFit, mapBodies, Bool.and_eq_true] at h ⊢
    exact ⟨h.1, hf (jumpsFitEach_mapBodiesEach hf h.2)⟩
  | _, _, switch .., h => by
    simp only [jumpsFit, mapBodies] at h ⊢
    exact jumpsFitArms_mapBodies hf h
  | _, _, tryCatch .., h => by
    simp only [jumpsFit, mapBodies, Bool.and_eq_true] at h ⊢
    exact ⟨hf (jumpsFitEach_mapBodiesEach hf h.1), jumpsFitClauses_mapBodies hf h.2⟩
  | _, _, assign .., h | _, _, returnVoid, h | _, _, returnValue _, h | _, _, evaluate _, h | _, _, throwValue _, h
  | _, _, breakOut, h | _, _, continueLoop, h | _, _, comment _, h => by simpa only [mapBodies] using h

lemma jumpsFitEach_mapBodiesEach (hf : KeepsFit f) : ∀ {breakable inLoop : Bool} {body : List Stmt},
    jumpsFitEach breakable inLoop body = true → jumpsFitEach breakable inLoop (mapBodiesEach f body) = true
  | _, _, [], _ => rfl
  | _, _, _ :: _, h => by
    simp only [jumpsFitEach, mapBodiesEach, Bool.and_eq_true] at h ⊢
    exact ⟨jumpsFit_mapBodies hf h.1, jumpsFitEach_mapBodiesEach hf h.2⟩

lemma jumpsFitArms_mapBodies (hf : KeepsFit f) : ∀ {breakable inLoop : Bool} {arms : Arms},
    jumpsFitArms breakable inLoop arms = true → jumpsFitArms breakable inLoop (mapBodiesArms f arms) = true
  | _, _, .done, _ => rfl
  | _, _, .case .., h => by
    simp only [jumpsFitArms, mapBodiesArms, Bool.and_eq_true] at h ⊢
    exact ⟨hf (jumpsFitEach_mapBodiesEach hf h.1), jumpsFitArms_mapBodies hf h.2⟩
  | _, _, .default _, h => hf (jumpsFitEach_mapBodiesEach hf h)

lemma jumpsFitClauses_mapBodies (hf : KeepsFit f) : ∀ {breakable inLoop : Bool} {clauses : Clauses},
    jumpsFitClauses breakable inLoop clauses = true → jumpsFitClauses breakable inLoop (mapBodiesClauses f clauses) = true
  | _, _, .done, _ => rfl
  | _, _, .handler .., h => by
    simp only [jumpsFitClauses, mapBodiesClauses, Bool.and_eq_true] at h ⊢
    exact ⟨hf (jumpsFitEach_mapBodiesEach hf h.1), jumpsFitClauses_mapBodies hf h.2⟩
  | _, _, .finally _, h => hf (jumpsFitEach_mapBodiesEach hf h)

end

lemma keepsFit_bottomUp (hf : KeepsFit f) : KeepsFit (bottomUp f) :=
  fun h => hf (jumpsFitEach_mapBodiesEach hf h)

mutual

/-- Jumps do not depend on expressions. -/
lemma jumpsFit_mapExprs (f : Expr → Expr) (breakable inLoop : Bool) (s : Stmt) :
    (s.mapExprs f).jumpsFit breakable inLoop = s.jumpsFit breakable inLoop := by
  cases s with
  | block body | ifThen _ body | whileLoop _ body | forEach _ _ _ body | synchronized _ body =>
    simp only [mapExprs, jumpsFit, jumpsFitEach_mapExprsEach f _ _ body]
  | ifElse _ thenBody elseBody =>
    simp only [mapExprs, jumpsFit, jumpsFitEach_mapExprsEach f _ _ thenBody, jumpsFitEach_mapExprsEach f _ _ elseBody]
  | forLoop init _ update body =>
    simp only [mapExprs, jumpsFit, jumpsFitEach_mapExprsEach f _ _ init, jumpsFitEach_mapExprsEach f _ _ update,
      jumpsFitEach_mapExprsEach f _ _ body]
  | switch _ arms => simp only [mapExprs, jumpsFit, jumpsFitArms_mapExprsArms f _ _ arms]
  | tryCatch body clauses =>
    simp only [mapExprs, jumpsFit, jumpsFitEach_mapExprsEach f _ _ body, jumpsFitClauses_mapExprsClauses f _ _ clauses]
  | assign | returnVoid | returnValue | evaluate | throwValue | breakOut | continueLoop | comment => rfl

lemma jumpsFitEach_mapExprsEach (f : Expr → Expr) (breakable inLoop : Bool) (body : List Stmt) :
    jumpsFitEach breakable inLoop (mapExprsEach f body) = jumpsFitEach breakable inLoop body := by
  cases body with
  | nil => rfl
  | cons s rest =>
    simp only [mapExprsEach, jumpsFitEach, jumpsFit_mapExprs f _ _ s, jumpsFitEach_mapExprsEach f _ _ rest]

lemma jumpsFitArms_mapExprsArms (f : Expr → Expr) (breakable inLoop : Bool) (arms : Arms) :
    jumpsFitArms breakable inLoop (mapExprsArms f arms) = jumpsFitArms breakable inLoop arms := by
  cases arms with
  | done => rfl
  | case _ body rest =>
    simp only [mapExprsArms, jumpsFitArms, jumpsFitEach_mapExprsEach f _ _ body, jumpsFitArms_mapExprsArms f _ _ rest]
  | default body => simp only [mapExprsArms, jumpsFitArms, jumpsFitEach_mapExprsEach f _ _ body]

lemma jumpsFitClauses_mapExprsClauses (f : Expr → Expr) (breakable inLoop : Bool) (clauses : Clauses) :
    jumpsFitClauses breakable inLoop (mapExprsClauses f clauses) = jumpsFitClauses breakable inLoop clauses := by
  match clauses with
  | .done => rfl
  | .handler _ _ body rest =>
    simp only [mapExprsClauses, jumpsFitClauses, jumpsFitEach_mapExprsEach f _ _ body,
      jumpsFitClauses_mapExprsClauses f _ _ rest]
  | .finally body => simp only [mapExprsClauses, jumpsFitClauses, jumpsFitEach_mapExprsEach f _ _ body]

end

end JvmLift.Source.Stmt

namespace JvmLift.Idiom

open Source Stmt

variable {breakable inLoop : Bool}

/-! ### Synchronized blocks -/

/-- The statements of a section in progress. -/
def Section.stmts (part : Section) : List Stmt :=
  part.enter :: part.body

/-- All statements in the state of the pass fit. -/
def Sections.JumpsFit (breakable inLoop : Bool) (state : Sections) : Prop :=
  jumpsFitEach breakable inLoop state.done = true ∧
    ∀ current ∈ state.current, jumpsFitEach breakable inLoop current.stmts = true

lemma keepsFit_dropMonitorExits : KeepsFit dropMonitorExits :=
  keepsFit_bottomUp fun h => jumpsFitEach_of_subset (List.filter_subset_self _) h

lemma jumpsFitEach_of_guardedBody? {s : Stmt} {body : List Stmt} (h : guardedBody? s = some body)
    (hs : s.jumpsFit breakable inLoop = true) : jumpsFitEach breakable inLoop body = true := by
  unfold guardedBody? at h
  split at h
  case h_3 => cases h
  all_goals
    split_ifs at h
    cases h
    simp only [jumpsFit, Bool.and_eq_true] at hs
    exact hs.1

lemma dropCopy_subset (monitor : Expr) (done : List Stmt) : Sections.dropCopy monitor done ⊆ done := by
  unfold Sections.dropCopy
  split
  · split_ifs
    · exact List.subset_cons_self _ _
    · exact List.Subset.refl _
  · exact List.Subset.refl _

lemma Sections.JumpsFit.push {state : Sections} {s : Stmt} (h : state.JumpsFit breakable inLoop)
    (hs : s.jumpsFit breakable inLoop = true) : (state.push s).JumpsFit breakable inLoop := by
  obtain ⟨done, current⟩ := state
  obtain ⟨hdone, hcurrent⟩ := h
  cases current with
  | none =>
    simp only [Sections.push, Sections.next]
    split
    · refine ⟨jumpsFitEach_of_subset (dropCopy_subset _ _) hdone, ?_⟩
      simpa [Section.stmts, jumpsFitEach] using hs
    · exact ⟨by simpa [jumpsFitEach, hs] using hdone, by simp⟩
  | some current =>
    have hsection : jumpsFitEach breakable inLoop current.stmts = true := hcurrent current rfl
    simp only [Section.stmts, jumpsFitEach, Bool.and_eq_true] at hsection
    simp only [Sections.push, Sections.extend]
    split
    · next body hbody =>
      have hguarded : guardedBody? s = some body := by
        split_ifs at hbody
        exact hbody
      refine ⟨?_, by simp⟩
      simp only [jumpsFitEach, jumpsFit, Bool.and_eq_true]
      exact ⟨keepsFit_dropMonitorExits (jumpsFitEach_of_guardedBody? hguarded hs), hdone⟩
    · split_ifs
      · refine ⟨?_, by simp⟩
        simp only [jumpsFitEach, jumpsFit, jumpsFitEach_reverse, Bool.and_eq_true]
        exact ⟨hsection.2, hdone⟩
      · refine ⟨hdone, ?_⟩
        simpa [Section.stmts, jumpsFitEach, hs] using hsection

lemma Sections.JumpsFit.foldl {state : Sections} {body : List Stmt} (h : state.JumpsFit breakable inLoop)
    (hbody : jumpsFitEach breakable inLoop body = true) :
    (body.foldl Sections.push state).JumpsFit breakable inLoop := by
  induction body generalizing state with
  | nil => exact h
  | cons s rest ih =>
    simp only [jumpsFitEach, Bool.and_eq_true] at hbody
    exact ih (h.push hbody.1) hbody.2

lemma keepsFit_recoverSynchronized : KeepsFit recoverSynchronized := by
  intro breakable inLoop body h
  have hfit : (body.foldl Sections.push {}).JumpsFit breakable inLoop := .foldl ⟨rfl, by simp⟩ h
  rw [recoverSynchronized]
  generalize body.foldl Sections.push {} = state at hfit ⊢
  obtain ⟨done, current⟩ := state
  obtain ⟨hdone, hcurrent⟩ := hfit
  cases current with
  | none =>
    simp only [Sections.finish, jumpsFitEach_reverse]
    exact hdone
  | some current =>
    have hsection := hcurrent current rfl
    simp only [Section.stmts, jumpsFitEach, Bool.and_eq_true] at hsection
    simp only [Sections.finish, jumpsFitEach_append, jumpsFitEach_reverse, jumpsFitEach, Bool.and_eq_true]
    exact ⟨hdone, hsection⟩

/-! ### Loops with a head -/

/-- What a loop over a collection is made of. -/
lemma of_forEach? {setup loop : Stmt} {cond : Expr} {body : List Stmt} (h : forEach? setup cond body = some loop) :
    ∃ it iterable type name first rest, body = first :: rest ∧ iteratorSetup? setup = some (it, iterable) ∧
      testsHasNext it cond = true ∧ element? it first = some (type, name) ∧
      loop = .forEach type name iterable rest := by
  simp only [forEach?, Option.bind_eq_bind, Option.bind_eq_some_iff] at h
  obtain ⟨⟨it, iterable⟩, hsetup, h⟩ := h
  cases body with
  | nil => cases h
  | cons first rest =>
    dsimp only at h
    split_ifs at h with hcond
    · obtain ⟨⟨type, name⟩, hfirst, h⟩ := Option.bind_eq_some_iff.mp h
      exact ⟨it, iterable, type, name, first, rest, rfl, hsetup, hcond, hfirst, (Option.some.inj h).symm⟩
    · cases h

/-- A pass that joins loops with what stands before them keeps jumps in their scope if the joined loop does. -/
lemma keepsFit_joinHeads {head? : Stmt → Expr → List Stmt → Option Stmt}
    (hhead : ∀ {setup cond body loop}, head? setup cond body = some loop → ∀ {breakable inLoop},
      setup.jumpsFit breakable inLoop = true → jumpsFitEach true true body = true →
        loop.jumpsFit breakable inLoop = true) :
    KeepsFit (joinHeads head?) := by
  intro breakable inLoop body h
  rw [jumpsFitEach_iff] at h ⊢
  intro s hs
  refine forall_mem_foldl ?_ h (List.forall_mem_nil _) s (List.mem_reverse.mp hs)
  intro done s hdone
  unfold pushLoop
  split
  · rename_i cond inner setup earlier
    split
    · rename_i loop hloop
      rw [List.forall_mem_cons, List.forall_mem_cons] at hdone
      obtain ⟨hwhile, hsetup, hearlier⟩ := hdone
      simp only [jumpsFit] at hwhile
      exact List.forall_mem_cons.mpr ⟨hhead hloop hsetup hwhile, hearlier⟩
    · exact hdone
  · exact hdone

lemma keepsFit_recoverForEach : KeepsFit recoverForEach := by
  refine keepsFit_joinHeads fun {setup cond body loop} h _ _ _ hbody => ?_
  obtain ⟨-, iterable, type, name, first, rest, rfl, -, -, -, rfl⟩ := of_forEach? h
  simp only [jumpsFit, jumpsFitEach, Bool.and_eq_true] at hbody ⊢
  exact hbody.2

lemma keepsFit_recoverFor : KeepsFit recoverFor := by
  refine keepsFit_joinHeads fun {setup cond body loop} h _ _ _ hbody => ?_
  obtain ⟨front, start, startValue, target, value, rfl, rfl, -, rfl⟩ := of_forLoop? h
  simp only [jumpsFitEach_append, Bool.and_eq_true] at hbody
  simpa [jumpsFit, jumpsFitEach] using hbody.1

/-! ### Choices as values -/

lemma jumpsFit_foldReturn {s : Stmt} (h : s.jumpsFit breakable inLoop = true) :
    (foldReturn s).jumpsFit breakable inLoop = true := by
  unfold foldReturn
  split
  · split
    · rfl
    · exact h
  · split
    · rfl
    · exact h
  · exact h

lemma jumpsFit_returnTruth {s : Stmt} (h : s.jumpsFit breakable inLoop = true) :
    (returnTruth s).jumpsFit breakable inLoop = true := by
  unfold returnTruth
  split
  · split_ifs <;> rfl
  · exact h

lemma jumpsFit_pushReturn {done : List Stmt} {s : Stmt} (h : ∀ x ∈ s :: done, x.jumpsFit breakable inLoop = true) :
    ∀ x ∈ pushReturn done s, x.jumpsFit breakable inLoop = true := by
  unfold pushReturn
  split
  · split
    · rw [List.forall_mem_cons, List.forall_mem_cons] at h
      exact List.forall_mem_cons.mpr ⟨rfl, h.2.2⟩
    · exact h
  · exact h

lemma keepsFit_foldReturns : KeepsFit foldReturns := by
  intro breakable inLoop body h
  rw [jumpsFitEach_iff] at h ⊢
  have hfolded : ∀ s ∈ body.map foldReturn, s.jumpsFit breakable inLoop = true :=
    List.forall_mem_map.mpr fun s hs => jumpsFit_foldReturn (h s hs)
  refine List.forall_mem_map.mpr fun s hs => jumpsFit_returnTruth ?_
  exact forall_mem_foldl jumpsFit_pushReturn hfolded (List.forall_mem_nil _) s (List.mem_reverse.mp hs)

lemma keepsFit_foldAssigns : KeepsFit foldAssigns := by
  intro breakable inLoop body h
  rw [jumpsFitEach_iff] at h ⊢
  refine List.forall_mem_map.mpr fun s hs => ?_
  have hs := h s hs
  unfold foldAssign
  split
  · split_ifs
    · rfl
    · exact hs
  · exact hs

/-! ### All passes -/

lemma keepsFit_recoverBody (returnsBoolean : Bool) : KeepsFit (recoverBody returnsBoolean) := by
  intro breakable inLoop body h
  have hloops := keepsFit_recoverFor (keepsFit_recoverForEach (keepsFit_recoverSynchronized h))
  refine keepsFit_foldAssigns ?_
  split
  · exact keepsFit_foldReturns hloops
  · exact hloops

lemma keepsFit_dropReturn : KeepsFit dropReturn := by
  intro breakable inLoop body h
  unfold dropReturn
  split
  · exact jumpsFitEach_of_subset (List.dropLast_subset body) h
  · exact h

/-- No pass takes a jump out of the construct that it refers to. -/
lemma keepsFit_recover (returnsBoolean : Bool) : KeepsFit (recover returnsBoolean) :=
  fun h => keepsFit_dropReturn (keepsFit_bottomUp (keepsFit_recoverBody returnsBoolean) h)

end JvmLift.Idiom
