import Mathlib
import JvmLift.Lift
import JvmLift.Proofs.Correspondence
import JvmLift.Proofs.JumpScopes
import JvmLift.Proofs.Protection

/-!
# The targets of jumps

Statements depict the flow of control from a block on if they can be read off the graph: blocks that are run in the order
of their edges, a test as an `if`, a loop as a `while`, a multi-way branch as a `switch`, a protected range as a `try`.
The constructs around are known on the way, so that a jump can be read as what it is in the text: a `break` out of the
innermost construct, whose exit is the block that control comes to, or a `continue` of the innermost loop, whose header
is that block. Every tree that is written for a method depicts its flow.
-/

namespace JvmLift.Structure

open Bytecode JvmLift.Flow Recovery Source Stmt

/-- A body of its own in a construct: the block at which it is entered, its statements, and the block at which it stops
unless control has left. -/
structure Arm where
  entry : BlockId
  stmts : List Stmt
  stop : Option BlockId

namespace Setting

/-- A block ends in a test. Its condition may have taken in the tests behind it. -/
def Tests (s : Setting) (id : BlockId) (stmts : List Stmt) (fork : Fork) : Prop :=
  ∃ todo stack b r cond taken fall todo₁ todo₂, s.RunsTo todo id stack b r ∧ r.stmts = stmts ∧
    r.exit = some (.conditional cond) ∧ b.succs = [taken, fall] ∧
    s.MergesAll r.stack todo₁ ⟨cond.taken, taken, fall⟩ todo₂ fork

/-- With the constructs `frames` around, the statements depict the flow of control from a block up to the block where
they stop, unless control has left. -/
inductive Depicts (s : Setting) : List Frame → BlockId → List Stmt → Option BlockId → Prop
  | here {frames : List Frame} {id : BlockId} : Depicts s frames id [] (some id)
  | append {frames : List Frame} {id mid : BlockId} {front back : List Stmt} {stop : Option BlockId}
      (hfront : Depicts s frames id front (some mid)) (hback : Depicts s frames mid back stop) :
      Depicts s frames id (front ++ back) stop
  /-- A `break` goes to the exit of the innermost construct. -/
  | breakOut {frame : Frame} {frames : List Frame} {id : BlockId} (hexit : frame.exit = some id) :
      Depicts s (frame :: frames) id [.breakOut] none
  /-- A `continue` goes to the header of the innermost loop. -/
  | continueLoop {frames : List Frame} {id : BlockId} (hheader : frames.findSome? Frame.header = some id) :
      Depicts s frames id [.continueLoop] none
  | block {frames : List Frame} {id : BlockId} {stop : Option BlockId} {todo : Todo} {stack : Stack} {b : Block}
      {r : Recovered} (hrun : s.RunsTo todo id stack b r) (hsuccs : b.succs = stop.toList) :
      Depicts s frames id r.stmts stop
  | ifTaken {frames : List Frame} {id : BlockId} {stmts body : List Stmt} {fork : Fork} {stop : Option BlockId}
      (htests : s.Tests id stmts fork) (hbody : Depicts s frames fork.taken body stop) :
      Depicts s frames id (stmts ++ [.ifThen fork.cond body]) (some fork.fall)
  | ifFall {frames : List Frame} {id : BlockId} {stmts body : List Stmt} {fork : Fork} {stop : Option BlockId}
      (htests : s.Tests id stmts fork) (hbody : Depicts s frames fork.fall body stop) :
      Depicts s frames id (stmts ++ [.ifThen fork.cond.negate body]) (some fork.taken)
  /-- Behind two arms control is where one of them stops, or at a block that both lead to. -/
  | ifElse {frames : List Frame} {id : BlockId} {stmts thenBody elseBody : List Stmt} {fork : Fork}
      {thenStop elseStop stop : Option BlockId} (htests : s.Tests id stmts fork)
      (hthen : Depicts s frames fork.fall thenBody thenStop) (helse : Depicts s frames fork.taken elseBody elseStop)
      (hstop : stop = thenStop ∨ stop = elseStop ∨ ∃ n, stop = some n ∧ s.Leads fork.fall n ∧ s.Leads fork.taken n) :
      Depicts s frames id (stmts ++ [ifStmt fork.cond.negate fork.cond thenBody elseBody]) stop
  /-- Arms that only push a value. -/
  | choice {frames : List Frame} {id join : BlockId} {stmts : List Stmt} {fork : Fork} (htests : s.Tests id stmts fork)
      (hthen : Depicts s frames fork.fall [] (some join)) (helse : Depicts s frames fork.taken [] (some join)) :
      Depicts s frames id stmts (some join)
  /-- The body of a loop starts at its header, or behind the header if that is the test of the loop. -/
  | loop {frames : List Frame} {loop : Loop} {entry : BlockId} {cond : Expr} {body : List Stmt} {stop : Option BlockId}
      {stack : Stack} (hloop : loop ∈ s.loops)
      (hentry : (entry = loop.header ∧ cond = .bool true) ∨ ∃ todo left, s.IsLoopTest todo loop stack cond entry left)
      (hbody : Depicts s (.loop loop.header loop.exit stack :: frames) entry body stop) :
      Depicts s frames loop.header [.whileLoop cond (dropContinue body)] loop.exit
  | switch {frames : List Frame} {id : BlockId} {todo todo' : Todo} {scope : Scope} {stack : Stack} {b : Block}
      {r : Recovered} {selector : Expr} {edges : SwitchEdges} {exit : Option BlockId} {arms : List Arm}
      (hrun : s.RunsTo todo id stack b r) (hselector : r.exit = some (.switch selector))
      (hedges : b.switch = some edges) (hframes : scope.frames = frames)
      (hexit : exit = todo'.switchExit s.graph scope edges (ascending edges.targets))
      (hentries : arms.map Arm.entry = (ascending edges.targets).filter fun target => some target != exit)
      (harms : ∀ arm ∈ arms, Depicts s (.switch exit r.stack :: frames) arm.entry arm.stmts arm.stop) :
      Depicts s frames id
        (r.stmts ++ [.switch selector (armsOf edges (arms.map fun arm => (arm.entry, arm.stmts)))]) exit
  /-- Behind a `try` control is where its body or a handler stops. -/
  | tryCatch {frames : List Frame} {id : BlockId} {region : Region} {body : List Stmt} {clauses : List CatchClause}
      {arms : List Arm} {bodyStop stop : Option BlockId} (hregion : region ∈ s.regions)
      (hstart : region.start = s.graph.startOf id) (hbody : Depicts s frames id body bodyStop)
      (hclauses : clauses.map CatchClause.body = arms.map Arm.stmts)
      (hentries : (arms.map Arm.entry).Sublist (region.handlers.map Handler.block))
      (harms : ∀ arm ∈ arms, Depicts s frames arm.entry arm.stmts arm.stop)
      (hstop : stop = bodyStop ∨ ∃ arm ∈ arms, stop = arm.stop) :
      Depicts s frames id [.tryCatch body (.ofCatches none clauses)] stop

variable {s : Setting} {frames : List Frame} {id : BlockId} {stmts : List Stmt} {stop : Option BlockId}

/-! ### Jumps of what is depicted -/

/-- The statements of a block hold no jumps. -/
lemma RunsTo.jumpsFitEach {todo : Todo} {stack : Stack} {b : Block} {r : Recovered} (h : s.RunsTo todo id stack b r)
    (breakable inLoop : Bool) : Stmt.jumpsFitEach breakable inLoop r.stmts = true :=
  jumpsFitEach_of_leaves (proper_of_run h.run).leaf

lemma Tests.jumpsFitEach {fork : Fork} (h : s.Tests id stmts fork) (breakable inLoop : Bool) :
    Stmt.jumpsFitEach breakable inLoop stmts = true := by
  obtain ⟨todo, stack, b, r, cond, taken, fall, todo₁, todo₂, hrun, rfl, -⟩ := h
  exact hrun.jumpsFitEach breakable inLoop

lemma jumpsFit_ifStmt {breakable inLoop : Bool} {cond negated : Expr} {thenBody elseBody : List Stmt}
    (hthen : jumpsFitEach breakable inLoop thenBody = true) (helse : jumpsFitEach breakable inLoop elseBody = true) :
    (ifStmt cond negated thenBody elseBody).jumpsFit breakable inLoop = true := by
  unfold ifStmt
  split_ifs <;> simp [jumpsFit, hthen, helse]

lemma keepsFit_dropContinue : KeepsFit dropContinue := by
  intro breakable inLoop body h
  unfold dropContinue
  split
  · exact jumpsFitEach_of_subset (List.dropLast_subset body) h
  · exact h

/-- A property of arms that follows from one of their bodies holds of a switch whose bodies have it. -/
lemma armsOf_induction {P : List Stmt → Prop} {Q : Arms → Prop} (hdone : Q .done)
    (hdefault : ∀ body, P body → Q (.default body)) (hcase : ∀ key body rest, P body → Q rest → Q (.case key body rest))
    (hnil : P []) {edges : SwitchEdges} {bodies : List (BlockId × List Stmt)} (h : ∀ body ∈ bodies, P body.2) :
    Q (armsOf edges bodies) := by
  have hcases : ∀ case ∈ bodies.flatMap fun arm => casesOf edges arm.1 arm.2, P case.2 := by
    simp only [List.forall_mem_flatMap, casesOf, List.forall_mem_append, List.forall_mem_map]
    exact fun body hbody => ⟨fun _ _ => hnil, fun _ _ => h body hbody⟩
  unfold armsOf
  generalize bodies.flatMap _ = cases at hcases ⊢
  induction cases with
  | nil =>
    cases hfound : bodies.find? _ with
    | none => exact hdone
    | some found => exact hdefault _ (h found (List.mem_of_find?_eq_some hfound))
  | cons case rest ih =>
    rw [List.forall_mem_cons] at hcases
    exact hcase _ _ _ hcases.1 (ih hcases.2)

/-- What depicts flow has its jumps inside of the constructs that they refer to. -/
lemma Depicts.jumpsFitEach (h : s.Depicts frames id stmts stop) :
    Stmt.jumpsFitEach (!frames.isEmpty) (frames.findSome? Frame.header).isSome stmts = true := by
  induction h with
  | here => rfl
  | append _ _ hfront hback => simp only [jumpsFitEach_append, hfront, hback, Bool.and_self]
  | breakOut => rfl
  | continueLoop hheader => simp [Stmt.jumpsFitEach, jumpsFit, hheader]
  | block hrun => exact hrun.jumpsFitEach _ _
  | ifTaken htests _ ih | ifFall htests _ ih =>
    simp [Stmt.jumpsFitEach, jumpsFit, htests.jumpsFitEach, ih]
  | ifElse htests _ _ _ hthen helse =>
    simp [Stmt.jumpsFitEach, htests.jumpsFitEach, jumpsFit_ifStmt hthen helse]
  | choice htests => exact htests.jumpsFitEach _ _
  | loop _ _ _ ih =>
    have hbody := keepsFit_dropContinue ih
    simpa [Stmt.jumpsFitEach, jumpsFit, List.findSome?_cons, Frame.header] using hbody
  | @switch frames id todo todo' scope stack b r selector edges exit arms hrun _ _ _ _ _ _ ih =>
    have hbodies : ∀ body ∈ arms.map fun arm => (arm.entry, arm.stmts),
        Stmt.jumpsFitEach true (frames.findSome? Frame.header).isSome body.2 = true :=
      List.forall_mem_map.mpr fun arm harm => by simpa [List.findSome?_cons, Frame.header] using ih arm harm
    have harms : jumpsFitArms true _ (armsOf edges _) = true :=
      armsOf_induction (Q := (jumpsFitArms _ _ · = true)) rfl (fun _ h => h)
        (fun _ _ _ h hrest => Bool.and_eq_true_iff.mpr ⟨h, hrest⟩) rfl hbodies
    simp [Stmt.jumpsFitEach, jumpsFit, hrun.jumpsFitEach, harms]
  | @tryCatch frames id region body clauses arms bodyStop stop _ _ _ hclauses _ _ _ hbody harms =>
    have hcaught : ∀ c ∈ clauses,
        Stmt.jumpsFitEach (!frames.isEmpty) (frames.findSome? Frame.header).isSome c.body = true := by
      intro c hc
      have hmem : c.body ∈ arms.map Arm.stmts := hclauses ▸ List.mem_map_of_mem hc
      obtain ⟨arm, harm, hstmts⟩ := List.mem_map.mp hmem
      exact hstmts ▸ harms arm harm
    simp [Stmt.jumpsFitEach, jumpsFit, hbody, jumpsFitClauses_ofCatches hcaught]

/-! ### What a walk depicts -/

/-- What a part of a walk from a block has come to. -/
structure Depicted (s : Setting) (scope : Scope) (id : BlockId) (p : Progress) (todo' : Todo) : Prop where
  depicts : s.Depicts scope.frames id p.stmts p.next
  regions : todo'.regions ⊆ s.regions

/-- The walks of a walker depict the flow. -/
def Depicting (s : Setting) (w : Walker) : Prop :=
  ∀ scope entering id stack todo p todo', w scope entering id stack todo = .ok (p, todo') →
    todo.regions ⊆ s.regions → s.Depicted scope id p todo'

/-- A jump is a `break` to the exit of the innermost construct or a `continue` to the header of the innermost loop. -/
lemma depicts_jump {scope : Scope} {jump : Stmt} (h : scope.jump? s.graph id = .ok (some jump)) :
    s.Depicts scope.frames id [jump] none := by
  obtain ⟨rfl, hexit⟩ | ⟨rfl, -, hheader⟩ := Scope.cases_of_jump? h
  · cases hframes : scope.frames with
    | nil => simp [hframes] at hexit
    | cons frame frames => exact .breakOut (by simpa [hframes] using hexit)
  · exact .continueLoop hheader

lemma MergesAll.regions_eq {stack : Stack} {todo todo' : Todo} {fork fork' : Fork}
    (h : s.MergesAll stack todo fork todo' fork') : todo'.regions = todo.regions := by
  induction h with
  | done => rfl
  | next _ _ ih => exact ih

variable {w : Walker} (hw : s.Depicting w) {scope : Scope} {stack : Stack} {todo todo' : Todo} {p : Progress}
include hw

lemma depicted_emitArms {fork : Fork} (htests : s.Tests id stmts fork) (hregions : todo.regions ⊆ s.regions)
    (h : emitArms w scope stack fork (todo.earliestJoin s.graph scope fork.fall fork.taken) todo = .ok (p, todo')) :
    s.Depicted scope id { p with stmts := stmts ++ p.stmts } todo' := by
  obtain ⟨thenArm, todo₁, elseArm, todo₂, hthen, helse, hp⟩ := of_yields yields_emitArms h
  obtain ⟨hthen, hregions₁⟩ := hw _ _ _ _ _ _ _ hthen hregions
  obtain ⟨helse, hregions₂⟩ := hw _ _ _ _ _ _ _ helse hregions₁
  obtain ⟨j, merged, hj, hchoice, rfl, rfl⟩ | ⟨next, kept, hnext, -, rfl, rfl⟩ := hp
  · obtain ⟨v, below, w, below', rfl, rfl, -⟩ := choice?_eq_some hchoice
    exact ⟨by simpa using .choice htests hthen helse, hregions₂⟩
  · refine ⟨.ifElse htests hthen helse ?_, hregions₂⟩
    cases hjoin : todo.earliestJoin s.graph scope fork.fall fork.taken with
    | none =>
      rw [hjoin, Option.none_or] at hnext
      cases hstop : thenArm.next with
      | none => exact .inr (.inl (by simpa [hstop] using hnext))
      | some n => exact .inl (by simpa [hstop] using hnext)
    | some n =>
      rw [hjoin, Option.some_or] at hnext
      obtain ⟨hfall, htaken⟩ := List.mem_filter.mp (mem_of_leastBy? hjoin)
      exact .inr (.inr ⟨n, hnext, leads_of_forwardReach hfall, leads_of_forwardReach (by simpa using htaken)⟩)

lemma depicted_forked {fork : Fork} (htests : s.Tests id stmts fork) (hregions : todo.regions ⊆ s.regions)
    (h : s.Forked w scope stack fork todo p todo') :
    s.Depicted scope id { p with stmts := stmts ++ p.stmts } todo' := by
  cases h with
  | bothJump taken fall htaken hfall =>
    refine ⟨?_, hregions⟩
    have hdepicts := Depicts.append (.ifTaken htests (depicts_jump htaken)) (depicts_jump hfall)
    simpa using hdepicts
  | takenJumps taken htaken => exact ⟨.ifTaken htests (depicts_jump htaken), hregions⟩
  | fallJumps fall hfall => exact ⟨.ifFall htests (depicts_jump hfall), hregions⟩
  | thenOnly h =>
    obtain ⟨body, todo₁, hbody, rfl, rfl⟩ := of_yields yields_emitArm h
    obtain ⟨hbody, hregions₁⟩ := hw _ _ _ _ _ _ _ hbody hregions
    exact ⟨.ifFall htests hbody, hregions₁⟩
  | elseOnly h =>
    obtain ⟨body, todo₁, hbody, rfl, rfl⟩ := of_yields yields_emitArm h
    obtain ⟨hbody, hregions₁⟩ := hw _ _ _ _ _ _ _ hbody hregions
    exact ⟨.ifTaken htests hbody, hregions₁⟩
  | arms h => exact depicted_emitArms hw htests hregions h

lemma exists_arms_of_emitBodies {exit : Option BlockId} {targets : List BlockId} {bodies : List (BlockId × List Stmt)}
    (h : emitBodies w scope exit stack targets todo = .ok (bodies, todo')) (hregions : todo.regions ⊆ s.regions) :
    ∃ arms : List Arm, bodies = arms.map (fun arm => (arm.entry, arm.stmts)) ∧ arms.map Arm.entry = targets ∧
      (∀ arm ∈ arms, s.Depicts (.switch exit stack :: scope.frames) arm.entry arm.stmts arm.stop) ∧
      todo'.regions ⊆ s.regions := by
  induction targets generalizing todo bodies with
  | nil =>
    cases h
    exact ⟨[], rfl, rfl, List.forall_mem_nil _, hregions⟩
  | cons target rest ih =>
    obtain ⟨body, todo₁, bodies', hbody, hrest, rfl⟩ := of_yields yields_emitBodies_cons h
    obtain ⟨hbody, hregions₁⟩ := hw _ _ _ _ _ _ _ hbody hregions
    obtain ⟨arms, rfl, rfl, harms, hregions'⟩ := ih hrest hregions₁
    exact ⟨⟨target, body.stmts, body.next⟩ :: arms, rfl, rfl, List.forall_mem_cons.mpr ⟨hbody, harms⟩, hregions'⟩

lemma depicted_emitBlock (hregions : todo.regions ⊆ s.regions)
    (h : s.emitBlock w scope id stack todo = .ok (p, todo')) : s.Depicted scope id p todo' := by
  obtain ⟨b, r, tail, hrun, hexited, rfl⟩ := of_yields yields_emitBlock h
  cases hexited with
  | switch h hselector =>
    obtain ⟨b', edges, bodies, exit, hb, hedges, hexit, hbodies, rfl⟩ := of_yields yields_emitSwitch h
    obtain rfl : b = b' := Option.some.inj (hrun.block.symm.trans hb)
    obtain ⟨arms, rfl, hentries, harms, hregions'⟩ := exists_arms_of_emitBodies hw hbodies hregions
    exact ⟨.switch hrun hselector hedges rfl hexit hentries harms, hregions'⟩
  | fork hexit hsuccs hmerges h =>
    have htests : s.Tests id r.stmts _ := ⟨_, _, _, _, _, _, _, _, _, hrun, rfl, hexit, hsuccs, hmerges⟩
    exact depicted_forked hw htests (hmerges.regions_eq ▸ hregions) h
  | leave hsuccs =>
    have hdepicts : s.Depicts scope.frames id r.stmts none := .block hrun hsuccs
    exact ⟨by simpa using hdepicts, hregions⟩
  | @goOn next hsuccs =>
    have hdepicts : s.Depicts scope.frames id r.stmts (some next) := .block hrun hsuccs
    exact ⟨by simpa using hdepicts, hregions⟩

lemma depicted_emitLoop {loop : Loop} (hloop : loop ∈ s.loops) (hregions : todo.regions ⊆ s.regions)
    (h : s.emitLoop w scope loop stack todo = .ok (p, todo')) : s.Depicted scope loop.header p todo' := by
  obtain ⟨cond, entry, left, body, htest, hbody, rfl⟩ | ⟨body, hbody, rfl⟩ := of_yields yields_emitLoop h
  · obtain ⟨hbody, hregions'⟩ := hw _ _ _ _ _ _ _ hbody hregions
    exact ⟨.loop hloop (.inr ⟨todo, left, htest⟩) hbody, hregions'⟩
  · obtain ⟨hbody, hregions'⟩ := hw _ _ _ _ _ _ _ hbody hregions
    exact ⟨.loop hloop (.inl ⟨rfl, rfl⟩) hbody, hregions'⟩

/-- The clauses of a `try` are those of some of its handlers, in order. It goes on where its body does, or where one of
them does. -/
lemma exists_arms_of_emitHandlers {cont next : Option BlockId} {handlers : List Handler} {clauses : List CatchClause}
    (h : s.emitHandlers w scope cont handlers todo = .ok ((clauses, next), todo')) (hregions : todo.regions ⊆ s.regions) :
    ∃ arms : List Arm, clauses.map CatchClause.body = arms.map Arm.stmts ∧
      (arms.map Arm.entry).Sublist (handlers.map Handler.block) ∧
      (∀ arm ∈ arms, s.Depicts scope.frames arm.entry arm.stmts arm.stop) ∧
      (next = cont ∨ ∃ arm ∈ arms, next = arm.stop) ∧ todo'.regions ⊆ s.regions := by
  induction handlers generalizing todo cont clauses with
  | nil =>
    cases h
    exact ⟨[], rfl, List.Sublist.refl _, List.forall_mem_nil _, .inl rfl, hregions⟩
  | cons handler rest ih =>
    obtain ⟨-, hrest⟩ | ⟨binding, entry, todo₁, body, todo₂, clauses', hbinding, hbody, hrest, hclauses⟩ :=
      of_yields yields_emitHandlers_cons h
    · obtain ⟨arms, hclauses, hentries, harms, hnext, hregions'⟩ := ih hrest hregions
      exact ⟨arms, hclauses, hentries.cons _, harms, hnext, hregions'⟩
    · have hregions₁ : todo₁.regions ⊆ s.regions := by
        rcases todo_of_catchBinding hbinding with rfl | rfl <;> exact hregions
      obtain ⟨hbody, hregions₂⟩ := hw _ _ _ _ _ _ _ hbody hregions₁
      obtain ⟨arms, hclauses', hentries, harms, hnext, hregions'⟩ := ih hrest hregions₂
      refine ⟨⟨handler.block, body.stmts, body.next⟩ :: arms, ?_, hentries.cons_cons _,
        List.forall_mem_cons.mpr ⟨hbody, harms⟩, ?_, hregions'⟩
      · simp only at hclauses
        simp [hclauses, hclauses']
      · rcases hnext with rfl | ⟨arm, harm, rfl⟩
        · cases cont with
          | none => exact .inr ⟨_, List.mem_cons_self, rfl⟩
          | some n => exact .inl rfl
        · exact .inr ⟨arm, List.mem_cons_of_mem _ harm, rfl⟩

omit hw in
/-- A lone jump depicts the flow to its target. -/
lemma IsLoneGoto.depicts (hbuilt : s.Built) {target : BlockId} (h : s.IsLoneGoto todo id target) :
    s.Depicts frames id [] (some target) := by
  obtain ⟨b, i, hb, hbody, hgoto, hsuccs⟩ := h.block
  obtain ⟨r, ⟨b', stack, skip, hb', hrun, hskip⟩, hstmts⟩ := hbuilt.gotos hb hbody hgoto hsuccs
  obtain rfl : b = b' := Option.some.inj (hb.symm.trans hb')
  have hrun : s.RunsTo ⟨[], [], if skip = 0 then [] else [id], [], []⟩ id stack b r := by
    refine ⟨hb, ?_⟩
    rcases hskip with rfl | ⟨rfl, -⟩
    · exact hrun
    · simpa using hrun
  have hdepicts : s.Depicts frames id r.stmts (some target) := .block hrun hsuccs
  rwa [hstmts] at hdepicts

lemma depicted_emitTry (hbuilt : s.Built) {region : Region} (hregion : region ∈ s.regions)
    (hstart : region.start = s.graph.startOf id) (hregions : todo.regions ⊆ s.regions)
    (h : s.emitTry w scope region id stack todo = .ok (p, todo')) : s.Depicted scope id p todo' := by
  obtain ⟨body, todo₁, cont, todo₂, clauses, next, hbody, hcont, hhandlers, hstmts, hnext⟩ := of_yields yields_emitTry h
  have hentered : (todo.enter region).regions ⊆ s.regions := List.Subset.trans List.erase_subset hregions
  obtain ⟨hbody, hregions₁⟩ := hw _ _ _ _ _ _ _ hbody hentered
  have hregions₂ : todo₂.regions ⊆ s.regions := by
    obtain ⟨-, rfl⟩ | ⟨-, -, -, -, -, rfl⟩ := hcont <;> exact hregions₁
  obtain ⟨arms, hclauses, hentries, harms, hstop, hregions'⟩ := exists_arms_of_emitHandlers hw hhandlers hregions₂
  refine ⟨?_, hregions'⟩
  rw [hstmts, hnext]
  -- the way from the end of the body, through a lone jump, is added behind the construct
  have hbehind : ∀ {stmts : List Stmt}, (∀ {stop}, (stop = body.next ∨ ∃ arm ∈ arms, stop = arm.stop) →
      s.Depicts scope.frames id stmts stop) → s.Depicts scope.frames id stmts next := by
    intro stmts hstmts
    rcases hstop with rfl | harm
    · obtain ⟨rfl, -⟩ | ⟨last, target, hlast, rfl, hgoto, -⟩ := hcont
      · exact hstmts (.inl rfl)
      · have hfront := hstmts (.inl rfl)
        rw [hlast] at hfront
        simpa using hfront.append (hgoto.depicts hbuilt)
    · exact hstmts (.inr harm)
  split_ifs with hempty
  · have hnone : arms = [] := by
      rw [List.isEmpty_iff.mp hempty, List.map_nil] at hclauses
      exact List.map_eq_nil_iff.mp hclauses.symm
    refine hbehind fun hstop => ?_
    obtain rfl : _ = body.next := by simpa [hnone] using hstop
    exact hbody
  · exact hbehind fun hstop => .tryCatch hregion hstart hbody hclauses hentries harms hstop

lemma depicted_emitConstruct (hbuilt : s.Built) (hregions : todo.regions ⊆ s.regions)
    (h : s.emitConstruct w scope id stack todo = .ok (p, todo')) : s.Depicted scope id p todo' := by
  obtain ⟨region, hregion, hat, h⟩ | ⟨loop, hloop, rfl, -, -, h⟩ | ⟨-, h⟩ := of_yields yields_emitConstruct h
  · exact depicted_emitTry hw hbuilt (hregions hregion) (regionAt?_eq_some hat).2.1 hregions h
  · exact depicted_emitLoop hw hloop hregions h
  · exact depicted_emitBlock hw hregions h

omit hw in
/-- Induction on the budget: every construct is written by walks with a smaller one. -/
lemma depicting_walk (hbuilt : s.Built) (fuel : Nat) : s.Depicting (s.walk fuel) := by
  induction fuel with
  | zero =>
    intro scope entering id stack todo p todo' h
    cases h
  | succ fuel ih =>
    intro scope entering id stack todo p todo' h hregions
    cases of_yields yields_walk h with
    | jump _ hjump => exact ⟨depicts_jump hjump, hregions⟩
    | stop => exact ⟨.here, hregions⟩
    | last _ hfirst => exact depicted_emitConstruct ih hbuilt hregions hfirst
    | more _ hfirst hnext hrest =>
      obtain ⟨hfirst, hregions₁⟩ := depicted_emitConstruct ih hbuilt hregions hfirst
      obtain ⟨hrest, hregions'⟩ := ih _ _ _ _ _ _ _ hrest hregions₁
      exact ⟨.append (hnext ▸ hfirst) hrest, hregions'⟩

end Setting

/-- The tree of a method depicts the flow from its first block. -/
lemma depicts_structureBody {ctx : Context} {code : Code} {body : List Stmt}
    (h : structureBody ctx (CodeShape.ofCode code) = .ok body) :
    ∃ stop, (Setting.ofShape ctx (CodeShape.ofCode code)).Depicts [] 0 body stop := by
  obtain ⟨todo, h⟩ := structureBody_ok h
  obtain ⟨-, rfl⟩ | ⟨fuel, p, hwalk, rfl, -⟩ := structureWalk_ok h
  · exact ⟨some 0, .here⟩
  · have hdepicted := Setting.depicting_walk (built_ofCode ctx code) fuel _ _ _ _ _ _ _ hwalk (List.Subset.refl _)
    exact ⟨p.next, hdepicted.depicts⟩

end JvmLift.Structure

namespace JvmLift

open Bytecode JvmLift.Flow Recovery Source Stmt Structure

/-! ### Lifted methods -/

lemma ok_of_bind {ε α β : Type} {x : Except ε α} {f : α → Except ε β} {b : β} (h : (x >>= f) = .ok b) :
    ∃ a, x = .ok a ∧ f a = .ok b := by
  cases x with
  | error e => cases h
  | ok a => exact ⟨a, rfl, h⟩

/-- The statements of a method in code order are leaves. -/
lemma isLeaf_of_runBlocks {ctx : Recovery.Context} {handlers : List BlockId} {blocks : List Block} {stack : Stack}
    {flat : List Stmt} (h : Lift.runBlocks ctx handlers blocks stack = .ok flat) : ∀ s ∈ flat, s.isLeaf = true := by
  induction blocks generalizing stack flat with
  | nil =>
    cases h
    exact List.forall_mem_nil _
  | cons b blocks ih =>
    obtain ⟨r, hrun, h⟩ := ok_of_bind h
    obtain ⟨later, hlater, h⟩ := ok_of_bind h
    cases h
    exact List.forall_mem_append.mpr ⟨(proper_of_run hrun).leaf, ih hlater⟩

/-- A choice between two returns has the first two returns of a value as its arms. -/
lemma of_twoReturns? {flat body : List Stmt} {cond : Expr} (h : Lift.twoReturns? flat cond = some body) :
    ∃ v w, [.returnValue v, .returnValue w].Sublist flat ∧
      body = [.ifElse cond [.returnValue v] [.returnValue w]] := by
  have hfilter : (flat.filter Lift.isValueReturn).Sublist flat := List.filter_sublist
  unfold Lift.twoReturns? at h
  split at h
  · rename_i first second rest hreturns
    have hvalue : ∀ s ∈ first :: second :: rest, ∃ v, s = .returnValue v := by
      intro s hs
      have hreturn := (List.mem_filter.mp (hreturns ▸ hs)).2
      cases s <;> first | exact ⟨_, rfl⟩ | cases hreturn
    obtain ⟨v, rfl⟩ := hvalue first (by simp)
    obtain ⟨w, rfl⟩ := hvalue second (by simp)
    rw [hreturns] at hfilter
    refine ⟨v, w, List.Sublist.trans ?_ hfilter, (Option.some.inj h).symm⟩
    exact (List.nil_sublist rest).cons_cons _ |>.cons_cons _
  · cases h

lemma jumpsFitEach_chooseBody (m : Method) (ctx : Recovery.Context) (options : Options) (code : Code) {flat : List Stmt}
    (hflat : ∀ s ∈ flat, s.isLeaf = true) :
    jumpsFitEach false false (Lift.chooseBody m ctx options (CodeShape.ofCode code) flat).1 = true := by
  have hfit : jumpsFitEach false false flat = true := jumpsFitEach_of_leaves hflat
  unfold Lift.chooseBody
  dsimp only
  split
  · rename_i body hnarrow
    obtain ⟨cond, -, hbody⟩ := Option.bind_eq_some_iff.mp (Option.filter_eq_some_iff.mp hnarrow).1
    obtain ⟨v, w, -, rfl⟩ := of_twoReturns? hbody
    rfl
  · split_ifs
    · split
      · rename_i body hbody
        obtain ⟨stop, hdepicts⟩ := depicts_structureBody hbody
        exact Idiom.keepsFit_recover _ hdepicts.jumpsFitEach
      · simpa [Lift.fallback, jumpsFitEach, jumpsFit] using hfit
    · exact hfit

/-- What a lifted method comes from. -/
lemma of_lift {m : Method} {pool : Option Pool} {options : Options} {lifted : Lifted}
    (h : m.lift pool options = .ok lifted) :
    lifted.tree.body = [] ∨ ∃ ctx code flat body, Lift.flatStatements ctx (CodeShape.ofCode code) = .ok flat ∧
      body = (Lift.chooseBody m ctx options (CodeShape.ofCode code) flat).1 ∧
      lifted.tree.body = if options.simplify then simplifyBody body else body := by
  unfold Method.lift at h
  split at h
  · cases h
    exact .inl rfl
  · rename_i code _
    obtain ⟨flat, hflat, h⟩ := ok_of_bind h
    cases h
    exact .inr ⟨_, code, flat, _, hflat, rfl, rfl⟩

/-- **Jumps have their targets.** In every lifted method, each `break` is in a loop or a switch and each `continue` is in
a loop. In the tree that is written for the blocks of a method, a jump refers to the innermost construct that it can
refer to, and this is the one whose exit (for a `break`) or header (for a `continue`) is the block that control comes
to. -/
theorem jumps_have_targets :
    (∀ (m : Method) (pool : Option Pool) (options : Options) (lifted : Lifted), m.lift pool options = .ok lifted →
      jumpsFitEach false false lifted.tree.body = true) ∧
    ∀ (ctx : Recovery.Context) (code : Code) (body : List Stmt),
      structureBody ctx (CodeShape.ofCode code) = .ok body →
      ∃ stop, (Setting.ofShape ctx (CodeShape.ofCode code)).Depicts [] 0 body stop := by
  refine ⟨fun m pool options lifted h => ?_, fun ctx code body h => depicts_structureBody h⟩
  obtain hnil | ⟨ctx, code, flat, body, hflat, rfl, hbody⟩ := of_lift h
  · rw [hnil]
    rfl
  · have hfit := jumpsFitEach_chooseBody m ctx options code (isLeaf_of_runBlocks hflat)
    rw [hbody]
    split_ifs
    · rw [simplifyBody, jumpsFitEach_mapExprsEach]
      exact hfit
    · exact hfit

/-- A loop around a switch, with a `continue` in a case and a `break` behind the switch: `0: iload_0; ifeq 54`,
`4: iload_1; tableswitch 0 to 1: 28, 38, default: 44`, `28: iinc 2, 1; iload_2; ifeq 0`, `35: goto 44`,
`38: iinc 3, 1; goto 44`, `44: iinc 0, -1; iload_3; ifeq 54`, `51: goto 0`, `54: return`. -/
def jumpingLoop : Code :=
  { bytes := [0x1a, 0x99, 0x00, 0x35, 0x1b, 0xaa, 0, 0, 0, 0, 0, 0x27, 0, 0, 0, 0, 0, 0, 0, 1, 0, 0, 0, 0x17,
      0, 0, 0, 0x21, 0x84, 0x02, 0x01, 0x1c, 0x99, 0xff, 0xe0, 0xa7, 0x00, 0x09, 0x84, 0x03, 0x01, 0xa7, 0x00, 0x03,
      0x84, 0x00, 0xff, 0x1d, 0x99, 0x00, 0x06, 0xa7, 0xff, 0xcd, 0xb1] }

/-- A loop around a switch. The `continue` in the switch is for the loop, and each has a `break` of its own. -/
def jumpsFromBoth : List Stmt → Bool
  | .whileLoop _ [.switch _ (.case _ [.assign .., .ifThen _ [.continueLoop], .breakOut]
      (.case _ [.assign .., .breakOut] .done)), .assign .., .ifThen _ [.breakOut]] :: _ => true
  | _ => false

theorem jumpingLoop_has_targets :
    (∃ lifted, Method.lift ⟨"m", "(IIII)V", ⟨0x0008⟩, some jumpingLoop⟩ none {} = .ok lifted ∧
      jumpsFromBoth lifted.tree.body = true ∧ jumpsFitEach false false lifted.tree.body = true) ∧
    ∃ body stop, structureBody numberedContext (CodeShape.ofCode jumpingLoop) = .ok body ∧ jumpsFromBoth body = true ∧
      (Setting.ofShape numberedContext (CodeShape.ofCode jumpingLoop)).Depicts [] 0 body stop := by
  have hlift : (Method.lift ⟨"m", "(IIII)V", ⟨0x0008⟩, some jumpingLoop⟩ none {}).toOption.any
      (fun lifted => jumpsFromBoth lifted.tree.body) = true := by decide +kernel
  have hbody : (structureBody numberedContext (CodeShape.ofCode jumpingLoop)).toOption.any jumpsFromBoth = true := by
    decide +kernel
  obtain ⟨lifted, hlift, hlifted⟩ := exists_ok_of_any hlift
  obtain ⟨body, hbody, hjumps⟩ := exists_ok_of_any hbody
  obtain ⟨stop, hdepicts⟩ := jumps_have_targets.2 _ _ _ hbody
  exact ⟨⟨lifted, hlift, hlifted, jumps_have_targets.1 _ _ _ _ hlift⟩, body, stop, hbody, hjumps, hdepicts⟩

end JvmLift
