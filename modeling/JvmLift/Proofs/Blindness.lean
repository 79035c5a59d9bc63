import Mathlib
import JvmLift.Lift
import JvmLift.Proofs.Nameless

/-!
# Lifting is blind to names

Two walks over the same blocks in contexts that differ in the names of local slots take every decision alike. They look
at stacks only through lengths, widths and shapes, and at the statements of an arm only to see whether there are any. So
two methods with the same code are lifted to the same point, or fail at the same instruction.
-/

namespace JvmLift.Structure

open Bytecode JvmLift.Flow Recovery Source

/-! ### What decides -/

/-- A frame without the stack that it was entered with. -/
def Frame.bare : Frame → Frame
  | .loop header exit _ => .loop header exit []
  | .switch exit _ => .switch exit []

/-- What a walk reads of its scope. -/
def Scope.bare (scope : Scope) : Scope :=
  { scope with frames := scope.frames.map Frame.bare }

/-- What a walk reads of its state. -/
def Todo.bare (todo : Todo) : Todo :=
  { todo with strays := [], meetings := [] }

namespace Frame

@[simp] lemma exit_bare (frame : Frame) : frame.bare.exit = frame.exit := by
  cases frame <;> rfl

@[simp] lemma header_bare (frame : Frame) : frame.bare.header = frame.header := by
  cases frame <;> rfl

@[simp] lemma hasTarget_bare (frame : Frame) (id : BlockId) : frame.bare.hasTarget id = frame.hasTarget id := by
  simp [hasTarget]

end Frame

namespace Scope

lemma isTarget_bare (scope : Scope) : scope.bare.isTarget = scope.isTarget := by
  funext id
  simp [isTarget, bare, Function.comp_def]

lemma isInLoop_bare (scope : Scope) : scope.bare.isInLoop = scope.isInLoop := by
  funext id
  simp [isInLoop, bare, Function.comp_def]

lemma jump?_bare (scope : Scope) : scope.bare.jump? = scope.jump? := by
  funext g id
  have hhead : scope.bare.frames.head?.any (·.exit == some id) = scope.frames.head?.any (·.exit == some id) := by
    cases h : scope.frames <;> simp [bare, h]
  have hheader : scope.bare.frames.findSome? Frame.header = scope.frames.findSome? Frame.header := by
    simp [bare, List.findSome?_map, Function.comp_def]
  simp only [jump?, hhead, hheader, isTarget_bare]

variable {scope scope' : Scope} (h : scope.bare = scope'.bare)
include h

lemma isTarget_eq : scope.isTarget = scope'.isTarget := by
  rw [← isTarget_bare, h, isTarget_bare]

lemma isInLoop_eq : scope.isInLoop = scope'.isInLoop := by
  rw [← isInLoop_bare, h, isInLoop_bare]

lemma jump?_eq : scope.jump? = scope'.jump? := by
  rw [← jump?_bare, h, jump?_bare]

lemma stopsAt_eq : scope.stopsAt = scope'.stopsAt := by
  change scope.bare.stopsAt = scope'.bare.stopsAt
  rw [h]

lemma withStop_eq (stop : Option BlockId) : (scope.withStop stop).bare = (scope'.withStop stop).bare :=
  congrArg (Scope.withStop · stop) h

lemma within_eq (region : Region) : (scope.within region).bare = (scope'.within region).bare :=
  congrArg (Scope.within · region) h

lemma enterLoop_eq (loop : Loop) (stack stack' : Stack) :
    (scope.enterLoop loop stack).bare = (scope'.enterLoop loop stack').bare :=
  congrArg (Scope.enterLoop · loop []) h

lemma enterArm_eq (exit nextArm : Option BlockId) (stack stack' : Stack) :
    (scope.enterArm exit nextArm stack).bare = (scope'.enterArm exit nextArm stack').bare :=
  congrArg (Scope.enterArm · exit nextArm []) h

end Scope

namespace Todo

variable {todo todo' : Todo} (h : todo.bare = todo'.bare) {scope scope' : Scope} (hscope : scope.bare = scope'.bare)
include h

lemma isOpen_eq : todo.isOpen = todo'.isOpen := by
  change todo.bare.isOpen = todo'.bare.isOpen
  rw [h]

lemma regionAt?_eq : todo.regionAt? = todo'.regionAt? := by
  change todo.bare.regionAt? = todo'.bare.regionAt?
  rw [h]

lemma captured_eq : todo.captured = todo'.captured := by
  change todo.bare.captured = todo'.bare.captured
  rw [h]

lemma visit_eq (id : BlockId) : (todo.visit id).bare = (todo'.visit id).bare :=
  congrArg (Todo.visit · id) h

lemma enter_eq (region : Region) : (todo.enter region).bare = (todo'.enter region).bare :=
  congrArg (Todo.enter · region) h

lemma capture_eq (id : BlockId) : (todo.capture id).bare = (todo'.capture id).bare :=
  congrArg (Todo.capture · id) h

include hscope

lemma admits_eq : todo.admits scope = todo'.admits scope' := by
  funext id
  rw [admits, admits, isOpen_eq h, Scope.isTarget_eq hscope]

lemma forwardReach_eq (g : FlowGraph) : todo.forwardReach g scope = todo'.forwardReach g scope' := by
  have hforward : todo.forward g scope = todo'.forward g scope' := by
    funext id
    rw [forward, forward, Scope.stopsAt_eq hscope, admits_eq h hscope]
  funext start
  rw [forwardReach, forwardReach, admits_eq h hscope, hforward]

lemma earliestJoin_eq (g : FlowGraph) (a b : BlockId) :
    todo.earliestJoin g scope a b = todo'.earliestJoin g scope' a b := by
  simp only [earliestJoin, forwardReach_eq h hscope]

lemma switchExit_eq (g : FlowGraph) (edges : SwitchEdges) (targets : List BlockId) :
    todo.switchExit g scope edges targets = todo'.switchExit g scope' edges targets := by
  simp only [switchExit, forwardReach_eq h hscope]

end Todo

/-! ### Parts of two walks -/

/-- From states that are decided alike, two parts of walks both fail, or they come to related results in such states. -/
def Blind {α β : Type} (R : α → β → Prop) (x : Walk α) (y : Walk β) : Prop :=
  ∀ todo todo' : Todo, todo.bare = todo'.bare →
    Agree (fun _ _ => True) (fun r r' => R r.1 r'.1 ∧ r.2.bare = r'.2.bare) (x todo) (y todo')

section Rules

variable {α β α' β' : Type} {R : α → β → Prop} {S : α' → β' → Prop} {x : Walk α} {y : Walk β}

lemma blind_pure {a : α} {b : β} (h : R a b) : Blind R (pure a) (pure b) :=
  fun _ _ htodo => .ok ⟨h, htodo⟩

lemma blind_throw {e e' : Obstacle} : Blind R (throw e : Walk α) (throw e' : Walk β) :=
  fun _ _ _ => .error trivial

lemma blind_bind {f : α → Walk α'} {g : β → Walk β'} (h : Blind R x y) (hfg : ∀ a b, R a b → Blind S (f a) (g b)) :
    Blind S (x >>= f) (y >>= g) :=
  fun todo todo' htodo => (h todo todo' htodo).bind fun r r' hr => hfg r.1 r'.1 hr.1 r.2 r'.2 hr.2

lemma blind_get {f : Todo → Walk α} {g : Todo → Walk β}
    (h : ∀ todo todo', todo.bare = todo'.bare → Blind R (f todo) (g todo')) : Blind R (get >>= f) (get >>= g) :=
  fun todo todo' htodo => h todo todo' htodo todo todo' htodo

lemma blind_modify {f f' : Todo → Todo} (h : ∀ todo todo', todo.bare = todo'.bare → (f todo).bare = (f' todo').bare) :
    Blind (fun _ _ => True) (modify f : Walk PUnit) (modify f') :=
  fun todo todo' htodo => .ok ⟨trivial, h todo todo' htodo⟩

lemma blind_ite {c c' : Prop} [Decidable c] [Decidable c'] (hc : c ↔ c') {x' : Walk α} {y' : Walk β}
    (h : Blind R x y) (h' : Blind R x' y') : Blind R (if c then x else x') (if c' then y else y') := by
  by_cases hpos : c
  · rwa [if_pos hpos, if_pos (hc.mp hpos)]
  · rwa [if_neg hpos, if_neg (hc.not.mp hpos)]

end Rules

/-! ### Runs and tests -/

lemma isEmpty_append_congr {front front' back back' : List Stmt} (h : front.isEmpty = front'.isEmpty)
    (h' : back.isEmpty = back'.isEmpty) : (front ++ back).isEmpty = (front' ++ back').isEmpty := by
  cases front <;> cases front' <;> simp_all

/-- What two parts of walks come to if they differ in names only. -/
structure Progress.SameShape (p p' : Progress) : Prop where
  next : p.next = p'.next
  isEmpty : p.stmts.isEmpty = p'.stmts.isEmpty
  stack : Stack.SameShape p.stack p'.stack

lemma Progress.SameShape.stackOr {p p' : Progress} (h : p.SameShape p') {stack stack' : Stack}
    (hstack : Stack.SameShape stack stack') :
    Stack.SameShape (p.stackOr stack) (p'.stackOr stack') := by
  unfold Progress.stackOr
  rw [h.next]
  split
  · exact h.stack
  · exact hstack

/-- Tests that differ in names only. -/
structure Setting.Fork.SameShape (fork fork' : Setting.Fork) : Prop where
  cond : fork.cond.nameless = fork'.cond.nameless
  taken : fork.taken = fork'.taken
  fall : fork.fall = fork'.fall

/-- Bare tests that differ in names only. -/
structure SameTest (test test' : Condition × BlockId × BlockId × Stack) : Prop where
  cond : test.1.nameless = test'.1.nameless
  taken : test.2.1 = test'.2.1
  fall : test.2.2.1 = test'.2.2.1
  stack : Stack.SameShape test.2.2.2 test'.2.2.2

namespace Setting

/-- The same blocks in another context. -/
def inContext (s : Setting) (ctx : Recovery.Context) : Setting :=
  { s with context := ctx }

variable (s : Setting) {ctx : Recovery.Context} {scope scope' : Scope} {stack stack' : Stack}

lemma graph_inContext : (s.inContext ctx).graph = s.graph := rfl

lemma blind_block (id : BlockId) : Blind Eq (s.block id) ((s.inContext ctx).block id) := by
  unfold block
  rw [graph_inContext]
  cases s.graph.block? id with
  | none => exact blind_throw
  | some b => exact blind_pure rfl

lemma blind_isOpen (id : BlockId) : Blind Eq (s.isOpen id) ((s.inContext ctx).isOpen id) := by
  refine blind_bind (s.blind_block id) fun b b' _ => blind_get fun todo todo' htodo => blind_pure ?_
  rw [Todo.isOpen_eq htodo]

lemma blind_jump? (hscope : scope.bare = scope'.bare) (id : BlockId) :
    Blind Eq (s.jump? scope id) ((s.inContext ctx).jump? scope' id) := by
  unfold jump?
  rw [Scope.jump?_eq hscope, graph_inContext]
  cases scope'.jump? s.graph id with
  | error e => exact blind_throw
  | ok jump => exact blind_pure rfl

lemma blind_isPlain (hscope : scope.bare = scope'.bare) (id : BlockId) :
    Blind Eq (s.isPlain scope id) ((s.inContext ctx).isPlain scope' id) := by
  refine blind_get fun todo todo' htodo => blind_pure ?_
  rw [Todo.isOpen_eq htodo, Todo.regionAt?_eq htodo, Scope.stopsAt_eq hscope, Scope.isTarget_eq hscope]
  rfl

section Contexts

variable (hctx : s.context.nameless = ctx.nameless)
include hctx

lemma blind_runFrom (insns : List Instruction) (hstack : Stack.SameShape stack stack') :
    Blind Recovered.SameShape (s.runFrom insns stack) ((s.inContext ctx).runFrom insns stack') := by
  have h := agree_run hctx insns hstack
  have hcontext : (s.inContext ctx).context = ctx := rfl
  unfold runFrom
  rw [hcontext]
  revert h
  generalize run s.context insns stack = x
  generalize run ctx insns stack' = y
  rintro (_ | h)
  · exact blind_throw
  · exact blind_pure h

lemma blind_runBlock (id : BlockId) (hstack : Stack.SameShape stack stack') :
    Blind Recovered.SameShape (s.runBlock id stack) ((s.inContext ctx).runBlock id stack') := by
  refine blind_bind (s.blind_block id) fun b b' hb => blind_get fun todo todo' htodo => ?_
  rw [hb, Todo.captured_eq htodo]
  exact s.blind_runFrom hctx _ hstack

lemma blind_bareTest? (id : BlockId) (hstack : Stack.SameShape stack stack') :
    Blind (Option.Rel SameTest) (s.bareTest? id stack) ((s.inContext ctx).bareTest? id stack') := by
  refine blind_bind (s.blind_block id) ?_
  rintro b _ rfl
  split
  · next taken fall _ =>
    refine blind_bind (s.blind_runBlock hctx id hstack) fun r r' hr => ?_
    rw [hr.isEmpty, hr.stack.length_eq, hstack.length_eq]
    have hexit := hr.exit
    generalize r.exit = exit, r'.exit = exit' at hexit ⊢
    cases hexit with
    | none | switch _ => exact blind_pure .none
    | conditional hcond =>
      dsimp only
      split
      · exact blind_pure (.some ⟨hcond, rfl, rfl, hr.stack⟩)
      · exact blind_pure .none
  · exact blind_pure .none

lemma blind_mergeNext? (hscope : scope.bare = scope'.bare) (hstack : Stack.SameShape stack stack') {fork fork' : Fork}
    (hfork : fork.SameShape fork') :
    Blind (Option.Rel Fork.SameShape) (s.mergeNext? scope stack fork)
      ((s.inContext ctx).mergeNext? scope' stack' fork') := by
  obtain ⟨cond, taken, fall⟩ := fork
  obtain ⟨cond', _, _⟩ := fork'
  obtain ⟨hcond, rfl, rfl⟩ := hfork
  refine blind_bind (s.blind_block fall) ?_
  rintro b _ rfl
  refine blind_bind (s.blind_isPlain hscope fall) ?_
  rintro plain _ rfl
  split
  · exact blind_pure .none
  · refine blind_bind (s.blind_bareTest? hctx fall hstack) fun test test' htest => ?_
    cases htest with
    | none => exact blind_pure .none
    | @some test test' htest =>
      obtain ⟨c, taken', fall', left⟩ := test
      obtain ⟨c', _, _, left'⟩ := test'
      obtain ⟨hc, rfl, rfl, -⟩ := htest
      have hvisit : Blind (fun _ _ => True) (modify fun todo => (todo.visit fall).meet stack left : Walk PUnit)
          (modify fun todo => (todo.visit fall).meet stack' left') :=
        blind_modify fun todo todo' htodo => Todo.visit_eq htodo fall
      obtain ⟨htaken, hfall⟩ := Condition.mk.inj hc
      dsimp only
      split_ifs
      · exact blind_bind hvisit fun _ _ _ => blind_pure (.some ⟨by simp [hcond, htaken], rfl, rfl⟩)
      · exact blind_bind hvisit fun _ _ _ => blind_pure (.some ⟨by simp [hcond, hfall], rfl, rfl⟩)
      · exact blind_pure .none

lemma blind_mergeTests (hscope : scope.bare = scope'.bare) (hstack : Stack.SameShape stack stack') (n : Nat)
    {fork fork' : Fork} (hfork : fork.SameShape fork') :
    Blind Fork.SameShape (s.mergeTests scope stack n fork) ((s.inContext ctx).mergeTests scope' stack' n fork') := by
  induction n generalizing fork fork' with
  | zero => exact blind_throw
  | succ n ih =>
    refine blind_bind (s.blind_mergeNext? hctx hscope hstack hfork) fun merged merged' hmerged => ?_
    cases hmerged with
    | none => exact blind_pure hfork
    | some hmerged => exact ih hmerged

end Contexts

/-! ### Constructs -/

/-- Walkers that take every decision alike. -/
def BlindWalker (walk walk' : Walker) : Prop :=
  ∀ {scope scope' : Scope} (entering : Bool) (id : BlockId) {stack stack' : Stack},
    scope.bare = scope'.bare → Stack.SameShape stack stack' →
      Blind Progress.SameShape (walk scope entering id stack) (walk' scope' entering id stack')

/-- Whether there is a choice of values does not depend on names. -/
lemma choice?_sameShape {cond cond' : Expr} (hcond : cond.nameless = cond'.nameless) (join : BlockId) (depth : Nat)
    {thenArm thenArm' elseArm elseArm' : Progress} (hthen : thenArm.SameShape thenArm')
    (helse : elseArm.SameShape elseArm') :
    Option.Rel Stack.SameShape (choice? cond join depth thenArm elseArm)
      (choice? cond' join depth thenArm' elseArm') := by
  obtain ⟨stmts, next, stack⟩ := thenArm
  obtain ⟨stmts', _, stack'⟩ := thenArm'
  obtain ⟨estmts, enext, estack⟩ := elseArm
  obtain ⟨estmts', _, estack'⟩ := elseArm'
  obtain ⟨rfl, hempty, hstack⟩ := hthen
  obtain ⟨rfl, heempty, hestack⟩ := helse
  dsimp only at hempty heempty hstack hestack
  simp only [choice?]
  rw [hempty, heempty, hstack.length_eq, hestack.length_eq]
  obtain ⟨rfl, rfl⟩ | ⟨v, below, v', below', rfl, rfl⟩ := hstack.nil_or_cons
  · exact .none
  obtain ⟨rfl, rfl⟩ | ⟨w, ebelow, w', ebelow', rfl, rfl⟩ := hestack.nil_or_cons
  · exact .none
  obtain ⟨⟨hv, hwide⟩, hbelow⟩ := Stack.sameShape_cons.mp hstack
  obtain ⟨⟨hw, -⟩, -⟩ := Stack.sameShape_cons.mp hestack
  dsimp only
  split
  · exact .some (Stack.sameShape_cons.mpr ⟨⟨by simp [hcond, hv, hw], hwide⟩, hbelow⟩)
  · exact .none

section Arms

variable {walk walk' : Walker} (hwalk : BlindWalker walk walk') (hscope : scope.bare = scope'.bare)
  (hstack : Stack.SameShape stack stack')
include hwalk hscope hstack

lemma blind_emitArm (cond cond' : Expr) (arm join : BlockId) :
    Blind Progress.SameShape (emitArm walk scope stack cond arm join) (emitArm walk' scope' stack' cond' arm join) := by
  refine blind_bind (hwalk false arm (Scope.withStop_eq hscope _) hstack) fun p p' hp => ?_
  exact blind_bind (blind_modify fun todo todo' htodo => htodo) fun _ _ _ =>
    blind_pure ⟨rfl, rfl, hp.stackOr hstack⟩

lemma blind_emitArms {fork fork' : Fork} (hfork : fork.SameShape fork') (join : Option BlockId) :
    Blind Progress.SameShape (emitArms walk scope stack fork join) (emitArms walk' scope' stack' fork' join) := by
  obtain ⟨cond, taken, fall⟩ := fork
  obtain ⟨cond', _, _⟩ := fork'
  obtain ⟨hcond, rfl, rfl⟩ := hfork
  have hnegated : cond.negate.nameless = cond'.negate.nameless := by
    rw [Expr.nameless_negate, Expr.nameless_negate, hcond]
  refine blind_bind (hwalk false fall (Scope.withStop_eq hscope _) hstack) fun p p' hp => ?_
  refine blind_bind (hwalk false taken (Scope.withStop_eq hscope _) hstack) fun q q' hq => ?_
  have hchoice : Option.Rel Stack.SameShape
      (join.bind fun join => choice? cond.negate join stack.length p q)
      (join.bind fun join => choice? cond'.negate join stack'.length p' q') := by
    rw [hstack.length_eq]
    cases join with
    | none => exact .none
    | some join => exact choice?_sameShape hnegated join _ hp hq
  dsimp only at hchoice ⊢
  generalize (join.bind fun join => choice? cond.negate join stack.length p q) = merged,
    (join.bind fun join => choice? cond'.negate join stack'.length p' q') = merged' at hchoice ⊢
  cases hchoice with
  | some hmerged =>
    exact blind_bind (blind_modify fun todo todo' htodo => htodo) fun _ _ _ => blind_pure ⟨rfl, rfl, hmerged⟩
  | none =>
    rw [hp.next, hq.next]
    exact blind_bind (blind_modify fun todo todo' htodo => htodo) fun _ _ _ =>
      blind_pure ⟨rfl, rfl, hp.stackOr (hq.stackOr hstack)⟩

lemma blind_emitFork {fork fork' : Fork} (hfork : fork.SameShape fork') :
    Blind Progress.SameShape (s.emitFork walk scope stack fork)
      ((s.inContext ctx).emitFork walk' scope' stack' fork') := by
  obtain ⟨cond, taken, fall⟩ := fork
  obtain ⟨cond', _, _⟩ := fork'
  obtain ⟨hcond, rfl, rfl⟩ := hfork
  refine blind_bind (s.blind_jump? hscope taken) ?_
  rintro jump _ rfl
  refine blind_bind (s.blind_jump? hscope fall) ?_
  rintro jump' _ rfl
  rcases jump with _ | jump <;> rcases jump' with _ | jump'
  · refine blind_get fun todo todo' htodo => ?_
    have hjoin := Todo.earliestJoin_eq htodo hscope s.graph fall taken
    refine blind_ite (iff_of_eq (congrArg (· = some taken) hjoin))
      (blind_emitArm hwalk hscope hstack _ _ fall taken) ?_
    refine blind_ite (iff_of_eq (congrArg (· = some fall) hjoin))
      (blind_emitArm hwalk hscope hstack _ _ taken fall) ?_
    dsimp only
    rw [hjoin]
    exact blind_emitArms hwalk hscope hstack ⟨hcond, rfl, rfl⟩ _
  all_goals exact blind_bind (blind_modify fun todo todo' htodo => htodo) fun _ _ _ => blind_pure ⟨rfl, rfl, hstack⟩

lemma blind_emitBodies (exit : Option BlockId) (targets : List BlockId) :
    Blind (fun _ _ => True) (emitBodies walk scope exit stack targets)
      (emitBodies walk' scope' exit stack' targets) := by
  induction targets with
  | nil => exact blind_pure trivial
  | cons target rest ih =>
    refine blind_bind (hwalk false target (Scope.enterArm_eq hscope exit rest.head? stack stack') hstack)
      fun p p' hp => ?_
    refine blind_bind (blind_modify fun todo todo' htodo => htodo) fun _ _ _ => ?_
    exact blind_bind ih fun _ _ _ => blind_pure trivial

lemma blind_emitSwitch (id : BlockId) (selector selector' : Expr) :
    Blind Progress.SameShape (s.emitSwitch walk scope id selector stack)
      ((s.inContext ctx).emitSwitch walk' scope' id selector' stack') := by
  refine blind_bind (s.blind_block id) ?_
  rintro b _ rfl
  split
  · exact blind_throw
  · next edges _ =>
    refine blind_get fun todo todo' htodo => ?_
    refine blind_ite (by rw [Todo.admits_eq htodo hscope]) ?_ ?_
    · exact blind_bind (R := fun _ _ => False) blind_throw fun _ _ h => h.elim
    · dsimp only
      rw [Todo.switchExit_eq htodo hscope]
      exact blind_bind (blind_emitBodies hwalk hscope hstack _ _) fun _ _ _ => blind_pure ⟨rfl, rfl, hstack⟩

end Arms

section Constructs

variable (hctx : s.context.nameless = ctx.nameless)
include hctx

lemma blind_loopTest? (loop : Loop) (hstack : Stack.SameShape stack stack') :
    Blind (Option.Rel fun test test' => test.2.1 = test'.2.1) (s.loopTest? loop stack)
      ((s.inContext ctx).loopTest? loop stack') := by
  refine blind_get fun todo todo' htodo => ?_
  refine blind_ite (by rw [Todo.regionAt?_eq htodo]; rfl) (blind_pure .none) ?_
  refine blind_bind (s.blind_bareTest? hctx loop.header hstack) fun test test' htest => ?_
  cases htest with
  | none => exact blind_pure .none
  | @some test test' htest =>
    obtain ⟨c, taken, fall, left⟩ := test
    obtain ⟨c', _, _, left'⟩ := test'
    obtain ⟨-, rfl, rfl, -⟩ := htest
    refine blind_ite Iff.rfl (blind_pure (.some rfl)) ?_
    exact blind_ite Iff.rfl (blind_pure (.some rfl)) (blind_pure .none)

omit hctx in
/-- An assignment to a variable has its like in every list that differs in names only. -/
lemma exists_assign_var {stmts rest : List Stmt} {name : String} {value : Expr}
    (h : stmts.map Stmt.nameless = (.assign (.var name) value :: rest : List Stmt).map Stmt.nameless) :
    ∃ name' value' rest', stmts = .assign (.var name') value' :: rest' := by
  cases stmts with
  | nil => cases h
  | cons st rest' =>
    obtain ⟨hst, -⟩ := List.cons.inj h
    cases st <;> simp [Stmt.mapExprs] at hst
    obtain ⟨name', rfl⟩ := Expr.nameless_eq_var_iff.mp hst.1
    exact ⟨name', _, rest', rfl⟩

lemma blind_storedName? (handler : Block) :
    Blind (Option.Rel fun _ _ => True) (s.storedName? handler) ((s.inContext ctx).storedName? handler) := by
  unfold storedName?
  split
  · exact blind_pure .none
  · next first _ =>
    refine blind_ite Iff.rfl (blind_pure .none) ?_
    refine blind_bind (s.blind_runFrom hctx [first] rfl) fun r r' hr => ?_
    have hstmts := hr.stmts
    generalize r.stmts = stmts, r'.stmts = stmts' at hstmts ⊢
    split
    · next name value rest =>
      obtain ⟨name', value', rest', rfl⟩ := exists_assign_var hstmts.symm
      exact blind_pure (.some trivial)
    · next hother =>
      split
      · next name value rest =>
        obtain ⟨name', value', rest', rfl⟩ := exists_assign_var hstmts
        exact absurd rfl (hother name' value' rest')
      · exact blind_pure .none

lemma blind_catchBinding (id : BlockId) :
    Blind (fun b b' => Stack.SameShape b.2 b'.2) (s.catchBinding id) ((s.inContext ctx).catchBinding id) := by
  refine blind_bind (s.blind_block id) ?_
  rintro b _ rfl
  refine blind_bind (s.blind_storedName? hctx b) fun name name' hname => ?_
  cases hname with
  | none => exact blind_pure rfl
  | some _ =>
    exact blind_bind (blind_modify fun todo todo' htodo => Todo.capture_eq htodo id) fun _ _ _ => blind_pure rfl

variable {walk walk' : Walker} (hwalk : BlindWalker walk walk') (hscope : scope.bare = scope'.bare)
include hwalk hscope

lemma blind_emitLoop (loop : Loop) (hstack : Stack.SameShape stack stack') :
    Blind Progress.SameShape (s.emitLoop walk scope loop stack)
      ((s.inContext ctx).emitLoop walk' scope' loop stack') := by
  have hinner := Scope.enterLoop_eq hscope loop stack stack'
  refine blind_bind (s.blind_loopTest? hctx loop hstack) fun test test' htest => ?_
  cases htest with
  | none =>
    exact blind_bind (hwalk true loop.header hinner hstack) fun _ _ _ => blind_pure ⟨rfl, rfl, hstack⟩
  | @some test test' hentry =>
    obtain ⟨cond, entry, left⟩ := test
    obtain ⟨cond', _, left'⟩ := test'
    obtain rfl : entry = _ := hentry
    refine blind_bind (blind_modify fun todo todo' htodo => Todo.visit_eq htodo loop.header) fun _ _ _ => ?_
    exact blind_bind (hwalk false entry hinner hstack) fun _ _ _ => blind_pure ⟨rfl, rfl, hstack⟩

lemma blind_emitHandlers (continuation : Option BlockId) (handlers : List Handler) :
    Blind (fun r r' => r.1.isEmpty = r'.1.isEmpty ∧ r.2 = r'.2) (s.emitHandlers walk scope continuation handlers)
      ((s.inContext ctx).emitHandlers walk' scope' continuation handlers) := by
  induction handlers generalizing continuation with
  | nil => exact blind_pure ⟨rfl, rfl⟩
  | cons handler rest ih =>
    refine blind_bind (s.blind_isOpen handler.block) ?_
    rintro isOpen _ rfl
    refine blind_ite Iff.rfl (ih continuation) ?_
    refine blind_bind (s.blind_catchBinding hctx handler.block) fun b b' hb => ?_
    refine blind_bind (hwalk false handler.block (Scope.withStop_eq hscope continuation) hb) fun p p' hp => ?_
    rw [hp.next]
    exact blind_bind (ih _) fun r r' hr => blind_pure ⟨rfl, hr.2⟩

omit hctx hwalk in
lemma blind_throughGoto (id : BlockId) :
    Blind Eq (s.throughGoto scope id) ((s.inContext ctx).throughGoto scope' id) := by
  refine blind_bind (s.blind_block id) ?_
  rintro b _ rfl
  split
  · refine blind_bind (s.blind_isPlain hscope id) ?_
    rintro plain _ rfl
    refine blind_ite Iff.rfl ?_ (blind_pure rfl)
    exact blind_bind (blind_modify fun todo todo' htodo => Todo.visit_eq htodo id) fun _ _ _ => blind_pure rfl
  · exact blind_pure rfl

lemma blind_emitTry (region : Region) (id : BlockId) (hstack : Stack.SameShape stack stack') :
    Blind Progress.SameShape (s.emitTry walk scope region id stack)
      ((s.inContext ctx).emitTry walk' scope' region id stack') := by
  refine blind_bind (blind_modify fun todo todo' htodo => Todo.enter_eq htodo region) fun _ _ _ => ?_
  refine blind_bind (hwalk false id (Scope.within_eq hscope region) hstack) fun p p' hp => ?_
  have hgoto : Blind Eq (p.next.mapM (s.throughGoto scope)) (p'.next.mapM ((s.inContext ctx).throughGoto scope')) := by
    rw [hp.next]
    cases p'.next with
    | none => exact blind_pure rfl
    | some next =>
      simp only [Option.mapM_some, map_eq_pure_bind]
      refine blind_bind (s.blind_throughGoto hscope next) ?_
      rintro target _ rfl
      exact blind_pure rfl
  refine blind_bind hgoto ?_
  rintro continuation _ rfl
  refine blind_bind (s.blind_emitHandlers hctx hwalk hscope continuation region.handlers) fun r r' hr => ?_
  obtain ⟨clauses, next⟩ := r
  obtain ⟨clauses', _⟩ := r'
  obtain ⟨hclauses, rfl⟩ := hr
  refine blind_pure ⟨rfl, ?_, ?_⟩
  · dsimp only at hclauses ⊢
    rw [hclauses]
    split
    · exact hp.isEmpty
    · rfl
  · dsimp only
    split
    · exact hp.stack
    · exact hstack

lemma blind_emitExit (b : Block) (id : BlockId) {r r' : Recovered} (hr : r.SameShape r') :
    Blind Progress.SameShape (s.emitExit walk scope b id r) ((s.inContext ctx).emitExit walk' scope' b id r') := by
  have hexit := hr.exit
  obtain ⟨stmts, stack, exit⟩ := r
  obtain ⟨stmts', stack', exit'⟩ := r'
  dsimp only at hexit
  unfold emitExit
  cases hexit with
  | switch _ => exact s.blind_emitSwitch hwalk hscope hr.stack id _ _
  | none =>
    rcases b.succs with _ | ⟨next, _ | ⟨other, rest⟩⟩
    · exact blind_pure ⟨rfl, rfl, hr.stack⟩
    · exact blind_pure ⟨rfl, rfl, hr.stack⟩
    · exact blind_throw
  | conditional hcond =>
    rcases b.succs with _ | ⟨next, _ | ⟨other, _ | ⟨third, rest⟩⟩⟩
    · exact blind_pure ⟨rfl, rfl, hr.stack⟩
    · exact blind_pure ⟨rfl, rfl, hr.stack⟩
    · have hfork : Fork.SameShape ⟨_, next, other⟩ ⟨_, next, other⟩ := ⟨congrArg Condition.taken hcond, rfl, rfl⟩
      refine blind_bind (s.blind_mergeTests hctx hscope hr.stack s.graph.size hfork) fun fork fork' hmerged => ?_
      exact s.blind_emitFork hwalk hscope hr.stack hmerged
    · exact blind_throw

lemma blind_emitBlock (id : BlockId) (hstack : Stack.SameShape stack stack') :
    Blind Progress.SameShape (s.emitBlock walk scope id stack)
      ((s.inContext ctx).emitBlock walk' scope' id stack') := by
  refine blind_bind (s.blind_block id) ?_
  rintro b _ rfl
  refine blind_bind (blind_modify fun todo todo' htodo => Todo.visit_eq htodo id) fun _ _ _ => ?_
  refine blind_bind (s.blind_runBlock hctx id hstack) fun r r' hr => ?_
  refine blind_bind (s.blind_emitExit hctx hwalk hscope b id hr) fun tail tail' htail => ?_
  refine blind_pure ⟨htail.next, ?_, htail.stack⟩
  exact isEmpty_append_congr hr.isEmpty htail.isEmpty

lemma blind_emitConstruct (id : BlockId) (hstack : Stack.SameShape stack stack') :
    Blind Progress.SameShape (s.emitConstruct walk scope id stack)
      ((s.inContext ctx).emitConstruct walk' scope' id stack') := by
  refine blind_get fun todo todo' htodo => ?_
  have hloop : (s.inContext ctx).loop? id = s.loop? id := rfl
  dsimp only
  rw [Scope.isInLoop_eq hscope, Todo.regionAt?_eq htodo, graph_inContext, hloop]
  generalize (if scope'.isInLoop id = true then none else s.loop? id) = loop
  generalize (todo'.regionAt? s.graph id).filter _ = region
  rcases region with _ | region
  · rcases loop with _ | loop
    · exact s.blind_emitBlock hctx hwalk hscope id hstack
    · exact s.blind_emitLoop hctx hwalk hscope loop hstack
  · exact s.blind_emitTry hctx hwalk hscope region id hstack

end Constructs

lemma blind_entryJump? (hscope : scope.bare = scope'.bare) (entering : Bool) (id : BlockId) :
    Blind Eq (s.entryJump? scope entering id) ((s.inContext ctx).entryJump? scope' entering id) :=
  blind_ite Iff.rfl (blind_pure rfl) (s.blind_jump? hscope id)

/-- **Walks.** In contexts that differ in names only, walks take every decision alike. -/
lemma blindWalker_walk (hctx : s.context.nameless = ctx.nameless) (fuel : Nat) :
    BlindWalker (s.walk fuel) ((s.inContext ctx).walk fuel) := by
  induction fuel with
  | zero => exact fun _ _ _ _ _ _ => blind_throw
  | succ fuel ih =>
    intro scope scope' entering id stack stack' hscope hstack
    refine blind_bind (s.blind_block id) ?_
    rintro b _ rfl
    refine blind_bind (s.blind_entryJump? hscope entering id) ?_
    rintro jump _ rfl
    cases jump with
    | some jump =>
      exact blind_bind (blind_modify fun todo todo' htodo => htodo) fun _ _ _ => blind_pure ⟨rfl, rfl, hstack⟩
    | none =>
      refine blind_get fun todo todo' htodo => ?_
      refine blind_ite (by rw [Scope.stopsAt_eq hscope]; rfl) (blind_pure ⟨rfl, rfl, hstack⟩) ?_
      refine blind_ite (by rw [Todo.isOpen_eq htodo]) blind_throw ?_
      refine blind_bind (s.blind_emitConstruct hctx ih hscope id hstack) fun first first' hfirst => ?_
      rw [hfirst.next]
      split
      · exact blind_pure hfirst
      · next next _ =>
        refine blind_bind (ih false next hscope hfirst.stack) fun rest rest' hrest => ?_
        refine blind_pure ⟨hrest.next, ?_, hrest.stack⟩
        exact isEmpty_append_congr hfirst.isEmpty hrest.isEmpty

end Setting

/-- Whether a method can be structured does not depend on names. -/
lemma agree_structureBody {ctx ctx' : Recovery.Context} (hctx : ctx.nameless = ctx'.nameless) (shape : CodeShape) :
    Agree (fun _ _ => True) (fun _ _ => True) (structureBody ctx shape) (structureBody ctx' shape) := by
  let s := Setting.ofShape ctx shape
  have hstructured : Blind (fun _ _ => True) s.structured (s.inContext ctx').structured := by
    refine blind_bind (s.blindWalker_walk hctx _ false 0 rfl rfl) fun p p' hp => ?_
    refine blind_get fun todo todo' htodo => ?_
    have hreachable : (s.inContext ctx').reachable = s.reachable := rfl
    rw [Todo.isOpen_eq htodo, hreachable]
    cases s.reachable.find? todo'.isOpen with
    | none => exact blind_pure trivial
    | some id => exact blind_throw
  have h := hstructured (Todo.ofShape shape) (Todo.ofShape shape) rfl
  unfold structureBody structureWalk
  split
  · exact .ok trivial
  · change Agree _ _ ((s.structured.run _).map _) (((s.inContext ctx').structured.run _).map _)
    simp only [StateT.run]
    revert h
    generalize s.structured (Todo.ofShape shape) = x
    generalize (s.inContext ctx').structured (Todo.ofShape shape) = y
    rintro (_ | _)
    · exact .error trivial
    · exact .ok trivial

end JvmLift.Structure

namespace JvmLift

open Bytecode JvmLift.Flow Recovery Source Structure

/-! ### Code order -/

lemma isSome_twoReturns? (flat : List Stmt) (cond : Expr) :
    (Lift.twoReturns? flat cond).isSome = decide (2 ≤ flat.countP Lift.isValueReturn) := by
  rw [List.countP_eq_length_filter, Lift.twoReturns?]
  rcases flat.filter Lift.isValueReturn with _ | ⟨first, _ | ⟨second, rest⟩⟩ <;> simp

lemma countP_isValueReturn (flat : List Stmt) :
    (flat.map Stmt.nameless).countP Lift.isValueReturn = flat.countP Lift.isValueReturn := by
  rw [List.countP_map]
  congr 1
  funext st
  cases st <;> rfl

/-- A method is structured if it is one choice between two returns, or else if a walk over its blocks succeeds. -/
lemma outcome_chooseBody (m : Method) (ctx : Recovery.Context) (options : Options) (shape : CodeShape)
    (flat : List Stmt) :
    (Lift.chooseBody m ctx options shape flat).2 =
      if ((Lift.firstCondition? ctx shape.graph).isSome && decide (2 ≤ flat.countP Lift.isValueReturn) &&
          (flat.length == 2 && Lift.hasSingleForwardBranch shape.graph || !options.structureRegions)) ||
          options.structureRegions && (decide (1 < shape.graph.size) || !shape.regions.isEmpty) &&
            (structureBody ctx shape).isOk then .structured
      else .flat := by
  have hnarrow : ((Lift.firstCondition? ctx shape.graph).bind fun c => Lift.twoReturns? flat c.fallthrough).isSome =
      ((Lift.firstCondition? ctx shape.graph).isSome && decide (2 ≤ flat.countP Lift.isValueReturn)) := by
    cases Lift.firstCondition? ctx shape.graph <;> simp [isSome_twoReturns?]
  rw [← hnarrow]
  unfold Lift.chooseBody
  generalize ((Lift.firstCondition? ctx shape.graph).bind fun c => Lift.twoReturns? flat c.fallthrough) = narrow
  generalize (flat.length == 2 && Lift.hasSingleForwardBranch shape.graph) = isWhole
  generalize (decide (1 < shape.graph.size) || !shape.regions.isEmpty) = needsStructure
  cases narrow <;> cases isWhole <;> cases options.structureRegions <;> cases needsStructure <;>
    cases structureBody ctx shape <;> rfl

section CodeOrder

variable {ctx ctx' : Recovery.Context} (hctx : ctx.nameless = ctx'.nameless)
include hctx

lemma agree_runBlocks (handlers : List BlockId) (blocks : List Block) {stack stack' : Stack}
    (hstack : Stack.SameShape stack stack') :
    Agree (Underflow ctx ctx') (fun stmts stmts' => stmts.map Stmt.nameless = stmts'.map Stmt.nameless)
      (Lift.runBlocks ctx handlers blocks stack) (Lift.runBlocks ctx' handlers blocks stack') := by
  induction blocks generalizing stack stack' with
  | nil => exact .ok rfl
  | cons b rest ih =>
    have hentry : Stack.SameShape (if handlers.contains b.id then Setting.caught :: stack else stack)
        (if handlers.contains b.id then Setting.caught :: stack' else stack') := by
      split
      · exact Stack.sameShape_cons.mpr ⟨⟨rfl, rfl⟩, hstack⟩
      · exact hstack
    refine (agree_run hctx b.body hentry).bind fun r r' hr => ?_
    refine (ih hr.stack).bind fun later later' hlater => .ok ?_
    rw [List.map_append, List.map_append, hr.stmts, hlater]

/-- Whether there is a condition in the first branch does not depend on names. -/
lemma isSome_firstCondition? (g : FlowGraph) :
    (Lift.firstCondition? ctx g).isSome = (Lift.firstCondition? ctx' g).isSome := by
  unfold Lift.firstCondition?
  cases g.blocks.toList.find? Block.endsInConditional with
  | none => rfl
  | some b =>
    cases hlast : b.last? with
    | none => simp [hlast]
    | some branch =>
      have hbefore : Agree (Underflow ctx ctx') (fun es es' => es.map Expr.nameless = es'.map Expr.nameless)
          (stackBeforeTransfer ctx b.body) (stackBeforeTransfer ctx' b.body) := by
        refine (agree_run hctx _ rfl).bind fun r r' hr => .ok ?_
        simpa [Function.comp_def] using congrArg (List.map StackValue.expr) hr.stack
      simp only [bind, Option.bind_some, hlast]
      revert hbefore
      generalize stackBeforeTransfer ctx b.body = x
      generalize stackBeforeTransfer ctx' b.body = y
      rintro (_ | @⟨es, es', hes⟩)
      · rfl
      · have hcondition := congrArg Option.isSome (congrArg (condition? branch.opcode) hes)
        simpa [condition?_nameless] using hcondition

/-- The body is chosen in the same way. -/
lemma outcome_chooseBody_eq (m m' : Method) (options : Options) (shape : CodeShape) {flat flat' : List Stmt}
    (hflat : flat.map Stmt.nameless = flat'.map Stmt.nameless) :
    (Lift.chooseBody m ctx options shape flat).2 = (Lift.chooseBody m' ctx' options shape flat').2 := by
  have hlength : flat.length = flat'.length := by simpa using congrArg List.length hflat
  have hcount : flat.countP Lift.isValueReturn = flat'.countP Lift.isValueReturn := by
    rw [← countP_isValueReturn, hflat, countP_isValueReturn]
  rw [outcome_chooseBody, outcome_chooseBody, hlength, hcount, isSome_firstCondition? hctx,
    (agree_structureBody hctx shape).isOk_eq]

end CodeOrder

/-- The context in which a method is lifted. -/
def Method.context (m : Method) (pool : Option Pool) (options : Options) : Recovery.Context :=
  { method := m.name, names := Naming.ofMethod m, pool, options }

lemma agree_lift {m m' : Method}
    (hcode : m.code.map (fun code => (code.bytes, code.handlers)) = m'.code.map fun code => (code.bytes, code.handlers))
    (pool : Option Pool) (options : Options) :
    Agree (Underflow (m.context pool options) (m'.context pool options))
      (fun lifted lifted' => lifted.outcome = lifted'.outcome) (m.lift pool options) (m'.lift pool options) := by
  have hctx : (m.context pool options).nameless = (m'.context pool options).nameless := rfl
  cases h : m.code <;> cases h' : m'.code <;> simp [h, h'] at hcode <;> simp only [Method.lift, h, h']
  · exact .ok rfl
  · next code code' =>
    have hshape : CodeShape.ofCode code = CodeShape.ofCode code' := by
      simp only [CodeShape.ofCode, hcode.1, hcode.2]
    rw [hshape]
    refine (agree_runBlocks hctx _ _ rfl).bind fun flat flat' hflat => .ok ?_
    exact outcome_chooseBody_eq hctx m m' options _ hflat

/-- **Names do not decide.** Two methods with the same code bytes and exception table, whatever their names, descriptors,
access flags and other tables, fail at the same instruction, or they are lifted equally far. -/
theorem lift_outcome_of_code {m m' : Method}
    (hcode : m.code.map (fun code => (code.bytes, code.handlers)) = m'.code.map fun code => (code.bytes, code.handlers))
    (pool : Option Pool) (options : Options) :
    (∃ offset, m.lift pool options = .error (.stackUnderflow m.name offset) ∧
      m'.lift pool options = .error (.stackUnderflow m'.name offset)) ∨
    ∃ lifted lifted', m.lift pool options = .ok lifted ∧ m'.lift pool options = .ok lifted' ∧
      lifted.outcome = lifted'.outcome := by
  have h := agree_lift hcode pool options
  generalize m.lift pool options = x, m'.lift pool options = y at h
  cases h with
  | error h =>
    obtain ⟨offset, rfl, rfl⟩ := h
    exact .inl ⟨offset, rfl, rfl⟩
  | ok h => exact .inr ⟨_, _, rfl, rfl, h⟩

/-- A loop that counts its argument down, as two methods: a static one that names the argument by its signature, and one
that names it by its table of variables. -/
def countdowns : Method × Method :=
  let bytes := [0x1a, 0x99, 0x00, 0x09, 0x84, 0x00, 0xff, 0xa7, 0xff, 0xf9, 0xb1]
  (⟨"countdown", "(I)V", ⟨0x0008⟩, some { bytes }⟩,
    ⟨"f", "()Z", ⟨0x0001⟩, some { maxStack := 1, bytes, locals := [⟨0, 11, "n", "I", 0⟩], lines := [⟨0, 7⟩] }⟩)

theorem countdowns_lift_outcome :
    countdowns.1.code.map (fun code => (code.bytes, code.handlers)) =
      countdowns.2.code.map (fun code => (code.bytes, code.handlers)) ∧
    ∃ lifted lifted', countdowns.1.lift none {} = .ok lifted ∧ countdowns.2.lift none {} = .ok lifted' ∧
      lifted.outcome = lifted'.outcome ∧ lifted.outcome = .structured := by
  have hcode : countdowns.1.code.map (fun code => (code.bytes, code.handlers)) =
      countdowns.2.code.map (fun code => (code.bytes, code.handlers)) := rfl
  have houtcome : (countdowns.1.lift none {}).toOption.map Lifted.outcome = some .structured := by decide +kernel
  rcases lift_outcome_of_code hcode none {} with ⟨offset, herror, -⟩ | ⟨lifted, lifted', h, h', heq⟩
  · simp [herror, Except.toOption] at houtcome
  · exact ⟨hcode, lifted, lifted', h, h', heq, by simpa [h, Except.toOption] using houtcome⟩

end JvmLift
