import Mathlib
import JvmLift.Proofs.Conservation
import JvmLift.Proofs.Render

/-!
# Trees run like graphs

A walk over code without handlers and switches, whose blocks leave nothing on the stack, renders the runs from the
block it starts at: the statements that it comes to perform the same actions and make the same tests with the same
outcomes, in the same order and for runs of any length. One thing can go wrong. An arm of an `if` may stop at a block
that belongs to a construct further out, while the `if` is followed by the block where its arms were expected to meet;
then the tree leads to the wrong block. Such blocks are the strays of a walk, and without strays the tree is right.
-/

namespace JvmLift.Structure

open Bytecode JvmLift.Flow Recovery Source Trace Behaviour

lemma Todo.strays_noteStop {todo : Todo} {stop next : Option BlockId} (h : (todo.noteStop stop next).strays = []) :
    todo.strays = [] ∧ (stop = none ∨ stop = next) := by
  obtain ⟨hstop, hstrays⟩ := List.append_eq_nil_iff.mp h
  refine ⟨hstrays, ?_⟩
  cases stop with
  | none => exact .inl rfl
  | some id => exact .inr (by simpa [Option.filter] using hstop)

lemma Took.strays_eq_nil {s : Setting} {start : BlockId} {todo todo' : Todo} {log : List Entry}
    (h : Took s start todo log todo') (hstrays : todo'.strays = []) : todo.strays = [] :=
  List.suffix_nil.mp (hstrays ▸ h.strays)

namespace Setting

variable {s : Setting} {w : Walker} {scope : Scope} {id : BlockId} {todo todo' : Todo} {p : Progress}
variable {F : (BlockId → Behaviour Ending) → Behaviour Ending}

/-- A part of a walk came to statements for a piece of the graph, and left nothing on the stack. -/
structure Rendered (s : Setting) (scope : Scope) (F : (BlockId → Behaviour Ending) → Behaviour Ending)
    (p : Progress) : Prop where
  stack : p.stack = []
  renders : s.Renders scope F p.stmts p.next

/-- There are no protected ranges around, and none left to enter. -/
structure Unprotected (scope : Scope) (todo : Todo) : Prop where
  ranges : scope.ranges = []
  regions : todo.regions = []
  captured : todo.captured = []

lemma Unprotected.after {start : BlockId} {log : List Entry} (h : Unprotected scope todo)
    (htook : Took s start todo log todo') : Unprotected scope todo' :=
  ⟨h.ranges, htook.regions.trans h.regions, htook.captured.trans h.captured⟩

lemma Unprotected.walk {entering : Bool} {stack : Stack} (h : Unprotected scope todo) (hlogs : s.Logs w)
    (hwalk : w scope entering id stack todo = .ok (p, todo')) :
    ∃ log, Took s id todo log todo' ∧ Unprotected scope todo' := by
  obtain ⟨log, htook, -⟩ := hlogs _ _ _ _ _ _ _ h.captured h.regions hwalk
  exact ⟨log, htook, h.after htook⟩

lemma Unprotected.construct {stack : Stack} (h : Unprotected scope todo) (hlogs : s.Logs w)
    (hopen : todo.isOpen id = true) (hemit : s.emitConstruct w scope id stack todo = .ok (p, todo')) :
    ∃ log, Took s id todo log todo' ∧ Unprotected scope todo' := by
  obtain ⟨log, htook, -⟩ := logged_emitConstruct hlogs h.captured h.regions hopen hemit
  exact ⟨log, htook, h.after htook⟩

/-- The walks of a walker that end without strays render the runs from their first blocks. A walk without blocks to
stop at ends nowhere; if it is sure to enter its first block, it renders the way through it. -/
def Simulates (s : Setting) (w : Walker) : Prop :=
  ∀ {scope entering id todo p todo'}, w scope entering id [] todo = .ok (p, todo') → Unprotected scope todo →
    todo'.strays = [] → s.Rendered scope (· id) p ∧
      (scope.stops = [] → p.next = none ∧ (entering = true → s.Renders scope (s.through · id) p.stmts p.next))

/-- An arm that stops nowhere else than at `next`. -/
lemma Rendered.upTo (hs : s.Regular) {stop next : Option BlockId} (h : s.Rendered (scope.withStop stop) (· id) p)
    (hnext : p.next = none ∨ p.next = next) : s.Renders scope (· id) p.stmts next := by
  have hrenders := renders_withStop h.renders
  rcases hnext with hnext | hnext
  · rw [hnext] at hrenders
    exact hrenders.before (hs.onlyLeaves_flows id) next
  · exact hnext ▸ hrenders

/-! ### Tests -/

lemma run_of_runsTo {b : Block} {r : Recovered} {stack : Stack} (h : s.RunsTo todo id stack b r)
    (hcap : todo.captured = []) : run s.context b.body stack = .ok r := by
  simpa [hcap] using h.run

lemma IsBareTest.through_eq {cond : Condition} {taken fall : BlockId} {left : Stack}
    (h : s.IsBareTest todo id [] cond taken fall left) (hcap : todo.captured = []) :
    cond.IsComparison ∧ ∀ V, s.through V id = ends .cut ⊔ tested cond.taken (V taken) (V fall) := by
  obtain ⟨b, r, hr, hsuccs, hexit, hstmts, -⟩ := h.runs
  have hrun := run_of_runsTo hr hcap
  refine ⟨(proper_of_run hrun).comparison hexit, fun V => ?_⟩
  rw [Setting.through_eq hr.block hrun, hstmts, runsEach_nil, ends_andThen, hsuccs, behind_fork hexit]
  rfl

/-- The runs of a fork. -/
abbrev Fork.traces (fork : Fork) (V : BlockId → Behaviour Ending) : Behaviour Ending :=
  tested fork.cond (V fork.taken) (V fork.fall)

/-- A condition that takes in the test behind it makes the same tests. -/
lemma Merges.traces_eq {fork fork' : Fork} {left : Stack} (h : s.Merges [] todo fork fork' left)
    (hcap : todo.captured = []) :
    ∃ A : (BlockId → Behaviour Ending) → Behaviour Ending,
      (∀ V, s.through V fork.fall = ends .cut ⊔ A V) ∧ (∀ n, s.flowsFor n fork.fall ≤ A (s.flowsFor n)) ∧
      ∀ V, fork'.traces V = tested fork.cond (V fork.taken) (A V) := by
  have hA (cond : Expr) (B C : BlockId)
      (hthrough : ∀ V, s.through V fork.fall = ends .cut ⊔ tested cond (V B) (V C)) (n : Nat) :
      s.flowsFor n fork.fall ≤ tested cond (s.flowsFor n B) (s.flowsFor n C) := by
    cases n with
    | zero => exact cut_le_tested cond le_rfl le_rfl
    | succ n =>
      refine (hthrough _).trans_le (sup_le ?_ (tested_mono (flowsFor_le_succ n B) (flowsFor_le_succ n C)))
      exact cut_le_tested cond (cut_le_flowsFor _ B) (cut_le_flowsFor _ C)
  obtain ⟨cond, ⟨htest, hcond⟩ | ⟨htest, hcond⟩⟩ := h.test
  · obtain ⟨-, hthrough⟩ := htest.through_eq hcap
    refine ⟨_, hthrough, hA _ _ _ hthrough, fun V => ?_⟩
    rw [Fork.traces, hcond, h.taken, tested_or]
  · obtain ⟨hcmp, hthrough⟩ := htest.through_eq hcap
    refine ⟨_, hthrough, hA _ _ _ hthrough, fun V => ?_⟩
    rw [Fork.traces, hcond, h.taken, tested_or, tested_fallthrough hcmp]

/-- So does one that takes in any number of tests. -/
lemma MergesAll.renders {fork fork' : Fork} {stmts : List Stmt} {next : Option BlockId}
    (h : s.MergesAll [] todo fork todo' fork') (hcap : todo.captured = [])
    (hrenders : s.Renders scope fork'.traces stmts next) : s.Renders scope fork.traces stmts next := by
  induction h with
  | done todo fork => exact hrenders
  | next head _ ih =>
    obtain ⟨A, hthrough, hbound, htraces⟩ := head.traces_eq hcap
    refine (ih hcap hrenders).congr ?_ fun n => ?_
    · rw [htraces]
      refine tested_mono le_rfl ?_
      rw [← through_flows, hthrough]
      exact le_sup_right
    · rw [htraces]
      exact tested_mono le_rfl (hbound n)

lemma MergesAll.unprotected {fork fork' : Fork} {stack : Stack} (h : s.MergesAll stack todo fork todo' fork')
    (hun : Unprotected scope todo) : Unprotected scope todo' := by
  induction h with
  | done todo fork => exact hun
  | next _ _ ih => exact ih ⟨hun.ranges, hun.regions, hun.captured⟩

/-! ### Branches -/

variable (hs : s.Regular) (hw : s.Simulates w) (hlogs : s.Logs w)
include hs hw

lemma rendered_emitArm {cond : Expr} {arm join : BlockId} (hun : Unprotected scope todo)
    (h : emitArm w scope [] cond arm join todo = .ok (p, todo')) (hstrays : todo'.strays = []) :
    s.Rendered scope (fun V => tested cond (V arm) (V join)) p := by
  obtain ⟨body, todo₁, hbody, rfl, rfl⟩ := of_yields yields_emitArm h
  obtain ⟨hstrays, hnext⟩ := Todo.strays_noteStop hstrays
  obtain ⟨harm, -⟩ := hw hbody ⟨hun.ranges, hun.regions, hun.captured⟩ hstrays
  refine ⟨?_, renders_ifThen (harm.upTo hs hnext)⟩
  simp [Progress.stackOr, harm.stack]

include hlogs

lemma rendered_emitArms {fork : Fork} {join : Option BlockId} (hun : Unprotected scope todo)
    (h : emitArms w scope [] fork join todo = .ok (p, todo')) (hstrays : todo'.strays = []) :
    s.Rendered scope fork.traces p := by
  obtain ⟨thenArm, todo₁, elseArm, todo₂, hthen, helse, hp⟩ := of_yields yields_emitArms h
  have hun : Unprotected (scope.withStop join) todo := ⟨hun.ranges, hun.regions, hun.captured⟩
  obtain ⟨_, htook, hun₁⟩ := hun.walk hlogs hthen
  obtain ⟨_, htook', -⟩ := hun₁.walk hlogs helse
  have harms (hstrays : todo₂.strays = []) : s.Rendered (scope.withStop join) (· fork.fall) thenArm ∧
      s.Rendered (scope.withStop join) (· fork.taken) elseArm :=
    ⟨(hw hthen hun (htook'.strays_eq_nil hstrays)).1, (hw helse hun₁ hstrays).1⟩
  obtain ⟨j, merged, rfl, hchoice, rfl, rfl⟩ | ⟨next, kept, rfl, rfl, rfl, rfl⟩ := hp
  · -- a choice needs a value on the stack
    have hstack := (harms hstrays).1.stack
    simp [choice?, hstack] at hchoice
  · obtain ⟨hstrays, helseNext⟩ := Todo.strays_noteStop hstrays
    obtain ⟨hstrays, hthenNext⟩ := Todo.strays_noteStop hstrays
    obtain ⟨hthenArm, helseArm⟩ := harms hstrays
    refine ⟨?_, renders_ifStmt (hthenArm.upTo hs hthenNext) (helseArm.upTo hs helseNext)⟩
    simp [Progress.stackOr, hthenArm.stack, helseArm.stack]

lemma rendered_forked {fork : Fork} (hun : Unprotected scope todo) (h : s.Forked w scope [] fork todo p todo')
    (hstrays : todo'.strays = []) : s.Rendered scope fork.traces p := by
  have hswap : (fun V => tested fork.cond.negate (V fork.fall) (V fork.taken)) = fork.traces :=
    funext fun V => tested_negate _ _ _
  cases h with
  | bothJump taken fall htaken hfall => exact ⟨rfl, renders_jumps htaken hfall⟩
  | takenJumps taken htaken => exact ⟨rfl, renders_ifJump htaken⟩
  | fallJumps fall hfall => exact ⟨rfl, hswap ▸ renders_ifJump hfall⟩
  | thenOnly h => exact hswap ▸ rendered_emitArm hs hw hun h hstrays
  | elseOnly h => exact rendered_emitArm hs hw hun h hstrays
  | arms h => exact rendered_emitArms hs hw hlogs hun h hstrays

/-! ### Constructs -/

lemma rendered_exited {b : Block} {r : Recovered} (hb : s.graph.block? id = some b)
    (hr : run s.context b.body [] = .ok r) (hun : Unprotected scope todo)
    (h : s.Exited w scope b id r todo p todo') (hstrays : todo'.strays = []) :
    s.Rendered scope (Way.behind r b.succs).traces p := by
  have hstack := hs.stack hb hr
  cases h with
  | switch h =>
    obtain ⟨b', edges, _, _, hb', hedges, -⟩ := of_yields yields_emitSwitch h
    cases (hs.switch hb').symm.trans hedges
  | @fork cond taken fall fork p todo₁ todo' hexit hsuccs hmerges h =>
    rw [hstack] at hmerges h
    have hfork := rendered_forked hs hw hlogs (hmerges.unprotected hun) h hstrays
    rw [hsuccs, behind_fork hexit]
    exact ⟨hfork.stack, hmerges.renders hun.captured hfork.renders⟩
  | leave hsuccs =>
    rw [hsuccs, behind_nil]
    refine ⟨hstack, renders_of_eq fun V => ?_⟩
    rw [runsEach_nil, ends_andThen]
    rfl
  | goOn hsuccs =>
    have hexit (c : Condition) : r.exit ≠ some (.conditional c) := by
      intro h
      simpa [hsuccs] using hs.fork hb hr h
    rw [hsuccs, behind_singleton hexit]
    refine ⟨hstack, renders_of_eq fun V => ?_⟩
    rw [runsEach_nil, ends_andThen]
    rfl

lemma rendered_emitBlock (hun : Unprotected scope todo) (h : s.emitBlock w scope id [] todo = .ok (p, todo'))
    (hstrays : todo'.strays = []) : s.Rendered scope (s.through · id) p := by
  obtain ⟨b, r, tail, hr, hexited, rfl⟩ := of_yields yields_emitBlock h
  have hrun := run_of_runsTo hr hun.captured
  have hun' : Unprotected scope (todo.visit id) := ⟨hun.ranges, hun.regions, hun.captured⟩
  have htail := rendered_exited hs hw hlogs hr.block hrun hun' hexited hstrays
  exact ⟨htail.stack, renders_block hs hr.block hrun htail.renders⟩

omit hlogs in
lemma rendered_emitLoop {loop : Loop} (hun : Unprotected scope todo)
    (h : s.emitLoop w scope loop [] todo = .ok (p, todo')) (hstrays : todo'.strays = []) :
    s.Rendered scope (s.through · loop.header) p := by
  obtain ⟨cond, entry, left, body, htest, hbody, rfl⟩ | ⟨body, hbody, rfl⟩ := of_yields yields_emitLoop h
  · obtain ⟨hround, hnext⟩ := hw hbody ⟨hun.ranges, hun.regions, hun.captured⟩ hstrays
    have hheads : s.HeadsLoop loop cond (· entry) := by
      intro V
      obtain ⟨c, exit, hexit, ⟨htest, rfl⟩ | ⟨htest, rfl⟩⟩ := htest
      · rw [(htest.through_eq hun.captured).2, hexit]
        rfl
      · obtain ⟨hcmp, hthrough⟩ := htest.through_eq hun.captured
        rw [hthrough, hexit, tested_fallthrough hcmp]
        rfl
    have hrenders := hround.renders
    rw [(hnext rfl).1] at hrenders
    exact ⟨rfl, renders_loop hs hheads hrenders⟩
  · obtain ⟨hround, hnext⟩ := hw hbody ⟨hun.ranges, hun.regions, hun.captured⟩ hstrays
    have hheads : s.HeadsLoop loop (.bool true) (s.through · loop.header) := by
      intro V
      rw [tested_true]
      exact (sup_eq_right.mpr (cut_le_through V loop.header)).symm
    have hrenders := (hnext rfl).2 rfl
    rw [(hnext rfl).1] at hrenders
    exact ⟨rfl, renders_loop hs hheads hrenders⟩

lemma rendered_emitConstruct (hun : Unprotected scope todo) (h : s.emitConstruct w scope id [] todo = .ok (p, todo'))
    (hstrays : todo'.strays = []) : s.Rendered scope (s.through · id) p := by
  obtain ⟨region, hregion, -⟩ | ⟨loop, -, rfl, -, -, h⟩ | ⟨-, h⟩ := of_yields yields_emitConstruct h
  · rw [hun.regions] at hregion
    cases hregion
  · exact rendered_emitLoop hs hw hun h hstrays
  · exact rendered_emitBlock hs hw hlogs hun h hstrays

omit w scope id todo todo' p F hw hlogs in
/-- **Every walk without strays renders the runs from its first block.** By induction on the number of its steps. -/
lemma simulates_walk (fuel : Nat) : s.Simulates (s.walk fuel) := by
  induction fuel with
  | zero => exact fun h => by cases h
  | succ fuel ih =>
    intro scope entering id todo p todo' h hun hstrays
    cases of_yields yields_walk h with
    | jump hentering hjump =>
      refine ⟨⟨rfl, renders_jump hjump none⟩, fun _ => ⟨rfl, fun h => ?_⟩⟩
      cases hentering.symm.trans h
    | stop hstop =>
      refine ⟨⟨rfl, renders_of_eq fun V => ?_⟩, fun hstops => ?_⟩
      · rw [runsEach_nil, ends_andThen]
        rfl
      · simp [Scope.stopsAt, hstops, hun.ranges] at hstop
    | last hopen hfirst hnext =>
      have hp := rendered_emitConstruct hs ih (logs_walk fuel) hun hfirst hstrays
      exact ⟨⟨hp.stack, hp.renders.of_through hs⟩, fun _ => ⟨hnext, fun _ => hp.renders⟩⟩
    | @more first rest next todo₁ todo' hopen hfirst hnext hrest =>
      obtain ⟨_, htook, hun₁⟩ := hun.construct (logs_walk fuel) hopen hfirst
      obtain ⟨_, htook', -⟩ := hun₁.walk (logs_walk fuel) hrest
      have hp := rendered_emitConstruct hs ih (logs_walk fuel) hun hfirst (htook'.strays_eq_nil hstrays)
      rw [hp.stack] at hrest
      obtain ⟨hq, hstops⟩ := ih hrest hun₁ hstrays
      have hboth := (hnext ▸ hp.renders).append hq.renders
      exact ⟨⟨hq.stack, hboth.of_through hs⟩, fun h => ⟨(hstops h).1, fun _ => hboth⟩⟩

end Setting

/-! ### Main statement -/

/-- Code without handlers and multi-way branches, whose blocks leave nothing on the stack. -/
@[mk_iff]
structure PlainCode (ctx : Context) (code : Code) : Prop where
  handlers : code.handlers = []
  switches : ∀ i ∈ (CodeShape.ofCode code).instructions, i.isSwitch = false
  stack : ∀ b ∈ (CodeShape.ofCode code).graph.blocks, (run ctx b.body []).toOption.all (·.stack.isEmpty) = true

/-- A graph that control does not run out of: it has a first block, a block that leads nowhere ends with a return or a
throw, and a block with a conditional branch leads to two blocks. -/
@[mk_iff]
structure WholeGraph (g : FlowGraph) : Prop where
  first : 0 < g.size
  leaves : ∀ b ∈ g.blocks, b.succs = [] → b.last?.any (fun i => i.role = .methodReturn ∨ i.role = .throw) = true
  forks : ∀ b ∈ g.blocks, b.body.any Instruction.isConditional = true → b.succs.length = 2

instance (ctx : Context) (code : Code) : Decidable (PlainCode ctx code) :=
  decidable_of_iff' _ (plainCode_iff ctx code)

instance (g : FlowGraph) : Decidable (WholeGraph g) :=
  decidable_of_iff' _ (wholeGraph_iff g)

lemma regular_ofShape {ctx : Context} {code : Code} (hplain : PlainCode ctx code)
    (hwhole : WholeGraph (CodeShape.ofCode code).graph) : (Setting.ofShape ctx (CodeShape.ofCode code)).Regular := by
  refine ⟨?_, ?_, ?_, ?_⟩
  · intro id b r hb hr
    have hr : run ctx b.body [] = .ok r := hr
    simpa [hr, Except.toOption] using hplain.stack b (Array.mem_of_getElem? hb)
  · intro id b r c hb hr hexit
    obtain ⟨i, hi, hcond⟩ := (proper_of_run hr).conditional hexit
    exact hwhole.forks b (Array.mem_of_getElem? hb) (List.any_eq_true.mpr ⟨i, hi, hcond⟩)
  · intro id b r hb hr hsuccs
    obtain ⟨i, hlast, hi⟩ := (Option.any_eq_true _ _).mp (hwhole.leaves b (Array.mem_of_getElem? hb) hsuccs)
    obtain ⟨last, hlast, hexit⟩ := exit_of_run (by simpa using hi) hr hlast
    exact not_done_of_isExit hlast hexit
  · intro id b hb
    obtain ⟨-, hbody, hedges, -⟩ := block?_build hb
    rw [Option.eq_none_iff_forall_ne_some]
    intro edges hswitch
    obtain ⟨i, hlast, hi⟩ := isSwitch_of_edgesOf ((congrArg Prod.snd hedges).symm.trans hswitch)
    have hmem := hbody i (List.mem_of_getLast? hlast)
    simp [hplain.switches i hmem] at hi

/-- **Simulation.** When plain code that control does not run out of is written as a tree without strays, the tree has
the runs of the graph: the same actions and tests with the same outcomes in the same order, whether the run leaves the
method or is interrupted at any point. -/
theorem structureWalk_simulates {ctx : Context} {code : Code} (hplain : PlainCode ctx code)
    (hwhole : WholeGraph (CodeShape.ofCode code).graph) {body : List Stmt} {todo : Todo}
    (h : structureWalk ctx (CodeShape.ofCode code) = .ok (body, todo)) (hstrays : todo.strays = []) :
    runsEach body = (Setting.ofShape ctx (CodeShape.ofCode code)).flows 0 := by
  have hs := regular_ofShape hplain hwhole
  have hregions := regions_ofCode hplain.handlers
  obtain ⟨hsize, -⟩ | ⟨fuel, p, hwalk, rfl, -⟩ := structureWalk_ok h
  · exact absurd hwhole.first (by omega)
  generalize Setting.ofShape ctx (CodeShape.ofCode code) = s at *
  obtain ⟨⟨-, hrenders⟩, hnext⟩ := Setting.simulates_walk hs fuel hwalk ⟨rfl, hregions, rfl⟩ hstrays
  rw [(hnext rfl).1] at hrenders
  exact hrenders.runsEach_eq hs

/-- A search that is left by `break` and goes on by `continue`, with two tests in one condition:
`0: iload_0; iload_1; if_icmpge 27`, `5: iload_0; iload_2; if_icmpeq 27`, `10: iload_2; ifeq 27`,
`14: iinc 2, 1; iload_1; ifeq 0`, `21: iinc 0, 1; goto 0`, `27: return`. -/
def searchLoop : Code :=
  { bytes := [0x1a, 0x1b, 0xa2, 0x00, 0x19, 0x1a, 0x1c, 0x9f, 0x00, 0x14, 0x1c, 0x99, 0x00, 0x10, 0x84, 0x02, 0x01,
      0x1b, 0x99, 0xff, 0xee, 0x84, 0x00, 0x01, 0xa7, 0xff, 0xe8, 0xb1] }

def isLoop : Stmt → Bool
  | .whileLoop .. => true
  | _ => false

/-- The theorem at a loop. -/
theorem searchLoop_simulated :
    ∃ body todo, structureWalk numberedContext (CodeShape.ofCode searchLoop) = .ok (body, todo) ∧ todo.strays = [] ∧
      body.any isLoop = true ∧
      runsEach body = (Setting.ofShape numberedContext (CodeShape.ofCode searchLoop)).flows 0 := by
  -- one evaluation of all facts, in which the code is decoded once
  obtain ⟨hplain, hwhole, hwritten⟩ : PlainCode numberedContext searchLoop ∧
      WholeGraph (CodeShape.ofCode searchLoop).graph ∧
      (structureWalk numberedContext (CodeShape.ofCode searchLoop)).toOption.any
        (fun r => r.2.strays == [] && r.1.any isLoop) = true := by decide +kernel
  obtain ⟨⟨body, todo⟩, hwalk, h⟩ := exists_ok_of_any hwritten
  simp only [Bool.and_eq_true, beq_iff_eq] at h
  exact ⟨body, todo, hwalk, h.1, h.2, structureWalk_simulates hplain hwhole hwalk h.1⟩

/-! ### A lost arm -/

/-- Code with an arm that goes past the block at which the arms were expected to meet:
`0: iload_0; ifeq 24`, `4: iload_1; ifne 14`, `8: iinc 3, 1; goto 21`, `14: iinc 4, 1; iload_2; ifeq 24`,
`21: iinc 5, 1`, `24: iinc 6, 1; return`. -/
def lostArm : Code :=
  { bytes := [0x1a, 0x99, 0x00, 0x17, 0x1b, 0x9a, 0x00, 0x09, 0x84, 0x03, 0x01, 0xa7, 0x00, 0x0a, 0x84, 0x04, 0x01,
      0x1c, 0x99, 0x00, 0x06, 0x84, 0x05, 0x01, 0x84, 0x06, 0x01, 0xb1] }

/-- A tree in which an arm ends with an `if` that does nothing, and something else than the last increment of `lostArm`
stands behind the arms. -/
def losesArm : List Stmt → Bool
  | .ifThen (.binary .ne _ _)
      (.ifElse (.binary .eq _ _) _ [.assign .., .ifThen (.binary .ne _ _) []] :: .assign (.var name) _ :: _) :: _ =>
    name != numberedContext.names 6 24
  | _ => false

/-- An arm that ends with an `if` that does nothing goes on behind the arms, whatever the outcome of the test. -/
lemma exists_run_past_arm (a a' b b' c c' e e' f f' : Expr) (thenArm rest rest' : List Stmt) :
    ∃ x, runsEach (.ifThen (.binary .ne a a') (.ifElse (.binary .eq b b') thenArm
        [.assign e e', .ifThen (.binary .ne c c') []] :: .assign f f' :: rest) :: rest')
      [.test (.binary .eq a a') false, .test (.binary .eq b b') false, .act (.assign e e'),
        .test (.binary .eq c c') true, .act (.assign f f')] x := by
  -- from the end of the run to its beginning
  obtain ⟨x, -, hrest⟩ := silent_runsEach (rest ++ rest')
  have hbehind : runsEach (.assign f f' :: (rest ++ rest')) [.act (.assign f f')] x :=
    (act_cons_iff (onDone_cut _)).mpr ⟨rfl, hrest⟩
  have hempty : runsEach (.ifThen (.binary .ne c c') [] :: .assign f f' :: (rest ++ rest'))
      [.test (.binary .eq c c') true, .act (.assign f f')] x := by
    rw [runsEach_ifThen]
    exact (tested_cons_iff rfl).mpr ⟨true, rfl, hbehind⟩
  have harm : runsEach (.assign e e' :: .ifThen (.binary .ne c c') [] :: .assign f f' :: (rest ++ rest'))
      [.act (.assign e e'), .test (.binary .eq c c') true, .act (.assign f f')] x :=
    (act_cons_iff (onDone_cut _)).mpr ⟨rfl, hempty⟩
  refine ⟨x, ?_⟩
  rw [runsEach_ifThen]
  refine (tested_cons_iff rfl).mpr ⟨false, rfl, ?_⟩
  rw [List.cons_append, runsEach_ifElse]
  exact (tested_cons_iff rfl).mpr ⟨false, rfl, harm⟩

lemma exists_run_of_losesArm {body : List Stmt} (h : losesArm body = true) :
    ∃ p q r s name value x, name ≠ numberedContext.names 6 24 ∧
      runsEach body [.test p false, .test q false, .act s, .test r true, .act (.assign (.var name) value)] x := by
  unfold losesArm at h
  split at h
  · obtain ⟨x, hx⟩ := exists_run_past_arm ..
    exact ⟨_, _, _, _, _, _, x, by simpa using h, hx⟩
  · cases h

def lostSetting : Setting :=
  Setting.ofShape numberedContext (CodeShape.ofCode lostArm)

/-- The increment of a local by one. -/
def increment (slot : UInt16) (offset : Nat) : Stmt :=
  .assign (.var (numberedContext.names slot offset)) (.binary .add (.var (numberedContext.names slot offset)) (.int 1))

/-- The code does not: with these outcomes only its last increment is left. -/
lemma eq_of_flows_lostArm {p q r : Expr} {s s' : Stmt} {x : Ending}
    (h : lostSetting.flows 0 [.test p false, .test q false, .act s, .test r true, .act s'] x) :
    s' = increment 6 24 := by
  obtain ⟨hblock₀, hblock₁, hblock₃, hblock₅⟩ :
      (lostSetting.graph.block? 0).map (fun b => (b.body, b.succs)) =
        some ([⟨0, ⟨0x1a⟩, .slot 0, 1⟩, ⟨1, ⟨0x99⟩, .branch 24, 3⟩], [5, 1]) ∧
      (lostSetting.graph.block? 1).map (fun b => (b.body, b.succs)) =
        some ([⟨4, ⟨0x1b⟩, .slot 1, 1⟩, ⟨5, ⟨0x9a⟩, .branch 14, 3⟩], [3, 2]) ∧
      (lostSetting.graph.block? 3).map (fun b => (b.body, b.succs)) =
        some ([⟨14, ⟨0x84⟩, .increment 4 1, 3⟩, ⟨17, ⟨0x1c⟩, .slot 2, 1⟩, ⟨18, ⟨0x99⟩, .branch 24, 3⟩], [5, 4]) ∧
      (lostSetting.graph.block? 5).map (fun b => (b.body, b.succs)) =
        some ([⟨24, ⟨0x84⟩, .increment 6 1, 3⟩, ⟨27, ⟨0xb1⟩, .none, 1⟩], []) := by decide +kernel
  -- each block leads on to the next by the outcome of its test
  have h₀ := Setting.flows_cons hblock₀
    (show _ = some ([], .fork (.binary .eq (.var (numberedContext.names 0 0)) (.int 0)) 5 1) from rfl) h
  rw [runsEach_nil, ends_andThen] at h₀
  obtain ⟨v, hv, h₀⟩ := (tested_cons_iff rfl).mp h₀
  obtain rfl := (Event.test.inj hv).2
  have h₁ := Setting.flows_cons hblock₁
    (show _ = some ([], .fork (.binary .ne (.var (numberedContext.names 1 4)) (.int 0)) 3 2) from rfl) h₀
  rw [runsEach_nil, ends_andThen] at h₁
  obtain ⟨v, hv, h₁⟩ := (tested_cons_iff rfl).mp h₁
  obtain rfl := (Event.test.inj hv).2
  have h₃ := Setting.flows_cons hblock₃
    (show _ = some ([increment 4 14], .fork (.binary .eq (.var (numberedContext.names 2 17)) (.int 0)) 5 4) from rfl) h₁
  rw [runsEach_singleton] at h₃
  obtain ⟨-, h₃⟩ := (act_cons_iff (onDone_cut _)).mp h₃
  obtain ⟨v, hv, h₃⟩ := (tested_cons_iff rfl).mp h₃
  obtain rfl := (Event.test.inj hv).2
  have h₅ := Setting.flows_cons hblock₅ (show _ = some ([increment 6 24, .returnVoid], .nowhere) from rfl) h₃
  rw [runsEach_cons, andThen_assoc] at h₅
  obtain ⟨hact, -⟩ := (act_cons_iff (by rw [onDone_cut, ends_andThen, onDone_cut])).mp h₅
  exact Event.act.inj hact

/-- The tree of `lostArm` performs the increment at 21 where the code goes past it: when the first two values are not
zero and the third is. -/
theorem lostArm_not_simulated : PlainCode numberedContext lostArm ∧ WholeGraph (CodeShape.ofCode lostArm).graph ∧
    ∃ body todo, structureWalk numberedContext (CodeShape.ofCode lostArm) = .ok (body, todo) ∧
      runsEach body ≠ lostSetting.flows 0 := by
  obtain ⟨hplain, hwhole, hwritten⟩ : PlainCode numberedContext lostArm ∧
      WholeGraph (CodeShape.ofCode lostArm).graph ∧
      (structureWalk numberedContext (CodeShape.ofCode lostArm)).toOption.any (fun r => losesArm r.1) = true := by
    decide +kernel
  obtain ⟨⟨body, todo⟩, hwalk, hloses⟩ := exists_ok_of_any hwritten
  refine ⟨hplain, hwhole, body, todo, hwalk, fun heq => ?_⟩
  obtain ⟨p, q, r, s, name, value, x, hname, hrun⟩ := exists_run_of_losesArm hloses
  rw [heq] at hrun
  cases eq_of_flows_lostArm hrun
  exact hname rfl

end JvmLift.Structure
