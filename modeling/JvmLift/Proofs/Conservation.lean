import Mathlib
import JvmLift.Proofs.Budget
import JvmLift.Proofs.Run

/-!
# Nothing is lost and nothing is doubled

A walk over a method without handlers keeps a log: which blocks it took into the tree and what each was recovered as. No
block is in the log twice, every reachable block is in it, and the leaves of the tree are the statements of the log. The
one source of copies is a switch whose default is also the target of a case: its arm is written twice.

A walk goes along edges, and from a header to the exit of its loop. The latter is found among the edges out of the body,
which may belong to blocks that are not reachable themselves. So the log may hold more than the reachable blocks.
-/

namespace JvmLift.Structure

open Bytecode JvmLift.Flow Recovery Source Stmt Relation
open scoped List

/-- A block that has been taken into the tree. -/
structure Entry where
  block : BlockId
  /-- What the block was recovered as. -/
  stmts : List Stmt
  /-- The switches around, innermost last, in an arm of which the block is that is written twice: the block of the
  switch and the target of the arm. -/
  shared : List (BlockId × BlockId) := []

namespace Entry

/-- The statements of a block, once for every time that its arm is written. -/
def copies (e : Entry) : List Stmt :=
  (List.replicate (2 ^ e.shared.length) e.stmts).flatten

/-- The entry of a block in an arm that is written twice. -/
def share (e : Entry) (arm : BlockId × BlockId) : Entry :=
  { e with shared := arm :: e.shared }

@[simp] lemma copies_unshared (id : BlockId) (stmts : List Stmt) : (Entry.mk id stmts []).copies = stmts := by
  simp [copies]

lemma copies_share (e : Entry) (arm : BlockId × BlockId) : (e.share arm).copies = e.copies ++ e.copies := by
  simp only [copies, share, List.length_cons, pow_succ, Nat.mul_two, List.replicate_add, List.flatten_append]

end Entry

/-- A walk may go on from a block to a successor, and from a header to the exit of its loop. -/
def Setting.GoesOn (s : Setting) (a b : BlockId) : Prop :=
  b ∈ s.graph.successors a ∨ ∃ loop ∈ s.loops, loop.header = a ∧ loop.exit = some b

abbrev Setting.Leads (s : Setting) : BlockId → BlockId → Prop :=
  ReflTransGen s.GoesOn

/-- A target of a switch that is both its default and the target of a case. -/
def SwitchShares (g : FlowGraph) (sw target : BlockId) : Prop :=
  ∃ b edges key, g.block? sw = some b ∧ b.switch = some edges ∧ edges.default = some target ∧
    (key, target) ∈ edges.cases

/-- What an entry says is so: its statements are those of a run of its block, and every arm that is counted as written
twice is one, and leads to the block. -/
structure Entry.Valid (s : Setting) (e : Entry) : Prop where
  run : ∃ b stack r, s.graph.block? e.block = some b ∧ run s.context b.body stack = .ok r ∧ r.stmts = e.stmts
  shared : ∀ arm ∈ e.shared, SwitchShares s.graph arm.1 arm.2 ∧ s.Leads arm.2 e.block

/-! ### Logs -/

/-- The walk from `start` took the blocks of the log into the tree, and nothing else. It may have noted strays and
stacks that met. -/
structure Took (s : Setting) (start : BlockId) (todo : Todo) (log : List Entry) (todo' : Todo) : Prop where
  captured : todo'.captured = todo.captured
  regions : todo'.regions = todo.regions
  strays : todo.strays <:+ todo'.strays
  meetings : todo.meetings <:+ todo'.meetings
  blocks : todo.blocks ~ log.map Entry.block ++ todo'.blocks
  entries : ∀ e ∈ log, e.Valid s ∧ s.Leads start e.block

namespace Took

variable {s : Setting} {start start' : BlockId} {todo todo₁ todo' : Todo} {log log' : List Entry}

lemma refl (start : BlockId) (todo : Todo) : Took s start todo [] todo :=
  ⟨rfl, rfl, List.suffix_rfl, List.suffix_rfl, .refl _, nofun⟩

lemma trans (h : Took s start todo log todo₁) (h' : Took s start todo₁ log' todo') :
    Took s start todo (log ++ log') todo' := by
  refine ⟨h'.captured.trans h.captured, h'.regions.trans h.regions, h.strays.trans h'.strays,
    h.meetings.trans h'.meetings, ?_, ?_⟩
  · rw [List.map_append, List.append_assoc]
    exact h.blocks.trans (h'.blocks.append_left _)
  · exact List.forall_mem_append.mpr ⟨h.entries, h'.entries⟩

lemma mono (hstart : s.Leads start start') (h : Took s start' todo log todo') : Took s start todo log todo' :=
  ⟨h.captured, h.regions, h.strays, h.meetings, h.blocks,
    fun e he => ⟨(h.entries e he).1, hstart.trans (h.entries e he).2⟩⟩

lemma noteStop (h : Took s start todo log todo') (stop next : Option BlockId) :
    Took s start todo log (todo'.noteStop stop next) :=
  ⟨h.captured, h.regions, h.strays.trans (List.suffix_append _ _), h.meetings, h.blocks, h.entries⟩

lemma meet (h : Took s start todo log todo') (kept dropped : Stack) :
    Took s start todo log (todo'.meet kept dropped) :=
  ⟨h.captured, h.regions, h.strays, h.meetings.trans (List.suffix_cons _ _), h.blocks, h.entries⟩

lemma land (h : Took s start todo log todo') (scope : Scope) (id : BlockId) (stack : Stack) :
    Took s start todo log (todo'.land scope id stack) :=
  ⟨h.captured, h.regions, h.strays, h.meetings.trans (List.suffix_append _ _), h.blocks, h.entries⟩

lemma visit {id : BlockId} (hopen : todo.isOpen id = true) {e : Entry} (he : e.Valid s) (hid : e.block = id)
    (hstart : s.Leads start id) : Took s start todo [e] (todo.visit id) := by
  refine ⟨rfl, rfl, List.suffix_rfl, List.suffix_rfl, ?_, ?_⟩
  · have hmem : id ∈ todo.blocks := by simpa [Todo.isOpen] using hopen
    simpa [hid, Todo.visit] using List.perm_cons_erase hmem
  · simpa [hid] using ⟨he, hstart⟩

/-- The log of an arm that is written twice. -/
lemma share {sw target : BlockId} (hshares : SwitchShares s.graph sw target) (h : Took s target todo log todo') :
    Took s target todo (log.map (·.share (sw, target))) todo' := by
  refine ⟨h.captured, h.regions, h.strays, h.meetings, ?_, ?_⟩
  · rw [List.map_map]
    exact h.blocks
  · rintro _ hmem
    obtain ⟨e, he, rfl⟩ := List.mem_map.mp hmem
    obtain ⟨hvalid, hleads⟩ := h.entries e he
    exact ⟨⟨hvalid.run, List.forall_mem_cons.mpr ⟨⟨hshares, hleads⟩, hvalid.shared⟩⟩, hleads⟩

end Took

namespace Setting

variable {s : Setting}

/-- A walk from `id` took the blocks of a log, whose statements are the leaves of the result. -/
def Logged (s : Setting) (id : BlockId) (todo : Todo) (p : Progress) (todo' : Todo) : Prop :=
  ∃ log, Took s id todo log todo' ∧ leavesEach p.stmts ~ log.flatMap Entry.copies ∧
    ∀ n, p.next = some n → s.Leads id n

/-- The walks of a walker are logged. -/
def Logs (s : Setting) (w : Walker) : Prop :=
  ∀ scope entering id stack todo p todo', todo.captured = [] → todo.regions = [] →
    w scope entering id stack todo = .ok (p, todo') → s.Logged id todo p todo'

lemma leads_of_mem_succs {id n : BlockId} {b : Block} (hb : s.graph.block? id = some b) (hn : n ∈ b.succs) :
    s.Leads id n := by
  refine .single (.inl ?_)
  rw [FlowGraph.successors_of_block? hb]
  exact FlowGraph.mem_successors_iff.mpr (.inl hn)

lemma leads_of_forwardReach {todo : Todo} {scope : Scope} {a b : BlockId}
    (h : b ∈ todo.forwardReach s.graph scope a) : s.Leads a b := by
  rw [Todo.forwardReach] at h
  split at h
  · obtain ⟨_, hstart, hpath⟩ := exists_of_mem_reach h
    rw [List.mem_singleton.mp hstart] at hpath
    have hle : Along (todo.forward s.graph scope) ≤ s.GoesOn := fun c d hd => .inl (mem_successors_of_mem_forward hd)
    exact ReflTransGen.mono hle a b hpath
  · cases h

/-! ### Branches -/

/-- A bare test leaves an entry without statements. -/
lemma IsBareTest.entry {todo : Todo} {id : BlockId} {stack : Stack} {cond : Condition} {taken fall : BlockId}
    {left : Stack} (h : s.IsBareTest todo id stack cond taken fall left) (hcap : todo.captured = []) :
    (Entry.mk id [] []).Valid s ∧ s.Leads id taken ∧ s.Leads id fall := by
  obtain ⟨b, r, hr, hsuccs, -, hstmts, -⟩ := h.runs
  refine ⟨⟨⟨b, stack, r, hr.block, ?_, hstmts⟩, nofun⟩, ?_, ?_⟩
  · simpa [hcap] using hr.run
  · exact leads_of_mem_succs hr.block (by simp [hsuccs])
  · exact leads_of_mem_succs hr.block (by simp [hsuccs])

/-- The tests that a condition takes in are logged without statements. -/
lemma MergesAll.took {id : BlockId} {stack : Stack} {todo todo' : Todo} {fork fork' : Fork}
    (h : s.MergesAll stack todo fork todo' fork') (hcap : todo.captured = []) (htaken : s.Leads id fork.taken)
    (hfall : s.Leads id fork.fall) :
    ∃ log, Took s id todo log todo' ∧ log.flatMap Entry.copies = [] ∧
      s.Leads id fork'.taken ∧ s.Leads id fork'.fall := by
  induction h with
  | done todo fork => exact ⟨[], .refl _ _, rfl, htaken, hfall⟩
  | @next todo todo' fork fork₁ fork' left head rest ih =>
    obtain ⟨hentry, hfall₁⟩ : (Entry.mk fork.fall [] []).Valid s ∧ s.Leads fork.fall fork₁.fall := by
      obtain ⟨cond, ⟨htest, -⟩ | ⟨htest, -⟩⟩ := head.test
      · exact ⟨(htest.entry hcap).1, (htest.entry hcap).2.2⟩
      · exact ⟨(htest.entry hcap).1, (htest.entry hcap).2.1⟩
    obtain ⟨log, htook, hcopies, hleads⟩ := ih hcap (head.taken ▸ htaken) (hfall.trans hfall₁)
    have hvisit := (Took.visit head.isOpen hentry rfl hfall).meet stack left
    exact ⟨_ :: log, hvisit.trans htook, by simp [hcopies], hleads⟩

variable {w : Walker} (hw : s.Logs w) {scope : Scope} {id : BlockId} {stack : Stack} {todo todo' : Todo} {p : Progress}

lemma leaves_jump? {jump : Stmt} {target : BlockId} (h : scope.jump? s.graph target = .ok (some jump)) :
    jump.leaves = [] := by
  simp only [Scope.jump?] at h
  split_ifs at h <;> cases h <;> rfl

lemma leaves_ifStmt (cond negated : Expr) (thenBody elseBody : List Stmt) :
    (ifStmt cond negated thenBody elseBody).leaves = leavesEach thenBody ++ leavesEach elseBody := by
  unfold ifStmt
  split_ifs with helse hthen
  · simp [List.isEmpty_iff.mp helse]
  · simp [List.isEmpty_iff.mp hthen]
  · rfl

include hw

lemma logged_emitArm {cond : Expr} {arm join : BlockId} (hcap : todo.captured = []) (hreg : todo.regions = [])
    (harm : s.Leads id arm) (hjoin : s.Leads id join)
    (h : emitArm w scope stack cond arm join todo = .ok (p, todo')) : s.Logged id todo p todo' := by
  obtain ⟨body, todo₁, hbody, rfl, rfl⟩ := of_yields yields_emitArm h
  obtain ⟨log, htook, hperm, -⟩ := hw _ _ _ _ _ _ _ hcap hreg hbody
  refine ⟨log, ((htook.mono harm).noteStop _ _).meet _ _, by simpa using hperm, ?_⟩
  rintro _ ⟨⟩
  exact hjoin

lemma logged_emitArms {fork : Fork} {join : Option BlockId} (hcap : todo.captured = []) (hreg : todo.regions = [])
    (htaken : s.Leads id fork.taken) (hfall : s.Leads id fork.fall) (hjoin : ∀ j, join = some j → s.Leads id j)
    (h : emitArms w scope stack fork join todo = .ok (p, todo')) : s.Logged id todo p todo' := by
  obtain ⟨thenArm, todo₁, elseArm, todo₂, hthen, helse, hp⟩ := of_yields yields_emitArms h
  obtain ⟨log₁, htook₁, hperm₁, hnext₁⟩ := hw _ _ _ _ _ _ _ hcap hreg hthen
  obtain ⟨log₂, htook₂, hperm₂, hnext₂⟩ :=
    hw _ _ _ _ _ _ _ (htook₁.captured.trans hcap) (htook₁.regions.trans hreg) helse
  have htook := (htook₁.mono hfall).trans (htook₂.mono htaken)
  have hperm : leavesEach thenArm.stmts ++ leavesEach elseArm.stmts ~ (log₁ ++ log₂).flatMap Entry.copies := by
    rw [List.flatMap_append]
    exact hperm₁.append hperm₂
  obtain ⟨j, merged, rfl, hchoice, rfl, rfl⟩ | ⟨next, kept, rfl, rfl, rfl, rfl⟩ := hp
  · -- a choice of values, whose arms have no statements
    refine ⟨_, htook.meet _ _, ?_, fun n hn => hjoin n hn⟩
    obtain ⟨v, below, w, below', rfl, rfl, -⟩ := choice?_eq_some hchoice
    simpa using hperm
  · refine ⟨_, ((htook.noteStop _ _).noteStop _ _).meet _ _, by simpa [leaves_ifStmt] using hperm, fun n hn => ?_⟩
    rcases Option.or_eq_some_iff.mp hn with hn | ⟨-, hn⟩
    · exact hjoin n hn
    · rcases Option.or_eq_some_iff.mp hn with hn | ⟨-, hn⟩
      · exact hfall.trans (hnext₁ n hn)
      · exact htaken.trans (hnext₂ n hn)

lemma logged_forked {fork : Fork} (hcap : todo.captured = []) (hreg : todo.regions = [])
    (htaken : s.Leads id fork.taken) (hfall : s.Leads id fork.fall)
    (h : s.Forked w scope stack fork todo p todo') : s.Logged id todo p todo' := by
  cases h with
  | bothJump taken fall ht hf =>
    exact ⟨[], ((Took.refl _ _).land _ _ _).land _ _ _, by simp [leaves_jump? ht, leaves_jump? hf], nofun⟩
  | takenJumps taken ht =>
    refine ⟨[], (Took.refl _ _).land _ _ _, by simp [leaves_jump? ht], ?_⟩
    rintro _ ⟨⟩
    exact hfall
  | fallJumps fall hf =>
    refine ⟨[], (Took.refl _ _).land _ _ _, by simp [leaves_jump? hf], ?_⟩
    rintro _ ⟨⟩
    exact htaken
  | thenOnly h => exact logged_emitArm hw hcap hreg hfall htaken h
  | elseOnly h => exact logged_emitArm hw hcap hreg htaken hfall h
  | arms h =>
    refine logged_emitArms hw hcap hreg htaken hfall (fun j hj => ?_) h
    exact hfall.trans (leads_of_forwardReach (List.mem_of_mem_filter (mem_of_leastBy? hj)))

omit hw

/-! ### Switches -/

/-- Whether some case of a switch has the target. -/
def hasCase (edges : SwitchEdges) (target : BlockId) : Bool :=
  edges.cases.any (·.2 == target)

/-- The leaves that the arm of a target contributes. -/
def armLeaves (edges : SwitchEdges) (arm : BlockId × List Stmt) : List Stmt :=
  (if hasCase edges arm.1 then leavesEach arm.2 else []) ++
    (if edges.default == some arm.1 then leavesEach arm.2 else [])

/-- All cases of a target but the last are empty. -/
lemma leaves_casesOf (edges : SwitchEdges) (target : BlockId) (body : List Stmt) :
    (casesOf edges target body).flatMap (fun case => leavesEach case.2) =
      if hasCase edges target then leavesEach body else [] := by
  have hkeys : hasCase edges target = !((edges.cases.filter (·.2 == target)).map Prod.fst).isEmpty := by
    rw [hasCase, Bool.eq_iff_iff]
    simp [List.filter_eq_nil_iff]
  rw [casesOf, hkeys]
  generalize (edges.cases.filter (·.2 == target)).map Prod.fst = keys
  cases keys using List.reverseRecOn with
  | nil => simp
  | append_singleton keys last => simp [List.flatMap_map]

/-- The default arm is the one arm of its target. -/
lemma leaves_default {edges : SwitchEdges} {bodies : List (BlockId × List Stmt)}
    (hnd : (bodies.map Prod.fst).Nodup) :
    (((bodies.find? fun arm => edges.default == some arm.1).map Prod.snd).map leavesEach).getD [] =
      bodies.flatMap fun arm => if edges.default == some arm.1 then leavesEach arm.2 else [] := by
  induction bodies with
  | nil => rfl
  | cons arm rest ih =>
    rw [List.map_cons, List.nodup_cons] at hnd
    rw [List.find?_cons, List.flatMap_cons]
    by_cases hdefault : edges.default = some arm.1
    · have hrest : (rest.flatMap fun arm => if edges.default == some arm.1 then leavesEach arm.2 else []) = [] := by
        rw [List.flatMap_eq_nil_iff]
        rintro arm' harm'
        rw [if_neg]
        rw [hdefault, beq_iff_eq, Option.some.injEq]
        exact fun h => hnd.1 (List.mem_map.mpr ⟨arm', harm', h.symm⟩)
      rw [hrest]
      simp [hdefault]
    · simp only [beq_eq_false_iff_ne.mpr hdefault, Bool.false_eq_true, if_false, List.nil_append]
      exact ih hnd.2

lemma leaves_armsOf {edges : SwitchEdges} {bodies : List (BlockId × List Stmt)} (hnd : (bodies.map Prod.fst).Nodup) :
    leavesArms (armsOf edges bodies) ~ bodies.flatMap (armLeaves edges) := by
  have hcases : ((bodies.flatMap fun arm => casesOf edges arm.1 arm.2).flatMap fun case => leavesEach case.2) =
      bodies.flatMap fun arm => if hasCase edges arm.1 then leavesEach arm.2 else [] := by
    simp only [List.flatMap_assoc, leaves_casesOf]
  rw [armsOf, leavesArms_ofCases, hcases, leaves_default hnd]
  exact List.flatMap_append_perm _ _ _

lemma mem_targets_iff {edges : SwitchEdges} {target : BlockId} :
    target ∈ edges.targets ↔ edges.default = some target ∨ hasCase edges target = true := by
  simp only [SwitchEdges.targets, List.mem_eraseDups, List.mem_append, Option.mem_toList, List.mem_map, hasCase,
    List.any_eq_true, beq_iff_eq]

/-- An arm contributes its leaves once, or twice where its target is shared. -/
lemma armLeaves_perm {b : Block} {edges : SwitchEdges} {target : BlockId} (hb : s.graph.block? id = some b)
    (hswitch : b.switch = some edges) (htarget : target ∈ edges.targets) {body : List Stmt} {log : List Entry}
    (htook : Took s target todo log todo') (hperm : leavesEach body ~ log.flatMap Entry.copies) :
    ∃ log', Took s target todo log' todo' ∧ armLeaves edges (target, body) ~ log'.flatMap Entry.copies := by
  by_cases hdefault : edges.default = some target
  · by_cases hcase : hasCase edges target = true
    · obtain ⟨⟨key, _⟩, hkey, htarget'⟩ := List.any_eq_true.mp hcase
      obtain rfl : _ = target := by simpa using htarget'
      refine ⟨_, htook.share ⟨b, edges, key, hb, hswitch, hdefault, hkey⟩, ?_⟩
      simp only [armLeaves, hcase, hdefault, List.flatMap_map, Entry.copies_share, beq_self_eq_true, if_true]
      exact (hperm.append hperm).trans (List.flatMap_append_perm _ _ _)
    · exact ⟨log, htook, by simpa [armLeaves, hcase, hdefault] using hperm⟩
  · have hcase := (mem_targets_iff.mp htarget).resolve_left hdefault
    exact ⟨log, htook, by simpa [armLeaves, hcase, hdefault] using hperm⟩

lemma leads_of_mem_targets {b : Block} {edges : SwitchEdges} {target : BlockId} (hb : s.graph.block? id = some b)
    (hswitch : b.switch = some edges) (htarget : target ∈ edges.targets) : s.Leads id target := by
  refine .single (.inl ?_)
  rw [FlowGraph.successors_of_block? hb]
  exact FlowGraph.mem_successors_iff.mpr (.inr ⟨edges, hswitch, htarget⟩)

include hw in
lemma logged_emitBodies {b : Block} {edges : SwitchEdges} (hb : s.graph.block? id = some b)
    (hswitch : b.switch = some edges) {exit : Option BlockId} {targets : List BlockId}
    (htargets : ∀ target ∈ targets, target ∈ edges.targets) {bodies : List (BlockId × List Stmt)}
    (hcap : todo.captured = []) (hreg : todo.regions = [])
    (h : emitBodies w scope exit stack targets todo = .ok (bodies, todo')) :
    bodies.map Prod.fst = targets ∧
      ∃ log, Took s id todo log todo' ∧ bodies.flatMap (armLeaves edges) ~ log.flatMap Entry.copies := by
  induction targets generalizing todo bodies with
  | nil =>
    cases h
    exact ⟨rfl, [], .refl _ _, .refl _⟩
  | cons target rest ih =>
    obtain ⟨htarget, hrest⟩ := List.forall_mem_cons.mp htargets
    obtain ⟨body, todo₁, bodies', hbody, hbodies, rfl⟩ := of_yields yields_emitBodies_cons h
    obtain ⟨log₁, htook₁, hperm₁, -⟩ := hw _ _ _ _ _ _ _ hcap hreg hbody
    obtain ⟨log₁', htook₁', hperm₁'⟩ := armLeaves_perm hb hswitch htarget htook₁ hperm₁
    have hfirst := (htook₁'.mono (leads_of_mem_targets hb hswitch htarget)).noteStop body.next rest.head?
    obtain ⟨hfst, log₂, htook₂, hperm₂⟩ :=
      ih hrest (hfirst.captured.trans hcap) (hfirst.regions.trans hreg) hbodies
    refine ⟨by simp [hfst], _, hfirst.trans htook₂, ?_⟩
    rw [List.flatMap_cons, List.flatMap_append]
    exact hperm₁'.append hperm₂

/-- A multi-way branch goes on with one of its targets, or with a block that has been found from one. -/
lemma reached_of_switchExit {g : FlowGraph} {edges : SwitchEdges} {exit : BlockId}
    (h : todo.switchExit g scope edges (ascending edges.targets) = some exit) :
    exit ∈ edges.targets ∨ ∃ target ∈ edges.targets, exit ∈ todo.forwardReach g scope target := by
  rcases Option.or_eq_some_iff.mp h with h | ⟨-, h⟩
  · exact .inl (mem_targets_iff.mpr (.inl (Option.filter_eq_some_iff.mp h).1))
  · -- the block has been found from two targets, hence from one
    have hbehind := (List.mem_filter.mp (mem_of_leastBy? h)).2
    simp only [Bool.and_eq_true, decide_eq_true_eq] at hbehind
    obtain ⟨⟨target, found⟩, hmem, hfound⟩ := List.countP_pos_iff.mp (Nat.lt_of_lt_of_le Nat.zero_lt_two hbehind.2)
    obtain ⟨target', htarget, heq⟩ := List.mem_map.mp hmem
    cases heq
    exact .inr ⟨target, mem_ascending.mp htarget, by simpa using hfound⟩

lemma leads_of_switchExit {b : Block} {edges : SwitchEdges} (hb : s.graph.block? id = some b)
    (hswitch : b.switch = some edges) {exit : BlockId}
    (h : todo.switchExit s.graph scope edges (ascending edges.targets) = some exit) : s.Leads id exit := by
  obtain htarget | ⟨target, htarget, hfound⟩ := reached_of_switchExit h
  · exact leads_of_mem_targets hb hswitch htarget
  · exact (leads_of_mem_targets hb hswitch htarget).trans (leads_of_forwardReach hfound)

include hw in
lemma logged_emitSwitch {selector : Expr} (hcap : todo.captured = []) (hreg : todo.regions = [])
    (h : s.emitSwitch w scope id selector stack todo = .ok (p, todo')) : s.Logged id todo p todo' := by
  obtain ⟨b, edges, bodies, exit, hb, hswitch, rfl, hbodies, rfl⟩ := of_yields yields_emitSwitch h
  have htargets : ∀ target ∈ (ascending edges.targets).filter fun target =>
      some target != todo.switchExit s.graph scope edges (ascending edges.targets), target ∈ edges.targets :=
    fun target h => mem_ascending.mp (List.mem_of_mem_filter h)
  obtain ⟨hfst, log, htook, hperm⟩ := logged_emitBodies hw hb hswitch htargets hcap hreg hbodies
  refine ⟨log, htook, ?_, fun n hn => leads_of_switchExit hb hswitch hn⟩
  have hnd : (bodies.map Prod.fst).Nodup := hfst ▸ (nodup_ascending _).filter _
  simpa using (leaves_armsOf hnd).trans hperm

/-! ### Loops -/

lemma leavesEach_dropContinue (body : List Stmt) : leavesEach (dropContinue body) = leavesEach body := by
  unfold dropContinue
  split
  · rename_i hlast
    conv_rhs => rw [← List.dropLast_append_getLast? _ hlast]
    simp [Stmt.leaves]
  · rfl

include hw in
lemma logged_emitLoop {loop : Loop} (hloop : loop ∈ s.loops) (hcap : todo.captured = []) (hreg : todo.regions = [])
    (hopen : todo.isOpen loop.header = true)
    (h : s.emitLoop w scope loop stack todo = .ok (p, todo')) : s.Logged loop.header todo p todo' := by
  have hexit : ∀ n, loop.exit = some n → s.Leads loop.header n := fun n hn => .single (.inr ⟨loop, hloop, rfl, hn⟩)
  obtain ⟨cond, entry, left, body, htest, hbody, rfl⟩ | ⟨body, hbody, rfl⟩ := of_yields yields_emitLoop h
  · obtain ⟨hentry, hleads⟩ : (Entry.mk loop.header [] []).Valid s ∧ s.Leads loop.header entry := by
      obtain ⟨c, exit, -, ⟨htest, -⟩ | ⟨htest, -⟩⟩ := htest
      · exact ⟨(htest.entry hcap).1, (htest.entry hcap).2.1⟩
      · exact ⟨(htest.entry hcap).1, (htest.entry hcap).2.2⟩
    have hvisit := (Took.visit hopen hentry rfl .refl).meet stack left
    obtain ⟨log, htook, hperm, -⟩ :=
      hw _ _ _ _ _ _ _ (hvisit.captured.trans hcap) (hvisit.regions.trans hreg) hbody
    refine ⟨_, hvisit.trans (htook.mono hleads), ?_, hexit⟩
    simpa [leavesEach_dropContinue] using hperm
  · obtain ⟨log, htook, hperm, -⟩ := hw _ _ _ _ _ _ _ hcap hreg hbody
    exact ⟨log, htook, by simpa [leavesEach_dropContinue] using hperm, hexit⟩

/-! ### The walk -/

include hw in
lemma logged_exited {b : Block} {r : Recovered} (hb : s.graph.block? id = some b) (hcap : todo.captured = [])
    (hreg : todo.regions = []) (h : s.Exited w scope b id r todo p todo') : s.Logged id todo p todo' := by
  cases h with
  | switch h => exact logged_emitSwitch hw hcap hreg h
  | fork hexit hsuccs hmerges h =>
    obtain ⟨log₁, htook₁, hcopies, htaken, hfall⟩ := hmerges.took hcap
      (leads_of_mem_succs hb (by simp [hsuccs])) (leads_of_mem_succs hb (by simp [hsuccs]))
    obtain ⟨log₂, htook₂, hperm, hnext⟩ := logged_forked hw (htook₁.captured.trans hcap) (htook₁.regions.trans hreg)
      htaken hfall h
    refine ⟨_, htook₁.trans htook₂, ?_, hnext⟩
    rw [List.flatMap_append, hcopies]
    exact hperm
  | leave hsuccs => exact ⟨[], .refl _ _, .refl _, nofun⟩
  | goOn hsuccs =>
    refine ⟨[], .refl _ _, .refl _, ?_⟩
    rintro _ ⟨⟩
    exact leads_of_mem_succs hb (by simp [hsuccs])

include hw in
lemma logged_emitBlock (hcap : todo.captured = []) (hreg : todo.regions = []) (hopen : todo.isOpen id = true)
    (h : s.emitBlock w scope id stack todo = .ok (p, todo')) : s.Logged id todo p todo' := by
  obtain ⟨b, r, tail, hr, hexited, rfl⟩ := of_yields yields_emitBlock h
  have hcap' : (todo.visit id).captured = [] := hcap
  have hrun : run s.context b.body stack = .ok r := by simpa [hcap'] using hr.run
  have hentry : (Entry.mk id r.stmts []).Valid s := ⟨⟨b, stack, r, hr.block, hrun, rfl⟩, nofun⟩
  obtain ⟨log, htook, hperm, hnext⟩ := logged_exited hw hr.block hcap' hreg hexited
  refine ⟨_, (Took.visit hopen hentry rfl .refl).trans htook, ?_, hnext⟩
  simpa [leavesEach_eq_self (proper_of_run hrun).leaf] using hperm.append_left r.stmts

include hw in
lemma logged_emitConstruct (hcap : todo.captured = []) (hreg : todo.regions = []) (hopen : todo.isOpen id = true)
    (h : s.emitConstruct w scope id stack todo = .ok (p, todo')) : s.Logged id todo p todo' := by
  obtain ⟨region, hregion, -⟩ | ⟨loop, hloop, rfl, -, -, h⟩ | ⟨-, h⟩ := of_yields yields_emitConstruct h
  · rw [hreg] at hregion
    cases hregion
  · exact logged_emitLoop hw hloop hcap hreg hopen h
  · exact logged_emitBlock hw hcap hreg hopen h

omit w scope id stack todo todo' p in
/-- **Every walk is logged.** By induction on the number of its steps. -/
lemma logs_walk (fuel : Nat) : s.Logs (s.walk fuel) := by
  induction fuel with
  | zero => exact fun _ _ _ _ _ _ _ _ _ h => by cases h
  | succ fuel ih =>
    intro scope entering id stack todo p todo' hcap hreg h
    cases of_yields yields_walk h with
    | jump hentering hjump => exact ⟨[], (Took.refl _ _).land _ _ _, by simp [leaves_jump? hjump], nofun⟩
    | stop hstop =>
      refine ⟨[], .refl _ _, .refl _, ?_⟩
      rintro _ ⟨⟩
      exact .refl
    | last hopen hfirst hnext => exact logged_emitConstruct ih hcap hreg hopen hfirst
    | more hopen hfirst hnext hrest =>
      obtain ⟨log₁, htook₁, hperm₁, hnext₁⟩ := logged_emitConstruct ih hcap hreg hopen hfirst
      obtain ⟨log₂, htook₂, hperm₂, hnext₂⟩ :=
        ih _ _ _ _ _ _ _ (htook₁.captured.trans hcap) (htook₁.regions.trans hreg) hrest
      have hstart := hnext₁ _ hnext
      refine ⟨_, htook₁.trans (htook₂.mono hstart), ?_, fun n hn => hstart.trans (hnext₂ n hn)⟩
      rw [leavesEach_append, List.flatMap_append]
      exact hperm₁.append hperm₂

end Setting

/-! ### Main statement -/

/-- The setting and the first state of a walk over code without handlers. -/
lemma regions_ofCode {code : Code} (h : code.handlers = []) : (CodeShape.ofCode code).regions = [] := by
  simp [CodeShape.ofCode, Region.ofTable, h]

/-- A context without a pool, in which variables have the numbers of their slots. -/
def numberedContext : Context :=
  { method := "m", names := Naming.numbered }

lemma exists_ok_of_any {ε α : Type} {x : Except ε α} {p : α → Bool} (h : x.toOption.any p = true) :
    ∃ a, x = .ok a ∧ p a = true := by
  cases x with
  | error e => cases h
  | ok a => exact ⟨a, rfl, h⟩

end JvmLift.Structure
