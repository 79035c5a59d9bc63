import Mathlib
import JvmLift.Proofs.BlockRuns
import JvmLift.Proofs.Simulation

/-!
# Layouts

A walk over code without handlers lays out an outline that follows the graph, multi-way branches included, whatever the
blocks leave on the stack. Two things can go wrong. An arm may stop at a block that belongs to a construct further out:
these are the strays of a walk. And the default arm is written last, wherever its target stands in the code. An arm that
falls through to the default, or a default that falls through to an arm, then falls through to something else, unless
the target of the default is the last one.
-/

namespace JvmLift.Structure

open Bytecode JvmLift.Flow Recovery Source Relation

/-! ### Arms -/

namespace Cases

/-- Arms with keys, and the default arm. -/
def ofList (default : Option (BlockId × List Part)) : List (Int32 × BlockId × List Part) → Cases
  | [] => default.elim .done fun arm => .default arm.1 arm.2
  | (key, target, body) :: rest => .case key target body (ofList default rest)

/-- The arm of a target with all its keys, of which the last one has the body. -/
def ofTarget (edges : SwitchEdges) (arm : BlockId × List Part) : List (Int32 × BlockId × List Part) :=
  let keys := (edges.cases.filter (·.2 == arm.1)).map Prod.fst
  keys.dropLast.map (·, arm.1, []) ++ keys.getLast?.toList.map (·, arm)

/-- The arms of the targets, and the default arm behind them. -/
def ofArms (edges : SwitchEdges) (arms : List (BlockId × List Part)) : Cases :=
  .ofList (arms.find? fun arm => edges.default == some arm.1) (arms.flatMap (ofTarget edges))

variable {default : Option (BlockId × List Part)} {edges : SwitchEdges} {exit : Option BlockId}

lemma arms_ofList (cases : List (Int32 × BlockId × List Part)) : (ofList default cases).arms =
    .ofCases (default.map fun arm => written arm.2) (cases.map fun x => (x.1, written x.2.2)) := by
  induction cases with
  | nil => cases default <;> rfl
  | cons x rest ih => simp only [ofList, arms, ih, List.map_cons, Arms.ofCases]

lemma arms_ofArms (edges : SwitchEdges) (arms : List (BlockId × List Part)) : (ofArms edges arms).arms =
    Setting.armsOf edges (arms.map fun arm => (arm.1, written arm.2)) := by
  have htarget (arm : BlockId × List Part) : (ofTarget edges arm).map (fun x => (x.1, written x.2.2)) =
      Setting.casesOf edges arm.1 (written arm.2) := by
    simp [ofTarget, Setting.casesOf, Function.comp_def]
  rw [ofArms, arms_ofList, Setting.armsOf, List.find?_map, Option.map_map, List.flatMap_map, List.map_flatMap]
  simp only [htarget]
  rfl

lemma valid_ofList {s : Setting} (hdefault : ∀ arm ∈ default, ValidEach s arm.2) :
    ∀ {cases : List (Int32 × BlockId × List Part)}, (∀ x ∈ cases, ValidEach s x.2.2) → (ofList default cases).Valid s
  | [], _ => by
    cases default with
    | none => trivial
    | some arm => exact hdefault arm rfl
  | _ :: _, h => by
    obtain ⟨hx, hrest⟩ := List.forall_mem_cons.mp h
    exact ⟨hx, valid_ofList hdefault hrest⟩

lemma valid_ofArms {s : Setting} {arms : List (BlockId × List Part)} (h : ∀ arm ∈ arms, ValidEach s arm.2) :
    (ofArms edges arms).Valid s := by
  refine valid_ofList (fun arm harm => h arm (List.mem_of_find?_eq_some harm)) fun x hx => ?_
  obtain ⟨arm, harm, hx⟩ := List.mem_flatMap.mp hx
  rcases List.mem_append.mp hx with hx | hx
  · obtain ⟨key, -, rfl⟩ := List.mem_map.mp hx
    trivial
  · obtain ⟨key, -, rfl⟩ := List.mem_map.mp hx
    exact h arm harm

@[simp] lemma keyed_ofList (cases : List (Int32 × BlockId × List Part)) :
    (ofList default cases).keyed = cases.map fun x => (x.1, x.2.1) := by
  induction cases with
  | nil => cases default <;> rfl
  | cons x rest ih => simp only [ofList, keyed, ih, List.map_cons]

lemma keyed_ofTarget (edges : SwitchEdges) (arm : BlockId × List Part) :
    (ofTarget edges arm).map (fun x => (x.1, x.2.1)) = edges.cases.filter (·.2 == arm.1) := by
  have hkeys : ∀ keys : List Int32, keys.dropLast ++ keys.getLast?.toList = keys := by
    intro keys
    cases keys using List.reverseRecOn <;> simp
  simp only [ofTarget, List.map_append, List.map_map, Function.comp_def]
  rw [← List.map_append, hkeys, List.map_map]
  refine (List.map_congr_left fun x hx => ?_).trans (List.map_id _)
  have htarget : x.2 = arm.1 := by simpa using (List.mem_filter.mp hx).2
  simp [← htarget]

lemma mem_keyed_ofArms {arms : List (BlockId × List Part)} {x : Int32 × BlockId} :
    x ∈ (ofArms edges arms).keyed ↔ x ∈ edges.cases ∧ x.2 ∈ arms.map Prod.fst := by
  rw [ofArms, keyed_ofList, List.map_flatMap]
  simp only [keyed_ofTarget, List.mem_flatMap, List.mem_filter, beq_iff_eq, List.mem_map]
  constructor
  · rintro ⟨arm, harm, hx, h⟩
    exact ⟨hx, arm, harm, h.symm⟩
  · rintro ⟨hx, arm, harm, h⟩
    exact ⟨arm, harm, hx, h.symm⟩

lemma fallback_ofList (cases : List (Int32 × BlockId × List Part)) :
    (ofList default cases).fallback exit = (default.map Prod.fst).or exit := by
  induction cases with
  | nil => cases default <;> rfl
  | cons x rest ih => exact ih

lemma map_find?_default {d : BlockId} (hd : edges.default = some d) (arms : List (BlockId × List Part)) :
    (arms.find? fun arm => edges.default == some arm.1).map Prod.fst =
      if d ∈ arms.map Prod.fst then some d else none := by
  induction arms with
  | nil => rfl
  | cons arm rest ih =>
    by_cases hdefault : d = arm.1
    · simp [hd, hdefault]
    · rw [List.find?_cons_of_neg (by simp [hd, hdefault]), ih]
      exact if_congr (by simp [hdefault]) rfl rfl

lemma start_ofList_nil : (ofList default []).start exit = (default.map Prod.fst).or exit := by
  cases default <;> rfl

lemma ofTarget_eq_nil {arm : BlockId × List Part} (h : Setting.hasCase edges arm.1 = false) :
    ofTarget edges arm = [] := by
  have hkeys : edges.cases.filter (·.2 == arm.1) = [] := by
    rw [List.filter_eq_nil_iff]
    exact List.any_eq_false.mp h
  simp [ofTarget, hkeys]

lemma exists_ofTarget_eq {arm : BlockId × List Part} (h : Setting.hasCase edges arm.1 = true) :
    ∃ (keys : List Int32) (key : Int32), ofTarget edges arm = keys.map (·, arm.1, []) ++ [(key, arm)] := by
  have hkeys : (edges.cases.filter (·.2 == arm.1)).map Prod.fst ≠ [] := by
    obtain ⟨x, hx, htarget⟩ := List.any_eq_true.mp h
    exact List.ne_nil_of_mem (List.mem_map_of_mem (List.mem_filter.mpr ⟨hx, htarget⟩))
  rw [ofTarget]
  generalize (edges.cases.filter (·.2 == arm.1)).map Prod.fst = keys at *
  cases keys using List.reverseRecOn with
  | nil => exact absurd rfl hkeys
  | append_singleton keys key => exact ⟨keys, key, by simp⟩

/-- The arm of a target is entered at the target, and all that is before its body falls through to it. -/
lemma bodies_ofTarget {arm : BlockId × List Part} (h : Setting.hasCase edges arm.1 = true)
    (more : List (Int32 × BlockId × List Part)) :
    (ofList default (ofTarget edges arm ++ more)).start exit = some arm.1 ∧
      ∀ x ∈ (ofList default (ofTarget edges arm ++ more)).bodies exit, x = ([], arm.1, some arm.1) ∨
        x = (arm.2, arm.1, (ofList default more).start exit) ∨ x ∈ (ofList default more).bodies exit := by
  obtain ⟨keys, key, heq⟩ := exists_ofTarget_eq h
  rw [heq]
  clear heq
  induction keys with
  | nil => exact ⟨rfl, fun x hx => (List.mem_cons.mp hx).elim (fun h => .inr (.inl h)) fun h => .inr (.inr h)⟩
  | cons key' keys ih =>
    exact ⟨rfl, List.forall_mem_cons.mpr ⟨.inl (congrArg (fun start => ([], arm.1, start)) ih.1), ih.2⟩⟩

end Cases

/-- Where the jumps of a scope go. -/
def Scope.jumps (scope : Scope) : Jumps :=
  ⟨scope.frames.head?.bind Frame.exit, scope.frames.findSome? Frame.header⟩

lemma Took.subset {s : Setting} {start : BlockId} {todo todo' : Todo} {log : List Entry}
    (h : Took s start todo log todo') : todo'.blocks ⊆ todo.blocks :=
  fun _ hid => h.blocks.mem_iff.mpr (List.mem_append_right _ hid)

lemma Took.nodup {s : Setting} {start : BlockId} {todo todo' : Todo} {log : List Entry}
    (h : Took s start todo log todo') (hnodup : todo.blocks.Nodup) : todo'.blocks.Nodup :=
  (List.nodup_append.mp (h.blocks.nodup_iff.mp hnodup)).2.1

namespace Setting

variable {s : Setting} {w : Walker} {scope : Scope} {id : BlockId} {stack : Stack} {todo todo' : Todo} {p : Progress}

/-! ### Ways -/

/-- There is a way from one block to another through open blocks. -/
def Through (s : Setting) (todo : Todo) : BlockId → BlockId → Prop :=
  ReflTransGen fun a b => s.GoesOn a b ∧ todo.isOpen a = true

/-- There is a way from one block to another that does not go through a third one. -/
def Around (s : Setting) (id : BlockId) : BlockId → BlockId → Prop :=
  ReflTransGen fun a b => s.GoesOn a b ∧ a ≠ id

lemma Through.mono {a b : BlockId} (h : s.Through todo' a b) (hsub : todo'.blocks ⊆ todo.blocks) :
    s.Through todo a b := by
  refine ReflTransGen.mono (fun c d hcd => ⟨hcd.1, ?_⟩) a b h
  simpa [Todo.isOpen] using hsub (by simpa [Todo.isOpen] using hcd.2)

lemma Through.around {a b : BlockId} (h : s.Through todo a b) (hid : todo.isOpen id = false) : s.Around id a b := by
  refine ReflTransGen.mono (fun c d hcd => ⟨hcd.1, ?_⟩) a b h
  rintro rfl
  cases hid.symm.trans hcd.2

lemma through_of_mem_succs {n : BlockId} {b : Block} (hopen : todo.isOpen id = true) (hb : s.graph.block? id = some b)
    (hn : n ∈ b.succs) : s.Through todo id n := by
  refine .single ⟨.inl ?_, hopen⟩
  rw [FlowGraph.successors_of_block? hb]
  exact FlowGraph.mem_successors_iff.mpr (.inl hn)

lemma through_of_mem_targets {n : BlockId} {b : Block} {edges : SwitchEdges} (hopen : todo.isOpen id = true)
    (hb : s.graph.block? id = some b) (hswitch : b.switch = some edges) (hn : n ∈ edges.targets) :
    s.Through todo id n := by
  refine .single ⟨.inl ?_, hopen⟩
  rw [FlowGraph.successors_of_block? hb]
  exact FlowGraph.mem_successors_iff.mpr (.inr ⟨edges, hswitch, hn⟩)

/-- A forward search goes through open blocks. -/
lemma through_of_forwardReach {a b : BlockId} (h : b ∈ todo.forwardReach s.graph scope a) : s.Through todo a b := by
  rw [Todo.forwardReach] at h
  split at h
  · rename_i hadmits
    obtain ⟨_, hstart, hpath⟩ := exists_of_mem_reach h
    rw [List.mem_singleton.mp hstart] at hpath
    suffices h : s.Through todo a b ∧ todo.admits scope b = true from h.1
    clear h
    induction hpath with
    | refl => exact ⟨.refl, hadmits⟩
    | @tail c d _ hcd ih =>
      obtain ⟨hthrough, hc⟩ := ih
      have hgoes : s.GoesOn c d := .inl (mem_successors_of_mem_forward hcd)
      have hopen : todo.isOpen c = true := (Bool.and_eq_true_iff.mp hc).1
      refine ⟨hthrough.tail ⟨hgoes, hopen⟩, ?_⟩
      simp only [Along, Todo.forward] at hcd
      split at hcd
      · cases hcd
      · exact (Bool.and_eq_true_iff.mp (List.mem_filter.mp hcd).2).2
  · cases h

lemma through_of_switchExit {b : Block} {edges : SwitchEdges} (hopen : todo.isOpen id = true)
    (hb : s.graph.block? id = some b) (hswitch : b.switch = some edges) {exit : BlockId} {todo₁ : Todo}
    (hsub : todo₁.blocks ⊆ todo.blocks)
    (h : todo₁.switchExit s.graph scope edges (ascending edges.targets) = some exit) : s.Through todo id exit := by
  obtain htarget | ⟨target, htarget, hfound⟩ := reached_of_switchExit h
  · exact through_of_mem_targets hopen hb hswitch htarget
  · exact (through_of_mem_targets hopen hb hswitch htarget).trans ((through_of_forwardReach hfound).mono hsub)

/-! ### Layouts -/

/-- Where the default of a multi-way branch is not the last target, it falls through to no other target, and no other
target falls through to it unless it has a key too. -/
def DefaultsApart (s : Setting) : Prop :=
  ∀ {id b edges d}, s.graph.block? id = some b → b.switch = some edges → edges.default = some d →
    (∀ t ∈ edges.targets, t ≤ d) ∨
    ∀ t ∈ edges.targets, t ≠ d → ¬ s.Around id d t ∧ (hasCase edges d = true ∨ ¬ s.Around id t d)

/-- Control does not run out of the graph: a block without edges leaves the method, and only such a block does, and a
multi-way branch has a selector and a default. -/
structure Flowing (s : Setting) : Prop where
  leaves : ∀ {id b r}, s.graph.block? id = some b → b.succs = [] → b.switch = none → s.Recovers id r →
    r.stmts.any Stmt.isExit = true
  passes : ∀ {id b r}, s.graph.block? id = some b → b.succs ≠ [] ∨ b.switch.isSome = true → s.Recovers id r →
    r.stmts.any Stmt.isExit = false
  selects : ∀ {id b r}, s.graph.block? id = some b → b.switch.isSome = true → s.Recovers id r →
    ∃ selector, r.exit = some (.switch selector)
  switch : ∀ {id b edges}, s.graph.block? id = some b → b.switch = some edges →
    b.succs = [] ∧ edges.default.isSome = true

lemma Flowing.switch_eq_none (hs : s.Flowing) {b : Block} (hb : s.graph.block? id = some b) (hsuccs : b.succs ≠ []) :
    b.switch = none := by
  rw [Option.eq_none_iff_forall_ne_some]
  exact fun edges hswitch => hsuccs (hs.switch hb hswitch).1

/-- A part of a walk is laid out as an outline that follows the graph, and it has gone on through open blocks. -/
structure Laid (s : Setting) (scope : Scope) (k : Nat) (id : BlockId) (todo : Todo) (p : Progress) (o : List Part) :
    Prop where
  stmts : p.stmts = written o
  valid : ValidEach s o
  follows : Follows s.graph scope.jumps k o id p.next
  through : ∀ n, p.next = some n → s.Through todo id n

/-- The walks of a walker that end without strays are laid out. -/
def Lays (s : Setting) (w : Walker) : Prop :=
  ∀ {scope entering id stack todo p todo'}, w scope entering id stack todo = .ok (p, todo') → Unprotected scope todo →
    todo.blocks.Nodup → todo'.strays = [] → ∃ k o, s.Laid scope k id todo p o ∧
      (scope.stops = [] → p.next = none ∧ (entering = true → k = 1))

lemma Laid.append {k k' : Nat} {mid : BlockId} {todo₁ : Todo} {q : Progress} {o o' : List Part}
    (h : s.Laid scope k id todo p o) (hnext : p.next = some mid) (h' : s.Laid scope k' mid todo₁ q o')
    (hsub : todo₁.blocks ⊆ todo.blocks) :
    s.Laid scope k id todo { q with stmts := p.stmts ++ q.stmts } (o ++ o') where
  stmts := by rw [written_append, h.stmts, h'.stmts]
  valid := validEach_append.mpr ⟨h.valid, h'.valid⟩
  follows := .append (hnext ▸ h.follows) h'.follows
  through n hn := (h.through mid hnext).trans ((h'.through n hn).mono hsub)

/-- An arm that stops nowhere else than at `next`. -/
lemma Laid.upTo {k : Nat} {stop next : Option BlockId} {o : List Part} (h : s.Laid (scope.withStop stop) k id todo p o)
    (hnext : p.next = none ∨ p.next = next) : Follows s.graph scope.jumps k o id next := by
  rcases hnext with hnext | hnext
  · exact .before next (hnext ▸ h.follows)
  · exact hnext ▸ h.follows

lemma exists_part_of_jump? {jump : Stmt} (h : scope.jump? s.graph id = .ok (some jump)) :
    ∃ part : Part, part.stmts = [jump] ∧ part.Valid s ∧ ∀ next, Follows s.graph scope.jumps 0 [part] id next := by
  simp only [Scope.jump?] at h
  split_ifs at h with hbreak hcontinue
  · cases h
    refine ⟨.breakOut, rfl, trivial, fun next => .broken next ?_⟩
    cases hframe : scope.frames.head? with
    | none => simp [hframe] at hbreak
    | some frame => simpa [Scope.jumps, hframe] using hbreak
  · cases h
    exact ⟨.continueLoop, rfl, trivial, fun next => .continued next (beq_iff_eq.mp hcontinue)⟩
  · cases h

lemma recovers_of_runsTo {b : Block} {r : Recovered} (h : s.RunsTo todo id stack b r) (hcap : todo.captured = []) :
    s.Recovers id r :=
  ⟨b, stack, 0, h.block, by simpa [hcap] using h.run, .inl rfl⟩

/-! ### Branches -/

/-- A block with a branch at its end: what it was recovered as, and a condition with the blocks that make its tests and
with ways to where it leads. -/
structure Branching (s : Setting) (todo : Todo) (id : BlockId) (r : Recovered) (fork : Fork) (cond : Guard) : Prop where
  block : ∃ b, Passable s.graph id r.stmts b
  recovers : s.Recovers id r
  first : cond.first = id
  expr : cond.expr = fork.cond
  leads : cond.LeadsTo s.graph fork.taken fork.fall
  valid : cond.Valid s
  taken : s.Through todo id fork.taken
  fall : s.Through todo id fork.fall

variable {r : Recovered} {fork : Fork} {cond : Guard}

/-- A condition that takes in the test behind it leads to the right blocks. -/
lemma Branching.merge (hs : s.Flowing) {fork' : Fork} {left : Stack} {todo₁ : Todo}
    (h : s.Branching todo id r fork cond) (hmerges : s.Merges stack todo₁ fork fork' left) (hcap : todo₁.captured = [])
    (hsub : todo₁.blocks ⊆ todo.blocks) : ∃ cond', s.Branching todo id r fork' cond' := by
  have hopen : todo.isOpen fork.fall = true := by
    have hmem : fork.fall ∈ todo₁.blocks := by simpa [Todo.isOpen] using hmerges.isOpen
    simpa [Todo.isOpen] using hsub hmem
  -- the second test holds with the outcome `sense`
  have hmerge (sense : Bool) {c : Condition} {b : Block} {r' : Recovered} (hr : s.RunsTo todo₁ fork.fall stack b r')
      (hsuccs : b.succs = if sense then [fork.taken, fork'.fall] else [fork'.fall, fork.taken])
      (hexit : r'.exit = some (.conditional c)) (hstmts : r'.stmts = [])
      (hcond : fork'.cond = .binary .or fork.cond (c.on sense)) : ∃ cond', s.Branching todo id r fork' cond' := by
    have hmem : fork'.fall ∈ b.succs := by cases sense <;> simp [hsuccs]
    have hswitch := hs.switch_eq_none hr.block (List.ne_nil_of_mem hmem)
    refine ⟨.orElse cond fork.fall c sense, h.block, h.recovers, h.first, ?_, ⟨?_, b, hr.block, hswitch, ?_⟩,
      ⟨h.valid, r', recovers_of_runsTo hr hcap, hexit, hstmts⟩, ?_, ?_⟩
    · rw [Guard.expr, h.expr, hcond]
    · exact hmerges.taken ▸ h.leads
    · exact hmerges.taken ▸ hsuccs
    · exact hmerges.taken ▸ h.taken
    · exact h.fall.trans (through_of_mem_succs hopen hr.block hmem)
  obtain ⟨c, ⟨⟨b, r', hr, hsuccs, hexit, hstmts, -⟩, hcond⟩ | ⟨⟨b, r', hr, hsuccs, hexit, hstmts, -⟩, hcond⟩⟩ :=
    hmerges.test
  · exact hmerge true hr hsuccs hexit hstmts hcond
  · exact hmerge false hr hsuccs hexit hstmts hcond

lemma MergesAll.branching (hs : s.Flowing) {fork' : Fork} {todo₁ : Todo}
    (h : s.MergesAll stack todo₁ fork todo' fork') (hbranching : s.Branching todo id r fork cond)
    (hcap : todo₁.captured = []) (hsub : todo₁.blocks ⊆ todo.blocks) :
    (∃ cond', s.Branching todo id r fork' cond') ∧ todo'.blocks ⊆ todo.blocks := by
  induction h generalizing cond with
  | done todo₁ fork => exact ⟨⟨cond, hbranching⟩, hsub⟩
  | next head _ ih =>
    obtain ⟨cond', hbranching'⟩ := hbranching.merge hs head hcap hsub
    exact ih hbranching' hcap (fun n hn => hsub (List.mem_of_mem_erase hn))

lemma MergesAll.nodup {fork' : Fork} (h : s.MergesAll stack todo fork todo' fork') (hnodup : todo.blocks.Nodup) :
    todo'.blocks.Nodup := by
  induction h with
  | done todo fork => exact hnodup
  | next _ _ ih => exact ih (hnodup.erase _)

/-- A block with a branch at its end and the arms of the branch. -/
lemma Branching.laid (h : s.Branching todo id r fork cond) (part : Part) {taken fall : List Part} {k k' : Nat}
    (hpart : part.branch? = some (cond, taken, fall)) (hvalid : part.Valid s) {next : Option BlockId}
    (htaken : Follows s.graph scope.jumps k taken fork.taken next)
    (hfall : Follows s.graph scope.jumps k' fall fork.fall next) (hthrough : ∀ n, next = some n → s.Through todo id n)
    (stack : Stack) :
    s.Laid scope 1 id todo { stmts := r.stmts ++ part.stmts, next, stack } [.block id r.stmts, part] where
  stmts := by simp [Part.stmts]
  valid := ⟨⟨r, h.recovers, rfl⟩, hvalid, trivial⟩
  follows := by
    obtain ⟨b, hb⟩ := h.block
    obtain rfl := h.first
    exact .fork hb hpart h.leads htaken hfall
  through := hthrough

/-- A branch with an arm for one outcome. -/
lemma Branching.laid_ifThen (h : s.Branching todo id r fork cond) (sense : Bool) (arm : List Part) {k : Nat}
    (hvalid : ValidEach s arm)
    (harm : Follows s.graph scope.jumps k arm (if sense then fork.taken else fork.fall)
      (some (if sense then fork.fall else fork.taken))) (stack : Stack) :
    s.Laid scope 1 id todo
      { stmts := r.stmts ++ [.ifThen (if sense then fork.cond else fork.cond.negate) (written arm)]
        next := some (if sense then fork.fall else fork.taken)
        stack } [.block id r.stmts, .ifThen cond sense arm] := by
  rw [← h.expr]
  cases sense with
  | false =>
    refine h.laid (.ifThen cond false arm) rfl ⟨h.valid, hvalid⟩ (.nil _ _) harm ?_ stack
    rintro _ ⟨⟩
    exact h.taken
  | true =>
    refine h.laid (.ifThen cond true arm) rfl ⟨h.valid, hvalid⟩ harm (.nil _ _) ?_ stack
    rintro _ ⟨⟩
    exact h.fall

variable (hlays : s.Lays w) (hlogs : s.Logs w) {todo₁ : Todo}

include hlays in
lemma laid_emitArm (h : s.Branching todo id r fork cond) (sense : Bool) (hun : Unprotected scope todo₁)
    (hnodup : todo₁.blocks.Nodup)
    (harm : emitArm w scope stack (if sense then fork.cond else fork.cond.negate)
      (if sense then fork.taken else fork.fall) (if sense then fork.fall else fork.taken) todo₁ = .ok (p, todo'))
    (hstrays : todo'.strays = []) :
    ∃ o, s.Laid scope 1 id todo { p with stmts := r.stmts ++ p.stmts } o := by
  obtain ⟨body, todo₂, hbody, rfl, rfl⟩ := of_yields yields_emitArm harm
  obtain ⟨hstrays, hnext⟩ := Todo.strays_noteStop hstrays
  obtain ⟨k, o, hlaid, -⟩ := hlays hbody ⟨hun.ranges, hun.regions, hun.captured⟩ hnodup hstrays
  have hlaid' := h.laid_ifThen sense o hlaid.valid (hlaid.upTo hnext) (body.stackOr stack)
  rw [← hlaid.stmts] at hlaid'
  exact ⟨_, hlaid'⟩

include hlays hlogs in
lemma laid_emitArms (h : s.Branching todo id r fork cond) {join : Option BlockId} (hun : Unprotected scope todo₁)
    (hnodup : todo₁.blocks.Nodup) (hsub : todo₁.blocks ⊆ todo.blocks)
    (hjoin : ∀ j, join = some j → s.Through todo id j)
    (harms : emitArms w scope stack fork join todo₁ = .ok (p, todo')) (hstrays : todo'.strays = []) :
    ∃ o, s.Laid scope 1 id todo { p with stmts := r.stmts ++ p.stmts } o := by
  obtain ⟨thenArm, todo₂, elseArm, todo₃, hthen, helse, hp⟩ := of_yields yields_emitArms harms
  have hun : Unprotected (scope.withStop join) todo₁ := ⟨hun.ranges, hun.regions, hun.captured⟩
  obtain ⟨_, htook, hun₂⟩ := hun.walk hlogs hthen
  obtain ⟨_, htook', -⟩ := hun₂.walk hlogs helse
  have hlaid (hstrays : todo₃.strays = []) :
      (∃ k o, s.Laid (scope.withStop join) k fork.fall todo₁ thenArm o) ∧
        ∃ k o, s.Laid (scope.withStop join) k fork.taken todo₂ elseArm o := by
    obtain ⟨k, o, hthen, -⟩ := hlays hthen hun hnodup (htook'.strays_eq_nil hstrays)
    obtain ⟨k', o', helse, -⟩ := hlays helse hun₂ (htook.nodup hnodup) hstrays
    exact ⟨⟨k, o, hthen⟩, k', o', helse⟩
  obtain ⟨j, merged, rfl, hchoice, rfl, rfl⟩ | ⟨next, kept, rfl, rfl, rfl, rfl⟩ := hp
  · obtain ⟨⟨k, fallArm, hfall⟩, k', takenArm, htaken⟩ := hlaid hstrays
    obtain ⟨v, below, w, below', rfl, rfl, rfl⟩ := choice?_eq_some hchoice
    have hempty : written takenArm = [] ∧ written fallArm = [] := ⟨htaken.stmts.symm, hfall.stmts.symm⟩
    exact ⟨_, h.laid (.choice cond takenArm fallArm) rfl ⟨h.valid, htaken.valid, hfall.valid, hempty⟩
      (htaken.upTo (.inr rfl)) (hfall.upTo (.inr rfl)) hjoin _⟩
  · obtain ⟨hstrays, helseNext⟩ := Todo.strays_noteStop hstrays
    obtain ⟨hstrays, hthenNext⟩ := Todo.strays_noteStop hstrays
    obtain ⟨⟨k, fallArm, hfall⟩, k', takenArm, htaken⟩ := hlaid hstrays
    rw [hfall.stmts, htaken.stmts, ← h.expr]
    refine ⟨_, h.laid (.ifElse cond takenArm fallArm) rfl ⟨h.valid, htaken.valid, hfall.valid⟩
      (htaken.upTo helseNext) (hfall.upTo hthenNext) (fun n hn => ?_) _⟩
    rcases Option.or_eq_some_iff.mp hn with hn | ⟨-, hn⟩
    · exact hjoin n hn
    · rcases Option.or_eq_some_iff.mp hn with hn | ⟨-, hn⟩
      · exact h.fall.trans ((hfall.through n hn).mono hsub)
      · exact h.taken.trans ((htaken.through n hn).mono fun _ hm => hsub (htook.subset hm))

include hlays hlogs in
lemma laid_forked (h : s.Branching todo id r fork cond) (hun : Unprotected scope todo₁) (hnodup : todo₁.blocks.Nodup)
    (hsub : todo₁.blocks ⊆ todo.blocks) (hforked : s.Forked w scope stack fork todo₁ p todo')
    (hstrays : todo'.strays = []) : ∃ o, s.Laid scope 1 id todo { p with stmts := r.stmts ++ p.stmts } o := by
  cases hforked with
  | bothJump taken fall htaken hfall =>
    obtain ⟨takenPart, htakenStmts, htakenValid, htaken⟩ := exists_part_of_jump? htaken
    obtain ⟨fallPart, hfallStmts, hfallValid, hfall⟩ := exists_part_of_jump? hfall
    have hlaid := h.laid_ifThen true [takenPart] ⟨htakenValid, trivial⟩ (htaken _) stack
    have hfallLaid : s.Laid scope 0 fork.fall todo ⟨[fall], none, stack⟩ [fallPart] :=
      ⟨by simp [hfallStmts], ⟨hfallValid, trivial⟩, hfall none, nofun⟩
    have hboth := hlaid.append rfl hfallLaid (List.Subset.refl _)
    exact ⟨_, by simpa [htakenStmts] using hboth⟩
  | takenJumps taken htaken =>
    obtain ⟨part, hstmts, hvalid, hjump⟩ := exists_part_of_jump? htaken
    have hlaid := h.laid_ifThen true [part] ⟨hvalid, trivial⟩ (hjump _) stack
    rw [written_cons, hstmts] at hlaid
    exact ⟨_, hlaid⟩
  | fallJumps fall hfall =>
    obtain ⟨part, hstmts, hvalid, hjump⟩ := exists_part_of_jump? hfall
    have hlaid := h.laid_ifThen false [part] ⟨hvalid, trivial⟩ (hjump _) stack
    rw [written_cons, hstmts] at hlaid
    exact ⟨_, hlaid⟩
  | thenOnly harm => exact laid_emitArm hlays h false hun hnodup harm hstrays
  | elseOnly harm => exact laid_emitArm hlays h true hun hnodup harm hstrays
  | arms harms =>
    refine laid_emitArms hlays hlogs h hun hnodup hsub (fun j hj => ?_) harms hstrays
    have hreach := List.mem_of_mem_filter (mem_of_leastBy? hj)
    exact h.fall.trans ((through_of_forwardReach hreach).mono hsub)

/-! ### Multi-way branches -/

/-- Each arm comes to an end, or it falls through to the next one and there is a way to it. -/
def FallThrough (s : Setting) (jumps : Jumps) (id : BlockId) : List (BlockId × List Part) → Prop
  | [] => True
  | arm :: rest => (Follows s.graph jumps 0 arm.2 arm.1 none ∨
      ∃ next ∈ rest.head?, Follows s.graph jumps 0 arm.2 arm.1 (some next.1) ∧ s.Around id arm.1 next.1) ∧
    FallThrough s jumps id rest

section

variable {b : Block} {edges : SwitchEdges} {exit : Option BlockId}

include hlays hlogs in
lemma fallThrough_emitBodies (hb : s.graph.block? id = some b) (hswitch : b.switch = some edges)
    {targets : List BlockId} (htargets : ∀ target ∈ targets, target ∈ edges.targets)
    {bodies : List (BlockId × List Stmt)} (hun : Unprotected scope todo) (hnodup : todo.blocks.Nodup)
    (hclosed : todo.isOpen id = false) (h : emitBodies w scope exit stack targets todo = .ok (bodies, todo'))
    (hstrays : todo'.strays = []) :
    ∃ arms : List (BlockId × List Part), arms.map Prod.fst = targets ∧
      bodies = arms.map (fun arm => (arm.1, written arm.2)) ∧ (∀ arm ∈ arms, ValidEach s arm.2) ∧
      s.FallThrough ⟨exit, scope.jumps.continued⟩ id arms := by
  induction targets generalizing todo bodies with
  | nil =>
    cases h
    exact ⟨[], rfl, rfl, nofun, trivial⟩
  | cons target rest ih =>
    obtain ⟨htarget, hrest⟩ := List.forall_mem_cons.mp htargets
    obtain ⟨body, todo₁, bodies', hbody, hbodies, rfl⟩ := of_yields yields_emitBodies_cons h
    have hun' : Unprotected (scope.enterArm exit rest.head? stack) todo := ⟨hun.ranges, hun.regions, hun.captured⟩
    obtain ⟨_, htook, -⟩ := hlogs _ _ _ _ _ _ _ hun.captured hun.regions hbody
    have htook := htook.noteStop body.next rest.head?
    obtain ⟨-, _, htook', -⟩ := logged_emitBodies hlogs hb hswitch hrest (htook.captured.trans hun.captured)
      (htook.regions.trans hun.regions) hbodies
    have hclosed' : (todo₁.noteStop body.next rest.head?).isOpen id = false := by
      refine Bool.eq_false_iff.mpr fun hopen => ?_
      have hmem := htook.subset (by simpa [Todo.isOpen] using hopen)
      simp [Todo.isOpen, hmem] at hclosed
    obtain ⟨arms, hfst, rfl, hvalid, hfall⟩ := ih hrest (hun.after htook) (htook.nodup hnodup) hclosed' hbodies
    obtain ⟨hstrays, hnext⟩ := Todo.strays_noteStop (htook'.strays_eq_nil hstrays)
    obtain ⟨k, o, hlaid, -⟩ := hlays hbody hun' hnodup hstrays
    refine ⟨(target, o) :: arms, by rw [List.map_cons, hfst], by rw [List.map_cons, hlaid.stmts],
      List.forall_mem_cons.mpr ⟨hlaid.valid, hvalid⟩, ?_, hfall⟩
    have hfollows : Follows s.graph ⟨exit, scope.jumps.continued⟩ 0 o target body.next := .atLeastZero hlaid.follows
    rcases hnext with hnext | hnext
    · exact .inl (hnext ▸ hfollows)
    · rw [← hfst, List.head?_map] at hnext
      cases hhead : arms.head? with
      | none => exact .inl (by simpa [hnext, hhead] using hfollows)
      | some next =>
        have hnext : body.next = some next.1 := by rw [hnext, hhead, Option.map_some]
        exact .inr ⟨next, rfl, hnext ▸ hfollows, (hlaid.through next.1 hnext).around hclosed⟩

/-- No case leads to the exit of a switch. -/
lemma hasCase_of_switchExit {e : BlockId}
    (h : todo.switchExit s.graph scope edges (ascending edges.targets) = some e) : hasCase edges e = false := by
  refine Bool.eq_false_iff.mpr fun hcase => ?_
  rcases Option.or_eq_some_iff.mp h with h | ⟨-, h⟩
  · obtain ⟨x, hx, htarget⟩ := List.any_eq_true.mp hcase
    have hend := (Option.filter_eq_some_iff.mp h).2
    simp only [Bool.and_eq_true, List.all_eq_true, decide_eq_true_eq] at hend
    simpa [beq_iff_eq.mp htarget] using hend.1 x hx
  · have hbehind := (List.mem_filter.mp (mem_of_leastBy? h)).2
    simp only [Bool.and_eq_true, List.all_eq_true] at hbehind
    simpa using hbehind.1 e (mem_ascending.mpr (mem_targets_iff.mpr (.inr hcase)))

/-- An arm that does not come to an end falls through to a later one. -/
lemma FallThrough.follows {jumps : Jumps} : ∀ {arms : List (BlockId × List Part)}, s.FallThrough jumps id arms →
    (arms.map Prod.fst).Pairwise (· < ·) → ∀ arm ∈ arms, Follows s.graph jumps 0 arm.2 arm.1 none ∨
      ∃ next ∈ arms, arm.1 < next.1 ∧ s.Around id arm.1 next.1
  | [], _, _ => nofun
  | first :: rest, h, hsorted => by
    obtain ⟨hlt, hsorted⟩ := List.pairwise_cons.mp hsorted
    refine List.forall_mem_cons.mpr ⟨?_, fun arm harm => ?_⟩
    · rcases h.1 with hend | ⟨next, hnext, -, haround⟩
      · exact .inl hend
      · have hmem := List.mem_of_head? hnext
        exact .inr ⟨next, List.mem_cons_of_mem _ hmem, hlt _ (List.mem_map_of_mem hmem), haround⟩
    · rcases h.2.follows hsorted arm harm with hend | ⟨next, hnext, hafter⟩
      · exact .inl hend
      · exact .inr ⟨next, List.mem_cons_of_mem _ hnext, hafter⟩

/-- An arm falls through to what is written behind it, if only arms with keys and the last one are fallen through to. -/
lemma FallThrough.bodies {jumps : Jumps} {default : Option (BlockId × List Part)}
    (hdefault : ∀ arm ∈ default, Follows s.graph jumps 0 arm.2 arm.1 exit) :
    ∀ {arms : List (BlockId × List Part)}, s.FallThrough jumps id arms → (arms.map Prod.fst).Pairwise (· < ·) →
      (∀ arm ∈ arms, ∀ next ∈ arms, arm.1 < next.1 → s.Around id arm.1 next.1 → hasCase edges next.1 = true ∨
        (∀ other ∈ arms, other.1 ≤ next.1) ∧ default.map Prod.fst = some next.1) →
      ∀ x ∈ (Cases.ofList default (arms.flatMap (Cases.ofTarget edges))).bodies exit,
        Follows s.graph jumps 0 x.1 x.2.1 x.2.2
  | [], _, _, _ => by
    cases default with
    | none => exact nofun
    | some arm => exact List.forall_mem_singleton.mpr (hdefault arm rfl)
  | arm :: rest, h, hsorted, hnext => by
    obtain ⟨hlt, hsorted⟩ := List.pairwise_cons.mp hsorted
    have hrest := FallThrough.bodies hdefault h.2 hsorted fun a ha n hn hbefore haround =>
      (hnext a (List.mem_cons_of_mem _ ha) n (List.mem_cons_of_mem _ hn) hbefore haround).imp_right fun hlast =>
        ⟨fun other hother => hlast.1 other (List.mem_cons_of_mem _ hother), hlast.2⟩
    rw [List.flatMap_cons]
    cases hcase : hasCase edges arm.1 with
    | false => rwa [Cases.ofTarget_eq_nil hcase]
    | true =>
      intro x hx
      rcases (Cases.bodies_ofTarget hcase _).2 x hx with rfl | rfl | hx
      · exact .nil _ _
      · rcases h.1 with hend | ⟨next, hhead, hfollows, haround⟩
        · exact .before _ hend
        · -- what is written behind the arm starts with the next one
          suffices hstart : (Cases.ofList default (rest.flatMap (Cases.ofTarget edges))).start exit = some next.1 by
            rw [hstart]
            exact hfollows
          obtain ⟨rest, rfl⟩ := List.head?_eq_some_iff.mp hhead
          have hnext := hnext arm List.mem_cons_self next (by simp) (hlt _ (by simp)) haround
          rw [List.flatMap_cons]
          cases hcase' : hasCase edges next.1 with
          | true => exact (Cases.bodies_ofTarget hcase' _).1
          | false =>
            obtain ⟨hlast, hdefault⟩ := hnext.resolve_left (by simp [hcase'])
            obtain rfl : rest = [] := by
              refine List.eq_nil_iff_forall_not_mem.mpr fun other hother => ?_
              have hafter := (List.pairwise_cons.mp hsorted).1 _ (List.mem_map_of_mem hother)
              exact Nat.not_lt.mpr (hlast other (by simp [hother])) hafter
            rw [Cases.ofTarget_eq_nil hcase', List.nil_append, List.flatMap_nil, Cases.start_ofList_nil, hdefault]
            rfl
      · exact hrest x hx

/-- Each arm falls through to what is written behind it, if the default stands apart. -/
lemma FallThrough.bodies_ofArms (hapart : s.DefaultsApart) (hb : s.graph.block? id = some b)
    (hswitch : b.switch = some edges) {d : BlockId} (hd : edges.default = some d) {jumps : Jumps}
    {arms : List (BlockId × List Part)} (h : s.FallThrough jumps id arms)
    (hsorted : (arms.map Prod.fst).Pairwise (· < ·)) (harms : ∀ arm ∈ arms, arm.1 ∈ edges.targets) :
    ∀ x ∈ (Cases.ofArms edges arms).bodies exit, Follows s.graph jumps 0 x.1 x.2.1 x.2.2 := by
  refine h.bodies (fun arm harm => ?_) hsorted fun arm harm next hnext hlt haround => ?_
  · have hmem := List.mem_of_find?_eq_some harm
    have hdefault : d = arm.1 := by simpa [hd] using List.find?_some harm
    rcases h.follows hsorted arm hmem with hend | ⟨next, hnext, hlt, haround⟩
    · exact .before _ hend
    · rw [← hdefault] at hlt haround
      rcases hapart hb hswitch hd with hlast | hapart
      · exact absurd hlt (Nat.not_lt.mpr (hlast _ (harms next hnext)))
      · exact absurd haround (hapart _ (harms next hnext) (Nat.ne_of_gt hlt)).1
  · by_cases hcase : hasCase edges next.1 = true
    · exact .inl hcase
    · obtain rfl : next.1 = d :=
        Option.some.inj (((mem_targets_iff.mp (harms next hnext)).resolve_right hcase).symm.trans hd)
      rcases hapart hb hswitch hd with hlast | hapart
      · refine .inr ⟨fun other hother => hlast _ (harms other hother), ?_⟩
        rw [Cases.map_find?_default hd, if_pos (List.mem_map_of_mem hnext)]
      · exact absurd haround ((hapart _ (harms arm harm) (Nat.ne_of_lt hlt)).2.resolve_left hcase)

include hlays hlogs in
lemma laid_emitSwitch (hs : s.Flowing) (hapart : s.DefaultsApart) {selector : Expr} (hopen : todo.isOpen id = true)
    (hr : s.Recovers id r) (hselector : r.exit = some (.switch selector)) (hun : Unprotected scope todo)
    (hnodup : todo.blocks.Nodup) (h : s.emitSwitch w scope id selector stack (todo.visit id) = .ok (p, todo'))
    (hstrays : todo'.strays = []) : ∃ o, s.Laid scope 1 id todo { p with stmts := r.stmts ++ p.stmts } o := by
  obtain ⟨b, edges, bodies, exit, hb, hswitch, hexit, hbodies, rfl⟩ := of_yields yields_emitSwitch h
  obtain ⟨d, hd⟩ := Option.isSome_iff_exists.mp (hs.switch hb hswitch).2
  have hclosed : (todo.visit id).isOpen id = false := by simp [Todo.isOpen, Todo.visit, hnodup.not_mem_erase]
  have hun' : Unprotected scope (todo.visit id) := ⟨hun.ranges, hun.regions, hun.captured⟩
  obtain ⟨arms, hfst, rfl, hvalid, hfall⟩ := fallThrough_emitBodies hlays hlogs hb hswitch
    (fun target htarget => mem_ascending.mp (List.mem_of_mem_filter htarget)) hun' (hnodup.erase id) hclosed hbodies
    hstrays
  have hmem {target : BlockId} : target ∈ arms.map Prod.fst ↔ target ∈ edges.targets ∧ some target ≠ exit := by
    simp [hfst, mem_ascending]
  refine ⟨[.block id r.stmts, .switch id selector (.ofArms edges arms)], ?_, ?_, ?_, fun n hn => ?_⟩
  · simp [Part.stmts, Cases.arms_ofArms]
  · exact ⟨⟨r, hr, rfl⟩, ⟨⟨r, hr, hselector⟩, Cases.valid_ofArms hvalid⟩, trivial⟩
  · refine .switch ⟨hb, hs.passes hb (.inr (by simp [hswitch])) hr⟩ hswitch (fun x => ?_) (by simp [hd]) ?_
      (hfall.bodies_ofArms hapart hb hswitch hd (hfst ▸ (pairwise_ascending _).filter _) fun arm harm => ?_)
    · rw [Cases.mem_keyed_ofArms, hmem]
      refine ⟨fun hx => ⟨hx, ?_⟩, And.left⟩
      have hcase : hasCase edges x.2 = true := List.any_eq_true.mpr ⟨x, hx, by simp⟩
      refine ⟨mem_targets_iff.mpr (.inr hcase), fun hx => ?_⟩
      rw [hasCase_of_switchExit (hexit.symm.trans hx.symm)] at hcase
      cases hcase
    · -- the default has an arm unless it is the exit
      rw [Cases.ofArms, Cases.fallback_ofList, Cases.map_find?_default hd, hd]
      split_ifs with hdefault
      · rfl
      · rw [hmem, not_and, ne_eq, not_not] at hdefault
        exact (hdefault (mem_targets_iff.mpr (.inl hd))).symm
    · exact (hmem.mp (List.mem_map_of_mem harm)).1
  · exact through_of_switchExit hopen hb hswitch (fun _ => List.mem_of_mem_erase) (hexit.symm.trans hn)

end

/-! ### Constructs -/

include hlays hlogs in
lemma laid_emitBlock (hs : s.Flowing) (hapart : s.DefaultsApart) (hopen : todo.isOpen id = true)
    (hun : Unprotected scope todo) (hnodup : todo.blocks.Nodup)
    (h : s.emitBlock w scope id stack todo = .ok (p, todo')) (hstrays : todo'.strays = []) :
    ∃ o, s.Laid scope 1 id todo p o := by
  obtain ⟨b, r, tail, hrun, hexited, rfl⟩ := of_yields yields_emitBlock h
  have hun' : Unprotected scope (todo.visit id) := ⟨hun.ranges, hun.regions, hun.captured⟩
  have hr := recovers_of_runsTo hrun hun'.captured
  have hb := hrun.block
  cases hexited with
  | switch hswitch hexit =>
    exact laid_emitSwitch hlays hlogs hs hapart hopen hr hexit hun hnodup hswitch hstrays
  | @fork cond taken fall fork p todo₁ todo' hexit hsuccs hmerges hforked =>
    have hne : b.succs ≠ [] := by simp [hsuccs]
    have hbranching : s.Branching todo id r ⟨cond.taken, taken, fall⟩ (.test id cond) :=
      ⟨⟨b, hb, hs.passes hb (.inl hne) hr⟩, hr, rfl, rfl, ⟨b, hb, hs.switch_eq_none hb hne, hsuccs⟩, ⟨r, hr, hexit⟩,
        through_of_mem_succs hopen hb (by simp [hsuccs]), through_of_mem_succs hopen hb (by simp [hsuccs])⟩
    obtain ⟨⟨cond', hbranching'⟩, hsub⟩ :=
      hmerges.branching hs hbranching hun'.captured fun _ => List.mem_of_mem_erase
    exact laid_forked hlays hlogs hbranching' (hmerges.unprotected hun') (hmerges.nodup (hnodup.erase id)) hsub hforked
      hstrays
  | leave hsuccs hexit =>
    have hswitch : b.switch = none := by
      rw [Option.eq_none_iff_forall_ne_some]
      intro edges hswitch
      obtain ⟨selector, hselector⟩ := hs.selects hb (by simp [hswitch]) hr
      exact hexit selector hselector
    exact ⟨[.block id r.stmts], by simp [Part.stmts], ⟨⟨r, hr, rfl⟩, trivial⟩,
      .leave _ hb (hs.leaves hb hsuccs hswitch hr) hswitch hsuccs, nofun⟩
  | @goOn next hsuccs =>
    have hne : b.succs ≠ [] := by simp [hsuccs]
    refine ⟨[.block id r.stmts], by simp [Part.stmts], ⟨⟨r, hr, rfl⟩, trivial⟩,
      .goOn _ ⟨hb, hs.passes hb (.inl hne) hr⟩ (hs.switch_eq_none hb hne) hsuccs, ?_⟩
    rintro _ ⟨⟩
    exact through_of_mem_succs hopen hb (by simp [hsuccs])

include hlays in
lemma laid_emitLoop (hs : s.Flowing) {loop : Loop} (hloop : loop ∈ s.loops) (hopen : todo.isOpen loop.header = true)
    (hun : Unprotected scope todo) (hnodup : todo.blocks.Nodup)
    (h : s.emitLoop w scope loop stack todo = .ok (p, todo')) (hstrays : todo'.strays = []) :
    ∃ o, s.Laid scope 1 loop.header todo p o := by
  have hexit : ∀ n, loop.exit = some n → s.Through todo loop.header n :=
    fun n hn => .single ⟨.inr ⟨loop, hloop, rfl, hn⟩, hopen⟩
  obtain ⟨cond, entry, left, body, ⟨c, exit, heq, htest⟩, hbody, rfl⟩ | ⟨body, hbody, rfl⟩ :=
    of_yields yields_emitLoop h
  · obtain ⟨k, o, hlaid, hnext⟩ := hlays hbody ⟨hun.ranges, hun.regions, hun.captured⟩ (hnodup.erase _) hstrays
    have hfollows := hlaid.follows
    rw [(hnext rfl).1] at hfollows
    -- the body is entered with the outcome `sense` of the test
    have hwhile (sense : Bool) {taken fall : BlockId} (htest : s.IsBareTest todo loop.header stack c taken fall left)
        (hentry : (if sense then taken else fall) = entry) (hleave : (if sense then fall else taken) = exit)
        (hcond : cond = c.on sense) : ∃ o, s.Laid scope 1 loop.header todo
          { stmts := [.whileLoop cond (dropContinue body.stmts)], next := loop.exit, stack } o := by
      obtain ⟨b, r, hr, hsuccs, hexit', hstmts, -⟩ := htest.runs
      have hswitch := hs.switch_eq_none hr.block (by simp [hsuccs])
      refine ⟨[.whileTest loop.header c sense o], ?_, ?_, ?_, hexit⟩
      · simp [Part.stmts, hlaid.stmts, hcond]
      · exact ⟨⟨⟨r, recovers_of_runsTo hr hun.captured, hexit', hstmts⟩, hlaid.valid⟩, trivial⟩
      · rw [heq, ← hleave]
        refine .whileTest _ hr.block hswitch hsuccs (k := k) ?_
        rw [hleave, hentry, ← heq]
        exact hfollows
    rcases htest with ⟨htest, hcond⟩ | ⟨htest, hcond⟩
    · exact hwhile true htest rfl rfl hcond
    · exact hwhile false htest rfl rfl hcond
  · obtain ⟨k, o, hlaid, hnext⟩ := hlays hbody ⟨hun.ranges, hun.regions, hun.captured⟩ hnodup hstrays
    have hfollows := hlaid.follows
    rw [(hnext rfl).1, (hnext rfl).2 rfl] at hfollows
    exact ⟨[.forever o], by simp [Part.stmts, hlaid.stmts], ⟨hlaid.valid, trivial⟩, .forever _ hfollows, hexit⟩

include hlays hlogs in
lemma laid_emitConstruct (hs : s.Flowing) (hapart : s.DefaultsApart) (hopen : todo.isOpen id = true)
    (hun : Unprotected scope todo) (hnodup : todo.blocks.Nodup)
    (h : s.emitConstruct w scope id stack todo = .ok (p, todo')) (hstrays : todo'.strays = []) :
    ∃ o, s.Laid scope 1 id todo p o := by
  obtain ⟨region, hregion, -⟩ | ⟨loop, hloop, rfl, -, -, h⟩ | ⟨-, h⟩ := of_yields yields_emitConstruct h
  · rw [hun.regions] at hregion
    cases hregion
  · exact laid_emitLoop hlays hs hloop hopen hun hnodup h hstrays
  · exact laid_emitBlock hlays hlogs hs hapart hopen hun hnodup h hstrays

/-- **Every walk without strays is laid out.** By induction on the number of its steps. -/
lemma lays_walk (hs : s.Flowing) (hapart : s.DefaultsApart) (fuel : Nat) : s.Lays (s.walk fuel) := by
  induction fuel with
  | zero => exact fun h => by cases h
  | succ fuel ih =>
    intro scope entering id stack todo p todo' h hun hnodup hstrays
    cases of_yields yields_walk h with
    | jump hentering hjump =>
      obtain ⟨part, hstmts, hvalid, hfollows⟩ := exists_part_of_jump? hjump
      refine ⟨0, [part], ⟨by simp [hstmts], ⟨hvalid, trivial⟩, hfollows none, nofun⟩, fun _ => ⟨rfl, fun h => ?_⟩⟩
      cases hentering.symm.trans h
    | stop hstop =>
      refine ⟨0, [], ⟨rfl, trivial, .nil _ _, ?_⟩, fun hstops => ?_⟩
      · rintro _ ⟨⟩
        exact .refl
      · simp [Scope.stopsAt, hstops, hun.ranges] at hstop
    | last hopen hfirst hnext =>
      obtain ⟨o, hlaid⟩ := laid_emitConstruct ih (logs_walk fuel) hs hapart hopen hun hnodup hfirst hstrays
      exact ⟨1, o, hlaid, fun _ => ⟨hnext, fun _ => rfl⟩⟩
    | @more first rest next todo₁ todo' hopen hfirst hnext hrest =>
      obtain ⟨_, htook, hun₁⟩ := hun.construct (logs_walk fuel) hopen hfirst
      obtain ⟨_, htook', -⟩ := hun₁.walk (logs_walk fuel) hrest
      obtain ⟨o, hlaid⟩ :=
        laid_emitConstruct ih (logs_walk fuel) hs hapart hopen hun hnodup hfirst (htook'.strays_eq_nil hstrays)
      obtain ⟨k, o', hlaid', hstops⟩ := ih hrest hun₁ (htook.nodup hnodup) hstrays
      exact ⟨1, o ++ o', hlaid.append hnext hlaid' htook.subset, fun h => ⟨(hstops h).1, fun _ => rfl⟩⟩

end Setting

end JvmLift.Structure
