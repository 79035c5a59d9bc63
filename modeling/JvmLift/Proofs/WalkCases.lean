import Mathlib
import JvmLift.Proofs.Contract
import JvmLift.Proofs.Edges

/-!
# What a successful walk has done

One statement for each part of a walk: when it succeeds, which parts it ran on which state, and how its result is put
together from theirs. Everything that holds of successful walks is derived from these statements, without a look at how
the parts are written.
-/

namespace JvmLift.Structure.Setting

open Bytecode JvmLift.Flow Recovery Source

variable {s : Setting} {w : Walker} {scope : Scope} {id : BlockId} {stack : Stack} {todo todo' : Todo} {p : Progress}

/-! ### Looking at blocks

The parts that only look at blocks fail over obstacles in the code, or over a block that is not there. -/

section

variable {allowed : Obstacle → Prop}

lemma meets_block (hid : id < s.graph.size ∨ allowed (.missingBlock id)) (todo : Todo) :
    Meets allowed (s.block id) todo fun b todo' => todo' = todo ∧ s.graph.block? id = some b := by
  rw [block]
  split
  · exact meets_pure ⟨rfl, ‹_›⟩
  · rename_i hnone
    refine meets_throw (hid.resolve_left fun hlt => ?_)
    obtain ⟨b, hb⟩ := FlowGraph.exists_block? hlt
    cases hnone.symm.trans hb

variable (hallow : ∀ e, InCode e → allowed e)
include hallow

lemma meets_runFrom (insns : List Instruction) (stack : Stack) (todo : Todo) :
    Meets allowed (s.runFrom insns stack) todo fun r todo' => todo' = todo ∧ run s.context insns stack = .ok r := by
  rw [runFrom]
  split
  · exact meets_pure ⟨rfl, ‹_›⟩
  · exact meets_throw (hallow _ ⟨nofun, nofun⟩)

/-- A block has been run, from its second instruction on if the first became the binding of a `catch`. -/
structure RunsTo (s : Setting) (todo : Todo) (id : BlockId) (stack : Stack) (b : Block) (r : Recovered) : Prop where
  block : s.graph.block? id = some b
  run : run s.context (b.body.drop (if todo.captured.contains id then 1 else 0)) stack = .ok r

lemma meets_runBlock {b : Block} (hb : s.graph.block? id = some b) (stack : Stack) (todo : Todo) :
    Meets allowed (s.runBlock id stack) todo fun r todo' => todo' = todo ∧ s.RunsTo todo id stack b r := by
  refine meets_bind (meets_block (.inl (FlowGraph.lt_size_of_block? hb)) todo) ?_
  rintro b' todo ⟨rfl, hb'⟩
  obtain rfl : b = b' := Option.some.inj (hb.symm.trans hb')
  refine meets_get (meets_mono (meets_runFrom hallow _ stack todo) ?_)
  rintro r todo' ⟨rfl, hr⟩
  exact ⟨rfl, hb, hr⟩

lemma meets_jump? (scope : Scope) (id : BlockId) (todo : Todo) :
    Meets allowed (s.jump? scope id) todo fun jump todo' => todo' = todo ∧ scope.jump? s.graph id = .ok jump := by
  rw [jump?]
  split
  · exact meets_pure ⟨rfl, ‹_›⟩
  · rename_i e he
    refine meets_throw (hallow e ?_)
    simp only [Scope.jump?] at he
    split_ifs at he
    cases he
    exact ⟨nofun, nofun⟩

omit hallow in
lemma meets_isPlain (scope : Scope) (id : BlockId) (todo : Todo) :
    Meets allowed (s.isPlain scope id) todo fun plain todo' =>
      todo' = todo ∧ (plain = true → todo.isOpen id = true ∧ todo.regionAt? s.graph id = none) := by
  refine meets_get (meets_pure ⟨rfl, fun h => ?_⟩)
  simp only [Bool.and_eq_true, Option.isNone_iff_eq_none] at h
  exact ⟨h.1.1.1.1, h.2⟩

/-! ### Tests -/

/-- A block that does nothing but test, and what it leaves on the stack. -/
structure IsBareTest (s : Setting) (todo : Todo) (id : BlockId) (stack : Stack) (cond : Condition)
    (taken fall : BlockId) (left : Stack) : Prop where
  runs : ∃ b r, s.RunsTo todo id stack b r ∧ b.succs = [taken, fall] ∧ r.exit = some (.conditional cond) ∧
    r.stmts = [] ∧ r.stack = left

lemma meets_bareTest? (hid : id < s.graph.size ∨ allowed (.missingBlock id)) (stack : Stack) (todo : Todo) :
    Meets allowed (s.bareTest? id stack) todo fun test todo' => todo' = todo ∧
      ∀ cond taken fall left, test = some (cond, taken, fall, left) →
        s.IsBareTest todo id stack cond taken fall left := by
  refine meets_bind (meets_block hid todo) ?_
  rintro b todo ⟨rfl, hb⟩
  split
  · rename_i taken fall hsuccs
    refine meets_bind (meets_runBlock hallow hb stack todo) ?_
    rintro r todo ⟨rfl, hr⟩
    split
    · rename_i cond hexit
      split
      · rename_i hbare
        simp only [Bool.and_eq_true, List.isEmpty_iff, beq_iff_eq] at hbare
        refine meets_pure ⟨rfl, ?_⟩
        rintro _ _ _ _ ⟨⟩
        exact ⟨b, r, hr, hsuccs, hexit, hbare.1, rfl⟩
      · exact meets_pure ⟨rfl, by simp⟩
    · exact meets_pure ⟨rfl, by simp⟩
  · exact meets_pure ⟨rfl, by simp⟩

/-- A condition takes in the test behind it, which leaves a stack. -/
structure Merges (s : Setting) (stack : Stack) (todo : Todo) (fork fork' : Fork) (left : Stack) : Prop where
  isOpen : todo.isOpen fork.fall = true
  noRegion : todo.regionAt? s.graph fork.fall = none
  taken : fork'.taken = fork.taken
  test : ∃ cond : Condition,
    (s.IsBareTest todo fork.fall stack cond fork.taken fork'.fall left ∧
      fork'.cond = .binary .or fork.cond cond.taken) ∨
    (s.IsBareTest todo fork.fall stack cond fork'.fall fork.taken left ∧
      fork'.cond = .binary .or fork.cond cond.fallthrough)

lemma meets_mergeNext? (scope : Scope) (stack : Stack) {fork : Fork}
    (hfall : fork.fall < s.graph.size ∨ allowed (.missingBlock fork.fall)) (todo : Todo) :
    Meets allowed (s.mergeNext? scope stack fork) todo fun merged todo' =>
      (merged = none ∧ todo' = todo) ∨
      ∃ fork' left, merged = some fork' ∧ todo' = (todo.visit fork.fall).meet stack left ∧
        s.Merges stack todo fork fork' left := by
  refine meets_bind (meets_block hfall todo) ?_
  rintro b todo ⟨rfl, -⟩
  refine meets_bind (meets_isPlain scope fork.fall todo) ?_
  rintro plain todo ⟨rfl, hplain⟩
  split
  · exact meets_pure (.inl ⟨rfl, rfl⟩)
  · rename_i hcond
    obtain ⟨hopen, hnone⟩ := hplain (by simp_all)
    refine meets_bind (meets_bareTest? hallow hfall stack todo) ?_
    rintro test todo ⟨rfl, htest⟩
    split
    · exact meets_pure (.inl ⟨rfl, rfl⟩)
    · rename_i cond taken fall left
      have hbare := htest cond taken fall left rfl
      split_ifs with htaken hfall
      · subst htaken
        exact meets_modify (meets_pure (.inr ⟨_, left, rfl, rfl, hopen, hnone, rfl, cond, .inl ⟨hbare, rfl⟩⟩))
      · subst hfall
        exact meets_modify (meets_pure (.inr ⟨_, left, rfl, rfl, hopen, hnone, rfl, cond, .inr ⟨hbare, rfl⟩⟩))
      · exact meets_pure (.inl ⟨rfl, rfl⟩)

/-! ### Handlers -/

omit hallow in
lemma meets_isOpen (hid : id < s.graph.size ∨ allowed (.missingBlock id)) (todo : Todo) :
    Meets allowed (s.isOpen id) todo fun isOpen todo' => todo' = todo ∧ isOpen = todo.isOpen id := by
  refine meets_bind (meets_block hid todo) ?_
  rintro b _ ⟨rfl, -⟩
  exact meets_get (meets_pure ⟨rfl, rfl⟩)

lemma meets_catchBinding (hid : id < s.graph.size ∨ allowed (.missingBlock id)) (todo : Todo) :
    Meets allowed (s.catchBinding id) todo fun _ todo' => todo' = todo ∨ todo' = todo.capture id := by
  have hstored (b : Block) : Meets allowed (s.storedName? b) todo fun _ todo' => todo' = todo := by
    rw [storedName?]
    split
    · exact meets_pure rfl
    · split
      · exact meets_pure rfl
      · refine meets_bind (meets_runFrom hallow _ _ todo) ?_
        rintro r todo ⟨rfl, -⟩
        split <;> exact meets_pure rfl
  refine meets_bind (meets_block hid todo) ?_
  rintro b todo ⟨rfl, -⟩
  refine meets_bind (hstored b) ?_
  rintro name todo rfl
  split
  · exact meets_modify (meets_pure (.inr rfl))
  · exact meets_pure (.inl rfl)

/-- A block that does nothing but jump and may be taken into another construct. -/
structure IsLoneGoto (s : Setting) (todo : Todo) (id target : BlockId) : Prop where
  isOpen : todo.isOpen id = true
  noRegion : todo.regionAt? s.graph id = none
  block : ∃ b i, s.graph.block? id = some b ∧ b.body = [i] ∧ i.opcode.isGoto = true ∧ b.succs = [target]

omit hallow in
lemma meets_throughGoto (scope : Scope) (hid : id < s.graph.size ∨ allowed (.missingBlock id)) (todo : Todo) :
    Meets allowed (s.throughGoto scope id) todo fun next todo' =>
      (next = id ∧ todo' = todo) ∨ (s.IsLoneGoto todo id next ∧ todo' = todo.visit id) := by
  refine meets_bind (meets_block hid todo) ?_
  rintro b todo ⟨rfl, hb⟩
  split
  · rename_i i target hbody hsuccs
    refine meets_bind (meets_isPlain scope id todo) ?_
    rintro plain todo ⟨rfl, hplain⟩
    split
    · rename_i hcond
      simp only [Bool.and_eq_true] at hcond
      obtain ⟨hopen, hnone⟩ := hplain hcond.2
      exact meets_modify (meets_pure (.inr ⟨⟨hopen, hnone, b, i, hb, hbody, hcond.1.1, hsuccs⟩, rfl⟩))
    · exact meets_pure (.inl ⟨rfl, rfl⟩)
  · exact meets_pure (.inl ⟨rfl, rfl⟩)

end

/-- A condition takes in the tests behind it, one after the other. -/
inductive MergesAll (s : Setting) (stack : Stack) : Todo → Fork → Todo → Fork → Prop
  | done (todo : Todo) (fork : Fork) : MergesAll s stack todo fork todo fork
  | next {todo todo' : Todo} {fork fork₁ fork' : Fork} {left : Stack} (head : s.Merges stack todo fork fork₁ left)
      (rest : MergesAll s stack ((todo.visit fork.fall).meet stack left) fork₁ todo' fork') :
      MergesAll s stack todo fork todo' fork'

lemma yields_mergeTests (scope : Scope) (stack : Stack) (n : Nat) (fork : Fork) (todo : Todo) :
    Yields (s.mergeTests scope stack n fork) todo fun fork' todo' => s.MergesAll stack todo fork todo' fork' := by
  induction n generalizing fork todo with
  | zero => exact yields_throw
  | succ n ih =>
    refine meets_bind (meets_mergeNext? (fun _ _ => trivial) scope stack (.inr trivial) todo) ?_
    rintro merged todo' (⟨rfl, rfl⟩ | ⟨fork₁, left, rfl, rfl, hmerges⟩)
    · exact meets_pure (.done todo' fork)
    · exact meets_mono (ih fork₁ _) fun fork' todo' h => .next hmerges h

/-! ### Branches -/

lemma yields_emitArm {cond : Expr} {arm join : BlockId} :
    Yields (emitArm w scope stack cond arm join) todo fun p todo' =>
      ∃ body todo₁, w (scope.withStop (some join)) false arm stack todo = .ok (body, todo₁) ∧
        todo' = (todo₁.noteStop body.next (some join)).meet (body.stackOr stack) stack ∧
        p = { stmts := [.ifThen cond body.stmts], next := some join, stack := body.stackOr stack } := by
  refine meets_bind (yields_run _ todo) fun body todo₁ hbody => ?_
  exact meets_modify (meets_pure ⟨body, todo₁, hbody, rfl, rfl⟩)

lemma yields_emitArms {fork : Fork} {join : Option BlockId} :
    Yields (emitArms w scope stack fork join) todo fun p todo' =>
      ∃ thenArm todo₁ elseArm todo₂, w (scope.withStop join) false fork.fall stack todo = .ok (thenArm, todo₁) ∧
        w (scope.withStop join) false fork.taken stack todo₁ = .ok (elseArm, todo₂) ∧
        ((∃ j merged, join = some j ∧ choice? fork.cond.negate j stack.length thenArm elseArm = some merged ∧
          todo' = todo₂.meet (seenFrom elseArm thenArm) elseArm.stack ∧ p = { next := some j, stack := merged }) ∨
        ∃ next kept, next = join.or (thenArm.next.or elseArm.next) ∧ kept = thenArm.stackOr (elseArm.stackOr stack) ∧
          todo' = ((todo₂.noteStop thenArm.next next).noteStop elseArm.next next).meet kept (elseArm.stackOr kept) ∧
          p = { stmts := [ifStmt fork.cond.negate fork.cond thenArm.stmts elseArm.stmts], next, stack := kept }) := by
  refine meets_bind (yields_run _ todo) fun thenArm todo₁ hthen => ?_
  refine meets_bind (yields_run _ todo₁) fun elseArm todo₂ helse => ?_
  split
  · rename_i merged hmerged
    obtain ⟨j, rfl, hmerged⟩ := Option.bind_eq_some_iff.mp hmerged
    exact meets_modify
      (meets_pure ⟨thenArm, todo₁, elseArm, todo₂, hthen, helse, .inl ⟨j, merged, rfl, hmerged, rfl, rfl⟩⟩)
  · exact meets_modify (meets_pure ⟨thenArm, todo₁, elseArm, todo₂, hthen, helse, .inr ⟨_, _, rfl, rfl, rfl, rfl⟩⟩)

/-- The arms of a choice have no statements, push a value each, and meet. -/
lemma choice?_eq_some {cond : Expr} {join : BlockId} {depth : Nat} {thenArm elseArm : Progress} {merged : Stack}
    (h : choice? cond join depth thenArm elseArm = some merged) :
    ∃ v below w below', thenArm = { next := some join, stack := v :: below } ∧
      elseArm = { next := some join, stack := w :: below' } ∧
      merged = ⟨.ternary cond v.expr w.expr, v.wide⟩ :: below := by
  obtain ⟨stmts, next, stack⟩ := thenArm
  obtain ⟨stmts', next', stack'⟩ := elseArm
  unfold choice? at h
  split at h
  · rename_i v below w below' hstack hstack'
    split_ifs at h with hplain
    cases h
    simp only [Bool.and_eq_true, List.isEmpty_iff, beq_iff_eq] at hplain hstack hstack'
    obtain ⟨⟨⟨⟨⟨rfl, rfl⟩, rfl⟩, rfl⟩, -⟩, -⟩ := hplain
    subst hstack hstack'
    exact ⟨v, below, w, below', rfl, rfl, rfl⟩
  · cases h

/-- How a conditional branch has been written. -/
inductive Forked (s : Setting) (w : Walker) (scope : Scope) (stack : Stack) (fork : Fork) (todo : Todo) :
    Progress → Todo → Prop
  | bothJump (taken fall : Stmt) (htaken : scope.jump? s.graph fork.taken = .ok (some taken))
      (hfall : scope.jump? s.graph fork.fall = .ok (some fall)) :
      Forked s w scope stack fork todo { stmts := [.ifThen fork.cond [taken], fall], next := none, stack }
        ((todo.land scope fork.taken stack).land scope fork.fall stack)
  | takenJumps (taken : Stmt) (htaken : scope.jump? s.graph fork.taken = .ok (some taken)) :
      Forked s w scope stack fork todo { stmts := [.ifThen fork.cond [taken]], next := some fork.fall, stack }
        (todo.land scope fork.taken stack)
  | fallJumps (fall : Stmt) (hfall : scope.jump? s.graph fork.fall = .ok (some fall)) :
      Forked s w scope stack fork todo { stmts := [.ifThen fork.cond.negate [fall]], next := some fork.taken, stack }
        (todo.land scope fork.fall stack)
  | thenOnly {p : Progress} {todo' : Todo}
      (h : emitArm w scope stack fork.cond.negate fork.fall fork.taken todo = .ok (p, todo')) :
      Forked s w scope stack fork todo p todo'
  | elseOnly {p : Progress} {todo' : Todo}
      (h : emitArm w scope stack fork.cond fork.taken fork.fall todo = .ok (p, todo')) :
      Forked s w scope stack fork todo p todo'
  | arms {p : Progress} {todo' : Todo}
      (h : emitArms w scope stack fork (todo.earliestJoin s.graph scope fork.fall fork.taken) todo = .ok (p, todo')) :
      Forked s w scope stack fork todo p todo'

lemma yields_emitFork {fork : Fork} :
    Yields (s.emitFork w scope stack fork) todo fun p todo' => s.Forked w scope stack fork todo p todo' := by
  refine meets_bind (meets_jump? (fun _ _ => trivial) scope fork.taken todo) ?_
  rintro takenJump todo ⟨rfl, htaken⟩
  refine meets_bind (meets_jump? (fun _ _ => trivial) scope fork.fall todo) ?_
  rintro fallJump todo ⟨rfl, hfall⟩
  split
  · exact meets_modify (meets_pure (.bothJump _ _ htaken hfall))
  · exact meets_modify (meets_pure (.takenJumps _ htaken))
  · exact meets_modify (meets_pure (.fallJumps _ hfall))
  · refine meets_get ?_
    dsimp only
    split_ifs
    · exact meets_mono (yields_run _ todo) fun p todo' h => .thenOnly h
    · exact meets_mono (yields_run _ todo) fun p todo' h => .elseOnly h
    · exact meets_mono (yields_run _ todo) fun p todo' h => .arms h

/-! ### Switches -/

lemma yields_emitBodies_cons {exit : Option BlockId} {target : BlockId} {rest : List BlockId} :
    Yields (emitBodies w scope exit stack (target :: rest)) todo fun bodies todo' =>
      ∃ body todo₁ bodies', w (scope.enterArm exit rest.head? stack) false target stack todo = .ok (body, todo₁) ∧
        emitBodies w scope exit stack rest (todo₁.noteStop body.next rest.head?) = .ok (bodies', todo') ∧
        bodies = (target, body.stmts) :: bodies' := by
  refine meets_bind (yields_run _ todo) fun body todo₁ hbody => ?_
  refine meets_modify (meets_bind (yields_run _ _) fun bodies' todo' hrest => ?_)
  exact meets_pure ⟨body, todo₁, bodies', hbody, hrest, rfl⟩

lemma yields_emitSwitch {selector : Expr} :
    Yields (s.emitSwitch w scope id selector stack) todo fun p todo' =>
      ∃ b edges bodies exit, s.graph.block? id = some b ∧ b.switch = some edges ∧
        exit = todo.switchExit s.graph scope edges (ascending edges.targets) ∧
        emitBodies w scope exit stack ((ascending edges.targets).filter fun target => some target != exit) todo =
          .ok (bodies, todo') ∧
        p = { stmts := [.switch selector (armsOf edges bodies)], next := exit, stack } := by
  refine meets_bind (meets_block (.inr trivial) todo) ?_
  rintro b todo ⟨rfl, hb⟩
  split
  · exact yields_throw
  · rename_i edges hedges
    refine meets_get ?_
    split
    · exact yields_throw
    · refine meets_bind (yields_run _ todo) fun bodies todo' hbodies => ?_
      exact meets_pure ⟨b, edges, bodies, _, hb, hedges, rfl, hbodies, rfl⟩

/-! ### Loops -/

/-- A header that does nothing but test whether to leave the loop, and what it leaves on the stack. -/
def IsLoopTest (s : Setting) (todo : Todo) (loop : Loop) (stack : Stack) (cond : Expr) (entry : BlockId)
    (left : Stack) : Prop :=
  ∃ (c : Condition) (exit : BlockId), loop.exit = some exit ∧
    ((s.IsBareTest todo loop.header stack c entry exit left ∧ cond = c.taken) ∨
     (s.IsBareTest todo loop.header stack c exit entry left ∧ cond = c.fallthrough))

lemma yields_loopTest? (loop : Loop) (stack : Stack) (todo : Todo) :
    Yields (s.loopTest? loop stack) todo fun test todo' => todo' = todo ∧
      ∀ cond entry left, test = some (cond, entry, left) → s.IsLoopTest todo loop stack cond entry left := by
  refine meets_get ?_
  split
  · exact meets_pure ⟨rfl, nofun⟩
  · refine meets_bind (meets_bareTest? (fun _ _ => trivial) (.inr trivial) stack todo) ?_
    rintro test todo ⟨rfl, htest⟩
    split
    · exact meets_pure ⟨rfl, nofun⟩
    · rename_i c taken fall left
      have hbare := htest c taken fall left rfl
      split_ifs with htaken hfall
      · simp only [Bool.and_eq_true, beq_iff_eq] at htaken
        refine meets_pure ⟨rfl, ?_⟩
        rintro _ _ _ ⟨⟩
        exact ⟨c, fall, htaken.2, .inl ⟨hbare, rfl⟩⟩
      · simp only [Bool.and_eq_true, beq_iff_eq] at hfall
        refine meets_pure ⟨rfl, ?_⟩
        rintro _ _ _ ⟨⟩
        exact ⟨c, taken, hfall.2, .inr ⟨hbare, rfl⟩⟩
      · exact meets_pure ⟨rfl, nofun⟩

lemma yields_emitLoop {loop : Loop} :
    Yields (s.emitLoop w scope loop stack) todo fun p todo' =>
      (∃ cond entry left body, s.IsLoopTest todo loop stack cond entry left ∧
        w (scope.enterLoop loop stack) false entry stack ((todo.visit loop.header).meet stack left) =
          .ok (body, todo') ∧
        p = { stmts := [.whileLoop cond (dropContinue body.stmts)], next := loop.exit, stack }) ∨
      ∃ body, w (scope.enterLoop loop stack) true loop.header stack todo = .ok (body, todo') ∧
        p = { stmts := [.whileLoop (.bool true) (dropContinue body.stmts)], next := loop.exit, stack } := by
  refine meets_bind (yields_loopTest? loop stack todo) ?_
  rintro test todo ⟨rfl, htest⟩
  split
  · rename_i cond entry left
    refine meets_modify (meets_bind (yields_run _ _) fun body todo' hbody => ?_)
    exact meets_pure (.inl ⟨cond, entry, left, body, htest cond entry left rfl, hbody, rfl⟩)
  · refine meets_bind (yields_run _ todo) fun body todo' hbody => ?_
    exact meets_pure (.inr ⟨body, hbody, rfl⟩)

/-! ### Protected ranges -/

lemma todo_of_catchBinding {r : String × Stack} (h : s.catchBinding id todo = .ok (r, todo')) :
    todo' = todo ∨ todo' = todo.capture id :=
  of_yields (meets_catchBinding (fun _ _ => trivial) (.inr trivial) todo) h

lemma yields_emitHandlers_cons {cont : Option BlockId} {handler : Handler} {rest : List Handler} :
    Yields (s.emitHandlers w scope cont (handler :: rest)) todo fun r todo' =>
      (todo.isOpen handler.block = false ∧ s.emitHandlers w scope cont rest todo = .ok (r, todo')) ∨
      ∃ binding entry todo₁ body todo₂ clauses, s.catchBinding handler.block todo = .ok ((binding, entry), todo₁) ∧
        w (scope.withStop cont) false handler.block entry todo₁ = .ok (body, todo₂) ∧
        s.emitHandlers w scope (cont.or body.next) rest todo₂ = .ok ((clauses, r.2), todo') ∧
        r.1 = ⟨s.catchTypeName handler.catchType, binding, body.stmts⟩ :: clauses := by
  refine meets_bind (meets_isOpen (.inr trivial) todo) ?_
  rintro _ todo ⟨rfl, rfl⟩
  split
  · rename_i hclosed
    exact meets_mono (yields_run _ todo) fun r todo' h => .inl ⟨by simpa using hclosed, h⟩
  · refine meets_bind (yields_run _ todo) fun binding todo₁ hbinding => ?_
    refine meets_bind (yields_run _ todo₁) fun body todo₂ hbody => ?_
    refine meets_bind (yields_run _ todo₂) fun r todo' hrest => ?_
    exact meets_pure (.inr ⟨binding.1, binding.2, todo₁, body, todo₂, r.1, hbinding, hbody, hrest, rfl⟩)

/-- A protected range goes on where its body does, or behind a lone jump there, or where the first handler does. -/
lemma yields_emitTry {region : Region} :
    Yields (s.emitTry w scope region id stack) todo fun p todo' =>
      ∃ body todo₁ cont todo₂ clauses next,
        w (scope.within region) false id stack (todo.enter region) = .ok (body, todo₁) ∧
        ((cont = body.next ∧ todo₂ = todo₁) ∨ ∃ last target, body.next = some last ∧ cont = some target ∧
          s.IsLoneGoto todo₁ last target ∧ todo₂ = todo₁.visit last) ∧
        s.emitHandlers w scope cont region.handlers todo₂ = .ok ((clauses, next), todo') ∧
        p.stmts = (if clauses.isEmpty then body.stmts else [.tryCatch body.stmts (.ofCatches none clauses)]) ∧
        p.next = next := by
  refine meets_modify (meets_bind (yields_run _ _) fun body todo₁ hbody => ?_)
  have hcontinue : Yields (body.next.mapM (s.throughGoto scope)) todo₁ fun cont todo₂ =>
      (cont = body.next ∧ todo₂ = todo₁) ∨ ∃ last target, body.next = some last ∧ cont = some target ∧
        s.IsLoneGoto todo₁ last target ∧ todo₂ = todo₁.visit last := by
    cases body.next with
    | none => exact meets_pure (.inl ⟨rfl, rfl⟩)
    | some last =>
      refine meets_map (meets_mono (meets_throughGoto scope (.inr trivial) todo₁) fun target todo₂ h => ?_)
      rcases h with ⟨rfl, rfl⟩ | ⟨hgoto, rfl⟩
      · exact .inl ⟨rfl, rfl⟩
      · exact .inr ⟨last, target, rfl, rfl, hgoto, rfl⟩
  refine meets_bind hcontinue fun cont todo₂ hcont => ?_
  refine meets_bind (yields_run _ todo₂) fun r todo' hhandlers => ?_
  exact meets_pure ⟨body, todo₁, cont, todo₂, r.1, r.2, hbody, hcont, hhandlers, rfl, rfl⟩

/-! ### The walk -/

/-- What has followed from the branch at the end of a block. -/
inductive Exited (s : Setting) (w : Walker) (scope : Scope) (b : Block) (id : BlockId) (r : Recovered) (todo : Todo) :
    Progress → Todo → Prop
  | switch {selector : Expr} {p : Progress} {todo' : Todo}
      (h : s.emitSwitch w scope id selector r.stack todo = .ok (p, todo')) (hexit : r.exit = some (.switch selector)) :
      Exited s w scope b id r todo p todo'
  | fork {cond : Condition} {taken fall : BlockId} {fork : Fork} {p : Progress} {todo₁ todo' : Todo}
      (hexit : r.exit = some (.conditional cond)) (hsuccs : b.succs = [taken, fall])
      (hmerges : s.MergesAll r.stack todo ⟨cond.taken, taken, fall⟩ todo₁ fork)
      (h : s.Forked w scope r.stack fork todo₁ p todo') : Exited s w scope b id r todo p todo'
  | leave (hsuccs : b.succs = []) (hexit : ∀ selector, r.exit ≠ some (.switch selector)) :
      Exited s w scope b id r todo { next := none, stack := r.stack } todo
  | goOn {next : BlockId} (hsuccs : b.succs = [next]) :
      Exited s w scope b id r todo { next := some next, stack := r.stack } todo

lemma yields_emitExit {b : Block} {r : Recovered} :
    Yields (s.emitExit w scope b id r) todo fun p todo' => s.Exited w scope b id r todo p todo' := by
  rw [emitExit]
  split
  · exact meets_mono (yields_run _ todo) fun p todo' h => .switch h ‹_›
  · rename_i cond taken fall hexit hsuccs
    refine meets_bind (yields_mergeTests scope r.stack _ _ todo) fun fork todo₁ hmerges => ?_
    exact meets_mono (yields_run _ todo₁) fun p todo' h => .fork hexit hsuccs hmerges (of_yields yields_emitFork h)
  · rename_i hsuccs hexit
    exact meets_pure (.leave hsuccs hexit)
  · rename_i hsuccs _
    exact meets_pure (.goOn hsuccs)
  · exact yields_throw

lemma yields_emitBlock :
    Yields (s.emitBlock w scope id stack) todo fun p todo' =>
      ∃ b r tail, s.RunsTo (todo.visit id) id stack b r ∧ s.Exited w scope b id r (todo.visit id) tail todo' ∧
        p = { tail with stmts := r.stmts ++ tail.stmts } := by
  refine meets_bind (meets_block (.inr trivial) todo) ?_
  rintro b todo ⟨rfl, hb⟩
  refine meets_modify (meets_bind (meets_runBlock (fun _ _ => trivial) hb stack _) ?_)
  rintro r _ ⟨rfl, hr⟩
  refine meets_bind (yields_run _ _) fun tail todo' htail => ?_
  exact meets_pure ⟨b, r, tail, hr, of_yields yields_emitExit htail, rfl⟩

/-- The region that starts at a block is the outermost one that is open. -/
lemma regionAt?_eq_some {g : FlowGraph} {region : Region} (h : todo.regionAt? g id = some region) :
    region ∈ todo.regions ∧ region.start = g.startOf id ∧
      ∀ region' ∈ todo.regions, region'.start = g.startOf id → region'.stop ≤ region.stop := by
  have hmem := List.mem_filter.mp (mem_of_lastGreatestBy? h)
  refine ⟨hmem.1, by simpa using hmem.2, fun region' hregion' hstart => ?_⟩
  exact le_of_lastGreatestBy? h (List.mem_filter.mpr ⟨hregion', by simpa using hstart⟩)

lemma regionAt?_eq_none {g : FlowGraph} (h : todo.regionAt? g id = none) {region : Region}
    (hregion : region ∈ todo.regions) : region.start ≠ g.startOf id := by
  intro hstart
  have hmem : region ∈ todo.regions.filter (·.start == g.startOf id) :=
    List.mem_filter.mpr ⟨hregion, by simpa using hstart⟩
  have hsome : (todo.regionAt? g id).isSome = true := isSome_lastGreatestBy? hmem
  rw [h] at hsome
  cases hsome

lemma yields_emitConstruct :
    Yields (s.emitConstruct w scope id stack) todo fun p todo' =>
      (∃ region ∈ todo.regions, todo.regionAt? s.graph id = some region ∧
        s.emitTry w scope region id stack todo = .ok (p, todo')) ∨
      (∃ loop ∈ s.loops, loop.header = id ∧ scope.isInLoop id = false ∧
        (∀ region, todo.regionAt? s.graph id = some region → region.stop ≤ loop.stop) ∧
        s.emitLoop w scope loop stack todo = .ok (p, todo')) ∨
      (todo.regionAt? s.graph id = none ∧ s.emitBlock w scope id stack todo = .ok (p, todo')) := by
  refine meets_get ?_
  dsimp only
  split
  · rename_i region hregion
    have hat := (Option.filter_eq_some_iff.mp hregion).1
    exact meets_mono (yields_run _ todo) fun p todo' h => .inl ⟨region, (regionAt?_eq_some hat).1, hat, h⟩
  · rename_i loop hnone hloop
    rw [hloop] at hnone
    split_ifs at hloop with hin
    have hheader : loop.header = id := by simpa using List.find?_some hloop
    have hwithin (region : Region) (h : todo.regionAt? s.graph id = some region) : region.stop ≤ loop.stop := by
      simpa [h] using hnone
    refine meets_mono (yields_run _ todo) fun p todo' h =>
      .inr (.inl ⟨loop, ?_, hheader, by simpa using hin, hwithin, h⟩)
    exact List.mem_of_find?_eq_some hloop
  · rename_i hnone hloop
    rw [hloop] at hnone
    exact meets_mono (yields_run _ todo) fun p todo' h =>
      .inr (.inr ⟨by simpa [Option.eq_none_iff_forall_not_mem] using hnone, h⟩)

/-- How a walk has gone on from a block. -/
inductive Walked (s : Setting) (w : Walker) (scope : Scope) (entering : Bool) (id : BlockId) (stack : Stack)
    (todo : Todo) : Progress → Todo → Prop
  | jump {jump : Stmt} (hentering : entering = false) (hjump : scope.jump? s.graph id = .ok (some jump)) :
      Walked s w scope entering id stack todo { stmts := [jump], next := none, stack } (todo.land scope id stack)
  | stop (hstop : scope.stopsAt s.graph id = true) :
      Walked s w scope entering id stack todo { next := some id, stack } todo
  | last {first : Progress} {todo' : Todo} (hopen : todo.isOpen id = true)
      (hfirst : s.emitConstruct w scope id stack todo = .ok (first, todo')) (hnext : first.next = none)
      (hstop : scope.stopsAt s.graph id = false) (htarget : entering = true ∨ scope.isTarget id = false) :
      Walked s w scope entering id stack todo first todo'
  | more {first rest : Progress} {next : BlockId} {todo₁ todo' : Todo} (hopen : todo.isOpen id = true)
      (hfirst : s.emitConstruct w scope id stack todo = .ok (first, todo₁)) (hnext : first.next = some next)
      (hrest : w scope false next first.stack todo₁ = .ok (rest, todo'))
      (hstop : scope.stopsAt s.graph id = false) (htarget : entering = true ∨ scope.isTarget id = false) :
      Walked s w scope entering id stack todo { rest with stmts := first.stmts ++ rest.stmts } todo'

/-- A block that is not jumped to is no target of a construct around. -/
lemma isTarget_of_jump?_eq_none {g : FlowGraph} (h : scope.jump? g id = .ok none) : scope.isTarget id = false := by
  simp only [Scope.jump?] at h
  split_ifs at h with hbreak hcontinue htarget
  · cases h
  · cases h
  · exact Bool.eq_false_iff.mpr htarget

lemma yields_walk {fuel : Nat} {entering : Bool} :
    Yields (s.walk (fuel + 1) scope entering id stack) todo fun p todo' =>
      s.Walked (s.walk fuel) scope entering id stack todo p todo' := by
  refine meets_bind (meets_block (.inr trivial) todo) ?_
  rintro b todo ⟨rfl, -⟩
  have hjump : Yields (s.entryJump? scope entering id) todo fun jump todo' =>
      todo' = todo ∧ (∀ j, jump = some j → entering = false ∧ scope.jump? s.graph id = .ok jump) ∧
        (jump = none → entering = true ∨ scope.isTarget id = false) := by
    cases entering with
    | true => exact meets_pure ⟨rfl, nofun, fun _ => .inl rfl⟩
    | false =>
      refine meets_mono (meets_jump? (fun _ _ => trivial) scope id todo) ?_
      refine fun jump _ h => ⟨h.1, fun _ _ => ⟨rfl, h.2⟩, fun hnone => .inr ?_⟩
      exact isTarget_of_jump?_eq_none (hnone ▸ h.2)
  refine meets_bind hjump ?_
  rintro jump todo ⟨rfl, hjump, htarget⟩
  split
  · rename_i j
    exact meets_modify (meets_pure (.jump (hjump j rfl).1 (hjump j rfl).2))
  refine meets_get ?_
  split
  · exact meets_pure (.stop ‹_›)
  split
  · exact yields_throw
  rename_i hstop hopen
  have hopen : todo.isOpen id = true := by simpa using hopen
  have hstop : scope.stopsAt s.graph id = false := by simpa using hstop
  refine meets_bind (yields_run _ todo) fun first todo₁ hfirst => ?_
  split
  · rename_i hnext
    exact meets_pure (.last hopen hfirst hnext hstop (htarget rfl))
  · rename_i next hnext
    refine meets_bind (yields_run _ todo₁) fun rest todo' hrest => ?_
    exact meets_pure (.more hopen hfirst hnext hrest hstop (htarget rfl))

lemma yields_structured :
    Yields s.structured todo fun body todo' =>
      ∃ fuel p, s.walk fuel {} false 0 [] todo = .ok (p, todo') ∧ body = p.stmts ∧
        ∀ id ∈ s.reachable, todo'.isOpen id = false := by
  refine meets_bind (yields_run _ todo) fun p todo' hwalk => ?_
  refine meets_get ?_
  split
  · exact yields_throw
  · rename_i hnone
    exact meets_pure ⟨_, p, hwalk, rfl, fun id hid => by simpa using List.find?_eq_none.mp hnone id hid⟩

end JvmLift.Structure.Setting

namespace JvmLift.Structure

open Bytecode JvmLift.Flow Recovery Source

/-- A method is written as a tree by a walk from its first block that leaves out no reachable one. -/
lemma structureWalk_ok {ctx : Context} {shape : CodeShape} {body : List Stmt} {todo : Todo}
    (h : structureWalk ctx shape = .ok (body, todo)) :
    (shape.graph.size = 0 ∧ body = []) ∨
    ∃ fuel p, (Setting.ofShape ctx shape).walk fuel {} false 0 [] (Todo.ofShape shape) = .ok (p, todo) ∧
      body = p.stmts ∧ 0 < shape.graph.size ∧
      ∀ id ∈ (Setting.ofShape ctx shape).reachable, todo.isOpen id = false := by
  rw [structureWalk] at h
  split at h
  · cases h
    exact .inl ⟨‹_›, rfl⟩
  · rename_i hsize
    obtain ⟨fuel, p, hwalk, hbody, hreach⟩ := of_yields Setting.yields_structured h
    exact .inr ⟨fuel, p, hwalk, hbody, Nat.pos_of_ne_zero hsize, hreach⟩

lemma structureBody_ok {ctx : Context} {shape : CodeShape} {body : List Stmt}
    (h : structureBody ctx shape = .ok body) : ∃ todo, structureWalk ctx shape = .ok (body, todo) := by
  rw [structureBody] at h
  cases hwalk : structureWalk ctx shape with
  | error e =>
    rw [hwalk] at h
    cases h
  | ok r =>
    rw [hwalk] at h
    cases h
    exact ⟨r.2, rfl⟩

end JvmLift.Structure
