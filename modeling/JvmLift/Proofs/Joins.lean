import Mathlib
import JvmLift.Proofs.Balance
import JvmLift.Proofs.Correspondence
import JvmLift.Proofs.Simulation

/-!
# Values across joins

A walk goes on with one stack where several ways meet, and drops the stacks of the other ways. A conditional expression
takes in the last values of two ways; of everything else the walk keeps what one way has left. When stacks that meet
have the same words in a store, a tree without strays returns in that store what the code returns: values that are on
the stack survive the joins. When they differ, the tree may return the value of a way that was not gone.
-/

namespace JvmLift.Structure

open Bytecode JvmLift.Flow Recovery Source IntCode

/-- A walk has no strays, and stacks that met have the same words in a store. -/
structure Settled (σ : Store) (todo : Todo) : Prop where
  strays : todo.strays = []
  meetings : ∀ m ∈ todo.meetings, SameWords σ m.1 m.2

namespace Settled

variable {σ : Store} {todo : Todo}

lemma of_meet {kept dropped : Stack} (h : Settled σ (todo.meet kept dropped)) :
    SameWords σ kept dropped ∧ Settled σ todo :=
  ⟨h.meetings _ (List.mem_cons_self ..), h.strays, fun m hm => h.meetings m (List.mem_cons_of_mem _ hm)⟩

lemma of_land {scope : Scope} {id : BlockId} {stack : Stack} (h : Settled σ (todo.land scope id stack)) :
    (∀ landing, scope.landing? id = some landing → SameWords σ landing stack) ∧ Settled σ todo := by
  refine ⟨fun landing hlanding => h.meetings (landing, stack) (List.mem_append_left _ ?_), h.strays, fun m hm => ?_⟩
  · simp [hlanding]
  · exact h.meetings m (List.mem_append_right _ hm)

lemma of_noteStop {stop next : Option BlockId} (h : Settled σ (todo.noteStop stop next)) :
    (stop = none ∨ stop = next) ∧ Settled σ todo := by
  obtain ⟨hstrays, hstop⟩ := Todo.strays_noteStop h.strays
  exact ⟨hstop, hstrays, h.meetings⟩

lemma before {s : Setting} {start : BlockId} {todo' : Todo} {log : List Entry} (h : Settled σ todo')
    (htook : Took s start todo log todo') : Settled σ todo :=
  ⟨htook.strays_eq_nil h.strays, fun m hm => h.meetings m (htook.meetings.subset hm)⟩

end Settled

/-! ### Conditions with a value -/

section Conditions

variable {σ : Store} {cond : Expr} {t : Bool}

lemma test_of_eval (ht : Evaluation.ofInts.eval σ cond = some (.bool t)) : Evaluation.ofInts.test cond σ = some t := by
  simp [Evaluation.test, ht, Value.truth?]

lemma execInts_ifThen (ht : Evaluation.ofInts.eval σ cond = some (.bool t)) (body : List Stmt) :
    execInts [.ifThen cond body] σ = execInts (if t then body else []) σ := by
  rw [execInts, Evaluation.execEach_singleton, Evaluation.exec, Run.branch_apply (test_of_eval ht)]
  cases t <;> simp [Evaluation.execEach]

lemma execInts_ifStmt (ht : Evaluation.ofInts.eval σ cond = some (.bool t)) (thenBody elseBody : List Stmt) :
    execInts [Setting.ifStmt cond.negate cond thenBody elseBody] σ = execInts (if t then elseBody else thenBody) σ := by
  have hnegate : Evaluation.ofInts.eval σ cond.negate = some (.bool !t) := Expr.value?_negate ht
  rw [Setting.ifStmt]
  split
  · rename_i helse
    rw [execInts_ifThen hnegate, List.isEmpty_iff.mp helse]
    cases t <;> rfl
  · split
    · rename_i hthen
      rw [execInts_ifThen ht, List.isEmpty_iff.mp hthen]
    · rw [execInts, Evaluation.execEach_singleton, Evaluation.exec, Run.branch_apply (test_of_eval hnegate)]
      cases t <;> rfl

end Conditions

namespace Setting

variable {s : Setting} {M : BlockRun} {σ : Store} {w : Walker} {scope : Scope} {id : BlockId} {stack : Stack}
variable {todo todo' : Todo} {p : Progress} {ns : List Int32} {t : Bool}

/-- The settled walks of a walker stand for the machine in front of their first blocks. A walk without blocks to stop at
ends nowhere; if it is sure to enter its first block, the machine makes a step. -/
def Carries (s : Setting) (M : BlockRun) (σ : Store) (w : Walker) : Prop :=
  ∀ {scope entering id stack todo p todo'}, w scope entering id stack todo = .ok (p, todo') → Unprotected scope todo →
    Settled σ todo' → (scope.stops = [] → p.next = none) ∧
      ∀ {ns}, HasWords σ stack ns → M.Safe (id, ns) → StandsFor M s.graph σ 0 scope (id, ns) p ∧
        (entering = true → scope.stops = [] → StandsFor M s.graph σ 1 scope (id, ns) p)

/-- Jumps do not depend on where an arm stops. -/
lemma standsFor_of_withStop {k : Nat} {stop : Option BlockId} {place : Place}
    (h : StandsFor M s.graph σ k (scope.withStop stop) place p) : StandsFor M s.graph σ k scope place p := by
  refine ⟨fun {τ o} hrun => ?_, h.complete⟩
  obtain ⟨hτ, hleads⟩ := h.sound hrun
  cases o <;> exact ⟨hτ, hleads⟩

/-! ### Tests -/

/-- The block behind a test with an outcome. -/
abbrev Fork.side (fork : Fork) (t : Bool) : BlockId :=
  if t then fork.taken else fork.fall

section Tests

variable (hM : M.Follows s σ)
include hM

lemma IsBareTest.path {cond : Condition} {taken fall : BlockId} {left : Stack}
    (h : s.IsBareTest todo id stack cond taken fall left) (hcap : todo.captured = []) (hs : HasWords σ stack ns)
    (hsafe : M.Safe (id, ns)) :
    ∃ k t ns', Tells σ cond t ∧ HasWords σ left ns' ∧ M.Path (k + 1) (id, ns) (if t then taken else fall, ns') := by
  obtain ⟨b, r, hr, hsuccs, hexit, hstmts, rfl⟩ := h.runs
  cases hM.through hr.block (run_of_runsTo hr hcap) hs with
  | faults h => exact absurd h (hsafe _ _)
  | returns h hruns =>
    -- nothing is returned without a statement
    have hdone : execInts r.stmts σ σ .done := by
      rw [hstmts]
      exact ⟨rfl, rfl⟩
    rw [execInts, hruns] at hdone
    cases hdone.2
  | goesOn h _ hwords _ hfork =>
    obtain ⟨c, t, hc, htells, rfl⟩ := hfork taken fall hsuccs
    cases hexit.symm.trans hc
    exact ⟨_, t, _, htells, hwords, h⟩

/-- The same test, seen from the way on which it falls through. -/
lemma IsBareTest.path_fallthrough {cond : Condition} {taken fall : BlockId} {left : Stack}
    (h : s.IsBareTest todo id stack cond taken fall left) (hcap : todo.captured = []) (hs : HasWords σ stack ns)
    (hsafe : M.Safe (id, ns)) :
    ∃ k t ns', Evaluation.ofInts.eval σ cond.fallthrough = some (.bool t) ∧ HasWords σ left ns' ∧
      M.Path (k + 1) (id, ns) (if t then fall else taken, ns') := by
  obtain ⟨k, t, ns', htells, hwords, hpath⟩ := h.path hM hcap hs hsafe
  refine ⟨k, !t, ns', htells.2, hwords, ?_⟩
  cases t <;> exact hpath

lemma IsLoopTest.path {loop : Loop} {cond : Expr} {entry : BlockId} {left : Stack}
    (h : s.IsLoopTest todo loop stack cond entry left) (hcap : todo.captured = []) (hs : HasWords σ stack ns)
    (hsafe : M.Safe (loop.header, ns)) :
    ∃ k t ns' exit, loop.exit = some exit ∧ Evaluation.ofInts.eval σ cond = some (.bool t) ∧ HasWords σ left ns' ∧
      M.Path (k + 1) (loop.header, ns) (if t then entry else exit, ns') := by
  obtain ⟨c, exit, hexit, ⟨htest, rfl⟩ | ⟨htest, rfl⟩⟩ := h
  · obtain ⟨k, t, ns', htells, hwords, hpath⟩ := htest.path hM hcap hs hsafe
    exact ⟨k, t, ns', exit, hexit, htells.1, hwords, hpath⟩
  · obtain ⟨k, t, ns', ht, hwords, hpath⟩ := htest.path_fallthrough hM hcap hs hsafe
    exact ⟨k, t, ns', exit, hexit, ht, hwords, hpath⟩

/-- A condition that takes in the test behind it leads to the same places. -/
lemma Merges.path {fork fork' : Fork} {left : Stack} (h : s.Merges stack todo fork fork' left)
    (hcap : todo.captured = []) (hmeet : SameWords σ stack left)
    (ht : Evaluation.ofInts.eval σ fork.cond = some (.bool t)) (hs : HasWords σ stack ns)
    (hsafe : M.Safe (fork.side t, ns)) :
    ∃ k t' ns', Evaluation.ofInts.eval σ fork'.cond = some (.bool t') ∧ HasWords σ stack ns' ∧
      M.Path k (fork.side t, ns) (fork'.side t', ns') := by
  cases t with
  | true =>
    refine ⟨0, true, ns, ?_, hs, by simpa [Fork.side, h.taken] using BlockRun.Path.refl _⟩
    obtain ⟨cond, ⟨-, hcond⟩ | ⟨-, hcond⟩⟩ := h.test <;> exact hcond ▸ Expr.value?_or.mpr (.inl ⟨ht, rfl⟩)
  | false =>
    obtain ⟨cond, ⟨htest, hcond⟩ | ⟨htest, hcond⟩⟩ := h.test
    · obtain ⟨k, t, ns', htells, hwords, hpath⟩ := htest.path hM hcap hs hsafe
      refine ⟨k + 1, t, ns', hcond ▸ Expr.value?_or.mpr (.inr ⟨t, ht, htells.1, rfl⟩), hmeet.hasWords hwords, ?_⟩
      simpa [Fork.side, h.taken] using hpath
    · obtain ⟨k, t, ns', ht', hwords, hpath⟩ := htest.path_fallthrough hM hcap hs hsafe
      refine ⟨k + 1, t, ns', hcond ▸ Expr.value?_or.mpr (.inr ⟨t, ht, ht', rfl⟩), hmeet.hasWords hwords, ?_⟩
      simpa [Fork.side, h.taken] using hpath

omit hM in
lemma MergesAll.settled {fork fork' : Fork} (h : s.MergesAll stack todo fork todo' fork') (hset : Settled σ todo') :
    Settled σ todo := by
  induction h with
  | done => exact hset
  | next _ _ ih =>
    have hvisit := (ih hset).of_meet.2
    exact ⟨hvisit.strays, hvisit.meetings⟩

/-- So does one that takes in any number of tests. -/
lemma MergesAll.path {fork fork' : Fork} (h : s.MergesAll stack todo fork todo' fork') (hcap : todo.captured = [])
    (hset : Settled σ todo') (ht : Evaluation.ofInts.eval σ fork.cond = some (.bool t)) (hs : HasWords σ stack ns)
    (hsafe : M.Safe (fork.side t, ns)) :
    ∃ k t' ns', Evaluation.ofInts.eval σ fork'.cond = some (.bool t') ∧ HasWords σ stack ns' ∧
      M.Path k (fork.side t, ns) (fork'.side t', ns') := by
  induction h generalizing t ns with
  | done todo fork => exact ⟨0, t, ns, ht, hs, .refl _⟩
  | next head rest ih =>
    obtain ⟨hmeet, -⟩ := (rest.settled hset).of_meet
    obtain ⟨k, t₁, ns₁, ht₁, hs₁, hpath₁⟩ := head.path hM hcap hmeet ht hs hsafe
    obtain ⟨l, t', ns', ht', hs', hpath'⟩ := ih hcap hset ht₁ hs₁ (hpath₁.safe hsafe)
    exact ⟨l + k, t', ns', ht', hs', hpath₁.trans hpath'⟩

end Tests

/-! ### Branches -/

/-- A jump in an arm, and the block behind. -/
lemma standsFor_ifJump {cond : Expr} {arm join : BlockId} {jump : Stmt} (h : scope.jump? s.graph arm = .ok (some jump))
    (hland : ∀ landing, scope.landing? arm = some landing → SameWords σ landing stack)
    (ht : Evaluation.ofInts.eval σ cond = some (.bool t)) (hs : HasWords σ stack ns) (next : Option BlockId)
    (hnext : t = false → next = some join) :
    StandsFor M s.graph σ 0 scope (if t then arm else join, ns) { stmts := [.ifThen cond [jump]], next, stack } := by
  cases t with
  | true =>
    have hjump := standsFor_jump (M := M) h (fun landing hl => (hland landing hl).hasWords hs) next stack
    exact hjump.congr (execInts_ifThen ht _) fun id hid => ⟨hid, fun _ h => h⟩
  | false =>
    rw [hnext rfl]
    exact (standsFor_here hs).congr (execInts_ifThen ht _) fun id hid => ⟨hid, fun _ h => h⟩

variable (hw : s.Carries M σ w) (hlogs : s.Logs w)
include hw

lemma standsFor_emitArm {cond : Expr} {arm join : BlockId} (hun : Unprotected scope todo)
    (h : emitArm w scope stack cond arm join todo = .ok (p, todo')) (hset : Settled σ todo')
    (ht : Evaluation.ofInts.eval σ cond = some (.bool t)) (hs : HasWords σ stack ns)
    (hsafe : M.Safe (if t then arm else join, ns)) :
    StandsFor M s.graph σ 0 scope (if t then arm else join, ns) p := by
  obtain ⟨body, todo₁, hbody, rfl, rfl⟩ := of_yields yields_emitArm h
  obtain ⟨hmeet, hset⟩ := hset.of_meet
  obtain ⟨hnext, hset⟩ := hset.of_noteStop
  cases t with
  | true =>
    obtain ⟨harm, -⟩ := (hw hbody ⟨hun.ranges, hun.regions, hun.captured⟩ hset).2 hs hsafe
    refine (standsFor_of_withStop harm).congr (execInts_ifThen ht _) fun id hid => ?_
    rw [hid] at hnext
    refine ⟨(hnext.resolve_left nofun).symm, fun ns hns => ?_⟩
    simpa [Progress.stackOr, hid] using hns
  | false =>
    exact (standsFor_here (hmeet.hasWords hs)).congr (execInts_ifThen ht _) fun id hid => ⟨hid, fun _ h => h⟩

omit hw in
/-- A choice has the words of the arm that is gone, if the arms leave the same words below. -/
lemma hasWords_choice {cond : Expr} (ht : Evaluation.ofInts.eval σ cond = some (.bool t)) {v w : StackValue}
    {below below' : Stack} (hmeet : SameWords σ ({ v with expr := w.expr } :: below) (w :: below'))
    (hs : HasWords σ (if t then w :: below' else v :: below) ns) :
    HasWords σ (⟨.ternary cond.negate v.expr w.expr, v.wide⟩ :: below) ns := by
  have hnegate : Evaluation.ofInts.eval σ cond.negate = some (.bool !t) := Expr.value?_negate ht
  cases t with
  | true =>
    cases hmeet.hasWords hs with
    | cons hword hbelow => exact .cons ⟨hword.1, Expr.value?_ternary.mpr ⟨false, hnegate, hword.2⟩⟩ hbelow
  | false =>
    cases hs with
    | cons hword hbelow => exact .cons ⟨hword.1, Expr.value?_ternary.mpr ⟨true, hnegate, hword.2⟩⟩ hbelow

include hlogs

lemma standsFor_emitArms {fork : Fork} {join : Option BlockId} (hun : Unprotected scope todo)
    (h : emitArms w scope stack fork join todo = .ok (p, todo')) (hset : Settled σ todo')
    (ht : Evaluation.ofInts.eval σ fork.cond = some (.bool t)) (hs : HasWords σ stack ns)
    (hsafe : M.Safe (fork.side t, ns)) : StandsFor M s.graph σ 0 scope (fork.side t, ns) p := by
  obtain ⟨thenArm, todo₁, elseArm, todo₂, hthen, helse, hp⟩ := of_yields yields_emitArms h
  have hun : Unprotected (scope.withStop join) todo := ⟨hun.ranges, hun.regions, hun.captured⟩
  obtain ⟨_, htook, hun₁⟩ := hun.walk hlogs hthen
  obtain ⟨_, htook', -⟩ := hun₁.walk hlogs helse
  -- the arm that the machine is in front of
  have harm (hset : Settled σ todo₂) :
      StandsFor M s.graph σ 0 scope (fork.side t, ns) (if t then elseArm else thenArm) := by
    cases t with
    | true => exact standsFor_of_withStop ((hw helse hun₁ hset).2 hs hsafe).1
    | false => exact standsFor_of_withStop ((hw hthen hun (hset.before htook')).2 hs hsafe).1
  obtain ⟨j, merged, rfl, hchoice, rfl, rfl⟩ | ⟨next, kept, hnext, hkept, rfl, rfl⟩ := hp
  · obtain ⟨hmeet, hset₂⟩ := hset.of_meet
    obtain ⟨v, below, w, below', rfl, rfl, rfl⟩ := choice?_eq_some hchoice
    have hwords (ns : List Int32) : _ → HasWords σ _ ns := hasWords_choice ht hmeet
    cases t with
    | true => exact (harm hset₂).congr rfl fun id hid => ⟨hid, hwords⟩
    | false => exact (harm hset₂).congr rfl fun id hid => ⟨hid, hwords⟩
  · obtain ⟨hmeet, hset⟩ := hset.of_meet
    obtain ⟨helseNext, hset⟩ := hset.of_noteStop
    obtain ⟨hthenNext, hset⟩ := hset.of_noteStop
    refine (harm hset).congr ?_ fun id hid => ?_
    · rw [execInts_ifStmt ht]
      cases t <;> rfl
    cases t with
    | true =>
      have hid : elseArm.next = some id := hid
      rw [Progress.stackOr, hid] at hmeet
      exact ⟨(helseNext.resolve_left (by simp [hid])).symm.trans hid, fun ns hns => hmeet.hasWords hns⟩
    | false =>
      have hid : thenArm.next = some id := hid
      refine ⟨(hthenNext.resolve_left (by simp [hid])).symm.trans hid, fun ns hns => ?_⟩
      rw [hkept, Progress.stackOr, hid]
      exact hns

lemma standsFor_forked {fork : Fork} (hM : M.Follows s σ) (hun : Unprotected scope todo)
    (h : s.Forked w scope stack fork todo p todo') (hset : Settled σ todo')
    (ht : Evaluation.ofInts.eval σ fork.cond = some (.bool t)) (hs : HasWords σ stack ns)
    (hsafe : M.Safe (fork.side t, ns)) : StandsFor M s.graph σ 0 scope (fork.side t, ns) p := by
  have hnegate : Evaluation.ofInts.eval σ fork.cond.negate = some (.bool !t) := Expr.value?_negate ht
  have hside : fork.side t = if (!t) = true then fork.fall else fork.taken := by cases t <;> rfl
  cases h with
  | bothJump taken fall htaken hfall =>
    obtain ⟨hlandFall, hset⟩ := hset.of_land
    obtain ⟨hlandTaken, -⟩ := hset.of_land
    have hfirst := standsFor_ifJump (M := M) htaken hlandTaken ht hs (if t then none else some fork.fall)
      (by rintro rfl; rfl)
    -- where the first jump is not made, the second one is
    have hsecond (id : BlockId) (hid : (if t then none else some fork.fall) = some id) (ns : List Int32)
        (hns : HasWords σ stack ns) (_ : M.Safe (id, ns)) :
        StandsFor M s.graph σ 0 scope (id, ns) { stmts := [fall], next := none, stack } := by
      cases t with
      | true => cases hid
      | false =>
        cases hid
        exact standsFor_jump hfall (fun landing hl => (hlandFall landing hl).hasWords hns) none stack
    exact hfirst.append hM hsafe hsecond
  | takenJumps taken htaken => exact standsFor_ifJump htaken hset.of_land.1 ht hs _ fun _ => rfl
  | fallJumps fall hfall => exact hside ▸ standsFor_ifJump hfall hset.of_land.1 hnegate hs _ fun _ => rfl
  | thenOnly h =>
    rw [hside] at hsafe ⊢
    exact standsFor_emitArm hw hun h hset hnegate hs hsafe
  | elseOnly h => exact standsFor_emitArm hw hun h hset ht hs hsafe
  | arms h => exact standsFor_emitArms hw hlogs hun h hset ht hs hsafe

/-! ### Constructs -/

variable (hM : M.Follows s σ)
include hM

/-- The machine has gone through a block to a successor. -/
lemma standsFor_exited {b : Block} {r : Recovered} (hb : s.graph.block? id = some b) (hun : Unprotected scope todo)
    (h : s.Exited w scope b id r todo p todo') (hset : Settled σ todo') {next : BlockId} (hnext : next ∈ b.succs)
    (hfork : ∀ taken fall, b.succs = [taken, fall] →
      ∃ c t, r.exit = some (.conditional c) ∧ Tells σ c t ∧ next = if t then taken else fall)
    (hs : HasWords σ r.stack ns) (hsafe : M.Safe (next, ns)) : StandsFor M s.graph σ 0 scope (next, ns) p := by
  cases h with
  | switch h =>
    obtain ⟨b', edges, _, _, hb', hedges, -⟩ := of_yields yields_emitSwitch h
    cases (hM.switch hb').symm.trans hedges
  | @fork cond taken fall fork p todo₁ todo' hexit hsuccs hmerges h =>
    obtain ⟨c, t, hc, htells, rfl⟩ := hfork taken fall hsuccs
    cases hexit.symm.trans hc
    have hun₁ := hmerges.unprotected hun
    have hleads (n : BlockId) (hn : n ∈ [taken, fall]) : s.Leads id n := leads_of_mem_succs hb (hsuccs ▸ hn)
    obtain ⟨_, -, -, htaken, hfall⟩ := hmerges.took hun.captured (hleads taken (by simp)) (hleads fall (by simp))
    obtain ⟨_, htook, -⟩ := logged_forked hlogs hun₁.captured hun₁.regions htaken hfall h
    obtain ⟨k, t', ns', ht', hs', hpath⟩ :=
      hmerges.path hM hun.captured (hset.before htook) htells.1 hs hsafe
    have hforked := standsFor_forked hw hlogs hM hun₁ h hset ht' hs' (hpath.safe hsafe)
    exact hforked.behind hM hpath (Nat.zero_le _)
  | leave hsuccs => simp [hsuccs] at hnext
  | goOn hsuccs =>
    obtain rfl : next = _ := by simpa [hsuccs] using hnext
    exact standsFor_here hs

lemma standsFor_emitBlock (hun : Unprotected scope todo) (h : s.emitBlock w scope id stack todo = .ok (p, todo'))
    (hset : Settled σ todo') (hs : HasWords σ stack ns) (hsafe : M.Safe (id, ns)) :
    StandsFor M s.graph σ 1 scope (id, ns) p := by
  obtain ⟨b, r, tail, hr, hexited, rfl⟩ := of_yields yields_emitBlock h
  have hun' : Unprotected scope (todo.visit id) := ⟨hun.ranges, hun.regions, hun.captured⟩
  cases hM.through hr.block (run_of_runsTo hr hun.captured) hs with
  | faults h => exact absurd h (hsafe _ _)
  | @returns n v h hruns =>
    refine standsFor_of_stop (o := .returned (v.map .int)) ?_ ⟨n, v, rfl, h⟩
    rw [execInts, Evaluation.execEach_append, Run.andThen, Run.bind_apply hruns]
    rfl
  | goesOn h hstmts hwords hnext hfork =>
    have hpath : M.Path _ (id, ns) _ := h
    have htail := standsFor_exited hw hlogs hM hr.block hun' hexited hset hnext hfork hwords (hpath.safe hsafe)
    rw [hstmts]
    exact htail.behind hM hpath (by omega)

lemma standsFor_emitLoop {loop : Loop} (hun : Unprotected scope todo)
    (h : s.emitLoop w scope loop stack todo = .ok (p, todo')) (hset : Settled σ todo') (hs : HasWords σ stack ns)
    (hsafe : M.Safe (loop.header, ns)) : StandsFor M s.graph σ 1 scope (loop.header, ns) p := by
  obtain ⟨cond, entry, left, body, htest, hbody, rfl⟩ | ⟨body, hbody, rfl⟩ := of_yields yields_emitLoop h
  · have hun' : Unprotected (scope.enterLoop loop stack) ((todo.visit loop.header).meet stack left) :=
      ⟨hun.ranges, hun.regions, hun.captured⟩
    obtain ⟨_, htook, -⟩ := hun'.walk hlogs hbody
    obtain ⟨hmeet, -⟩ := (hset.before htook).of_meet
    obtain ⟨hnext, hround⟩ := hw hbody hun' hset
    refine standsFor_loop (fun ns hs hsafe => ?_) (hnext rfl) hM hs hsafe
    obtain ⟨k, t, ns', exit, hexit, ht, hwords, hpath⟩ := htest.path hM hun.captured hs hsafe
    refine ⟨t, test_of_eval ht, ?_, ?_⟩
    · rintro rfl
      exact (hround (hmeet.hasWords hwords) (hpath.safe hsafe)).1.behind hM hpath (by omega)
    · rintro rfl
      exact ⟨exit, hexit, k + 1, ns', by omega, hmeet.hasWords hwords, hpath⟩
  · obtain ⟨hnext, hround⟩ := hw hbody ⟨hun.ranges, hun.regions, hun.captured⟩ hset
    refine standsFor_loop (fun ns hs hsafe => ⟨true, rfl, fun _ => ?_, nofun⟩) (hnext rfl) hM hs hsafe
    exact (hround hs hsafe).2 rfl rfl

lemma standsFor_emitConstruct (hun : Unprotected scope todo)
    (h : s.emitConstruct w scope id stack todo = .ok (p, todo')) (hset : Settled σ todo') (hs : HasWords σ stack ns)
    (hsafe : M.Safe (id, ns)) : StandsFor M s.graph σ 1 scope (id, ns) p := by
  obtain ⟨region, hregion, -⟩ | ⟨loop, -, rfl, -, -, h⟩ | ⟨-, h⟩ := of_yields yields_emitConstruct h
  · rw [hun.regions] at hregion
    cases hregion
  · exact standsFor_emitLoop hw hlogs hM hun h hset hs hsafe
  · exact standsFor_emitBlock hw hlogs hM hun h hset hs hsafe

omit w scope id stack todo todo' p ns t hw hlogs in
/-- **Every settled walk stands for the machine.** By induction on the number of its steps. -/
lemma carries_walk (fuel : Nat) : s.Carries M σ (s.walk fuel) := by
  induction fuel with
  | zero => exact fun h => by cases h
  | succ fuel ih =>
    intro scope entering id stack todo p todo' h hun hset
    cases of_yields yields_walk h with
    | jump hentering hjump =>
      refine ⟨fun _ => rfl, fun hs hsafe => ⟨?_, fun h => ?_⟩⟩
      · exact standsFor_jump hjump (fun landing hl => (hset.of_land.1 landing hl).hasWords hs) none stack
      · cases hentering.symm.trans h
    | stop hstop =>
      refine ⟨fun hstops => ?_, fun hs hsafe => ⟨standsFor_here hs, fun _ hstops => ?_⟩⟩
      all_goals simp [Scope.stopsAt, hstops, hun.ranges] at hstop
    | last hopen hfirst hnext =>
      refine ⟨fun _ => hnext, fun hs hsafe => ?_⟩
      have hp := standsFor_emitConstruct ih (logs_walk fuel) hM hun hfirst hset hs hsafe
      exact ⟨hp.behind hM (.refl _) (Nat.zero_le _), fun _ _ => hp⟩
    | @more first rest next todo₁ todo' hopen hfirst hnext hrest =>
      obtain ⟨_, htook, hun₁⟩ := hun.construct (logs_walk fuel) hopen hfirst
      obtain ⟨_, htook', -⟩ := hun₁.walk (logs_walk fuel) hrest
      obtain ⟨hstops, hbehind⟩ := ih hrest hun₁ hset
      refine ⟨hstops, fun hs hsafe => ?_⟩
      have hp := standsFor_emitConstruct ih (logs_walk fuel) hM hun hfirst (hset.before htook') hs hsafe
      have hboth := hp.append hM hsafe fun id hid ns hns hsafe => by
        cases hnext.symm.trans hid
        exact (hbehind hns hsafe).1
      exact ⟨hboth.behind hM (.refl _) (Nat.zero_le _), fun _ _ => hboth⟩

end Setting

/-! ### Main statement -/

/-- Statements that lead nowhere, outside of all constructs, can only return. -/
lemma returned_of_leadsTo {M : BlockRun} {g : FlowGraph} {σ : Store} {k : Nat} {place : Place} {p : Progress}
    (hnext : p.next = none) {o : Source.Outcome} (h : LeadsTo M g σ k {} place p o) :
    ∃ n v, o = .returned (v.map .int) ∧ M n place = some (.ok v) := by
  cases o with
  | done =>
    obtain ⟨id, hid, -⟩ := h
    cases hnext.symm.trans hid
  | returned x =>
    obtain ⟨n, v, rfl, hn⟩ := h
    exact ⟨n, v, rfl, hn⟩
  | thrown => exact h.elim
  | broken | continued =>
    obtain ⟨id, landing, hjump, -⟩ := h
    cases hjump

/-- **Values survive joins.** Code without handlers that writes to no slot is written as a tree. In a store in which
stacks that met have the same words, and in which the code does not fault, a tree without strays returns what the code
returns, and nothing else; where the code does not come to an end, neither does the tree. -/
theorem structureWalk_carries_values {ctx : Context} {code : Code} (hrows : code.handlers = [])
    (hcode : ∀ i ∈ decode code.bytes, isReadOnly i = true) {body : List Stmt} {todo : Todo}
    (h : structureWalk ctx (CodeShape.ofCode code) = .ok (body, todo)) {σ : Store} {locals : UInt16 → Int32}
    (hl : Holds ctx.names σ locals) (hset : Settled σ todo)
    (hsafe : ∀ e, ¬Results (decode code.bytes) locals (.error e)) (τ : Store) (o : Source.Outcome) :
    Evaluation.ofInts.execEach false body σ τ o ↔
      τ = σ ∧ ∃ v, Results (decode code.bytes) locals (.ok v) ∧ o = .returned (v.map .int) := by
  have hM := follows_blockRun hcode hl
  have hregions := regions_ofCode hrows
  have hfirst (n : Nat) : blockRun code.bytes (tableLeaders code.handlers) locals n (0, []) =
      codeRun (decode code.bytes) n 0 { locals, stack := [] } := by
    rw [blockRun, startOf_zero]
  obtain ⟨hsize, -⟩ | ⟨fuel, p, hwalk, rfl, -⟩ := structureWalk_ok h
  · -- without blocks there are no instructions
    refine absurd ⟨1, codeRun_of_nowhere (fun i hi => ?_) 0⟩ (hsafe .malformed)
    obtain ⟨id, b, hb, -⟩ := (FlowGraph.cuts_withLeaders (coherent_decode code.bytes) _).exists_block hi
    exact absurd (FlowGraph.lt_size_of_block? hb) (hsize.trans_le (Nat.zero_le id)).not_gt
  obtain ⟨hnext, hstands⟩ := Setting.carries_walk hM fuel hwalk ⟨rfl, hregions, rfl⟩ hset
  obtain ⟨hstands, -⟩ := hstands .nil fun n e hn => hsafe e ⟨n, (hfirst n).symm.trans hn⟩
  constructor
  · intro hrun
    obtain ⟨hτ, hleads⟩ := hstands.sound hrun
    obtain ⟨n, v, ho, hn⟩ := returned_of_leadsTo (hnext rfl) hleads
    exact ⟨hτ, v, ⟨n, (hfirst n).symm.trans hn⟩, ho⟩
  · rintro ⟨rfl, v, ⟨n, hn⟩, rfl⟩
    obtain ⟨τ, o, hrun⟩ := hstands.complete ((hfirst n).trans hn)
    obtain ⟨rfl, hleads⟩ := hstands.sound hrun
    obtain ⟨m, v', rfl, hm⟩ := returned_of_leadsTo (hnext rfl) hleads
    cases Results.unique ⟨m, (hfirst m).symm.trans hm⟩ ⟨n, hn⟩
    exact hrun

/-- `return b + (a != 0 ? (b > 0 ? 1 : 2) : 3)`: while both choices are made, `b` waits on the stack. -/
def nestedChoice : Code :=
  { bytes := [0x1b, 0x1a, 0x99, 0x00, 0x0f, 0x1b, 0x9e, 0x00, 0x07, 0x04, 0xa7, 0x00, 0x08, 0x05, 0xa7, 0x00, 0x04,
      0x06, 0x60, 0xac] }

/-- The theorem at a choice in a choice, with 3 in all variables. -/
theorem nestedChoice_carried :
    ∃ body todo, structureWalk numberedContext (CodeShape.ofCode nestedChoice) = .ok (body, todo) ∧
      todo.meetings.length = 2 ∧ Settled (fun _ => 3) todo ∧
      ∀ τ o, Evaluation.ofInts.execEach false body (fun _ => 3) τ o ↔
        τ = (fun _ => 3) ∧ o = .returned (some (.int 4)) := by
  have hresult : Results (decode nestedChoice.bytes) (fun _ => 3) (.ok (some 4)) := ⟨20, by decide +kernel⟩
  have hwritten : (structureWalk numberedContext (CodeShape.ofCode nestedChoice)).toOption.any
      (fun r => r.2.meetings.length == 2 && r.2.strays == [] &&
        decide (∀ m ∈ r.2.meetings, SameWords (fun _ => 3) m.1 m.2)) = true := by decide +kernel
  obtain ⟨⟨body, todo⟩, hwalk, h⟩ := exists_ok_of_any hwritten
  simp only [Bool.and_eq_true, beq_iff_eq, decide_eq_true_eq] at h
  obtain ⟨⟨hmeetings, hstrays⟩, hsame⟩ := h
  refine ⟨body, todo, hwalk, hmeetings, ⟨hstrays, hsame⟩, fun τ o => ?_⟩
  rw [structureWalk_carries_values rfl (by decide +kernel) hwalk (fun _ _ => rfl) ⟨hstrays, hsame⟩
    (fun e he => by cases hresult.unique he)]
  refine and_congr_right fun _ => ⟨?_, fun ho => ⟨some 4, hresult, ho⟩⟩
  rintro ⟨v, hv, ho⟩
  cases hresult.unique hv
  exact ho

/-! ### A lost value -/

/-- `return a == 0 ? 5 : a`: `0: iload_0; dup; ifne 7`, `5: pop; iconst_5`, `7: ireturn`. -/
def defaultForZero : Code :=
  { bytes := [0x1a, 0x59, 0x9a, 0x00, 0x05, 0x57, 0x08, 0xac] }

def defaultForZeroShape : Instruction → Shape :=
  shapeAt [[], [false], [false, false], [], [], [false], [], [false]]

/-- Statements that return a number, whatever an `if` in front of it tests. -/
def returnsBehindTest (σ : Store) (n : Int32) : List Stmt → Bool
  | [.ifThen cond [], .returnValue (.int m)] => m == n && (Evaluation.ofInts.test cond σ).isSome
  | _ => false

lemma execInts_of_returnsBehindTest {σ : Store} {n : Int32} {body : List Stmt} (h : returnsBehindTest σ n body = true) :
    execInts body σ = Run.stop (.returned (some (.int n))) σ := by
  unfold returnsBehindTest at h
  split at h
  · rename_i cond m
    simp only [Bool.and_eq_true, beq_iff_eq, Option.isSome_iff_exists] at h
    obtain ⟨rfl, t, ht⟩ := h
    have hm : Evaluation.ofInts.eval σ (.int m) = some (.int m) := rfl
    have hif : Evaluation.ofInts.exec false (.ifThen cond []) σ = Run.stop .done σ := by
      rw [Evaluation.exec, Run.branch_apply ht, Evaluation.execEach, ite_self]
    rw [execInts, Evaluation.execEach, Run.andThen, Run.bind_apply hif, Run.onDone, Evaluation.execEach_singleton,
      Evaluation.exec]
    exact Run.reading_apply (f := (Evaluation.ofInts.eval · (.int m))) hm _
  · cases h

/-- The tree of `defaultForZero` drops the value that is on the stack when the code jumps: it goes on behind the `if`
with the 5 of the arm. Where the code returns 7, the tree returns 5. -/
theorem defaultForZero_not_carried :
    Balanced (decode defaultForZero.bytes) defaultForZeroShape ∧
    (∀ i ∈ decode defaultForZero.bytes, isReadOnly i = true) ∧
    ∃ body todo, structureWalk numberedContext (CodeShape.ofCode defaultForZero) = .ok (body, todo) ∧ todo.strays = [] ∧
      Results (decode defaultForZero.bytes) (fun _ => 7) (.ok (some 7)) ∧
      ∀ τ o, Evaluation.ofInts.execEach false body (fun _ => 7) τ o ↔
        τ = (fun _ => 7) ∧ o = .returned (some (.int 5)) := by
  have hwritten : (structureWalk numberedContext (CodeShape.ofCode defaultForZero)).toOption.any
      (fun r => r.2.strays == [] && returnsBehindTest (fun _ => 7) 5 r.1) = true := by decide +kernel
  obtain ⟨⟨body, todo⟩, hwalk, h⟩ := exists_ok_of_any hwritten
  simp only [Bool.and_eq_true, beq_iff_eq] at h
  refine ⟨balanced_of_check (by decide +kernel), by decide +kernel, body, todo, hwalk, h.1, ⟨10, by decide +kernel⟩, ?_⟩
  intro τ o
  rw [← execInts, execInts_of_returnsBehindTest h.2, Run.stop]

end JvmLift.Structure
