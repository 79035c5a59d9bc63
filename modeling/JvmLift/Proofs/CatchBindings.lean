import Mathlib
import JvmLift.Proofs.Blindness
import JvmLift.Proofs.JumpTargets
import JvmLift.Proofs.ParameterNames
import JvmLift.Proofs.SlotUses

/-!
# The bindings of catch clauses

A handler that begins by storing the exception has the variable of that slot as its binding, and any other handler has
`e`. What occurs in the clause comes from the code behind the handler: variables of slots, names of pool entries, and
exceptions that are kept nowhere. Without debug names no two slots have the same name, so the binding of a handler that
stores the exception stands for its slot only. But `e` is also the name of the fifth parameter, and nothing keeps that
parameter out of a clause that binds `e`.
-/

namespace JvmLift.Source.Stmt

variable {A : String → Prop} {Q : CatchClause → Prop} {P : Stmt → Prop}

lemma everyIn_append {front back : List Stmt} : EveryIn P (front ++ back) ↔ EveryIn P front ∧ EveryIn P back := by
  simp only [everyIn_iff, List.forall_mem_append]

lemma everyInClauses_ofCatches {clauses : List CatchClause} (h : ∀ c ∈ clauses, EveryIn P c.body) :
    EveryInClauses P (.ofCatches none clauses) := by
  induction clauses with
  | nil => trivial
  | cons c rest ih =>
    rw [List.forall_mem_cons] at h
    exact ⟨h.1, ih h.2⟩

lemma every_of_isLeaf {s : Stmt} (hleaf : s.isLeaf = true) (h : ∀ e ∈ s.exprs, e.NamesIn A) : s.Every (Within A Q) := by
  cases s <;> first | exact within_of_exprs rfl rfl h | cases hleaf

end JvmLift.Source.Stmt

namespace JvmLift.Recovery

open Bytecode

def Effect.isStore : Effect → Bool
  | store => true
  | _ => false

/-- Stores of references are stores. -/
lemma effectOf_of_storesReference {op : Opcode} (h : op.storesReference = true) : effectOf op = .store := by
  have hall : ∀ op : Opcode, op.storesReference = true → (effectOf op).isStore = true := by decide +kernel
  have hstore := hall op h
  cases heffect : effectOf op <;> rw [heffect] at hstore <;> first | rfl | cases hstore

/-- A store assigns to the variable of its slot, and without a slot there is no assignment. -/
lemma stmts_of_store {ctx : Context} {i : Instruction} {v : StackValue} {stack : Stack} {r : Recovered}
    (hstore : effectOf i.opcode = .store) (h : step ctx i (v :: stack) = .ok r) :
    (∃ slot offset, slotUse? i = some (slot, offset) ∧ r.stmts = [.assign (.var (ctx.names slot offset)) v.expr]) ∨
    slotUse? i = none ∧ (r.stmts = [] ∨ ∃ text, r.stmts = [.comment text]) := by
  have hnone (hslot : ∀ slot, i.operand ≠ .slot slot) : slotUse? i = none := by
    unfold slotUse?
    rw [hstore]
    split <;> simp_all
  obtain ⟨hundecoded, text, rfl⟩ | ⟨-, h⟩ := step_ok h
  · refine .inr ⟨hnone fun slot hslot => ?_, .inr ⟨text, rfl⟩⟩
    simp [Instruction.isUndecoded, hslot] at hundecoded
  · rw [hstore] at h
    simp only [applyEffect?] at h
    split at h
    · next slot hoperand =>
      cases h
      exact .inl ⟨slot, i.next, by simp [slotUse?, hstore, hoperand], rfl⟩
    · next hoperand =>
      cases h
      exact .inr ⟨hnone hoperand, .inl rfl⟩

end JvmLift.Recovery

namespace JvmLift.Structure

open Bytecode JvmLift.Flow Recovery Relation Source Stmt

/-! ### Handlers -/

/-- The slot to which a handler stores the exception before it does anything else, and the offset at which the slot is
named. -/
def keptSlot? (b : Block) : Option (UInt16 × Nat) :=
  (b.body.head?.filter (·.opcode.storesReference)).bind slotUse?

namespace Setting

variable (s : Setting)

/-- The variable of the slot in which a handler keeps the exception, or `e`. -/
def bindingOf (b : Block) : String :=
  (keptSlot? b).elim "e" fun use => s.context.names use.1 use.2

/-- What is on the stack when a handler goes on behind its binding. -/
def entryOf (b : Block) : Stack :=
  if (keptSlot? b).isSome then [] else [caught]

/-- A walk may go on from a block to another, or to a handler of a range that starts there. -/
def Proceeds (a b : BlockId) : Prop :=
  s.GoesOn a b ∨ ∃ region ∈ s.regions, region.start = s.graph.startOf a ∧ ∃ handler ∈ region.handlers, handler.block = b

abbrev ProceedsTo : BlockId → BlockId → Prop :=
  ReflTransGen s.Proceeds

/-- The code from a block on refers to a slot, which is named at an offset. -/
def UsesSlot (start : BlockId) (slot : UInt16) (offset : Nat) : Prop :=
  ∃ id b i, s.ProceedsTo start id ∧ s.graph.block? id = some b ∧ i ∈ b.body ∧ slotUse? i = some (slot, offset)

/-- The variables that the code from a block on may bring. -/
inductive Names (start : BlockId) : String → Prop
  | slot {slot : UInt16} {offset : Nat} (h : s.UsesSlot start slot offset) : Names start (s.context.names slot offset)
  | pool {id : BlockId} {b : Block} {i : Instruction} {x : String} (hid : s.ProceedsTo start id)
      (hb : s.graph.block? id = some b) (hi : i ∈ b.body) (hx : poolName? s.context i = some x) : Names start x
  /-- An exception that its handler does not keep. -/
  | caught {id : BlockId} {b : Block} (hid : s.ProceedsTo start id) (hhandler : s.IsHandler id)
      (hb : s.graph.block? id = some b) (hkept : keptSlot? b = none) : Names start "e"

/-- A clause is the one of a handler: it has its binding, and its variables come from the code behind the handler. -/
structure ClauseOf (c : CatchClause) (id : BlockId) (b : Block) : Prop where
  handler : s.IsHandler id
  block : s.graph.block? id = some b
  binding : c.binding = s.bindingOf b
  names : EveryIn (Stmt.NamesIn (s.Names id)) c.body

def HasHandler (c : CatchClause) : Prop :=
  ∃ id b, s.ClauseOf c id b

variable {s} {A : String → Prop} {start id : BlockId} {stack : Stack} {todo todo' : Todo} {p : Progress}

/-! ### Ways -/

lemma proceedsTo_of_leads {a b : BlockId} (h : s.Leads a b) : s.ProceedsTo a b :=
  ReflTransGen.mono (fun _ _ => Or.inl) _ _ h

lemma Names.mono {x : String} (h : s.Names id x) (hid : s.ProceedsTo start id) : s.Names start x := by
  cases h with
  | slot h =>
    obtain ⟨id', b, i, hid', h⟩ := h
    exact .slot ⟨id', b, i, hid.trans hid', h⟩
  | pool hid' hb hi hx => exact .pool (hid.trans hid') hb hi hx
  | caught hid' hhandler hb hkept => exact .caught (hid.trans hid') hhandler hb hkept

lemma names_of_brings {b : Block} {i : Instruction} {x : String} (hb : s.graph.block? id = some b) (hi : i ∈ b.body)
    (hx : Brings s.context i x) : s.Names id x := by
  obtain ⟨slot, offset, huse, rfl⟩ | hx := hx
  · exact .slot ⟨id, b, i, .refl, hb, hi, huse⟩
  · exact .pool .refl hb hi hx

lemma names_bindingOf {b : Block} (hhandler : s.IsHandler id) (hb : s.graph.block? id = some b) :
    s.Names id (s.bindingOf b) := by
  cases hkept : keptSlot? b with
  | none =>
    rw [bindingOf, hkept]
    exact .caught .refl hhandler hb hkept
  | some use =>
    obtain ⟨first, hfirst, huse⟩ := Option.bind_eq_some_iff.mp hkept
    rw [bindingOf, hkept]
    exact .slot ⟨id, b, first, .refl, hb, List.mem_of_head? (Option.filter_eq_some_iff.mp hfirst).1, huse⟩

/-! ### Blocks -/

lemma RunsTo.namesIn {b : Block} {r : Recovered} (h : s.RunsTo todo id stack b r) (hA : ∀ x, s.Names id x → A x)
    (hstack : StackNamesIn A stack) : r.NamesIn A :=
  namesIn_of_run h.run hstack fun _ hi x hx => hA x (names_of_brings h.block (List.mem_of_mem_drop hi) hx)

lemma RunsTo.everyIn {b : Block} {r : Recovered} (h : s.RunsTo todo id stack b r) {Q : CatchClause → Prop}
    (hr : r.NamesIn A) : EveryIn (Within A Q) r.stmts :=
  everyIn_iff.mpr fun st hst => every_of_isLeaf ((proper_of_run h.run).leaf st hst) (hr.stmts st hst)

/-- What is known of a bare test. -/
lemma IsBareTest.namesIn {cond : Condition} {taken fall : BlockId} {left : Stack}
    (h : s.IsBareTest todo id stack cond taken fall left) (hA : ∀ x, s.Names id x → A x)
    (hstack : StackNamesIn A stack) :
    cond.taken.NamesIn A ∧ cond.fallthrough.NamesIn A ∧ s.ProceedsTo id taken ∧ s.ProceedsTo id fall := by
  obtain ⟨b, r, hr, hsuccs, hexit, -, -⟩ := h.runs
  have hcond := (hr.namesIn hA hstack).exit _ hexit
  simp only [Exit.exprs, List.forall_mem_cons] at hcond
  exact ⟨hcond.1, hcond.2.1, proceedsTo_of_leads (leads_of_mem_succs hr.block (by simp [hsuccs])),
    proceedsTo_of_leads (leads_of_mem_succs hr.block (by simp [hsuccs]))⟩

/-- A fork of a walk from a block: its condition has known variables, and its ways start where the walk may come to. -/
structure Forks (s : Setting) (A : String → Prop) (id : BlockId) (fork : Fork) : Prop where
  cond : fork.cond.NamesIn A
  taken : s.ProceedsTo id fork.taken
  fall : s.ProceedsTo id fork.fall

lemma MergesAll.forks {fork fork' : Fork} (h : s.MergesAll stack todo fork todo' fork') (hA : ∀ x, s.Names id x → A x)
    (hstack : StackNamesIn A stack) (hfork : s.Forks A id fork) : s.Forks A id fork' := by
  induction h with
  | done => exact hfork
  | @next todo todo' fork fork₁ fork' left head rest ih =>
    refine ih ?_
    have hA' (x : String) (hx : s.Names fork.fall x) : A x := hA x (hx.mono hfork.fall)
    obtain ⟨cond, ⟨htest, hcond⟩ | ⟨htest, hcond⟩⟩ := head.test
    · obtain ⟨htaken, -, -, hfall⟩ := htest.namesIn hA' hstack
      exact ⟨hcond ▸ Expr.namesIn_binary.mpr ⟨hfork.cond, htaken⟩, head.taken ▸ hfork.taken, hfork.fall.trans hfall⟩
    · obtain ⟨-, hfall, htaken, -⟩ := htest.namesIn hA' hstack
      exact ⟨hcond ▸ Expr.namesIn_binary.mpr ⟨hfork.cond, hfall⟩, head.taken ▸ hfork.taken, hfork.fall.trans htaken⟩

/-! ### Branches -/

/-- What a part of a walk from a block has come to: its variables are among given ones, its clauses are those of
handlers, and it goes on where the walk may come to. -/
structure Sourced (s : Setting) (A : String → Prop) (id : BlockId) (p : Progress) (todo' : Todo) : Prop where
  stmts : EveryIn (Within A s.HasHandler) p.stmts
  stack : StackNamesIn A p.stack
  next : ∀ n, p.next = some n → s.ProceedsTo id n
  regions : todo'.regions ⊆ s.regions

/-- The walks of a walker bring no variables but those of the code that they come to. -/
def Sourcing (s : Setting) (w : Walker) : Prop :=
  ∀ ⦃A scope entering id stack todo p todo'⦄, w scope entering id stack todo = .ok (p, todo') →
    todo.regions ⊆ s.regions → (∀ x, s.Names id x → A x) → StackNamesIn A stack → s.Sourced A id p todo'

lemma everyIn_jump {scope : Scope} {jump : Stmt} (h : scope.jump? s.graph id = .ok (some jump)) :
    EveryIn (Within A s.HasHandler) [jump] := by
  obtain ⟨rfl, -⟩ | ⟨rfl, -, -⟩ := Scope.cases_of_jump? h <;>
    exact ⟨within_of_exprs rfl rfl (by simp [exprs]), trivial⟩

lemma every_ifThen {cond : Expr} {body : List Stmt} (hcond : cond.NamesIn A)
    (hbody : EveryIn (Within A s.HasHandler) body) : (Stmt.ifThen cond body).Every (Within A s.HasHandler) :=
  ⟨within_of_exprs rfl rfl (by simpa [exprs] using hcond), hbody⟩

lemma every_ifStmt {cond negated : Expr} {thenBody elseBody : List Stmt} (hcond : cond.NamesIn A)
    (hnegated : negated.NamesIn A) (hthen : EveryIn (Within A s.HasHandler) thenBody)
    (helse : EveryIn (Within A s.HasHandler) elseBody) :
    (ifStmt cond negated thenBody elseBody).Every (Within A s.HasHandler) := by
  unfold ifStmt
  split_ifs
  · exact every_ifThen hcond hthen
  · exact every_ifThen hnegated helse
  · exact ⟨within_of_exprs rfl rfl (by simpa [exprs] using hcond), hthen, helse⟩

lemma stackNamesIn_stackOr {other : Stack} (hp : StackNamesIn A p.stack) (h : StackNamesIn A other) :
    StackNamesIn A (p.stackOr other) := by
  unfold Progress.stackOr
  split_ifs
  · exact hp
  · exact h

lemma everyIn_dropContinue {P : Stmt → Prop} {body : List Stmt} (h : EveryIn P body) :
    EveryIn P (dropContinue body) := by
  unfold dropContinue
  split
  · rw [everyIn_iff] at h ⊢
    exact fun st hst => h st (List.dropLast_subset _ hst)
  · exact h

variable {w : Walker} (hw : s.Sourcing w) {scope : Scope}
include hw

lemma sourced_emitArm {cond : Expr} {arm join : BlockId} (hcond : cond.NamesIn A) (harm : s.ProceedsTo id arm)
    (hjoin : s.ProceedsTo id join) (hregions : todo.regions ⊆ s.regions) (hA : ∀ x, s.Names id x → A x)
    (hstack : StackNamesIn A stack) (h : emitArm w scope stack cond arm join todo = .ok (p, todo')) :
    s.Sourced A id p todo' := by
  obtain ⟨body, todo₁, hbody, rfl, rfl⟩ := of_yields yields_emitArm h
  have hbody := hw hbody hregions (fun x hx => hA x (hx.mono harm)) hstack
  refine ⟨⟨every_ifThen hcond hbody.stmts, trivial⟩, stackNamesIn_stackOr hbody.stack hstack, ?_, hbody.regions⟩
  rintro _ ⟨⟩
  exact hjoin

lemma sourced_emitArms {fork : Fork} (hfork : s.Forks A id fork) {join : Option BlockId}
    (hjoin : ∀ j, join = some j → s.ProceedsTo id j) (hregions : todo.regions ⊆ s.regions)
    (hA : ∀ x, s.Names id x → A x) (hstack : StackNamesIn A stack)
    (h : emitArms w scope stack fork join todo = .ok (p, todo')) : s.Sourced A id p todo' := by
  obtain ⟨thenArm, todo₁, elseArm, todo₂, hthen, helse, hp⟩ := of_yields yields_emitArms h
  replace hthen := hw hthen hregions (fun x hx => hA x (hx.mono hfork.fall)) hstack
  replace helse := hw helse hthen.regions (fun x hx => hA x (hx.mono hfork.taken)) hstack
  have hnegate := Expr.namesIn_negate hfork.cond
  obtain ⟨j, merged, rfl, hchoice, rfl, rfl⟩ | ⟨next, kept, rfl, rfl, rfl, rfl⟩ := hp
  · obtain ⟨u, below, v, below', rfl, rfl, rfl⟩ := choice?_eq_some hchoice
    obtain ⟨hu, hbelow⟩ := stackNamesIn_cons.mp hthen.stack
    obtain ⟨hv, -⟩ := stackNamesIn_cons.mp helse.stack
    refine ⟨trivial, stackNamesIn_cons.mpr ⟨Expr.namesIn_ternary.mpr ⟨hnegate, hu, hv⟩, hbelow⟩, ?_, helse.regions⟩
    rintro _ ⟨⟩
    exact hjoin j rfl
  · refine ⟨⟨every_ifStmt hnegate hfork.cond hthen.stmts helse.stmts, trivial⟩,
      stackNamesIn_stackOr hthen.stack (stackNamesIn_stackOr helse.stack hstack), fun n hn => ?_, helse.regions⟩
    rcases Option.or_eq_some_iff.mp hn with hn | ⟨-, hn⟩
    · exact hjoin n hn
    · rcases Option.or_eq_some_iff.mp hn with hn | ⟨-, hn⟩
      · exact hfork.fall.trans (hthen.next n hn)
      · exact hfork.taken.trans (helse.next n hn)

lemma sourced_forked {fork : Fork} (hfork : s.Forks A id fork) (hregions : todo.regions ⊆ s.regions)
    (hA : ∀ x, s.Names id x → A x) (hstack : StackNamesIn A stack) (h : s.Forked w scope stack fork todo p todo') :
    s.Sourced A id p todo' := by
  have hnegate := Expr.namesIn_negate hfork.cond
  cases h with
  | bothJump taken fall htaken hfall =>
    exact ⟨⟨every_ifThen hfork.cond (everyIn_jump htaken), everyIn_jump hfall⟩, hstack, nofun, hregions⟩
  | takenJumps taken htaken =>
    refine ⟨⟨every_ifThen hfork.cond (everyIn_jump htaken), trivial⟩, hstack, ?_, hregions⟩
    rintro _ ⟨⟩
    exact hfork.fall
  | fallJumps fall hfall =>
    refine ⟨⟨every_ifThen hnegate (everyIn_jump hfall), trivial⟩, hstack, ?_, hregions⟩
    rintro _ ⟨⟩
    exact hfork.taken
  | thenOnly h => exact sourced_emitArm hw hnegate hfork.fall hfork.taken hregions hA hstack h
  | elseOnly h => exact sourced_emitArm hw hfork.cond hfork.taken hfork.fall hregions hA hstack h
  | arms h =>
    refine sourced_emitArms hw hfork (fun j hj => ?_) hregions hA hstack h
    have hreach := List.mem_of_mem_filter (mem_of_leastBy? hj)
    exact hfork.fall.trans (proceedsTo_of_leads (leads_of_forwardReach hreach))

/-! ### Blocks, switches and loops -/

lemma everyIn_of_emitBodies {exit : Option BlockId} {targets : List BlockId} {bodies : List (BlockId × List Stmt)}
    (h : emitBodies w scope exit stack targets todo = .ok (bodies, todo'))
    (htargets : ∀ target ∈ targets, s.ProceedsTo id target) (hregions : todo.regions ⊆ s.regions)
    (hA : ∀ x, s.Names id x → A x) (hstack : StackNamesIn A stack) :
    (∀ body ∈ bodies, EveryIn (Within A s.HasHandler) body.2) ∧ todo'.regions ⊆ s.regions := by
  induction targets generalizing todo bodies with
  | nil =>
    cases h
    exact ⟨List.forall_mem_nil _, hregions⟩
  | cons target rest ih =>
    rw [List.forall_mem_cons] at htargets
    obtain ⟨body, todo₁, bodies', hbody, hrest, rfl⟩ := of_yields yields_emitBodies_cons h
    have hbody := hw hbody hregions (fun x hx => hA x (hx.mono htargets.1)) hstack
    obtain ⟨hbodies, hregions'⟩ := ih hrest htargets.2 hbody.regions
    exact ⟨List.forall_mem_cons.mpr ⟨hbody.stmts, hbodies⟩, hregions'⟩

lemma sourced_emitSwitch {selector : Expr} (h : s.emitSwitch w scope id selector stack todo = .ok (p, todo'))
    (hselector : selector.NamesIn A) (hregions : todo.regions ⊆ s.regions) (hA : ∀ x, s.Names id x → A x)
    (hstack : StackNamesIn A stack) : s.Sourced A id p todo' := by
  obtain ⟨b, edges, bodies, exit, hb, hedges, rfl, hbodies, rfl⟩ := of_yields yields_emitSwitch h
  have htargets : ∀ target ∈ (ascending edges.targets).filter fun target =>
      some target != todo.switchExit s.graph scope edges (ascending edges.targets), s.ProceedsTo id target := by
    intro target htarget
    exact proceedsTo_of_leads (leads_of_mem_targets hb hedges (mem_ascending.mp (List.mem_of_mem_filter htarget)))
  obtain ⟨harms, hregions'⟩ := everyIn_of_emitBodies hw hbodies htargets hregions hA hstack
  have hevery : EveryInArms (Within A _) (armsOf edges bodies) :=
    armsOf_induction trivial (fun _ h => h) (fun _ _ _ h hrest => ⟨h, hrest⟩) trivial harms
  refine ⟨⟨⟨within_of_exprs rfl rfl ?_, hevery⟩, trivial⟩, hstack, fun n hn => ?_, hregions'⟩
  · simpa [exprs] using hselector
  · exact proceedsTo_of_leads (leads_of_switchExit hb hedges hn)

lemma sourced_emitBlock (hregions : todo.regions ⊆ s.regions) (hA : ∀ x, s.Names id x → A x)
    (hstack : StackNamesIn A stack) (h : s.emitBlock w scope id stack todo = .ok (p, todo')) :
    s.Sourced A id p todo' := by
  obtain ⟨b, r, tail, hrun, hexited, rfl⟩ := of_yields yields_emitBlock h
  have hr := hrun.namesIn hA hstack
  have hsuccs (n : BlockId) (hn : n ∈ b.succs) : s.ProceedsTo id n :=
    proceedsTo_of_leads (leads_of_mem_succs hrun.block hn)
  have htail : s.Sourced A id tail todo' := by
    cases hexited with
    | switch h hselector =>
      have hnames := hr.exit _ hselector _ List.mem_cons_self
      exact sourced_emitSwitch hw h hnames hregions hA hr.stack
    | fork hexit hsuccs' hmerges h =>
      have hcond := hr.exit _ hexit _ List.mem_cons_self
      have hfork := hmerges.forks hA hr.stack
        ⟨hcond, hsuccs _ (by simp [hsuccs']), hsuccs _ (by simp [hsuccs'])⟩
      exact sourced_forked hw hfork (hmerges.regions_eq ▸ hregions) hA hr.stack h
    | leave => exact ⟨trivial, hr.stack, nofun, hregions⟩
    | goOn hsuccs' =>
      refine ⟨trivial, hr.stack, ?_, hregions⟩
      rintro _ ⟨⟩
      exact hsuccs _ (by simp [hsuccs'])
  exact ⟨everyIn_append.mpr ⟨hrun.everyIn hr, htail.stmts⟩, htail.stack, htail.next, htail.regions⟩

lemma sourced_emitLoop {loop : Loop} (hloop : loop ∈ s.loops) (hregions : todo.regions ⊆ s.regions)
    (hA : ∀ x, s.Names loop.header x → A x) (hstack : StackNamesIn A stack)
    (h : s.emitLoop w scope loop stack todo = .ok (p, todo')) : s.Sourced A loop.header p todo' := by
  have hexit (n : BlockId) (hn : loop.exit = some n) : s.ProceedsTo loop.header n :=
    .single (.inl (.inr ⟨loop, hloop, rfl, hn⟩))
  have hwritten {cond : Expr} {body : Progress} (hcond : cond.NamesIn A)
      (hbody : EveryIn (Within A s.HasHandler) body.stmts) :
      EveryIn (Within A s.HasHandler) [.whileLoop cond (dropContinue body.stmts)] :=
    ⟨⟨within_of_exprs rfl rfl (by simpa [exprs] using hcond), everyIn_dropContinue hbody⟩, trivial⟩
  obtain ⟨cond, entry, left, body, htest, hbody, rfl⟩ | ⟨body, hbody, rfl⟩ := of_yields yields_emitLoop h
  · obtain ⟨hcond, hentry⟩ : cond.NamesIn A ∧ s.ProceedsTo loop.header entry := by
      obtain ⟨c, exit, -, ⟨hbare, rfl⟩ | ⟨hbare, rfl⟩⟩ := htest
      · obtain ⟨htaken, -, hentry, -⟩ := hbare.namesIn hA hstack
        exact ⟨htaken, hentry⟩
      · obtain ⟨-, hfall, -, hentry⟩ := hbare.namesIn hA hstack
        exact ⟨hfall, hentry⟩
    have hbody := hw hbody hregions (fun x hx => hA x (hx.mono hentry)) hstack
    exact ⟨hwritten hcond hbody.stmts, hstack, hexit, hbody.regions⟩
  · have hbody := hw hbody hregions hA hstack
    exact ⟨hwritten (Expr.namesIn_of_mentions fun _ => rfl) hbody.stmts, hstack, hexit, hbody.regions⟩

/-! ### Protected ranges -/

omit hw in
/-- A handler has the variable of the slot in which it keeps the exception as its stored name. -/
lemma yields_storedName? (b : Block) (todo : Todo) :
    Yields (s.storedName? b) todo fun name todo' =>
      todo' = todo ∧ name = (keptSlot? b).map fun use => s.context.names use.1 use.2 := by
  rw [storedName?, keptSlot?]
  split
  · next hnil => exact meets_pure ⟨rfl, by simp [hnil]⟩
  · next first hfirst =>
    cases hstores : first.opcode.storesReference with
    | false => exact meets_pure ⟨rfl, by simp [hfirst, hstores, Option.filter]⟩
    | true =>
      refine meets_bind (meets_runFrom (fun _ _ => trivial) _ _ todo) ?_
      rintro r todo ⟨rfl, hr⟩
      obtain ⟨r₁, r₂, hstep, hnil, rfl⟩ := run_cons_ok hr
      cases hnil
      have hkept : (((some first).filter (·.opcode.storesReference)).bind slotUse?) = slotUse? first := by
        simp [Option.filter, hstores]
      rw [hfirst, hkept]
      obtain ⟨slot, offset, huse, hstmts⟩ | ⟨hnone, hstmts | ⟨text, hstmts⟩⟩ :=
        stmts_of_store (effectOf_of_storesReference hstores) hstep
      · simp only [Recovered.andThen, hstmts, List.singleton_append]
        exact meets_pure ⟨rfl, by simp [huse]⟩
      · simp only [Recovered.andThen, hstmts, List.nil_append]
        exact meets_pure ⟨rfl, by simp [hnone]⟩
      · simp only [Recovered.andThen, hstmts, List.singleton_append]
        exact meets_pure ⟨rfl, by simp [hnone]⟩

omit hw in
lemma yields_catchBinding (todo : Todo) :
    Yields (s.catchBinding id) todo fun r todo' => (todo' = todo ∨ todo' = todo.capture id) ∧
      ∃ b, s.graph.block? id = some b ∧ r = (s.bindingOf b, entryOf b) := by
  refine meets_bind (meets_block (.inr trivial) todo) ?_
  rintro b todo ⟨rfl, hb⟩
  refine meets_bind (yields_storedName? b todo) ?_
  rintro name todo ⟨rfl, rfl⟩
  cases hkept : keptSlot? b with
  | none => exact meets_pure ⟨.inl rfl, b, hb, by simp [bindingOf, entryOf, hkept]⟩
  | some use => exact meets_modify (meets_pure ⟨.inr rfl, b, hb, by simp [bindingOf, entryOf, hkept]⟩)

/-- The clauses of a `try` are those of its handlers. -/
lemma clauses_of_emitHandlers {cont next : Option BlockId} {handlers : List Handler} {clauses : List CatchClause}
    (h : s.emitHandlers w scope cont handlers todo = .ok ((clauses, next), todo'))
    (hhandlers : ∀ handler ∈ handlers, s.IsHandler handler.block ∧ s.ProceedsTo id handler.block)
    (hregions : todo.regions ⊆ s.regions) (hA : ∀ x, s.Names id x → A x)
    (hcont : ∀ n, cont = some n → s.ProceedsTo id n) :
    (∀ c ∈ clauses, EveryIn (Within A s.HasHandler) c.body ∧ A c.binding ∧ s.HasHandler c) ∧
      (∀ n, next = some n → s.ProceedsTo id n) ∧ todo'.regions ⊆ s.regions := by
  induction handlers generalizing todo cont clauses with
  | nil =>
    cases h
    exact ⟨List.forall_mem_nil _, hcont, hregions⟩
  | cons handler rest ih =>
    rw [List.forall_mem_cons] at hhandlers
    obtain ⟨⟨hhandler, hcomes⟩, hrest⟩ := hhandlers
    obtain ⟨-, h⟩ | ⟨binding, entry, todo₁, body, todo₂, clauses', hbinding, hbody, h, hclauses⟩ :=
      of_yields yields_emitHandlers_cons h
    · exact ih h hrest hregions hcont
    · obtain ⟨htodo₁, b, hb, hbinding⟩ := of_yields (yields_catchBinding todo) hbinding
      cases hbinding
      have hregions₁ : todo₁.regions = todo.regions := by rcases htodo₁ with rfl | rfl <;> rfl
      have hentry : StackNamesIn (s.Names handler.block) (entryOf b) := by
        unfold entryOf
        split_ifs with hkept
        · exact stackNamesIn_nil
        · refine stackNamesIn_cons.mpr ⟨Expr.namesIn_var.mpr ?_, stackNamesIn_nil⟩
          exact .caught .refl hhandler hb (by simpa using hkept)
      have hsub (x : String) (hx : s.Names handler.block x) : A x := hA x (hx.mono hcomes)
      -- the body is looked at twice: with its own variables, and with all that are known here
      have hown := hw hbody (hregions₁ ▸ hregions) (fun _ hx => hx) hentry
      have hall := hw hbody (hregions₁ ▸ hregions) hsub fun v hv => (hentry v hv).mono hsub
      have hnext (n : BlockId) (hn : cont.or body.next = some n) : s.ProceedsTo id n := by
        rcases Option.or_eq_some_iff.mp hn with hn | ⟨-, hn⟩
        · exact hcont n hn
        · exact hcomes.trans (hown.next n hn)
      obtain ⟨hclauses', hnext', hregions'⟩ := ih h hrest hall.regions hnext
      simp only at hclauses
      subst hclauses
      refine ⟨List.forall_mem_cons.mpr ⟨⟨hall.stmts, hsub _ (names_bindingOf hhandler hb), ?_⟩, hclauses'⟩, hnext',
        hregions'⟩
      have hnames : EveryIn (Stmt.NamesIn (s.Names handler.block)) body.stmts :=
        hown.stmts.mono fun st hst => hst.mono (fun _ hx => hx) fun _ _ => trivial
      exact ⟨handler.block, b, hhandler, hb, rfl, hnames⟩

omit hw in
/-- Behind a `try` the stack is that of its body, or the one before. -/
lemma yields_emitTry_stack {region : Region} :
    Yields (s.emitTry w scope region id stack) todo fun p _ => ∃ body todo₁,
      w (scope.within region) false id stack (todo.enter region) = .ok (body, todo₁) ∧
        (p.stack = body.stack ∨ p.stack = stack) := by
  refine meets_modify (meets_bind (yields_run _ _) fun body todo₁ hbody => ?_)
  refine meets_bind (yields_run _ todo₁) fun cont todo₂ _ => ?_
  refine meets_bind (yields_run _ todo₂) fun r todo' _ => meets_pure ⟨body, todo₁, hbody, ?_⟩
  dsimp only
  split_ifs
  · exact .inl rfl
  · exact .inr rfl

lemma sourced_emitTry {region : Region} (hregion : region ∈ s.regions) (hstart : region.start = s.graph.startOf id)
    (hregions : todo.regions ⊆ s.regions) (hA : ∀ x, s.Names id x → A x) (hstack : StackNamesIn A stack)
    (h : s.emitTry w scope region id stack todo = .ok (p, todo')) : s.Sourced A id p todo' := by
  obtain ⟨body, todo₁, cont, todo₂, clauses, next, hbody, hcont, hhandlers, hstmts, hnext⟩ := of_yields yields_emitTry h
  obtain ⟨body', todo₁', hbody', hstack'⟩ := of_yields yields_emitTry_stack h
  cases hbody.symm.trans hbody'
  have hentered : (todo.enter region).regions ⊆ s.regions := List.Subset.trans List.erase_subset hregions
  have hsourced := hw hbody hentered hA hstack
  have hregions₂ : todo₂.regions ⊆ s.regions := by
    obtain ⟨-, rfl⟩ | ⟨-, -, -, -, -, rfl⟩ := hcont <;> exact hsourced.regions
  have hcomes (n : BlockId) (hn : cont = some n) : s.ProceedsTo id n := by
    obtain ⟨rfl, -⟩ | ⟨last, target, hlast, rfl, hgoto, -⟩ := hcont
    · exact hsourced.next n hn
    · cases hn
      obtain ⟨b, i, hb, -, -, hsuccs⟩ := hgoto.block
      exact (hsourced.next last hlast).trans (proceedsTo_of_leads (leads_of_mem_succs hb (by simp [hsuccs])))
  have hall : ∀ handler ∈ region.handlers, s.IsHandler handler.block ∧ s.ProceedsTo id handler.block :=
    fun handler hmem => ⟨⟨region, hregion, handler, hmem, rfl⟩,
      .single (.inr ⟨region, hregion, hstart, handler, hmem, rfl⟩)⟩
  obtain ⟨hclauses, hnext', hregions'⟩ := clauses_of_emitHandlers hw hhandlers hall hregions₂ hA hcomes
  refine ⟨?_, ?_, hnext ▸ hnext', hregions'⟩
  · rw [hstmts]
    split_ifs
    · exact hsourced.stmts
    · refine ⟨⟨⟨by simp [exprs], ?_, ?_⟩, hsourced.stmts, everyInClauses_ofCatches fun c hc => (hclauses c hc).1⟩,
        trivial⟩
      · intro x hx
        rw [binders, Clauses.bindings_eq, Clauses.catches_ofCatches] at hx
        obtain ⟨c, hc, rfl⟩ := List.mem_map.mp hx
        exact (hclauses c hc).2.1
      · intro c hc
        rw [catches, Clauses.catches_ofCatches] at hc
        exact (hclauses c hc).2.2
  · rcases hstack' with heq | heq <;> rw [heq]
    · exact hsourced.stack
    · exact hstack

/-! ### The walk -/

lemma sourced_emitConstruct (hregions : todo.regions ⊆ s.regions) (hA : ∀ x, s.Names id x → A x)
    (hstack : StackNamesIn A stack) (h : s.emitConstruct w scope id stack todo = .ok (p, todo')) :
    s.Sourced A id p todo' := by
  obtain ⟨region, hregion, hat, h⟩ | ⟨loop, hloop, rfl, -, -, h⟩ | ⟨-, h⟩ := of_yields yields_emitConstruct h
  · exact sourced_emitTry hw (hregions hregion) (regionAt?_eq_some hat).2.1 hregions hA hstack h
  · exact sourced_emitLoop hw hloop hregions hA hstack h
  · exact sourced_emitBlock hw hregions hA hstack h

omit hw in
/-- Induction on the budget: every construct is written by walks with a smaller one. -/
lemma sourcing_walk (fuel : Nat) : s.Sourcing (s.walk fuel) := by
  induction fuel with
  | zero =>
    intro A scope entering id stack todo p todo' h
    cases h
  | succ fuel ih =>
    intro A scope entering id stack todo p todo' h hregions hA hstack
    cases of_yields yields_walk h with
    | jump _ hjump => exact ⟨everyIn_jump hjump, hstack, nofun, hregions⟩
    | stop =>
      refine ⟨trivial, hstack, ?_, hregions⟩
      rintro _ ⟨⟩
      exact .refl
    | last _ hfirst => exact sourced_emitConstruct ih hregions hA hstack hfirst
    | more _ hfirst hnext hrest =>
      have hfirst := sourced_emitConstruct ih hregions hA hstack hfirst
      have hcomes := hfirst.next _ hnext
      have hrest := ih hrest hfirst.regions (fun x hx => hA x (hx.mono hcomes)) hfirst.stack
      exact ⟨everyIn_append.mpr ⟨hfirst.stmts, hrest.stmts⟩, hrest.stack,
        fun n hn => hcomes.trans (hrest.next n hn), hrest.regions⟩

omit hw in
/-- Rewriting that brings no variables in leaves a clause with its handler. -/
lemma suits_hasHandler {f : List Stmt → List Stmt}
    (hf : ∀ {A : String → Prop} {body : List Stmt}, EveryIn (Stmt.NamesIn A) body → EveryIn (Stmt.NamesIn A) (f body)) :
    Suits f s.HasHandler := by
  rintro c ⟨id, b, h⟩
  exact ⟨id, b, h.handler, h.block, h.binding, hf h.names⟩

end Setting

/-- The clauses in the tree of a method are those of its handlers. -/
lemma clauses_structureBody {ctx : Context} {code : Code} {body : List Stmt}
    (h : structureBody ctx (CodeShape.ofCode code) = .ok body) :
    EveryIn (Within (fun _ => True) (Setting.ofShape ctx (CodeShape.ofCode code)).HasHandler) body := by
  obtain ⟨todo, h⟩ := structureBody_ok h
  obtain ⟨-, rfl⟩ | ⟨fuel, p, hwalk, rfl, -⟩ := structureWalk_ok h
  · trivial
  · exact (Setting.sourcing_walk fuel hwalk (List.Subset.refl _) (fun _ _ => trivial) stackNamesIn_nil).stmts

end JvmLift.Structure

/-! ### Names of slots -/

namespace JvmLift.Naming

variable {d : MethodDescriptor} {isStatic : Bool} {slot slot' : UInt16} {offset offset' : Nat}

/-- The name of a slot is that of the receiver, of a parameter in the slot, or its number. -/
lemma params_cases (isStatic : Bool) (d : MethodDescriptor) (slot : UInt16) (offset : Nat) :
    (slot = 0 ∧ params isStatic d slot offset = "this") ∨
    (∃ i, (d.placedParams isStatic)[i]?.map Prod.fst = some slot ∧ params isStatic d slot offset = paramName i) ∨
    params isStatic d slot offset = numbered slot offset := by
  unfold params
  cases hlookup : (paramTable isStatic d).lookup slot with
  | none => exact .inr (.inr rfl)
  | some name =>
    obtain ⟨front, back, heq, -⟩ := List.lookup_eq_some_iff.mp hlookup
    have hmem : (slot, name) ∈ paramTable isStatic d := by simp [heq]
    rw [paramTable, List.mem_append] at hmem
    rcases hmem with hmem | hmem
    · split_ifs at hmem
      · cases hmem
      · obtain ⟨rfl, rfl⟩ : slot = 0 ∧ name = "this" := by simpa using hmem
        exact .inl ⟨rfl, rfl⟩
    · obtain ⟨⟨⟨_, type⟩, i⟩, hparam, heq⟩ := List.mem_map.mp hmem
      cases heq
      exact .inr (.inl ⟨i, by simp [List.mem_zipIdx_iff_getElem?.mp hparam], rfl⟩)

lemma head?_numbered (slot : UInt16) (offset : Nat) : (numbered slot offset).toList.head? = some 'v' := by
  have hnumbered : numbered slot offset = "v" ++ slot.toNat.repr := rfl
  rw [hnumbered, String.toList_append]
  rfl

lemma paramName_ne_numbered (i : Nat) (slot : UInt16) (offset : Nat) : paramName i ≠ numbered slot offset := by
  intro h
  obtain ⟨c, hc, hhead⟩ := head?_paramName i
  rw [h, head?_numbered] at hhead
  cases hhead
  revert hc
  decide

/-- Names from a signature tell slots apart, also where the parameters do not fit. -/
lemma slot_eq_of_params_eq (h : params isStatic d slot offset = params isStatic d slot' offset') : slot = slot' := by
  have hthis {slot : UInt16} {offset : Nat} : "this" ≠ numbered slot offset := by
    intro h
    have hhead := head?_numbered slot offset
    rw [← h] at hhead
    cases hhead
  obtain ⟨rfl, hname⟩ | ⟨i, hi, hname⟩ | hname := params_cases isStatic d slot offset <;>
    obtain ⟨rfl, hname'⟩ | ⟨j, hj, hname'⟩ | hname' := params_cases isStatic d slot' offset' <;>
    rw [hname, hname'] at h
  · exact absurd h.symm (paramName_ne_this j)
  · exact absurd h hthis
  · exact absurd h (paramName_ne_this i)
  · rw [paramName_injective h, hj] at hi
    exact (Option.some.inj hi).symm
  · exact absurd h (paramName_ne_numbered i _ _)
  · exact absurd h.symm hthis
  · exact absurd h.symm (paramName_ne_numbered j _ _)
  · exact (IntCode.distinct_numbered slot offset slot' offset').mp h

/-- Only the fifth parameter is named `e`. -/
lemma fifth_of_params_eq_e (h : params isStatic d slot offset = "e") :
    (d.placedParams isStatic)[4]?.map Prod.fst = some slot := by
  obtain ⟨-, hname⟩ | ⟨i, hi, hname⟩ | hname := params_cases isStatic d slot offset <;> rw [hname] at h
  · exact absurd h (by decide)
  · rwa [paramName_injective (h.trans (show "e" = paramName 4 from rfl))] at hi
  · have hhead := head?_numbered slot offset
    rw [h] at hhead
    cases hhead

end JvmLift.Naming

/-! ### Lifted methods -/

namespace JvmLift

open Bytecode JvmLift.Flow Recovery Source Stmt Structure

/-- The setting in which the code of a method is structured. -/
def Method.setting (m : Method) (pool : Option Pool) (options : Options) (code : Code) : Setting :=
  .ofShape (m.context pool options) (CodeShape.ofCode code)

/-- The slot of the parameter at a position. -/
def Method.paramSlot? (m : Method) (i : Nat) : Option UInt16 :=
  ((MethodDescriptor.parseD m.descriptor).placedParams m.isStatic)[i]?.map Prod.fst

/-- The body that is chosen for a method has the clauses of its handlers. -/
lemma clauses_chooseBody (m : Method) (options : Options) {ctx : Recovery.Context} {code : Code} {flat : List Stmt}
    (hflat : Lift.flatStatements ctx (CodeShape.ofCode code) = .ok flat) :
    EveryIn (Within (fun _ => True) (Setting.ofShape ctx (CodeShape.ofCode code)).HasHandler)
      (Lift.chooseBody m ctx options (CodeShape.ofCode code) flat).1 := by
  have hany {s : Stmt} {Q : CatchClause → Prop} (hbinders : s.binders = []) (hcatches : s.catches = []) :
      s.Within (fun _ => True) Q :=
    within_of_exprs hbinders hcatches fun _ _ _ _ => trivial
  have hleaves : EveryIn (Within (fun _ => True) (Setting.ofShape ctx (CodeShape.ofCode code)).HasHandler) flat :=
    everyIn_iff.mpr fun s hs => every_of_isLeaf (isLeaf_of_runBlocks hflat s hs) fun _ _ _ _ => trivial
  unfold Lift.chooseBody
  dsimp only
  split
  · next body hnarrow =>
    obtain ⟨cond, -, hbody⟩ := Option.bind_eq_some_iff.mp (Option.filter_eq_some_iff.mp hnarrow).1
    obtain ⟨v, w, -, rfl⟩ := of_twoReturns? hbody
    exact ⟨⟨hany rfl rfl, ⟨hany rfl rfl, trivial⟩, hany rfl rfl, trivial⟩, trivial⟩
  · split_ifs
    · split
      · next body hbody =>
        refine Idiom.everyIn_recover _ (Setting.suits_hasHandler ?_) (Setting.suits_hasHandler ?_)
          (clauses_structureBody hbody)
        · exact Idiom.everyIn_dropMonitorExits fun _ _ => trivial
        · exact EveryIn.bottomUp ⟨fun hs => hs.mapBodies fun _ _ => trivial,
            Idiom.everyIn_recoverBody (fun _ _ => trivial) _⟩
      · exact ⟨hany rfl rfl, hleaves⟩
    · exact hleaves

/-- All `catch` clauses of a lifted method are those of its handlers. -/
lemma clauses_of_lift {m : Method} {code : Code} {pool : Option Pool} {options : Options} {lifted : Lifted}
    (hcode : m.code = some code) (h : m.lift pool options = .ok lifted) :
    EveryIn (Within (fun _ => True) (m.setting pool options code).HasHandler) lifted.tree.body := by
  obtain ⟨flat, hflat, hbody⟩ : ∃ flat,
      Lift.flatStatements (m.context pool options) (CodeShape.ofCode code) = .ok flat ∧ lifted.tree.body =
        let body := (Lift.chooseBody m (m.context pool options) options (CodeShape.ofCode code) flat).1
        if options.simplify then simplifyBody body else body := by
    unfold Method.lift at h
    rw [hcode] at h
    obtain ⟨flat, hflat, h⟩ := ok_of_bind h
    cases h
    exact ⟨flat, hflat, rfl⟩
  have hclauses := clauses_chooseBody m options hflat
  rw [hbody]
  split_ifs
  · exact everyIn_simplifyBody (Setting.suits_hasHandler (everyIn_simplifyBody fun _ _ => trivial)) hclauses
  · exact hclauses

/-- **What a catch clause binds.** In a method without debug names, every `catch` clause is that of a handler. All
variables in its body come from the code behind the handler. Of the slots that this code refers to, the one in which the
handler keeps the exception has the name of the binding, and no other has; but where the handler keeps the exception in
no slot, the fifth parameter has that name too. -/
theorem catches_of_lift {m : Method} {code : Code} {pool : Option Pool} {options : Options} {lifted : Lifted}
    (hcode : m.code = some code) (hlocals : code.locals = []) (h : m.lift pool options = .ok lifted) :
    EveryIn (fun s => ∀ c ∈ s.catches, ∃ id b, (m.setting pool options code).ClauseOf c id b ∧
      ∀ slot offset, (m.setting pool options code).UsesSlot id slot offset → Naming.ofMethod m slot offset = c.binding →
        (keptSlot? b).map Prod.fst = some slot ∨ keptSlot? b = none ∧ m.paramSlot? 4 = some slot)
      lifted.tree.body := by
  have hnames : Naming.ofMethod m = Naming.params m.isStatic (MethodDescriptor.parseD m.descriptor) := by
    refine Naming.ofMethod_of_locals_eq_nil fun code' hcode' => ?_
    cases hcode.symm.trans hcode'
    exact hlocals
  refine (clauses_of_lift hcode h).mono fun s hs c hc => ?_
  obtain ⟨id, b, hclause⟩ := hs.catches c hc
  refine ⟨id, b, hclause, fun slot offset _ hname => ?_⟩
  rw [hclause.binding, Setting.bindingOf] at hname
  cases hkept : keptSlot? b with
  | none =>
    rw [hkept, hnames] at hname
    exact .inr ⟨rfl, Naming.fifth_of_params_eq_e hname⟩
  | some use =>
    rw [hkept] at hname
    have hsame : Naming.ofMethod m slot offset = Naming.ofMethod m use.1 use.2 := hname
    rw [hnames] at hsame
    exact .inl (by simp [Naming.slot_eq_of_params_eq hsame])

/-- A static method with five parameters, which are in the first five slots. -/
def fiveParams (code : Code) : Method :=
  ⟨"m", "(IIIII)V", ⟨0x0008⟩, some code⟩

/-- A division in a `try`, and a handler that keeps the exception in slot 5 and counts the fifth parameter up:
`0: iload_0; iload_1; idiv; istore_0`, `4: goto 12`, `7: astore 5; iinc 4, 1`, `12: return`. -/
def keepingCode : Code :=
  { bytes := [0x1a, 0x1b, 0x6c, 0x3b, 0xa7, 0x00, 0x08, 0x3a, 0x05, 0x84, 0x04, 0x01, 0xb1]
    handlers := [⟨0, 4, 7, 0⟩] }

/-- One `try` with one handler, which counts `e` up. -/
def countsUp (binding : String) : List Stmt → Bool
  | [.tryCatch _ (.handler _ binding' [.assign (.var "e") (.binary .add (.var "e") (.int 1))] .done)] =>
    binding' == binding
  | _ => false

lemma exists_catch_of_countsUp {binding : String} {body : List Stmt} (h : countsUp binding body = true) :
    ∃ s ∈ body, ∃ c ∈ s.catches, c.binding = binding ∧
      c.body = [.assign (.var "e") (.binary .add (.var "e") (.int 1))] := by
  unfold countsUp at h
  split at h
  · exact ⟨_, List.mem_singleton_self _, _, List.mem_singleton_self _, beq_iff_eq.mp h, rfl⟩
  · cases h

/-- The parameter is counted up in a clause that binds the variable of slot 5. -/
theorem keepingCode_catches :
    keepingCode.locals = [] ∧ ∃ lifted, (fiveParams keepingCode).lift none {} = .ok lifted ∧
      countsUp "v5" lifted.tree.body = true ∧
      EveryIn (fun s => ∀ c ∈ s.catches, ∃ id b,
        ((fiveParams keepingCode).setting none {} keepingCode).ClauseOf c id b ∧ ∀ slot offset,
          ((fiveParams keepingCode).setting none {} keepingCode).UsesSlot id slot offset →
          Naming.ofMethod (fiveParams keepingCode) slot offset = c.binding → (keptSlot? b).map Prod.fst = some slot ∨
            keptSlot? b = none ∧ (fiveParams keepingCode).paramSlot? 4 = some slot) lifted.tree.body := by
  have hlift : ((fiveParams keepingCode).lift none {}).toOption.any
      (fun lifted => countsUp "v5" lifted.tree.body) = true := by decide +kernel
  obtain ⟨lifted, hlift, hcounts⟩ := exists_ok_of_any hlift
  exact ⟨rfl, lifted, hlift, hcounts, catches_of_lift rfl rfl hlift⟩

/-- The same with a handler that drops the exception: `4: goto 11`, `7: pop; iinc 4, 1`, `11: return`. -/
def droppingCode : Code :=
  { bytes := [0x1a, 0x1b, 0x6c, 0x3b, 0xa7, 0x00, 0x07, 0x57, 0x84, 0x04, 0x01, 0xb1]
    handlers := [⟨0, 4, 7, 0⟩] }

/-- **The fifth parameter is captured.** The handler keeps the exception in no slot, so its clause binds `e`. What the
clause counts up is the parameter in slot 4, which has this name too. -/
theorem droppingCode_captures :
    droppingCode.locals = [] ∧ ∃ lifted, (fiveParams droppingCode).lift none {} = .ok lifted ∧
      lifted.outcome = .structured ∧
      (∃ s ∈ lifted.tree.body, ∃ c ∈ s.catches, c.binding = Naming.ofMethod (fiveParams droppingCode) 4 8 ∧
        c.body = [.assign (.var c.binding) (.binary .add (.var c.binding) (.int 1))]) ∧
      ∃ id b, ((fiveParams droppingCode).setting none {} droppingCode).IsHandler id ∧
        ((fiveParams droppingCode).setting none {} droppingCode).graph.block? id = some b ∧ keptSlot? b = none ∧
        ((fiveParams droppingCode).setting none {} droppingCode).UsesSlot id 4 8 := by
  have hname : Naming.ofMethod (fiveParams droppingCode) 4 8 = "e" := by decide +kernel
  obtain ⟨hlift, hhandler, hblock⟩ : ((fiveParams droppingCode).lift none {}).toOption.any
        (fun lifted => lifted.outcome = .structured && countsUp "e" lifted.tree.body) = true ∧
      ((fiveParams droppingCode).setting none {} droppingCode).regions.any
        (fun region => region.handlers.any (·.block = 2)) = true ∧
      (((fiveParams droppingCode).setting none {} droppingCode).graph.block? 2).any (fun b =>
        keptSlot? b = none && b.body.any (slotUse? · = some (4, 8))) = true := by decide +kernel
  obtain ⟨lifted, hlift, hbody⟩ := exists_ok_of_any hlift
  rw [Bool.and_eq_true, decide_eq_true_iff] at hbody
  obtain ⟨s, hs, c, hc, hbinding, hc'⟩ := exists_catch_of_countsUp hbody.2
  obtain ⟨b, hb, hkept⟩ := (Option.any_eq_true _ _).mp hblock
  rw [Bool.and_eq_true, decide_eq_true_iff, List.any_eq_true] at hkept
  obtain ⟨hkept, i, hi, hslot⟩ := hkept
  refine ⟨rfl, lifted, hlift, hbody.1, ⟨s, hs, c, hc, hbinding.trans hname.symm, hbinding ▸ hc'⟩, 2, b, ?_, hb, hkept,
    2, b, i, .refl, hb, hi, of_decide_eq_true hslot⟩
  simpa [Setting.IsHandler] using hhandler

end JvmLift
