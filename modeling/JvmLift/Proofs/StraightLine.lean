import Mathlib
import JvmLift.Proofs.IntCode
import JvmLift.Proofs.Run

/-!
# Recovered statements against the machine

A symbolic run keeps expressions on its stack and turns every store and increment into a statement at once. Running the
statements gives what the machine gives as long as no write changes the value of an expression that is still pending,
and no longer. The step lemma evaluates what a step leaves on the stack before the writes of that step; whether it may
be evaluated behind them is the only question that is left.
-/

namespace JvmLift.IntCode

open Bytecode Recovery Source

/-! ### Operations on a symbolic stack -/

/-- What an operation does to a symbolic stack. -/
def IntOp.effect : IntOp → Effect
  | const n => .push ⟨.int n, false⟩
  | load _ => .load false
  | store _ => .store
  | increment .. => .increment
  | binary op => .binary op false
  | negate => .negate false
  | pop => .pop 1
  | pop2 => .pop 2
  | dup => .dup 1 0
  | dupX1 => .dup 1 1
  | dupX2 => .dup 1 2
  | dup2 => .dup 2 0
  | dup2X1 => .dup 2 1
  | dup2X2 => .dup 2 2
  | swap => .swap
  | returnValue => .returnValue
  | returnVoid => .returnVoid

set_option maxRecDepth 4000 in
lemma effect_of_bareOps : ∀ p ∈ bareOps, effectOf ⟨p.1⟩ = p.2.effect := by
  simp only [bareOps, List.forall_mem_cons, List.not_mem_nil, false_implies, implies_true, and_true]
  repeat' constructor

lemma effect_of_isLoad {op : Opcode} {slot : UInt16} (h : isLoad op.raw slot) : effectOf op = .load false := by
  obtain ⟨raw⟩ := op
  simp only [isLoad, Bool.or_eq_true, beq_iff_eq, List.contains_iff_mem, List.mem_cons, Prod.mk.injEq,
    List.not_mem_nil, or_false] at h
  rcases h with rfl | ⟨rfl, -⟩ | ⟨rfl, -⟩ | ⟨rfl, -⟩ | ⟨rfl, -⟩ <;> rfl

lemma effect_of_isStore {op : Opcode} {slot : UInt16} (h : isStore op.raw slot) : effectOf op = .store := by
  obtain ⟨raw⟩ := op
  simp only [isStore, Bool.or_eq_true, beq_iff_eq, List.contains_iff_mem, List.mem_cons, Prod.mk.injEq,
    List.not_mem_nil, or_false] at h
  rcases h with rfl | ⟨rfl, -⟩ | ⟨rfl, -⟩ | ⟨rfl, -⟩ | ⟨rfl, -⟩ <;> rfl

/-- How an instruction comes by its operation. -/
lemma intOp_cases {i : Instruction} {op : IntOp} (h : intOp? i = some op) :
    (i.operand = .none ∧ (i.opcode.raw, op) ∈ bareOps) ∨
    (∃ n, i.operand = .immediate n ∧ (i.opcode.raw = 0x10 ∨ i.opcode.raw = 0x11) ∧ op = .const n) ∨
    (∃ slot, i.operand = .slot slot ∧ isLoad i.opcode.raw slot ∧ op = .load slot) ∨
    (∃ slot, i.operand = .slot slot ∧ isStore i.opcode.raw slot ∧ op = .store slot) ∨
    (∃ slot amount, i.operand = .increment slot amount ∧ i.opcode.raw = 0x84 ∧ op = .increment slot amount) := by
  unfold intOp? at h
  cases hop : i.operand <;> simp only [hop] at h
  case none =>
    obtain ⟨l, r, heq, -⟩ := List.lookup_eq_some_iff.mp h
    exact .inl ⟨rfl, by simp [heq]⟩
  case immediate n =>
    split at h
    · next hraw => exact .inr (.inl ⟨n, rfl, hraw, by simpa using h.symm⟩)
    · cases h
  case slot slot =>
    split at h
    · next hload => exact .inr (.inr (.inl ⟨slot, rfl, hload, by simpa using h.symm⟩))
    · split at h
      · next hstore => exact .inr (.inr (.inr (.inl ⟨slot, rfl, hstore, by simpa using h.symm⟩)))
      · cases h
  case increment slot amount =>
    split at h
    · next hraw => exact .inr (.inr (.inr (.inr ⟨slot, amount, rfl, hraw, by simpa using h.symm⟩)))
    · cases h
  all_goals cases h

/-- A step on an int instruction is the effect of its operation. A constant comes from the opcode or from the operand,
so that effects are compared by what they do. -/
lemma step_of_intOp (ctx : Context) {i : Instruction} {op : IntOp} (h : intOp? i = some op) (stack : Stack) :
    step ctx i stack =
      match applyEffect? ctx i op.effect stack with
      | some r => .ok r
      | none => .error (.stackUnderflow ctx.method i.offset) := by
  obtain ⟨offset, ⟨raw⟩, operand, size⟩ := i
  unfold step
  obtain ⟨rfl, hmem⟩ | ⟨n, rfl, rfl | rfl, rfl⟩ | ⟨slot, rfl, hload, rfl⟩ | ⟨slot, rfl, hstore, rfl⟩ |
    ⟨slot, amount, rfl, rfl, rfl⟩ := intOp_cases h
  · exact effect_of_bareOps _ hmem ▸ rfl
  · rfl
  · rfl
  · exact effect_of_isLoad hload ▸ rfl
  · exact effect_of_isStore hstore ▸ rfl
  · rfl

lemma operand_of_load {i : Instruction} {slot : UInt16} (h : intOp? i = some (.load slot)) :
    i.operand = .slot slot := by
  obtain ⟨-, hmem⟩ | ⟨_, _, _, ⟨⟩⟩ | ⟨_, hop, -, ⟨⟩⟩ | ⟨_, _, _, ⟨⟩⟩ | ⟨_, _, _, _, ⟨⟩⟩ := intOp_cases h
  · simp [bareOps] at hmem
  · exact hop

lemma operand_of_store {i : Instruction} {slot : UInt16} (h : intOp? i = some (.store slot)) :
    i.operand = .slot slot := by
  obtain ⟨-, hmem⟩ | ⟨_, _, _, ⟨⟩⟩ | ⟨_, _, _, ⟨⟩⟩ | ⟨_, hop, -, ⟨⟩⟩ | ⟨_, _, _, _, ⟨⟩⟩ := intOp_cases h
  · simp [bareOps] at hmem
  · exact hop

lemma operand_of_increment {i : Instruction} {slot : UInt16} {amount : Int16}
    (h : intOp? i = some (.increment slot amount)) : i.operand = .increment slot amount := by
  obtain ⟨-, hmem⟩ | ⟨_, _, _, ⟨⟩⟩ | ⟨_, _, _, ⟨⟩⟩ | ⟨_, _, _, ⟨⟩⟩ | ⟨_, _, hop, -, ⟨⟩⟩ := intOp_cases h
  · simp [bareOps] at hmem
  · exact hop

/-! ### One step -/

/-- Each slot has one name, and no two slots share a name. -/
def Distinct (names : Naming) : Prop :=
  ∀ slot offset slot' offset', names slot offset = names slot' offset' ↔ slot = slot'

/-- The names hold what the slots hold. -/
def Holds (names : Naming) (σ : Store) (locals : UInt16 → Int32) : Prop :=
  ∀ slot offset, σ (names slot offset) = locals slot

/-- A symbolic value that takes one word and has the given value. -/
def Denotes (σ : Store) (v : StackValue) (n : Int32) : Prop :=
  v.wide = false ∧ value? σ v.expr = some n

/-- The values of a symbolic stack are the words of an operand stack. -/
abbrev Stands (σ : Store) : Stack → List Int32 → Prop :=
  List.Forall₂ (Denotes σ)

lemma not_hasSideEffects {σ : Store} {e : Expr} {n : Int32} (h : value? σ e = some n) : e.hasSideEffects = false := by
  cases e <;> first
    | rfl
    | simp [value?] at h

lemma holds_update {names : Naming} (hn : Distinct names) {σ : Store} {locals : UInt16 → Int32}
    (h : Holds names σ locals) (slot : UInt16) (offset : Nat) (n : Int32) :
    Holds names (Function.update σ (names slot offset) n) (Function.update locals slot n) := by
  intro slot' offset'
  by_cases heq : slot' = slot
  · subst heq
    rw [(hn slot' offset slot' offset').mpr rfl]
    simp
  · have hne : names slot' offset' ≠ names slot offset := fun hc => heq ((hn _ _ _ _).mp hc)
    simp [Function.update_of_ne hne, Function.update_of_ne heq, h slot' offset']

/-! ### Moving words -/

/-- Whether an operation only moves words. -/
def IntOp.isMove : IntOp → Bool
  | pop | pop2 | dup | dupX1 | dupX2 | dup2 | dup2X1 | dup2X2 | swap => true
  | _ => false

lemma exec_of_isMove {op : IntOp} (h : op.isMove = true) (f : Frame) :
    op.exec f = ((op.move? f.stack).map fun s => { f with stack := s }).elim (.error .malformed) .ok := by
  cases op <;> first | rfl | cases h

section Moves

-- what it is for a word to be that of a symbolic value does not matter, as long as the value takes one word
variable {R : StackValue → Int32 → Prop} (hR : ∀ {v n}, R v n → v.wide = false ∧ v.expr.hasSideEffects = false)
include hR

lemma takeWords?_related : ∀ (words : Nat) {stack below : Stack} {ns : List Int32} {taken : List StackValue},
    List.Forall₂ R stack ns → takeWords? words stack = some (taken, below) →
    ∃ ms ks, ns = ms ++ ks ∧ ms.length = words ∧ List.Forall₂ R taken ms ∧ List.Forall₂ R below ks
  | 0, stack, below, ns, taken, hs, h => by
    simp only [takeWords?, Option.some.injEq, Prod.mk.injEq] at h
    obtain ⟨rfl, rfl⟩ := h
    exact ⟨[], ns, rfl, rfl, .nil, hs⟩
  | words + 1, stack, below, ns, taken, hs, h => by
    cases hs with
    | nil => simp [takeWords?] at h
    | @cons v n stack ns hv hs =>
      simp only [takeWords?, StackValue.words, (hR hv).1, Bool.false_eq_true, ↓reduceIte, Nat.add_sub_cancel,
        Option.map_eq_some_iff] at h
      obtain ⟨⟨taken', below'⟩, ht, heq⟩ := h
      cases heq
      obtain ⟨ms, ks, rfl, hlen, hms, hks⟩ := takeWords?_related words hs ht
      exact ⟨n :: ms, ks, rfl, by simp [hlen], .cons hv hms, hks⟩

lemma not_hasSideEffects_of_related {stack : Stack} {ns : List Int32} (h : List.Forall₂ R stack ns) :
    ∀ v ∈ stack, v.expr.hasSideEffects = false := by
  induction h with
  | nil => simp
  | cons hv _ ih => exact List.forall_mem_cons.mpr ⟨(hR hv).2, ih⟩

lemma pop_related {ctx : Context} {i : Instruction} {words : Nat} {stack : Stack} {r : Recovered}
    (h : applyEffect? ctx i (.pop words) stack = some r) {ns : List Int32} (hs : List.Forall₂ R stack ns) :
    ∃ ms ks, ns = ms ++ ks ∧ ms.length = words ∧ r = { stack := r.stack } ∧ List.Forall₂ R r.stack ks := by
  simp only [applyEffect?, Option.bind_eq_bind, Option.pure_def, Option.bind_eq_some_iff] at h
  obtain ⟨⟨taken, below⟩, ht, heq⟩ := h
  cases heq
  obtain ⟨ms, ks, rfl, hlen, hms, hks⟩ := takeWords?_related hR words hs ht
  have hstmts : taken.reverse.filter (·.expr.hasSideEffects) = [] := by
    simpa using not_hasSideEffects_of_related hR hms
  exact ⟨ms, ks, rfl, hlen, by simp [hstmts], hks⟩

lemma dup_related {ctx : Context} {i : Instruction} {words skip : Nat} {stack : Stack} {r : Recovered}
    (h : applyEffect? ctx i (.dup words skip) stack = some r) {ns : List Int32} (hs : List.Forall₂ R stack ns) :
    ∃ ms ls ks, ns = ms ++ (ls ++ ks) ∧ ms.length = words ∧ ls.length = skip ∧ r = { stack := r.stack } ∧
      List.Forall₂ R r.stack (ms ++ ls ++ ms ++ ks) := by
  simp only [applyEffect?, Option.bind_eq_bind, Option.pure_def, Option.bind_eq_some_iff] at h
  obtain ⟨⟨top, stack'⟩, ht, ⟨below, stack''⟩, hb, heq⟩ := h
  cases heq
  obtain ⟨ms, ks, rfl, hlen, hms, hks⟩ := takeWords?_related hR words hs ht
  obtain ⟨ls, ks, rfl, hlen', hls, hks⟩ := takeWords?_related hR skip hks hb
  refine ⟨ms, ls, ks, rfl, hlen, hlen', rfl, ?_⟩
  exact List.rel_append (List.rel_append (List.rel_append hms hls) hms) hks

/-- Symbolic values are moved as the machine moves their words. -/
lemma move_related {ctx : Context} {i : Instruction} {op : IntOp} (hop : op.isMove = true) {stack : Stack}
    {r : Recovered} (h : applyEffect? ctx i op.effect stack = some r) {ns : List Int32}
    (hs : List.Forall₂ R stack ns) :
    ∃ ns', op.move? ns = some ns' ∧ r = { stack := r.stack } ∧ List.Forall₂ R r.stack ns' := by
  cases op with
  | pop =>
    obtain ⟨ms, ks, rfl, hlen, hr, hks⟩ := pop_related hR h hs
    obtain ⟨a, rfl⟩ := List.length_eq_one_iff.mp hlen
    exact ⟨_, rfl, hr, hks⟩
  | pop2 =>
    obtain ⟨ms, ks, rfl, hlen, hr, hks⟩ := pop_related hR h hs
    obtain ⟨a, b, rfl⟩ := List.length_eq_two.mp hlen
    exact ⟨_, rfl, hr, hks⟩
  | dup =>
    obtain ⟨ms, ls, ks, rfl, hlen, hskip, hr, hks⟩ := dup_related hR h hs
    obtain ⟨a, rfl⟩ := List.length_eq_one_iff.mp hlen
    obtain rfl := List.length_eq_zero_iff.mp hskip
    exact ⟨_, rfl, hr, hks⟩
  | dupX1 =>
    obtain ⟨ms, ls, ks, rfl, hlen, hskip, hr, hks⟩ := dup_related hR h hs
    obtain ⟨a, rfl⟩ := List.length_eq_one_iff.mp hlen
    obtain ⟨b, rfl⟩ := List.length_eq_one_iff.mp hskip
    exact ⟨_, rfl, hr, hks⟩
  | dupX2 =>
    obtain ⟨ms, ls, ks, rfl, hlen, hskip, hr, hks⟩ := dup_related hR h hs
    obtain ⟨a, rfl⟩ := List.length_eq_one_iff.mp hlen
    obtain ⟨b, c, rfl⟩ := List.length_eq_two.mp hskip
    exact ⟨_, rfl, hr, hks⟩
  | dup2 =>
    obtain ⟨ms, ls, ks, rfl, hlen, hskip, hr, hks⟩ := dup_related hR h hs
    obtain ⟨a, b, rfl⟩ := List.length_eq_two.mp hlen
    obtain rfl := List.length_eq_zero_iff.mp hskip
    exact ⟨_, rfl, hr, hks⟩
  | dup2X1 =>
    obtain ⟨ms, ls, ks, rfl, hlen, hskip, hr, hks⟩ := dup_related hR h hs
    obtain ⟨a, b, rfl⟩ := List.length_eq_two.mp hlen
    obtain ⟨c, rfl⟩ := List.length_eq_one_iff.mp hskip
    exact ⟨_, rfl, hr, hks⟩
  | dup2X2 =>
    obtain ⟨ms, ls, ks, rfl, hlen, hskip, hr, hks⟩ := dup_related hR h hs
    obtain ⟨a, b, rfl⟩ := List.length_eq_two.mp hlen
    obtain ⟨c, d, rfl⟩ := List.length_eq_two.mp hskip
    exact ⟨_, rfl, hr, hks⟩
  | swap =>
    rcases hs with _ | ⟨ha, _ | ⟨hb, hs⟩⟩
    · cases h
    · cases h
    · cases h
      exact ⟨_, rfl, rfl, .cons hb (.cons ha hs)⟩
  | _ => cases hop

end Moves

lemma Denotes.narrow {σ : Store} {v : StackValue} {n : Int32} (h : Denotes σ v n) :
    v.wide = false ∧ v.expr.hasSideEffects = false :=
  ⟨h.1, not_hasSideEffects h.2⟩

/-- **One step.** The statements of a step do to the names what the instruction does to the slots. The values on the new
symbolic stack are the words of the machine when they are taken before those statements. -/
lemma step_agrees {ctx : Context} (hn : Distinct ctx.names) {i : Instruction} {op : IntOp} (hop : intOp? i = some op)
    {stack : Stack} {r : Recovered} (hr : step ctx i stack = .ok r) {σ : Store} {f : Frame}
    (hl : Holds ctx.names σ f.locals) (hs : Stands σ stack f.stack) (hret : f.returned = none)
    (hexc : machineStep i f ≠ .error .arithmetic) :
    ∃ f' σ', machineStep i f = .ok f' ∧ execute? r.stmts σ = some (σ', f'.returned) ∧
      Holds ctx.names σ' f'.locals ∧ Stands σ r.stack f'.stack ∧ (f'.returned.isSome → σ' = σ) := by
  obtain ⟨locals, ns, returned⟩ := f
  simp only at hl hs hret
  subst hret
  rw [step_of_intOp ctx hop] at hr
  split at hr
  case h_2 => cases hr
  next r' heff =>
  cases hr
  simp only [machineStep, hop] at hexc ⊢
  cases op with
  | const n =>
    simp only [IntOp.effect, applyEffect?, Option.some.injEq] at heff
    subst heff
    exact ⟨_, σ, rfl, rfl, hl, .cons ⟨rfl, rfl⟩ hs, by simp⟩
  | load slot =>
    simp only [IntOp.effect, applyEffect?, operand_of_load hop, Option.some.injEq] at heff
    subst heff
    exact ⟨_, σ, rfl, rfl, hl, .cons ⟨rfl, congrArg some (hl slot i.offset)⟩ hs, by simp⟩
  | store slot =>
    cases hs with
    | nil => simp [IntOp.effect, applyEffect?] at heff
    | @cons v n stack ns hv hs =>
      simp only [IntOp.effect, applyEffect?, operand_of_store hop, Option.some.injEq] at heff
      subst heff
      refine ⟨_, _, rfl, ?_, holds_update hn hl slot i.next n, hs, by simp⟩
      simp [execute?, hv.2]
  | increment slot amount =>
    simp only [IntOp.effect, applyEffect?, operand_of_increment hop, Option.some.injEq] at heff
    subst heff
    refine ⟨_, _, rfl, ?_, holds_update hn hl slot i.offset (locals slot + amount.toInt32), hs, by simp⟩
    split <;> simp [execute?, value?, compute?, hl slot i.offset, Int32.sub_eq_add_neg]
  | binary op =>
    rcases hs with _ | @⟨v, b, _, _, hb, _ | @⟨w, a, _, _, ha, hs⟩⟩
    · simp [IntOp.effect, applyEffect?] at heff
    · simp [IntOp.effect, applyEffect?] at heff
    · simp only [IntOp.effect, applyEffect?, Option.some.injEq] at heff
      subst heff
      cases hc : compute? op a b with
      | none => simp [exec_binary, hc] at hexc
      | some c =>
        refine ⟨{ locals, stack := c :: _ }, σ, by simp [exec_binary, hc], rfl, hl, .cons ⟨rfl, ?_⟩ hs, by simp⟩
        simp [value?, ha.2, hb.2, hc]
  | negate =>
    rcases hs with _ | ⟨ha, hs⟩
    · simp [IntOp.effect, applyEffect?] at heff
    · simp only [IntOp.effect, applyEffect?, Option.some.injEq] at heff
      subst heff
      exact ⟨_, σ, rfl, rfl, hl, .cons ⟨rfl, by simp [value?, ha.2]⟩ hs, by simp⟩
  | returnValue =>
    rcases hs with _ | ⟨ha, hs⟩
    · simp [IntOp.effect, applyEffect?] at heff
    · simp only [IntOp.effect, applyEffect?, Option.some.injEq] at heff
      subst heff
      exact ⟨_, σ, rfl, by simp [execute?, ha.2], hl, hs, by simp⟩
  | returnVoid =>
    simp only [IntOp.effect, applyEffect?, Option.some.injEq] at heff
    subst heff
    exact ⟨_, σ, rfl, rfl, hl, hs, by simp⟩
  | pop | pop2 | dup | dupX1 | dupX2 | dup2 | dup2X1 | dup2X2 | swap =>
    obtain ⟨ns', hmove, hr, hs'⟩ := move_related Denotes.narrow rfl heff hs
    refine ⟨{ locals, stack := ns' }, σ, ?_, by rw [hr]; rfl, hl, hs', by simp⟩
    rw [exec_of_isMove rfl, hmove]
    rfl

/-! ### Runs -/

/-- Whether an operation ends the method. -/
def IntOp.returns : IntOp → Bool
  | returnValue | returnVoid => true
  | _ => false

/-- Whether an instruction ends the method. -/
def isReturn (i : Instruction) : Bool :=
  (intOp? i).any IntOp.returns

/-- Running the recovered statements gives the locals and the returned value that the machine gives, and evaluating the
symbolic stack at the end gives its operand stack. The stack is not compared where instructions stand behind a return,
since the machine never comes to them. -/
def Agrees (ctx : Context) (insns : List Instruction) (stack : Stack) (σ : Store) (f : Frame) : Prop :=
  ∃ r f' σ', run ctx insns stack = .ok r ∧ machineRun insns f = .ok f' ∧
    execute? r.stmts σ = some (σ', f'.returned) ∧ Holds ctx.names σ' f'.locals ∧
    ((∀ i ∈ insns.dropLast, isReturn i = false) → Stands σ' r.stack f'.stack)

/-- No write changes the value of an expression that is on the symbolic stack behind it. -/
def Undisturbed (ctx : Context) : List Instruction → Stack → Store → Prop
  | [], _, _ => True
  | i :: rest, stack, σ =>
    ∀ r σ', step ctx i stack = .ok r → execute? r.stmts σ = some (σ', none) →
      (∀ v ∈ r.stack, value? σ' v.expr = value? σ v.expr) ∧ Undisturbed ctx rest r.stack σ'

lemma eq_some_of_elim_ok {α : Type} {x : Option α} {e : Fault} {a : α} (h : x.elim (.error e) Except.ok = .ok a) :
    x = some a := by
  cases x <;> simp_all

lemma returns_of_exec {op : IntOp} {f f' : Frame} (h : op.exec f = .ok f') (hret : f.returned = none) :
    op.returns = f'.returned.isSome := by
  obtain ⟨locals, stack, returned⟩ := f
  simp only at hret
  subst hret
  cases op
  case const | load | increment | returnVoid => cases h; rfl
  case store | negate | returnValue =>
    cases stack with
    | nil => cases h
    | cons a s => cases h; rfl
  case binary op =>
    rcases stack with _ | ⟨b, _ | ⟨a, s⟩⟩
    · cases h
    · cases h
    · obtain ⟨c, -, rfl⟩ := Option.map_eq_some_iff.mp (eq_some_of_elim_ok h)
      rfl
  -- what is left moves words
  all_goals
    obtain ⟨s, -, rfl⟩ := Option.map_eq_some_iff.mp (eq_some_of_elim_ok h)
    rfl

lemma isReturn_of_machineStep {i : Instruction} {f f' : Frame} (h : machineStep i f = .ok f')
    (hret : f.returned = none) : isReturn i = f'.returned.isSome := by
  unfold machineStep at h
  split at h
  · next op hop => simp [isReturn, hop, returns_of_exec h hret]
  · cases h

lemma machineRun_returned {insns : List Instruction} {f : Frame} {v : Option Int32} (h : f.returned = some v) :
    machineRun insns f = .ok f := by
  cases insns <;> simp [machineRun, h]

lemma machineRun_cons {i : Instruction} {rest : List Instruction} {f f' : Frame} (hret : f.returned = none)
    (h : machineStep i f = .ok f') : machineRun (i :: rest) f = machineRun rest f' := by
  simp [machineRun, hret, h]

/-- Statements behind a return are not run, and those behind anything else are. -/
lemma execute_append {ss ts : List Stmt} {σ σ' : Store} {ret : Option (Option Int32)}
    (h : execute? ss σ = some (σ', ret)) :
    execute? (ss ++ ts) σ = if ret.isSome then some (σ', ret) else execute? ts σ' := by
  fun_induction execute? ss σ with
  | case1 σ =>
    simp only [Option.some.injEq, Prod.mk.injEq] at h
    obtain ⟨rfl, rfl⟩ := h
    rfl
  | case2 σ x e rest n hn ih => simp [execute?, hn, ih h]
  | case3 => cases h
  | case4 σ e rest =>
    simp only [Option.map_eq_some_iff, Prod.mk.injEq] at h
    obtain ⟨n, hn, rfl, rfl⟩ := h
    simp [execute?, hn]
  | case5 σ rest =>
    simp only [Option.some.injEq, Prod.mk.injEq] at h
    obtain ⟨rfl, rfl⟩ := h
    simp [execute?]
  | case6 => cases h


lemma stands_of_undisturbed {σ σ' : Store} {stack : Stack} {ns : List Int32} (hs : Stands σ stack ns)
    (h : ∀ v ∈ stack, value? σ' v.expr = value? σ v.expr) : Stands σ' stack ns := by
  induction hs with
  | nil => exact .nil
  | cons hv _ ih =>
    rw [List.forall_mem_cons] at h
    exact .cons ⟨hv.1, h.1.trans hv.2⟩ (ih h.2)

lemma undisturbed_of_stands {σ σ' : Store} {stack : Stack} {ns : List Int32} (hs : Stands σ stack ns)
    (hs' : Stands σ' stack ns) : ∀ v ∈ stack, value? σ' v.expr = value? σ v.expr := by
  induction hs with
  | nil => simp
  | cons hv _ ih =>
    cases hs' with
    | cons hv' hs' => exact List.forall_mem_cons.mpr ⟨hv'.2.trans hv.2.symm, ih hs'⟩

lemma agrees_nil {ctx : Context} {stack : Stack} {σ : Store} {f : Frame} (hl : Holds ctx.names σ f.locals)
    (hs : Stands σ stack f.stack) (hret : f.returned = none) : Agrees ctx [] stack σ f :=
  ⟨{ stack }, f, σ, rfl, rfl, by rw [hret]; rfl, hl, fun _ => hs⟩

/-- Behind a return nothing is left to compare. -/
lemma agrees_return {ctx : Context} {i : Instruction} {rest : List Instruction} {stack : Stack} {σ σ₁ : Store}
    {f f₁ : Frame} {r₁ r₂ : Recovered} {v : Option Int32} (h₁ : step ctx i stack = .ok r₁)
    (h₂ : run ctx rest r₁.stack = .ok r₂) (hret : f.returned = none) (hm : machineStep i f = .ok f₁)
    (hv : f₁.returned = some v) (he : execute? r₁.stmts σ = some (σ₁, f₁.returned))
    (hl : Holds ctx.names σ₁ f₁.locals) (hs : Stands σ₁ r₁.stack f₁.stack) : Agrees ctx (i :: rest) stack σ f := by
  refine ⟨_, f₁, σ₁, run_cons_of_ok h₁ h₂, ?_, ?_, hl, fun hlast => ?_⟩
  · rw [machineRun_cons hret hm, machineRun_returned hv]
  · rw [Recovered.andThen, execute_append he]
    simp [hv]
  · have hi : isReturn i = true := by rw [isReturn_of_machineStep hm hret, hv]; rfl
    cases rest with
    | nil =>
      cases h₂
      exact hs
    | cons j rest => simp [hi] at hlast

/-- In front of anything but a return, a run agrees when the rest of it does from there. -/
lemma agrees_cons {ctx : Context} {i : Instruction} {rest : List Instruction} {stack : Stack} {σ σ₁ : Store}
    {f f₁ : Frame} {r₁ : Recovered} (h₁ : step ctx i stack = .ok r₁) (hret : f.returned = none)
    (hm : machineStep i f = .ok f₁) (hv : f₁.returned = none)
    (he : execute? r₁.stmts σ = some (σ₁, f₁.returned)) :
    Agrees ctx (i :: rest) stack σ f ↔ Agrees ctx rest r₁.stack σ₁ f₁ := by
  have hi : isReturn i = false := by rw [isReturn_of_machineStep hm hret, hv]; rfl
  have hlast : (∀ j ∈ (i :: rest).dropLast, isReturn j = false) ↔ ∀ j ∈ rest.dropLast, isReturn j = false := by
    cases rest <;> simp [hi]
  have hexec (r₂ : Recovered) : execute? (r₁.andThen r₂).stmts σ = execute? r₂.stmts σ₁ := by
    rw [Recovered.andThen, execute_append he, hv]
    rfl
  constructor
  · rintro ⟨r, f', σ', hr, hf, he', hl, hs⟩
    obtain ⟨r₁', r₂, h₁', h₂, rfl⟩ := run_cons_ok hr
    obtain rfl : r₁' = r₁ := by simpa [h₁] using h₁'.symm
    rw [machineRun_cons hret hm] at hf
    rw [hexec] at he'
    exact ⟨r₂, f', σ', h₂, hf, he', hl, fun h => hs (hlast.mpr h)⟩
  · rintro ⟨r₂, f', σ', h₂, hf, he', hl, hs⟩
    refine ⟨_, f', σ', run_cons_of_ok h₁ h₂, ?_, ?_, hl, fun h => hs (hlast.mp h)⟩
    · rw [machineRun_cons hret hm, hf]
    · rw [hexec, he']


/-- The stack of literals with the given values. -/
def literals (ns : List Int32) : Stack :=
  ns.map fun n => ⟨.int n, false⟩

lemma stands_literals (σ : Store) (ns : List Int32) : Stands σ (literals ns) ns := by
  induction ns with
  | nil => exact .nil
  | cons n ns ih => exact .cons ⟨rfl, rfl⟩ ih

/-- A run agrees at all of its prefixes exactly when it is undisturbed, from any stack that stands for the machine's. -/
lemma agrees_take_iff {ctx : Context} (hn : Distinct ctx.names) : ∀ {insns : List Instruction} {stack : Stack}
    {r : Recovered} {σ : Store} {f : Frame}, (∀ i ∈ insns, (intOp? i).isSome) → run ctx insns stack = .ok r →
    Holds ctx.names σ f.locals → Stands σ stack f.stack → f.returned = none →
    machineRun insns f ≠ .error .arithmetic →
    ((∀ k, Agrees ctx (insns.take k) stack σ f) ↔ Undisturbed ctx insns stack σ)
  | [], stack, r, σ, f, _, _, hl, hs, hret, _ => by
    simp only [List.take_nil, forall_const, Undisturbed, iff_true]
    exact agrees_nil hl hs hret
  | i :: rest, stack, r, σ, f, hint, hrun, hl, hs, hret, hexc => by
    obtain ⟨r₁, r₂, h₁, h₂, -⟩ := run_cons_ok hrun
    obtain ⟨hi, hrest⟩ := List.forall_mem_cons.mp hint
    obtain ⟨op, hop⟩ := Option.isSome_iff_exists.mp hi
    have hstep : machineStep i f ≠ .error .arithmetic := by
      intro hc
      simp [machineRun, hret, hc] at hexc
    obtain ⟨f₁, σ₁, hm, he, hl₁, hs₁, hσ⟩ := step_agrees hn hop h₁ hl hs hret hstep
    cases hv : f₁.returned with
    | some v =>
      -- a return: nothing behind it is run, and it writes to no variable
      obtain rfl := hσ (by simp [hv])
      refine iff_of_true (fun k => ?_) fun r' σ' hr' he' => ?_
      · cases k with
        | zero => exact agrees_nil hl hs hret
        | succ k =>
          obtain ⟨r', h'⟩ := run_take_ok h₂ k
          exact agrees_return h₁ h' hret hm hv he hl₁ hs₁
      · obtain rfl : r' = r₁ := by simpa [h₁] using hr'.symm
        simp [he, hv] at he'
    | none =>
      have hcons (k : Nat) : Agrees ctx (i :: rest.take k) stack σ f ↔ Agrees ctx (rest.take k) r₁.stack σ₁ f₁ :=
        agrees_cons h₁ hret hm hv he
      rw [machineRun_cons hret hm] at hexc
      have ih := @agrees_take_iff ctx hn rest r₁.stack r₂ σ₁ f₁ hrest h₂ hl₁
      constructor
      · intro hall r' σ' hr' he'
        obtain rfl : r' = r₁ := by simpa [h₁] using hr'.symm
        obtain rfl : σ' = σ₁ := by simpa [he, hv] using he'.symm
        have hrest' (k : Nat) := (hcons k).mp (hall (k + 1))
        -- the empty prefix of the rest compares the stack right behind the step
        obtain ⟨r₀, f₀, σ₀, hr₀, hf₀, he₀, -, hs₀⟩ := hrest' 0
        cases hr₀
        cases hf₀
        obtain rfl : σ₀ = σ' := by simpa [execute?] using (congrArg (Option.map Prod.fst) he₀).symm
        have hs' := hs₀ (by simp)
        exact ⟨undisturbed_of_stands hs₁ hs', (ih hs' hv hexc).mp hrest'⟩
      · intro hund k
        obtain ⟨hsame, hrest'⟩ := hund r₁ σ₁ h₁ (by rw [he, hv])
        cases k with
        | zero => exact agrees_nil hl hs hret
        | succ k => exact (hcons k).mpr ((ih (stands_of_undisturbed hs₁ hsame) hv hexc).mpr hrest' k)

/-! ### Pending variables -/

/-- The variables that statements assign to. -/
def assigned : List Stmt → List String
  | [] => []
  | .assign (.var x) _ :: rest => x :: assigned rest
  | _ :: rest => assigned rest

/-- No write is to a variable that occurs in an expression on the symbolic stack behind it. -/
def Unmentioned (ctx : Context) : List Instruction → Stack → Prop
  | [], _ => True
  | i :: rest, stack =>
    ∀ r, step ctx i stack = .ok r →
      (∀ x ∈ assigned r.stmts, ∀ v ∈ r.stack, v.expr.mentions x = false) ∧ Unmentioned ctx rest r.stack

lemma value_congr {σ σ' : Store} {e : Expr} (h : ∀ x, e.mentions x = true → σ' x = σ x) : value? σ' e = value? σ e := by
  fun_induction value? σ' e with
  | case1 n => rfl
  | case2 x => simp [value?, h x (by simp [Expr.mentions])]
  | case3 op a b m n ha hb iha ihb =>
    simp only [Expr.mentions, Bool.or_eq_true] at h
    simp only [value?, ← iha fun x hx => h x (.inl hx), ← ihb fun x hx => h x (.inr hx), ha, hb]
  | case4 op a b hab iha ihb =>
    simp only [Expr.mentions, Bool.or_eq_true] at h
    simp only [value?, ← iha fun x hx => h x (.inl hx), ← ihb fun x hx => h x (.inr hx)]
  | case5 a iha => simp [value?, iha (by simpa [Expr.mentions] using h)]
  | case6 e => simp_all [value?]

lemma execute_of_not_assigned {ss : List Stmt} {σ σ' : Store} {ret : Option (Option Int32)}
    (h : execute? ss σ = some (σ', ret)) {x : String} (hx : x ∉ assigned ss) : σ' x = σ x := by
  fun_induction execute? ss σ with
  | case1 σ => cases h; rfl
  | case2 σ y e rest n hn ih =>
    simp only [assigned, List.mem_cons, not_or] at hx
    rw [ih h hx.2, Function.update_of_ne hx.1]
  | case3 => cases h
  | case4 σ e rest =>
    simp only [Option.map_eq_some_iff, Prod.mk.injEq] at h
    obtain ⟨n, -, rfl, -⟩ := h
    rfl
  | case5 σ rest => cases h; rfl
  | case6 => cases h

lemma undisturbed_of_unmentioned {ctx : Context} : ∀ {insns : List Instruction} {stack : Stack} (σ : Store),
    Unmentioned ctx insns stack → Undisturbed ctx insns stack σ
  | [], _, _, _ => trivial
  | i :: rest, stack, σ, h => by
    intro r σ' hr he
    obtain ⟨hfree, hrest⟩ := h r hr
    refine ⟨fun v hv => value_congr fun x hx => ?_, undisturbed_of_unmentioned σ' hrest⟩
    refine execute_of_not_assigned he fun hmem => ?_
    simp [hfree x hmem v hv] at hx

/-! ### Main statement -/

/-- **Straight-line recovery.** From a stack of literals, a run of int instructions that succeeds and divides by no
zero agrees with the machine, and so does every beginning of it, exactly when no store and no increment changes the
value of an expression that is still on the symbolic stack. -/
theorem straightLine_agrees_iff {ctx : Context} (hn : Distinct ctx.names) {insns : List Instruction}
    (hint : ∀ i ∈ insns, (intOp? i).isSome) {ns : List Int32} {r : Recovered}
    (hrun : run ctx insns (literals ns) = .ok r) {σ : Store} {locals : UInt16 → Int32}
    (hl : Holds ctx.names σ locals) (hexc : machineRun insns ⟨locals, ns, none⟩ ≠ .error .arithmetic) :
    (∀ k, Agrees ctx (insns.take k) (literals ns) σ ⟨locals, ns, none⟩) ↔ Undisturbed ctx insns (literals ns) σ :=
  agrees_take_iff hn hint hrun hl (stands_literals σ ns) rfl hexc

lemma distinct_numbered : Distinct Naming.numbered := by
  intro slot offset slot' offset'
  constructor
  · intro h
    have hrepr : slot.toNat.repr = slot'.toNat.repr := by simpa [Naming.numbered, toString] using h
    exact UInt16.toNat_inj.mp (Nat.repr_injective hrepr)
  · rintro rfl
    rfl

/-- `iload_0; iinc 1, 1; iload_1; iadd; ireturn`: the increment meets a pending load of another variable. -/
def addIncremented : List Instruction :=
  [⟨0, ⟨0x1a⟩, .slot 0, 1⟩, ⟨1, ⟨0x84⟩, .increment 1 1, 3⟩, ⟨4, ⟨0x1b⟩, .slot 1, 1⟩, ⟨5, ⟨0x60⟩, .none, 1⟩,
    ⟨6, ⟨0xac⟩, .none, 1⟩]

/-- `iload_0; iinc 0, 1; ireturn`: the increment meets a pending load of the same variable. -/
def loadThenIncrement : List Instruction :=
  [⟨0, ⟨0x1a⟩, .slot 0, 1⟩, ⟨1, ⟨0x84⟩, .increment 0 1, 3⟩, ⟨4, ⟨0xac⟩, .none, 1⟩]

/-- The machine returns the value from before the increment, the statements the one from behind it. -/
theorem loadThenIncrement_disagrees :
    (∀ i ∈ loadThenIncrement, (intOp? i).isSome) ∧ Distinct Naming.numbered ∧
    Holds Naming.numbered (fun _ => 5) (fun _ => 5) ∧
    (∃ r, run { method := "m", names := Naming.numbered } loadThenIncrement [] = .ok r) ∧
    (∃ f, machineRun loadThenIncrement ⟨fun _ => 5, [], none⟩ = .ok f) ∧
    ¬ Agrees { method := "m", names := Naming.numbered } loadThenIncrement [] (fun _ => 5) ⟨fun _ => 5, [], none⟩ := by
  refine ⟨by decide, distinct_numbered, fun _ _ => rfl, ⟨_, rfl⟩, ⟨_, rfl⟩, ?_⟩
  rintro ⟨r, f, σ, hr, hm, he, -, -⟩
  cases hr
  cases hm
  have hsix (x : String) :
      execute? [.assign (.var x) (.binary .add (.var x) (.int 1)), .returnValue (.var x)] (fun _ => 5) =
        some (Function.update (fun _ => 5) x 6, some (some 6)) := by
    simp [execute?, value?, compute?]
  have hret := congrArg (Option.map Prod.snd) ((hsix (Naming.numbered 0 0)).symm.trans he)
  simp at hret

/-- The theorem at a run whose increment is behind a pending load of another variable. -/
theorem addIncremented_agrees :
    Undisturbed { method := "m", names := Naming.numbered } addIncremented (literals []) (fun _ => 5) ∧
      Agrees { method := "m", names := Naming.numbered } addIncremented (literals []) (fun _ => 5)
        ⟨fun _ => 5, [], none⟩ := by
  obtain ⟨r, hrun⟩ : ∃ r, run { method := "m", names := Naming.numbered } addIncremented (literals []) = .ok r :=
    ⟨_, rfl⟩
  have hundisturbed :
      Undisturbed { method := "m", names := Naming.numbered } addIncremented (literals []) (fun _ => 5) := by
    refine undisturbed_of_unmentioned _ ?_
    rintro _ ⟨⟩
    refine ⟨by simp [assigned], ?_⟩
    rintro _ ⟨⟩
    have hne : Naming.numbered 0 0 ≠ Naming.numbered 1 1 := mt (distinct_numbered 0 0 1 1).mp (by decide)
    refine ⟨by simpa [assigned, Expr.mentions, literals] using hne, ?_⟩
    rintro _ ⟨⟩
    refine ⟨by simp [assigned], ?_⟩
    rintro _ ⟨⟩
    refine ⟨by simp [assigned], ?_⟩
    rintro _ ⟨⟩
    exact ⟨by simp [assigned], trivial⟩
  have hagrees := (straightLine_agrees_iff distinct_numbered (by decide) hrun (fun _ _ => rfl) nofun).mpr hundisturbed
  exact ⟨hundisturbed, hagrees 5⟩

end JvmLift.IntCode
