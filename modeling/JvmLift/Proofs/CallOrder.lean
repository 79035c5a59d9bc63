import Mathlib
import JvmLift.Proofs.PlainBodies
import JvmLift.Proofs.Run

/-!
# Calls in the order of execution

The value of a call stays on the symbolic stack until some instruction uses it, so a call may come to be shown behind
the calls that are made later, more than once, or not at all. Reading what a run recovers, its statements first and then
its stack from the bottom, meets the calls that were made, once each and in order, as long as no instruction copies,
exchanges or drops a pending call and no statement with a call overtakes one that is pending. The step lemma places the
statements of a step behind the stack, where its values come from; whether they may be read in front of it is the only
question that is left.
-/

namespace JvmLift.Source

/-! ### Reading calls -/

/-- What a call shows of the method that it calls. -/
structure CallHead where
  onReceiver : Bool
  owner : String
  name : String
  arity : Nat
  deriving DecidableEq, Repr

namespace Expr

mutual

/-- The calls of an expression as they are evaluated: operands from left to right, and a call behind its receiver and
its arguments. -/
def calls : Expr → List CallHead
  | call receiver owner name args => receiver.calls ++ callsEach args ++ [⟨true, owner, name, args.length⟩]
  | staticCall owner name args => callsEach args ++ [⟨false, owner, name, args.length⟩]
  | unary _ a | field a _ | length a | cast _ a | instanceOf a _ => a.calls
  | binary _ a b | index a b => a.calls ++ b.calls
  | new _ args | newArray _ args => callsEach args
  | ternary c a b => c.calls ++ a.calls ++ b.calls
  | int _ | long _ | float _ | double _ | string _ | classLit _ | null | bool _ | var _ | uninit _ => []

def callsEach : List Expr → List CallHead
  | [] => []
  | a :: as => a.calls ++ callsEach as

end

lemma callsEach_eq_flatMap (as : List Expr) : callsEach as = as.flatMap calls := by
  induction as with
  | nil => simp [callsEach]
  | cons a as ih => simp [callsEach, ih]

end Expr

/-- The calls of statements without bodies, as they are executed. -/
def Stmt.callsOf (stmts : List Stmt) : List CallHead :=
  stmts.flatMap fun s => s.exprs.flatMap Expr.calls

@[simp]
lemma Stmt.callsOf_nil : callsOf [] = [] := rfl

@[simp]
lemma Stmt.callsOf_cons (s : Stmt) (ss : List Stmt) : callsOf (s :: ss) = s.exprs.flatMap Expr.calls ++ callsOf ss :=
  rfl

@[simp]
lemma Stmt.callsOf_append (ss ts : List Stmt) : callsOf (ss ++ ts) = callsOf ss ++ callsOf ts :=
  List.flatMap_append

end JvmLift.Source

namespace JvmLift.Recovery

open Bytecode Source

/-- The calls of a stack from its bottom to its top. -/
def pendingCalls (stack : Stack) : List CallHead :=
  stack.reverse.flatMap (·.expr.calls)

/-- The calls of what a run recovers: those of its statements, and behind them those that are pending. -/
def Recovered.calls (r : Recovered) : List CallHead :=
  Stmt.callsOf r.stmts ++ pendingCalls r.stack

@[simp]
lemma pendingCalls_nil : pendingCalls [] = [] := rfl

@[simp]
lemma pendingCalls_cons (v : StackValue) (stack : Stack) :
    pendingCalls (v :: stack) = pendingCalls stack ++ v.expr.calls := by
  simp [pendingCalls]

@[simp]
lemma pendingCalls_append (above below : Stack) :
    pendingCalls (above ++ below) = pendingCalls below ++ pendingCalls above := by
  simp [pendingCalls]

lemma pendingCalls_eq_nil_iff {stack : Stack} : pendingCalls stack = [] ↔ ∀ v ∈ stack, v.expr.calls = [] := by
  simp [pendingCalls]

/-! ### Calls that are made -/

/-- The method that the operand of a call refers to. -/
def called? (ctx : Context) (operand : Operand) : Option Member := do
  return memberAt (← ctx.pool) "method" (← poolIndex? operand)

/-- What a call of a method shows of it. -/
def headOf (isStatic : Bool) (member : Member) : CallHead :=
  ⟨!isStatic, simpleClassName member.owner, member.name, (MethodDescriptor.parseD member.descriptor).params.length⟩

/-- The call that an effect makes. Monitors are shown as calls. -/
def Effect.made (ctx : Context) (operand : Operand) : Effect → List CallHead
  | monitor name => [⟨false, "", name, 1⟩]
  | pooled (.invoke isStatic) => ((called? ctx operand).map (headOf isStatic)).toList
  | _ => []

/-- The calls that instructions make, as they are executed. -/
def callsMade (ctx : Context) (insns : List Instruction) : List CallHead :=
  insns.flatMap fun i => if i.isUndecoded then [] else (effectOf i.opcode).made ctx i.operand

/-- Whether an effect calls, if it does, a method that is known by its name. Constructors become part of a new object,
and a dynamic call site has no method of its own. -/
def Effect.callsByName (ctx : Context) (operand : Operand) : Effect → Bool
  | pooled .invokeDynamic => false
  | pooled (.invoke _) => (called? ctx operand).any (·.name != "<init>")
  | _ => true

/-- Whether an instruction neither transfers control nor calls other than by name. -/
def isStraight (ctx : Context) (i : Instruction) : Bool :=
  !i.isTransfer && (i.isUndecoded || (effectOf i.opcode).callsByName ctx i.operand)

/-! ### Calls that are kept -/

/-- Whether an effect that copies, exchanges or drops values spares the pending calls. A dropped value that has side
effects becomes a statement. -/
def Effect.spares (operand : Operand) : Effect → Stack → Bool
  | dup words _, stack => (takeWords? words stack).all fun (taken, _) => taken.all (·.expr.calls.isEmpty)
  | swap, a :: b :: _ => a.expr.calls.isEmpty || b.expr.calls.isEmpty
  | pop words, stack =>
    (takeWords? words stack).all fun (taken, _) => taken.all fun v => v.expr.hasSideEffects || v.expr.calls.isEmpty
  | store, v :: _ =>
    match operand with
    | .slot _ => true
    | _ => v.expr.calls.isEmpty
  | _, _ => true

/-- Whether a step from `stack` to `r` spares the pending calls, and makes no statement with a call while one is pending
behind it. -/
def stepKeeps (i : Instruction) (stack : Stack) (r : Recovered) : Bool :=
  (i.isUndecoded || (effectOf i.opcode).spares i.operand stack) &&
    ((Stmt.callsOf r.stmts).isEmpty || (pendingCalls r.stack).isEmpty)

/-- Whether every step of a run keeps the calls. -/
def keepsCalls (ctx : Context) : List Instruction → Stack → Bool
  | [], _ => true
  | i :: rest, stack =>
    match step ctx i stack with
    | .ok r => stepKeeps i stack r && keepsCalls ctx rest r.stack
    | .error _ => true

/-- Reading what a run recovers meets the calls that were pending, and behind them those that the run makes, once each
and in order. -/
def ShowsCalls (ctx : Context) (insns : List Instruction) (stack : Stack) : Prop :=
  ∃ r, run ctx insns stack = .ok r ∧ r.calls = pendingCalls stack ++ callsMade ctx insns

/-! ### Steps -/

variable {ctx : Context} {i : Instruction} {stack : Stack} {r : Recovered}

lemma append_of_takeWords? {words : Nat} {taken below : Stack} (h : takeWords? words stack = some (taken, below)) :
    stack = taken ++ below := by
  induction words, stack using takeWords?.induct generalizing taken below with
  | case1 stack =>
    simp only [takeWords?, Option.some.injEq, Prod.mk.injEq] at h
    obtain ⟨rfl, rfl⟩ := h
    rfl
  | case2 => cases h
  | case3 words v stack ih =>
    simp only [takeWords?, Option.map_eq_some_iff, Prod.mk.injEq, Prod.exists] at h
    obtain ⟨taken, below, h, rfl, rfl⟩ := h
    rw [ih h]
    rfl

lemma pendingCalls_of_takeValues? {n : Nat} {args : List Expr} {below : Stack}
    (h : takeValues? n stack = some (args, below)) :
    pendingCalls stack = pendingCalls below ++ Expr.callsEach args ∧ args.length = n := by
  unfold takeValues? at h
  split_ifs at h with hlen
  cases h
  refine ⟨?_, by simp; omega⟩
  conv_lhs => rw [← List.take_append_drop n stack, pendingCalls_append]
  rw [Expr.callsEach_eq_flatMap, List.flatMap_map]
  rfl

lemma calls_of_finishCall {ret : Option FieldType} {value : Expr} :
    pendingCalls (finishCall ret value stack).stack ++ Stmt.callsOf (finishCall ret value stack).stmts =
      pendingCalls stack ++ value.calls := by
  cases ret <;> simp [finishCall, Stmt.exprs]

lemma calls_of_invoke? {isStatic : Bool} {member : Member} (hshown : ctx.hides member = false)
    (hname : member.name ≠ "<init>") (h : invoke? ctx isStatic member stack = some r) :
    pendingCalls r.stack ++ Stmt.callsOf r.stmts = pendingCalls stack ++ [headOf isStatic member] := by
  simp only [invoke?, bind, Option.bind_eq_some_iff, pure] at h
  obtain ⟨⟨args, below⟩, htake, h⟩ := h
  obtain ⟨hcalls, harity⟩ := pendingCalls_of_takeValues? htake
  cases isStatic with
  | true =>
    simp only [hshown, Bool.and_false, Bool.false_eq_true, if_false, if_true, Option.some.injEq] at h
    rw [← h, calls_of_finishCall, hcalls]
    simp [Expr.calls, headOf, harity]
  | false =>
    simp only [Bool.false_eq_true, if_false] at h
    split at h
    · cases h
    · simp only [Option.some.injEq, callOn, hname, if_false] at h
      rw [← h, calls_of_finishCall, hcalls]
      simp [Expr.calls, headOf, harity]

lemma calls_constantAt (pool : Pool) (wide : Bool) (index : UInt16) : (constantAt pool wide index).expr.calls = [] := by
  unfold constantAt
  cases pool.constant? index with
  | none => simp [Expr.calls]
  | some c => cases c <;> simp [constantValue, Expr.calls]

lemma calls_of_usePool? {pool : Pool} {operand : Operand} {index : UInt16} {use : PoolUse}
    (hpool : ctx.pool = some pool) (hindex : poolIndex? operand = some index)
    (hshown : ∀ member, ctx.hides member = false) (hname : (Effect.pooled use).callsByName ctx operand = true)
    (h : usePool? ctx pool operand index use stack = some r) :
    pendingCalls r.stack ++ Stmt.callsOf r.stmts = pendingCalls stack ++ (Effect.pooled use).made ctx operand := by
  unfold usePool? at h
  split at h
  case h_6 =>
    have hcalled : called? ctx operand = some (memberAt pool "method" index) := by simp [called?, hpool, hindex]
    simp only [Effect.callsByName, hcalled, Option.any_some, bne_iff_ne] at hname
    rw [calls_of_invoke? (hshown _) hname h]
    simp [Effect.made, hcalled]
  case h_7 => cases hname
  case h_10 =>
    simp only [bind, Option.bind_eq_some_iff, pure] at h
    obtain ⟨⟨dims, below⟩, htake, h⟩ := h
    cases h
    simp [(pendingCalls_of_takeValues? htake).1, Expr.calls, Effect.made]
  all_goals cases h
  all_goals simp [calls_constantAt, Expr.calls, Expr.callsEach, staticField, Stmt.exprs, Effect.made]

/-! ### Steps that move values -/

lemma pendingCalls_filter_sublist (p : StackValue → Bool) (taken : Stack) :
    (pendingCalls (taken.filter p)).Sublist (pendingCalls taken) := by
  induction taken with
  | nil => exact .slnil
  | cons v taken ih =>
    rw [List.filter_cons, pendingCalls_cons]
    split
    · rw [pendingCalls_cons]
      exact ih.append_right _
    · exact ih.trans (List.sublist_append_left _ _)

/-- Dropping values loses no call if what is dropped holds none, and only then. -/
lemma pendingCalls_filter_eq_iff {p : StackValue → Bool} {taken : Stack} :
    pendingCalls (taken.filter p) = pendingCalls taken ↔ ∀ v ∈ taken, p v = true ∨ v.expr.calls = [] := by
  induction taken with
  | nil => simp
  | cons v taken ih =>
    rw [List.forall_mem_cons, ← ih, List.filter_cons, pendingCalls_cons]
    cases hp : p v with
    | true => simp
    | false =>
      simp only [Bool.false_eq_true, if_false, false_or]
      constructor
      · intro h
        have hle := (pendingCalls_filter_sublist p taken).length_le
        rw [h, List.length_append] at hle
        have hnone : v.expr.calls = [] := List.length_eq_zero_iff.mp (by omega)
        exact ⟨hnone, by simpa [hnone] using h⟩
      · rintro ⟨hnone, h⟩
        simp [hnone, h]

lemma pop_ok {words : Nat} (h : applyEffect? ctx i (.pop words) stack = some r) :
    ∃ taken, takeWords? words stack = some (taken, r.stack) ∧
      Stmt.callsOf r.stmts = pendingCalls (taken.filter (·.expr.hasSideEffects)) := by
  simp only [applyEffect?, bind, Option.bind_eq_some_iff, pure] at h
  obtain ⟨⟨taken, below⟩, htake, h⟩ := h
  cases h
  refine ⟨taken, htake, ?_⟩
  rw [List.filter_reverse, Stmt.callsOf, List.flatMap_map]
  simp [pendingCalls, Stmt.exprs]

lemma dup_ok {words skip : Nat} (h : applyEffect? ctx i (.dup words skip) stack = some r) :
    ∃ top below rest, takeWords? words stack = some (top, below ++ rest) ∧
      r = { stack := top ++ below ++ top ++ rest } := by
  simp only [applyEffect?, bind, Option.bind_eq_some_iff, pure] at h
  obtain ⟨⟨top, stack'⟩, htop, ⟨below, rest⟩, hbelow, h⟩ := h
  cases h
  obtain rfl := append_of_takeWords? hbelow
  exact ⟨top, below, rest, htop, rfl⟩

/-- What is known of the effect of an instruction that neither transfers control nor calls other than by name. -/
structure Effect.Straight (ctx : Context) (operand : Operand) (effect : Effect) : Prop where
  push : ∀ v, effect = .push v → v.expr.calls = []
  branch : effect.isBranch = false
  switch : effect.isSwitch = false
  byName : effect.callsByName ctx operand = true

/-- An effect that spares the pending calls leaves all of them, and behind them the call that it makes, if its
statements are read where their values come from, on top of the stack. -/
lemma calls_of_applyEffect? {effect : Effect} (hshown : ∀ member, ctx.hides member = false)
    (heffect : effect.Straight ctx i.operand) (hspares : effect.spares i.operand stack = true)
    (h : applyEffect? ctx i effect stack = some r) :
    pendingCalls r.stack ++ Stmt.callsOf r.stmts = pendingCalls stack ++ effect.made ctx i.operand := by
  have happly := h
  unfold applyEffect? at h
  split at h
  case h_2 =>
    cases h
    simp [heffect.push _ rfl, Effect.made]
  -- the operand decides whether there is anything to do
  case h_3 | h_4 => split at h <;> (cases h; simp [Expr.calls, Effect.made])
  case h_5 =>
    split at h <;> cases h
    · simp [Expr.calls, Stmt.exprs, Effect.made]
    · simp_all [Effect.spares, Effect.made]
  case h_8 words =>
    obtain ⟨taken, htake, hstmts⟩ := pop_ok happly
    simp only [Effect.spares, htake, Option.all_some, List.all_eq_true, Bool.or_eq_true, List.isEmpty_iff] at hspares
    simp [append_of_takeWords? htake, hstmts, pendingCalls_filter_eq_iff.mpr hspares, Effect.made]
  case h_9 =>
    obtain ⟨top, below, rest, htop, rfl⟩ := dup_ok happly
    simp only [Effect.spares, htop, Option.all_some, List.all_eq_true, List.isEmpty_iff] at hspares
    simp [append_of_takeWords? htop, pendingCalls_eq_nil_iff.mpr hspares, Effect.made]
  case h_10 =>
    cases h
    simp only [Effect.spares, Bool.or_eq_true, List.isEmpty_iff] at hspares
    rcases hspares with hnone | hnone <;> simp [hnone, Effect.made]
  case h_13 =>
    split at h
    · cases h
      split_ifs <;> simp [Expr.calls, Stmt.exprs, Effect.made]
    · cases h
      simp [Effect.made]
  case h_14 cast _ _ _ =>
    cases h
    cases cast <;> simp [Expr.calls, Effect.made]
  case h_16 => cases heffect.branch
  case h_18 => cases heffect.switch
  case h_25 =>
    split at h
    · exact calls_of_usePool? ‹_› ‹_› hshown heffect.byName h
    · next hskip =>
      cases h
      have hnone : called? ctx i.operand = none := by
        cases hpool : ctx.pool with
        | none => simp [called?, hpool]
        | some pool =>
          cases hindex : poolIndex? i.operand with
          | none => simp [called?, hindex]
          | some index => exact absurd hindex (hskip _ _ hpool)
      cases ‹PoolUse› <;> simp [Effect.made, hnone]
  all_goals cases h
  all_goals simp [Expr.calls, Expr.callsEach, Stmt.exprs, Effect.made]

lemma eq_nil_or_eq_nil_of_append_comm {as bs : List CallHead} (h : as ++ bs = bs ++ as) (hnodup : (as ++ bs).Nodup) :
    as = [] ∨ bs = [] := by
  match as, bs with
  | [], _ => exact .inl rfl
  | _, [] => exact .inr rfl
  | a :: as, b :: bs =>
    obtain ⟨rfl, -⟩ := List.cons.inj h
    exact absurd hnodup (by simp)

/-- An effect behind which the calls are read in order spares the pending ones. -/
lemma spares_of_calls {effect : Effect} (h : applyEffect? ctx i effect stack = some r)
    (hcalls : r.calls = pendingCalls stack ++ effect.made ctx i.operand) (hnodup : (pendingCalls stack).Nodup) :
    effect.spares i.operand stack = true := by
  cases effect with
  | pop words =>
    obtain ⟨taken, htake, hstmts⟩ := pop_ok h
    rw [Recovered.calls, hstmts, append_of_takeWords? htake, pendingCalls_append] at hcalls
    have hlength := congrArg List.length hcalls
    simp only [Effect.made, List.length_append, List.length_nil] at hlength
    have hkept := (pendingCalls_filter_sublist (·.expr.hasSideEffects) taken).eq_of_length (by omega)
    simpa [Effect.spares, htake] using pendingCalls_filter_eq_iff.mp hkept
  | dup words skip =>
    obtain ⟨top, below, rest, htop, rfl⟩ := dup_ok h
    rw [Recovered.calls, append_of_takeWords? htop] at hcalls
    have hlength := congrArg List.length hcalls
    simp only [pendingCalls_append, Effect.made, List.length_append, Stmt.callsOf_nil, List.length_nil] at hlength
    have hnone : pendingCalls top = [] := List.length_eq_zero_iff.mp (by omega)
    simpa [Effect.spares, htop] using pendingCalls_eq_nil_iff.mp hnone
  | swap =>
    match stack, h with
    | a :: b :: stack, h =>
      cases h
      have hcomm : a.expr.calls ++ b.expr.calls = b.expr.calls ++ a.expr.calls := by
        simpa [Recovered.calls, Effect.made] using hcalls
      have hpair : (a.expr.calls ++ b.expr.calls).Nodup := by
        rw [hcomm]
        exact hnodup.sublist (by simp)
      simpa [Effect.spares] using eq_nil_or_eq_nil_of_append_comm hcomm hpair
  | store =>
    match stack, h with
    | v :: stack, h =>
      simp only [applyEffect?] at h
      split at h <;> cases h
      · simp_all [Effect.spares]
      · simp_all [Effect.spares, Recovered.calls, Effect.made]
  | _ => rfl

/-- An effect shows no other calls than those that were pending and the one that it makes. -/
lemma mem_calls_of_applyEffect? {effect : Effect} (hshown : ∀ member, ctx.hides member = false)
    (heffect : effect.Straight ctx i.operand) (h : applyEffect? ctx i effect stack = some r) {c : CallHead}
    (hc : c ∈ r.calls) : c ∈ pendingCalls stack ++ effect.made ctx i.operand := by
  by_cases hspares : effect.spares i.operand stack = true
  · rw [← calls_of_applyEffect? hshown heffect hspares h]
    simpa [Recovered.calls, or_comm] using hc
  · cases effect with
    | pop words =>
      obtain ⟨taken, htake, hstmts⟩ := pop_ok h
      rw [Recovered.calls, hstmts, List.mem_append] at hc
      rw [append_of_takeWords? htake]
      have hsub := (pendingCalls_filter_sublist (·.expr.hasSideEffects) taken).subset
      grind [pendingCalls_append]
    | dup words skip =>
      obtain ⟨top, below, rest, htop, rfl⟩ := dup_ok h
      rw [append_of_takeWords? htop]
      simp only [Recovered.calls, Stmt.callsOf_nil, List.nil_append, pendingCalls_append, List.mem_append] at hc ⊢
      tauto
    | swap =>
      match stack, h with
      | a :: b :: stack, h =>
        cases h
        simp only [Recovered.calls, Stmt.callsOf_nil, List.nil_append, pendingCalls_cons, List.mem_append] at hc ⊢
        tauto
    | store =>
      match stack, h with
      | v :: stack, h =>
        simp only [applyEffect?] at h
        split at h <;> cases h
        · simp_all [Effect.spares]
        · simp_all [Recovered.calls]
    | _ => exact absurd rfl hspares

/-! ### Straight instructions -/

lemma calls_of_pushed {op : Opcode} {v : StackValue} (h : effectOf op = .push v) : v.expr.calls = [] := by
  have hall : ∀ op, (match effectOf op with
      | .push v => v.expr.calls.isEmpty
      | _ => true) = true := by decide +kernel
  simpa [h] using hall op

lemma straight_of_isStraight (hi : isStraight ctx i = true) (hdecoded : i.isUndecoded = false) :
    (effectOf i.opcode).Straight ctx i.operand := by
  simp only [isStraight, Bool.and_eq_true, Bool.not_eq_true', hdecoded, Bool.false_or] at hi
  obtain ⟨hstays, hname⟩ := hi
  simp only [Instruction.isTransfer, Instruction.role, hdecoded, Bool.false_eq_true, if_false, Role.isTransfer,
    Bool.or_eq_false_iff] at hstays
  refine ⟨fun v => calls_of_pushed, Bool.eq_false_iff.mpr fun hbranch => ?_,
    Bool.eq_false_iff.mpr fun hswitch => ?_, hname⟩
  · have hrole := (effectOf_fits i.opcode).branch.mp hbranch
    simp [hrole, Role.isConditional] at hstays
  · simp [(effectOf_fits i.opcode).switch.mp hswitch] at hstays

lemma callsMade_cons (i : Instruction) (rest : List Instruction) :
    callsMade ctx (i :: rest) = callsMade ctx [i] ++ callsMade ctx rest := by
  simp [callsMade]

lemma callsMade_singleton (hdecoded : i.isUndecoded = false) :
    callsMade ctx [i] = (effectOf i.opcode).made ctx i.operand := by
  simp [callsMade, hdecoded]

lemma calls_of_step (hshown : ∀ member, ctx.hides member = false) (hi : isStraight ctx i = true)
    (h : step ctx i stack = .ok r) (hkeeps : stepKeeps i stack r = true) :
    r.calls = pendingCalls stack ++ callsMade ctx [i] := by
  obtain ⟨hundecoded, text, rfl⟩ | ⟨hdecoded, h⟩ := step_ok h
  · simp [Recovered.calls, callsMade, hundecoded, Stmt.exprs]
  · simp only [stepKeeps, hdecoded, Bool.false_or, Bool.and_eq_true, Bool.or_eq_true, List.isEmpty_iff] at hkeeps
    obtain ⟨hspares, hnone⟩ := hkeeps
    have hcalls := calls_of_applyEffect? hshown (straight_of_isStraight hi hdecoded) hspares h
    rw [callsMade_singleton hdecoded, ← hcalls, Recovered.calls]
    rcases hnone with hnone | hnone <;> simp [hnone]

lemma stepKeeps_of_calls (hshown : ∀ member, ctx.hides member = false) (hi : isStraight ctx i = true)
    (h : step ctx i stack = .ok r) (hcalls : r.calls = pendingCalls stack ++ callsMade ctx [i])
    (hnodup : r.calls.Nodup) : stepKeeps i stack r = true := by
  obtain ⟨hundecoded, text, rfl⟩ | ⟨hdecoded, h⟩ := step_ok h
  · simp [stepKeeps, hundecoded, Stmt.exprs]
  · rw [callsMade_singleton hdecoded] at hcalls
    have hspares := spares_of_calls h hcalls (hcalls ▸ hnodup).of_append_left
    have hbehind := calls_of_applyEffect? hshown (straight_of_isStraight hi hdecoded) hspares h
    have hnone := eq_nil_or_eq_nil_of_append_comm (hcalls.trans hbehind.symm) hnodup
    simpa [stepKeeps, hdecoded, hspares] using hnone

lemma mem_calls_of_step (hshown : ∀ member, ctx.hides member = false) (hi : isStraight ctx i = true)
    (h : step ctx i stack = .ok r) {c : CallHead} (hc : c ∈ r.calls) :
    c ∈ pendingCalls stack ++ callsMade ctx [i] := by
  obtain ⟨hundecoded, text, rfl⟩ | ⟨hdecoded, h⟩ := step_ok h
  · simpa [Recovered.calls, Stmt.exprs, callsMade, hundecoded] using hc
  · rw [callsMade_singleton hdecoded]
    exact mem_calls_of_applyEffect? hshown (straight_of_isStraight hi hdecoded) h hc

/-! ### Runs -/

lemma calls_andThen (first second : Recovered) :
    (first.andThen second).calls = Stmt.callsOf first.stmts ++ second.calls := by
  simp [Recovered.andThen, Recovered.calls]

lemma showsCalls_nil : ShowsCalls ctx [] stack :=
  ⟨{ stack }, rfl, by simp [Recovered.calls, callsMade]⟩

/-- Behind a step that is read in order, a run is read in order as its rest is. -/
lemma showsCalls_cons {rest : List Instruction} (h : step ctx i stack = .ok r)
    (hcalls : r.calls = pendingCalls stack ++ callsMade ctx [i]) :
    ShowsCalls ctx (i :: rest) stack ↔ ShowsCalls ctx rest r.stack := by
  have hread (r' : Recovered) : (r.andThen r').calls = pendingCalls stack ++ callsMade ctx (i :: rest) ↔
      r'.calls = pendingCalls r.stack ++ callsMade ctx rest := by
    have hr : r.calls = Stmt.callsOf r.stmts ++ pendingCalls r.stack := rfl
    rw [callsMade_cons, ← List.append_assoc, ← hcalls, calls_andThen, hr, List.append_assoc,
      List.append_cancel_left_eq]
  constructor
  · rintro ⟨_, hrun, hr⟩
    obtain ⟨r₁, r₂, h₁, h₂, rfl⟩ := run_cons_ok hrun
    obtain rfl : r = r₁ := by simpa [h] using h₁
    exact ⟨r₂, h₂, (hread r₂).mp hr⟩
  · rintro ⟨r', hrun, hr⟩
    exact ⟨_, run_cons_of_ok h hrun, (hread r').mpr hr⟩

/-- A run that keeps the calls is read in order, and so is every beginning of it. -/
lemma showsCalls_of_keepsCalls (hshown : ∀ member, ctx.hides member = false) :
    ∀ {insns : List Instruction} {stack : Stack} {r : Recovered}, (∀ i ∈ insns, isStraight ctx i = true) →
      run ctx insns stack = .ok r → keepsCalls ctx insns stack = true → ∀ k, ShowsCalls ctx (insns.take k) stack
  | _, _, _, _, _, _, 0 | [], _, _, _, _, _, _ + 1 => showsCalls_nil
  | i :: rest, stack, r, hinsns, h, hkeeps, k + 1 => by
    obtain ⟨r₁, r₂, h₁, h₂, rfl⟩ := run_cons_ok h
    obtain ⟨hi, hrest⟩ := List.forall_mem_cons.mp hinsns
    simp only [keepsCalls, h₁, Bool.and_eq_true] at hkeeps
    have hcalls := calls_of_step hshown hi h₁ hkeeps.1
    exact (showsCalls_cons h₁ hcalls).mpr (showsCalls_of_keepsCalls hshown hrest h₂ hkeeps.2 k)

/-- A run of different calls whose beginnings are all read in order keeps the calls. -/
lemma keepsCalls_of_showsCalls (hshown : ∀ member, ctx.hides member = false) :
    ∀ {insns : List Instruction} {stack : Stack} {r : Recovered}, (∀ i ∈ insns, isStraight ctx i = true) →
      run ctx insns stack = .ok r → (pendingCalls stack ++ callsMade ctx insns).Nodup →
      (∀ k, ShowsCalls ctx (insns.take k) stack) → keepsCalls ctx insns stack = true
  | [], _, _, _, _, _, _ => rfl
  | i :: rest, stack, r, hinsns, h, hnodup, hall => by
    obtain ⟨r₁, r₂, h₁, h₂, rfl⟩ := run_cons_ok h
    obtain ⟨hi, hrest⟩ := List.forall_mem_cons.mp hinsns
    -- the beginning of one instruction is the step
    have hcalls : r₁.calls = pendingCalls stack ++ callsMade ctx [i] := by
      obtain ⟨r', hr', hcalls⟩ := hall 1
      obtain ⟨r₁', _, h₁', h₂', rfl⟩ := run_cons_ok hr'
      obtain rfl : r₁ = r₁' := by simpa [h₁] using h₁'
      cases h₂'
      simpa [Recovered.andThen, Recovered.calls] using hcalls
    rw [callsMade_cons, ← List.append_assoc, ← hcalls] at hnodup
    have hbehind : (pendingCalls r₁.stack ++ callsMade ctx rest).Nodup :=
      hnodup.sublist ((List.sublist_append_right _ _).append_right _)
    simp only [keepsCalls, h₁, Bool.and_eq_true]
    exact ⟨stepKeeps_of_calls hshown hi h₁ hcalls hnodup.of_append_left,
      keepsCalls_of_showsCalls hshown hrest h₂ hbehind fun k => (showsCalls_cons h₁ hcalls).mp (hall (k + 1))⟩

/-- A run shows no other calls than those that were pending and those that it makes. -/
lemma mem_calls_of_run (hshown : ∀ member, ctx.hides member = false) :
    ∀ {insns : List Instruction} {stack : Stack} {r : Recovered}, (∀ i ∈ insns, isStraight ctx i = true) →
      run ctx insns stack = .ok r → ∀ c ∈ r.calls, c ∈ pendingCalls stack ++ callsMade ctx insns
  | [], _, _, _, h, c, hc => by
    cases h
    simpa [Recovered.calls, callsMade] using hc
  | i :: rest, stack, r, hinsns, h, c, hc => by
    obtain ⟨r₁, r₂, h₁, h₂, rfl⟩ := run_cons_ok h
    obtain ⟨hi, hrest⟩ := List.forall_mem_cons.mp hinsns
    have hstep {c : CallHead} (hc : c ∈ r₁.calls) := mem_calls_of_step hshown hi h₁ hc
    rw [callsMade_cons, ← List.append_assoc, List.mem_append]
    rw [calls_andThen, List.mem_append] at hc
    rcases hc with hc | hc
    · exact .inl (hstep (List.mem_append_left _ hc))
    · rcases List.mem_append.mp (mem_calls_of_run hshown hrest h₂ c hc) with hc | hc
      · exact .inl (hstep (List.mem_append_right _ hc))
      · exact .inr hc

/-! ### Main statement -/

/-- **Calls are shown once and in order.** A run of instructions that neither transfer control nor call other than by
name, with no call hidden, shows no call that was neither pending nor made. If it keeps the calls, then reading it and
every beginning of it meets the calls that were pending, and behind them those that were made, once each and in order.
If all these calls are different, it is so read only if it keeps the calls. -/
theorem calls_read_in_order {ctx : Context} (hkotlin : ctx.options.hideKotlinIntrinsics = false)
    (hdollar : ctx.options.hideDollarCalls = false) {insns : List Instruction}
    (hinsns : ∀ i ∈ insns, isStraight ctx i = true) {stack : Stack} {r : Recovered}
    (hrun : run ctx insns stack = .ok r) :
    (∀ c ∈ r.calls, c ∈ pendingCalls stack ++ callsMade ctx insns) ∧
    (keepsCalls ctx insns stack = true → ∀ k, ShowsCalls ctx (insns.take k) stack) ∧
    ((pendingCalls stack ++ callsMade ctx insns).Nodup → (∀ k, ShowsCalls ctx (insns.take k) stack) →
      keepsCalls ctx insns stack = true) := by
  have hshown (member : Member) : ctx.hides member = false := by simp [Context.hides, hkotlin, hdollar]
  exact ⟨mem_calls_of_run hshown hinsns hrun, showsCalls_of_keepsCalls hshown hinsns hrun,
    keepsCalls_of_showsCalls hshown hinsns hrun⟩

/-- A context with three methods, at the indices 6, 12 and 18 of its pool, that hides nothing. -/
def threeMethods : Context where
  method := "m"
  names := Naming.numbered
  pool := some <| [⟨"A", "f", "()I"⟩, ⟨"A", "g", "(I)I"⟩, ⟨"A", "h", "()V"⟩].foldl
    (fun pool member => (pool.addMember .method member).2) Pool.new
  options := { hideKotlinIntrinsics := false, hideDollarCalls := false }

/-- `aload_0; invokestatic A.f; iconst_1; iadd; invokevirtual A.g; pop; invokestatic A.h; return` -/
def nestedCalls : List Instruction :=
  [⟨0, ⟨0x2a⟩, .slot 0, 1⟩, ⟨1, ⟨0xb8⟩, .pool 6, 3⟩, ⟨4, ⟨0x04⟩, .none, 1⟩, ⟨5, ⟨0x60⟩, .none, 1⟩,
    ⟨6, ⟨0xb6⟩, .pool 12, 3⟩, ⟨9, ⟨0x57⟩, .none, 1⟩, ⟨10, ⟨0xb8⟩, .pool 18, 3⟩, ⟨13, ⟨0xb1⟩, .none, 1⟩]

/-- The theorem at a run with a call among the arguments of another, whose value is popped. -/
theorem nestedCalls_read_in_order :
    (∀ i ∈ nestedCalls, isStraight threeMethods i = true) ∧ keepsCalls threeMethods nestedCalls [] = true ∧
    callsMade threeMethods nestedCalls = [⟨false, "A", "f", 0⟩, ⟨true, "A", "g", 1⟩, ⟨false, "A", "h", 0⟩] ∧
    ShowsCalls threeMethods nestedCalls [] := by
  have hstraight : ∀ i ∈ nestedCalls, isStraight threeMethods i = true := by decide +kernel
  have hkeeps : keepsCalls threeMethods nestedCalls [] = true := by decide +kernel
  obtain ⟨r, hrun⟩ : ∃ r, run threeMethods nestedCalls [] = .ok r := ⟨_, rfl⟩
  have hshows := (calls_read_in_order rfl rfl hstraight hrun).2.1 hkeeps
  exact ⟨hstraight, hkeeps, by decide +kernel, hshows 8⟩

/-- `invokestatic A.f; iconst_1; iadd; pop` loses the call, `invokestatic A.f; dup` doubles it, and
`invokestatic A.f; invokestatic A.h` turns the two calls round. -/
theorem calls_lost_doubled_overtaken :
    let lost : List Instruction :=
      [⟨0, ⟨0xb8⟩, .pool 6, 3⟩, ⟨3, ⟨0x04⟩, .none, 1⟩, ⟨4, ⟨0x60⟩, .none, 1⟩, ⟨5, ⟨0x57⟩, .none, 1⟩]
    let doubled : List Instruction := [⟨0, ⟨0xb8⟩, .pool 6, 3⟩, ⟨3, ⟨0x59⟩, .none, 1⟩]
    let overtaken : List Instruction := [⟨0, ⟨0xb8⟩, .pool 6, 3⟩, ⟨3, ⟨0xb8⟩, .pool 18, 3⟩]
    let f : CallHead := ⟨false, "A", "f", 0⟩
    let h : CallHead := ⟨false, "A", "h", 0⟩
    (∀ i ∈ lost ++ doubled ++ overtaken, isStraight threeMethods i = true) ∧
    (callsMade threeMethods lost = [f] ∧ (run threeMethods lost []).toOption.map Recovered.calls = some []) ∧
    (callsMade threeMethods doubled = [f] ∧ (run threeMethods doubled []).toOption.map Recovered.calls = some [f, f]) ∧
    (callsMade threeMethods overtaken = [f, h] ∧
      (run threeMethods overtaken []).toOption.map Recovered.calls = some [h, f]) := by
  decide +kernel

end JvmLift.Recovery
