import Mathlib
import JvmLift.Proofs.Balance

/-!
# Lifting in code order

Whether a method is lifted is decided by its statements in code order. How the code is cut into blocks does not matter
to them, since a run over two lists of instructions is a run over one behind a run over the other. Nor do the options:
what they hide is statements only, and each of these is a call without a receiver and without a result.
-/

namespace JvmLift

open Bytecode JvmLift.Flow Recovery Source

/-! ### Cutting into blocks -/

/-- A block starts at an instruction. -/
lemma exists_of_startingAt? {code : Code} {offset : Nat} {id : BlockId}
    (h : (CodeShape.ofCode code).graph.startingAt? offset = some id) :
    ∃ i ∈ decode code.bytes, i.offset = offset := by
  have hcuts := FlowGraph.cuts_withLeaders (coherent_decode code.bytes) (tableLeaders code.handlers)
  obtain ⟨b, hfind, -⟩ := Option.map_eq_some_iff.mp h
  obtain ⟨k, hk, hb⟩ := Array.getElem_of_mem (Array.mem_of_find?_eq_some hfind)
  have hb : (CodeShape.ofCode code).graph.block? k = some b := by
    rw [← hb]
    exact Array.getElem?_eq_getElem hk
  obtain ⟨i, hhead, hstart⟩ := hcuts.head?_body hb
  have hoffset : b.start = offset := by simpa using Array.find?_some hfind
  exact ⟨i, hcuts.mem_of_mem_body hb (List.mem_of_mem_head? hhead), hstart.trans hoffset⟩

/-- Rows with a handler at an offset that no instruction has make no regions. -/
lemma regions_eq_nil {code : Code}
    (hrows : ∀ row ∈ code.handlers, ∀ i ∈ decode code.bytes, i.offset ≠ row.handler.toNat) :
    (CodeShape.ofCode code).regions = [] := by
  have hhandler : ∀ row ∈ code.handlers, Region.handler? (CodeShape.ofCode code).graph row = none := by
    intro row hrow
    rw [Region.handler?, Option.map_eq_none_iff, Option.eq_none_iff_forall_ne_some]
    intro id hid
    obtain ⟨i, hi, hoffset⟩ := exists_of_startingAt? hid
    exact hrows row hrow i hi hoffset
  refine List.filter_eq_nil_iff.mpr fun region hregion => ?_
  obtain ⟨range, -, rfl⟩ := List.mem_map.mp hregion
  simp only [Region.ofRange, Bool.not_eq_true', List.isEmpty_eq_false_iff, ne_eq, Decidable.not_not,
    List.filterMap_eq_nil_iff]
  exact fun row hrow => hhandler row (List.mem_of_mem_filter hrow)

/-- **Code order.** A run over two lists of instructions, one behind the other, fails where the first stage fails, or
else where the second one does, and else it has the statements of both, the stack of the second, and the transfer of the
second if there is one. So if no row of the exception table has a handler at an instruction, the statements in code
order are those of one run over all instructions, or there is the same error. -/
theorem flatStatements_eq_run :
    (∀ (ctx : Recovery.Context) (front back : List Instruction) (stack : Stack),
      (∀ e, run ctx front stack = .error e → run ctx (front ++ back) stack = .error e) ∧
      ∀ first, run ctx front stack = .ok first →
        (∀ e, run ctx back first.stack = .error e → run ctx (front ++ back) stack = .error e) ∧
        ∀ second, run ctx back first.stack = .ok second → run ctx (front ++ back) stack =
          .ok ⟨first.stmts ++ second.stmts, second.stack, second.exit.or first.exit⟩) ∧
    ∀ code : Code, (∀ row ∈ code.handlers, ∀ i ∈ decode code.bytes, i.offset ≠ row.handler.toNat) →
      ∀ ctx, Lift.flatStatements ctx (CodeShape.ofCode code) =
        (run ctx (decode code.bytes) []).map Recovered.stmts := by
  constructor
  · intro ctx front back stack
    refine ⟨fun e h => ?_, fun first h => ⟨fun e h' => ?_, fun second h' => ?_⟩⟩
    · rw [run_append, h]
      rfl
    · simp only [run_append, h, h', bind, Except.bind]
    · simp only [run_append, h, h', bind, Except.bind, pure, Except.pure, Recovered.andThen]
  · intro code hrows ctx
    have hcuts := FlowGraph.cuts_withLeaders (coherent_decode code.bytes) (tableLeaders code.handlers)
    rw [Lift.flatStatements, regions_eq_nil hrows, List.flatMap_nil, runBlocks_eq]
    exact congrArg (fun insns => (run ctx insns []).map Recovered.stmts) hcuts.flatten_body

/-- The theorem at a method whose table has a row with a handler inside of an instruction. -/
theorem chosenSummand_flatStatements :
    (∀ i ∈ decode chosenSummand, i.offset ≠ 3) ∧
      ∀ ctx, Lift.flatStatements ctx (CodeShape.ofCode { bytes := chosenSummand, handlers := [⟨0, 5, 3, 0⟩] }) =
        (run ctx (decode chosenSummand) []).map Recovered.stmts := by
  have hoffset : ∀ i ∈ decode chosenSummand, i.offset ≠ 3 := by decide +kernel
  refine ⟨hoffset, flatStatements_eq_run.2 _ fun row hrow => ?_⟩
  obtain rfl := List.mem_singleton.mp hrow
  exact hoffset

/-! ### Hidden calls -/

/-- Two outcomes are the same error, or they are both successes, with related results. -/
inductive Alike {α β : Type} (R : α → β → Prop) : Except LiftError α → Except LiftError β → Prop
  | error (e : LiftError) : Alike R (.error e) (.error e)
  | ok {a : α} {b : β} (h : R a b) : Alike R (.ok a) (.ok b)

namespace Alike

variable {α β α' β' : Type} {R : α → β → Prop} {S : α' → β' → Prop} {x : Except LiftError α} {y : Except LiftError β}

lemma bind (h : Alike R x y) {f : α → Except LiftError α'} {g : β → Except LiftError β'}
    (hfg : ∀ a b, R a b → Alike S (f a) (g b)) : Alike S (x >>= f) (y >>= g) := by
  cases h with
  | error e => exact .error e
  | ok h => exact hfg _ _ h

lemma mono {R' : α → β → Prop} (h : Alike R x y) (hR : ∀ a b, R a b → R' a b) : Alike R' x y := by
  cases h with
  | error e => exact .error e
  | ok h => exact .ok (hR _ _ h)

end Alike

/-- The second list is the first one with some statements left out that have a property. -/
inductive Omits (P : Stmt → Prop) : List Stmt → List Stmt → Prop
  | nil : Omits P [] []
  | keep {s : Stmt} {shown kept : List Stmt} : Omits P shown kept → Omits P (s :: shown) (s :: kept)
  | drop {s : Stmt} {shown kept : List Stmt} : P s → Omits P shown kept → Omits P (s :: shown) kept

namespace Omits

variable {P Q : Stmt → Prop} {shown kept shown' kept' : List Stmt}

lemma refl (stmts : List Stmt) : Omits P stmts stmts := by
  induction stmts with
  | nil => exact .nil
  | cons s stmts ih => exact .keep ih

lemma append (h : Omits P shown kept) (h' : Omits P shown' kept') : Omits P (shown ++ shown') (kept ++ kept') := by
  induction h with
  | nil => exact h'
  | keep _ ih => exact .keep ih
  | drop hs _ ih => exact .drop hs ih

lemma mono (h : Omits P shown kept) (hPQ : ∀ s, P s → Q s) : Omits Q shown kept := by
  induction h with
  | nil => exact .nil
  | keep _ ih => exact .keep ih
  | drop hs _ ih => exact .drop (hPQ _ hs) ih

end Omits

/-- The same context with other options. -/
def Recovery.Context.under (ctx : Recovery.Context) (options : Options) : Recovery.Context :=
  { ctx with options }

/-- The same options, but nothing is hidden. -/
def Options.showing (options : Options) : Options :=
  { options with hideKotlinIntrinsics := false, hideDollarCalls := false }

/-- A statement that calls, without a receiver, a method without a result: an instruction makes the call, and the
options hide the method. -/
def Recovery.Context.HidesCall (ctx : Recovery.Context) (insns : List Instruction) (s : Stmt) : Prop :=
  ∃ i ∈ insns, ∃ pool index args, effectOf i.opcode = .pooled (.invoke true) ∧ ctx.pool = some pool ∧
    poolIndex? i.operand = some index ∧
    let member := memberAt pool "method" index
    (MethodDescriptor.parseD member.descriptor).isVoid = true ∧ ctx.hides member = true ∧
      s = .evaluate (.staticCall (simpleClassName member.owner) member.name args)

/-- One recovery is another with calls left out. -/
structure Recovery.Recovered.Conceals (P : Stmt → Prop) (shown r : Recovered) : Prop where
  stack : r.stack = shown.stack
  exit : r.exit = shown.exit
  stmts : Omits P shown.stmts r.stmts

lemma Recovery.Recovered.Conceals.refl {P : Stmt → Prop} (r : Recovered) : r.Conceals P r :=
  ⟨rfl, rfl, .refl _⟩

section Hiding

variable (ctx : Recovery.Context) (shown : Options)

lemma invoke?_under (hshown : ∀ member, (ctx.under shown).hides member = false) (isStatic : Bool) (member : Member)
    (stack : Stack) :
    invoke? (ctx.under shown) isStatic member stack = invoke? ctx isStatic member stack ∨
      isStatic = true ∧ (MethodDescriptor.parseD member.descriptor).isVoid = true ∧ ctx.hides member = true ∧
        ∃ args rest, invoke? ctx isStatic member stack = some { stack := rest } ∧
          invoke? (ctx.under shown) isStatic member stack =
            some { stmts := [.evaluate (.staticCall (simpleClassName member.owner) member.name args)]
                   stack := rest } := by
  simp only [invoke?, bind]
  cases takeValues? (MethodDescriptor.parseD member.descriptor).params.length stack with
  | none => exact .inl rfl
  | some taken =>
    obtain ⟨args, rest⟩ := taken
    cases isStatic with
    | false => exact .inl rfl
    | true =>
      by_cases hhidden : ((MethodDescriptor.parseD member.descriptor).isVoid && ctx.hides member) = true
      · obtain ⟨hvoid, hhides⟩ := Bool.and_eq_true_iff.mp hhidden
        have hret : (MethodDescriptor.parseD member.descriptor).ret = none := by
          simpa [MethodDescriptor.isVoid] using hvoid
        exact .inr ⟨rfl, hvoid, hhides, args, rest, by simp [hvoid, hhides], by simp [hshown, finishCall, hret]⟩
      · left
        simp [hshown, hhidden]

lemma usePool?_under (pool : Pool) (operand : Operand) (index : UInt16) {use : PoolUse}
    (huse : ∀ isStatic, use ≠ .invoke isStatic) (stack : Stack) :
    usePool? (ctx.under shown) pool operand index use stack = usePool? ctx pool operand index use stack := by
  unfold usePool?
  split
  case h_6 => exact absurd rfl (huse _)
  all_goals rfl

lemma applyEffect?_under (i : Instruction) {effect : Effect} (heffect : ∀ isStatic, effect ≠ .pooled (.invoke isStatic))
    (stack : Stack) : applyEffect? (ctx.under shown) i effect stack = applyEffect? ctx i effect stack := by
  unfold applyEffect?
  split
  case h_25 use =>
    have huse : ∀ isStatic, use ≠ .invoke isStatic := fun isStatic h => heffect isStatic (h ▸ rfl)
    simp only [usePool?_under ctx shown _ _ _ huse]
    rfl
  all_goals rfl

/-- An instruction that calls a hidden method leaves out the statement of the call, and any other one does the same. -/
lemma applyEffect?_conceals (hshown : ∀ member, (ctx.under shown).hides member = false) (i : Instruction)
    (stack : Stack) :
    Option.Rel (Recovered.Conceals (ctx.HidesCall [i])) (applyEffect? (ctx.under shown) i (effectOf i.opcode) stack)
      (applyEffect? ctx i (effectOf i.opcode) stack) := by
  have hrefl : ∀ x : Option Recovered, Option.Rel (Recovered.Conceals (ctx.HidesCall [i])) x x
    | none => .none
    | some r => .some (.refl r)
  by_cases hcalls : ∃ isStatic, effectOf i.opcode = .pooled (.invoke isStatic)
  · obtain ⟨isStatic, heffect⟩ := hcalls
    rw [heffect]
    have hpool : (ctx.under shown).pool = ctx.pool := rfl
    cases hpool' : ctx.pool with
    | none =>
      simp only [applyEffect?, hpool, hpool']
      exact hrefl _
    | some pool =>
      cases hindex : poolIndex? i.operand with
      | none =>
        simp only [applyEffect?, hpool, hpool', hindex]
        exact hrefl _
      | some index =>
        simp only [applyEffect?, hpool, hpool', hindex, usePool?]
        rcases invoke?_under ctx shown hshown isStatic (memberAt pool "method" index) stack with
          hsame | ⟨rfl, hvoid, hhides, args, rest, hhidden, hvisible⟩
        · rw [hsame]
          exact hrefl _
        · rw [hhidden, hvisible]
          have hcall : ctx.HidesCall [i] (.evaluate (.staticCall _ _ args)) :=
            ⟨i, List.mem_singleton_self i, pool, index, args, heffect, hpool', hindex, hvoid, hhides, rfl⟩
          exact .some ⟨rfl, rfl, .drop hcall .nil⟩
  · rw [applyEffect?_under ctx shown i fun isStatic h => hcalls ⟨isStatic, h⟩]
    exact hrefl _

lemma step_conceals (hshown : ∀ member, (ctx.under shown).hides member = false) (i : Instruction) (stack : Stack) :
    Alike (Recovered.Conceals (ctx.HidesCall [i])) (step (ctx.under shown) i stack) (step ctx i stack) := by
  unfold step
  split
  · exact .ok (.refl _)
  · have h := applyEffect?_conceals ctx shown hshown i stack
    revert h
    generalize applyEffect? (ctx.under shown) i (effectOf i.opcode) stack = visible
    generalize applyEffect? ctx i (effectOf i.opcode) stack = hidden
    rintro (h | -)
    · exact .ok h
    · exact .error _

/-- What a run hides are calls that its instructions make. -/
lemma run_conceals (hshown : ∀ member, (ctx.under shown).hides member = false) (insns : List Instruction)
    (stack : Stack) :
    Alike (Recovered.Conceals (ctx.HidesCall insns)) (run (ctx.under shown) insns stack) (run ctx insns stack) := by
  induction insns generalizing stack with
  | nil => exact .ok (.refl _)
  | cons i rest ih =>
    refine (step_conceals ctx shown hshown i stack).bind fun first first' hfirst => ?_
    rw [hfirst.stack]
    refine (ih first.stack).bind fun second second' hsecond => .ok ⟨hsecond.stack, ?_, ?_⟩
    · simp only [Recovered.andThen, hfirst.exit, hsecond.exit]
    · refine (hfirst.stmts.mono ?_).append (hsecond.stmts.mono ?_)
      · rintro s ⟨j, hj, hcall⟩
        obtain rfl := List.mem_singleton.mp hj
        exact ⟨j, List.mem_cons_self, hcall⟩
      · rintro s ⟨j, hj, hcall⟩
        exact ⟨j, List.mem_cons_of_mem i hj, hcall⟩

end Hiding

/-! ### Options -/

lemma hides_under_showing (ctx : Recovery.Context) (options : Options) (member : Member) :
    (ctx.under options.showing).hides member = false := by
  simp [Context.hides, Context.under, Options.showing]

/-- Under all options a run leaves the same stack. -/
lemma run_stack_alike (ctx : Recovery.Context) (options options' : Options) (insns : List Instruction) (stack : Stack) :
    Alike (fun r r' : Recovered => r.stack = r'.stack) (run (ctx.under options) insns stack)
      (run (ctx.under options') insns stack) := by
  have h := run_conceals (ctx.under options) options.showing (hides_under_showing ctx options) insns stack
  have h' := run_conceals (ctx.under options') options.showing (hides_under_showing ctx options) insns stack
  have hsame : (ctx.under options).under options.showing = (ctx.under options').under options.showing := rfl
  rw [hsame] at h
  revert h h'
  generalize run ((ctx.under options').under options.showing) insns stack = shown
  generalize run (ctx.under options) insns stack = x
  generalize run (ctx.under options') insns stack = y
  rintro (e | h) (_ | h')
  · exact .error e
  · exact .ok (h.stack.trans h'.stack.symm)

lemma runBlocks_alike (ctx : Recovery.Context) (options options' : Options) (handlers : List BlockId)
    (blocks : List Block) (stack : Stack) :
    Alike (fun _ _ => True) (Lift.runBlocks (ctx.under options) handlers blocks stack)
      (Lift.runBlocks (ctx.under options') handlers blocks stack) := by
  induction blocks generalizing stack with
  | nil => exact .ok trivial
  | cons b rest ih =>
    refine (run_stack_alike ctx options options' _ _).bind fun r r' hstack => ?_
    rw [hstack]
    exact (ih r'.stack).bind fun _ _ _ => .ok trivial

lemma lift_alike (m : Method) (pool : Option Pool) (options options' : Options) :
    Alike (fun _ _ => True) (m.lift pool options) (m.lift pool options') := by
  cases hcode : m.code with
  | none =>
    simp only [Method.lift, hcode]
    exact .ok trivial
  | some code =>
    let ctx : Recovery.Context := { method := m.name, names := Naming.ofMethod m, pool }
    simp only [Method.lift, hcode]
    exact (runBlocks_alike ctx options options' _ _ _).bind fun _ _ _ => .ok trivial

/-- **Options.** Under all options a method is lifted, or under all options there is the same error. A run that hides
calls has the stack, the transfer and the error of the run that hides nothing, and its statements are those of that run
without some calls that have neither a receiver nor a result. -/
theorem lift_of_options :
    (∀ (m : Method) (pool : Option Pool) (options options' : Options),
      ((∃ lifted, m.lift pool options = .ok lifted) ↔ ∃ lifted, m.lift pool options' = .ok lifted) ∧
        ∀ e, m.lift pool options = .error e ↔ m.lift pool options' = .error e) ∧
    ∀ (ctx : Recovery.Context) (insns : List Instruction) (stack : Stack),
      Alike (fun shown r => r.stack = shown.stack ∧ r.exit = shown.exit ∧
          Omits (ctx.HidesCall insns) shown.stmts r.stmts)
        (run (ctx.under ctx.options.showing) insns stack) (run ctx insns stack) := by
  constructor
  · intro m pool options options'
    have h := lift_alike m pool options options'
    revert h
    generalize m.lift pool options = x
    generalize m.lift pool options' = y
    rintro (e | -)
    · exact ⟨by simp, fun e' => Iff.rfl⟩
    · exact ⟨by simp, by simp⟩
  · intro ctx insns stack
    exact (run_conceals ctx ctx.options.showing (hides_under_showing ctx _) insns stack).mono
      fun shown r h => ⟨h.stack, h.exit, h.stmts⟩

end JvmLift
