import Mathlib
import JvmLift.Recovery.Step
import JvmLift.Proofs.Leaves
import JvmLift.Proofs.Opcodes

/-!
# Runs of instructions

A successful run is made of successful steps. What it recovers are leaves, and a conditional transfer carries a
comparison with its complement.
-/

namespace JvmLift.Recovery

open Bytecode Source

/-! ### Roles and effects -/

def Effect.isBranch : Effect → Bool
  | branch => true
  | _ => false

def Effect.leavesMethod : Effect → Bool
  | returnValue | returnVoid | throwValue => true
  | _ => false

def Effect.isSwitch : Effect → Bool
  | switch => true
  | _ => false

/-- Roles and effects agree: branches test, returns and throws leave the method, and a multi-way branch takes its
selector. -/
@[mk_iff]
structure Effect.Fits (effect : Effect) (role : Role) : Prop where
  branch : effect.isBranch = true ↔ role = .branch
  leaves : effect.leavesMethod = true ↔ role = .methodReturn ∨ role = .throw
  switch : effect.isSwitch = true ↔ role.isSwitch = true

instance (effect : Effect) (role : Role) : Decidable (effect.Fits role) :=
  decidable_of_iff' _ (Effect.fits_iff effect role)

lemma effectOf_fits (op : Opcode) : (effectOf op).Fits op.role :=
  Opcode.holds_role (P := fun op role => (effectOf op).Fits role) (by decide +kernel) (by decide +kernel) op

/-! ### Steps of a run -/

lemma run_cons_ok {ctx : Context} {i : Instruction} {rest : List Instruction} {stack : Stack} {r : Recovered}
    (h : run ctx (i :: rest) stack = .ok r) :
    ∃ r₁ r₂, step ctx i stack = .ok r₁ ∧ run ctx rest r₁.stack = .ok r₂ ∧ r = r₁.andThen r₂ := by
  simp only [run, bind, Except.bind] at h
  split at h
  · cases h
  · next r₁ hr₁ =>
    split at h
    · cases h
    · next r₂ hr₂ => exact ⟨r₁, r₂, hr₁, hr₂, by simpa [pure, Except.pure] using h.symm⟩

lemma run_cons_of_ok {ctx : Context} {i : Instruction} {rest : List Instruction} {stack : Stack} {r₁ r₂ : Recovered}
    (h₁ : step ctx i stack = .ok r₁) (h₂ : run ctx rest r₁.stack = .ok r₂) :
    run ctx (i :: rest) stack = .ok (r₁.andThen r₂) := by
  simp [run, bind, Except.bind, h₁, h₂, pure, Except.pure]

lemma run_take_ok {ctx : Context} : ∀ {insns : List Instruction} {stack : Stack} {r : Recovered},
    run ctx insns stack = .ok r → ∀ k, ∃ r', run ctx (insns.take k) stack = .ok r'
  | _, stack, _, _, 0 => ⟨{ stack }, rfl⟩
  | [], stack, _, _, k + 1 => ⟨{ stack }, rfl⟩
  | i :: rest, stack, r, h, k + 1 => by
    obtain ⟨r₁, r₂, h₁, h₂, rfl⟩ := run_cons_ok h
    obtain ⟨r', h'⟩ := run_take_ok h₂ k
    exact ⟨_, run_cons_of_ok h₁ h'⟩

/-! ### What is recovered -/

/-- A condition is a comparison, and the one of the fallthrough its complement. -/
def Condition.IsComparison (c : Condition) : Prop :=
  ∃ op op' a b, op.complement? = some op' ∧ c.taken = .binary op a b ∧ c.fallthrough = .binary op' a b

/-- What is known of what instructions recover: statements are leaves, and a conditional transfer is a comparison that
comes from a conditional branch. -/
structure Recovered.Proper (r : Recovered) (insns : List Instruction) : Prop where
  leaf : ∀ s ∈ r.stmts, s.isLeaf = true
  comparison : ∀ {c}, r.exit = some (.conditional c) → c.IsComparison
  conditional : ∀ {c}, r.exit = some (.conditional c) → ∃ i ∈ insns, i.isConditional = true

/-- Statements are leaves that control gets past, and control is not transferred. -/
structure Recovered.Plain (r : Recovered) : Prop where
  leaf : ∀ s ∈ r.stmts, s.isLeaf = true
  passable : ∀ s ∈ r.stmts, s.isExit = false
  exit : r.exit = none

variable {ctx : Context} {i : Instruction} {stack : Stack} {r : Recovered}

lemma plain_finishCall {ret : Option FieldType} {value : Expr} : (finishCall ret value stack).Plain := by
  cases ret with
  | none => exact ⟨by simp [finishCall, Stmt.isLeaf], by simp [finishCall, Stmt.isExit], rfl⟩
  | some type => exact ⟨nofun, nofun, rfl⟩

lemma plain_callOn {receiver : Expr} {member : Member} {ret : Option FieldType} {args : List Expr} :
    (callOn receiver member ret args stack).Plain := by
  unfold callOn construct
  dsimp only
  split_ifs
  · split
    · split
      · split_ifs <;> exact ⟨by simp [Stmt.isLeaf], by simp [Stmt.isExit], rfl⟩
      · exact ⟨by simp [Stmt.isLeaf], by simp [Stmt.isExit], rfl⟩
    · exact plain_finishCall
  · exact plain_finishCall

lemma plain_of_invoke? {isStatic : Bool} {member : Member} (h : invoke? ctx isStatic member stack = some r) :
    r.Plain := by
  simp only [invoke?, bind, Option.bind_eq_some_iff, pure] at h
  obtain ⟨⟨args, rest⟩, -, h⟩ := h
  split at h
  · split at h
    · cases h
      exact ⟨nofun, nofun, rfl⟩
    · cases h
      exact plain_finishCall
  · split at h
    · cases h
    · cases h
      exact plain_callOn

lemma plain_of_invokeDynamic? {site : CallSite} (h : invokeDynamic? site stack = some r) : r.Plain := by
  simp only [invokeDynamic?, bind, Option.bind_eq_some_iff, pure] at h
  obtain ⟨⟨args, rest⟩, -, h⟩ := h
  cases h
  exact plain_finishCall

lemma plain_of_usePool? {pool : Pool} {operand : Operand} {index : UInt16} {use : PoolUse}
    (h : usePool? ctx pool operand index use stack = some r) : r.Plain := by
  unfold usePool? at h
  split at h
  case h_6 => exact plain_of_invoke? h
  case h_7 =>
    split at h
    · exact plain_of_invokeDynamic? h
    · cases h
      exact ⟨nofun, nofun, rfl⟩
  case h_10 =>
    simp only [bind, Option.bind_eq_some_iff, pure] at h
    obtain ⟨⟨dims, rest⟩, -, h⟩ := h
    cases h
    exact ⟨nofun, nofun, rfl⟩
  all_goals cases h
  all_goals exact ⟨by simp [Stmt.isLeaf], by simp [Stmt.isExit], rfl⟩

lemma relational_of_branchTest? {op : Opcode} {rel : BinOp} {against : Comparand}
    (h : branchTest? op = some (rel, against)) : ∃ rel', rel.complement? = some rel' := by
  unfold branchTest? at h
  split at h <;> cases h <;> exact ⟨_, rfl⟩

lemma binary_of_takenCondition? {rel : BinOp} {against : Comparand} {operands : List Expr} {taken : Expr}
    (h : takenCondition? (rel, against) operands = some taken) : ∃ a b, taken = .binary rel a b := by
  unfold takenCondition? at h
  split at h
  · obtain ⟨⟩ := h
    unfold compareToZero
    split
    · cases ‹_ = (_, _)›
      exact ⟨_, _, rfl⟩
    · cases ‹_ = (_, _)›
      exact ⟨_, _, rfl⟩
  · cases ‹_ = (_, _)›
    cases h
    exact ⟨_, _, rfl⟩
  · cases ‹_ = (_, _)›
    cases h
    exact ⟨_, _, rfl⟩
  · cases h

lemma isComparison_of_condition? {op : Opcode} {operands : List Expr} {c : Condition}
    (h : condition? op operands = some c) : c.IsComparison := by
  simp only [condition?, bind, Option.bind_eq_some_iff, pure] at h
  obtain ⟨⟨rel, against⟩, htest, taken, htaken, h⟩ := h
  cases h
  obtain ⟨rel', hrel⟩ := relational_of_branchTest? htest
  obtain ⟨a, b, rfl⟩ := binary_of_takenCondition? htaken
  exact ⟨rel, rel', a, b, hrel, rfl, by simp [Expr.invert, hrel]⟩

/-- Only a branch transfers control by a condition, and only what leaves the method makes a statement that control does
not get past. -/
lemma cases_of_applyEffect? {effect : Effect} (h : applyEffect? ctx i effect stack = some r) :
    (∀ s ∈ r.stmts, s.isLeaf = true ∧ (effect.leavesMethod = false → s.isExit = false)) ∧
      ∀ {c}, r.exit = some (.conditional c) → effect.isBranch = true ∧ c.IsComparison := by
  unfold applyEffect? at h
  split at h
  -- the operand decides whether there is anything to do
  case h_3 | h_4 | h_5 | h_13 => split at h <;> (cases h; exact ⟨by simp [Stmt.isLeaf, Stmt.isExit], nofun⟩)
  case h_8 =>
    simp only [bind, Option.bind_eq_some_iff, pure] at h
    obtain ⟨⟨taken, rest⟩, -, h⟩ := h
    cases h
    refine ⟨fun s hs => ?_, nofun⟩
    obtain ⟨v, -, rfl⟩ := List.mem_map.mp hs
    exact ⟨rfl, fun _ => rfl⟩
  case h_9 =>
    simp only [bind, Option.bind_eq_some_iff, pure] at h
    obtain ⟨⟨top, rest⟩, -, ⟨below, rest'⟩, -, h⟩ := h
    cases h
    exact ⟨nofun, nofun⟩
  case h_16 =>
    simp only [bind, Option.bind_eq_some_iff, pure] at h
    obtain ⟨⟨operands, rest⟩, -, condition, hcondition, h⟩ := h
    cases h
    refine ⟨nofun, ?_⟩
    rintro _ ⟨⟩
    exact ⟨rfl, isComparison_of_condition? hcondition⟩
  case h_25 =>
    split at h
    · have hplain := plain_of_usePool? h
      exact ⟨fun s hs => ⟨hplain.leaf s hs, fun _ => hplain.passable s hs⟩,
        fun hexit => by cases hplain.exit.symm.trans hexit⟩
    · cases h
      exact ⟨nofun, nofun⟩
  all_goals cases h
  all_goals exact ⟨by simp [Stmt.isLeaf, Stmt.isExit, Effect.leavesMethod], nofun⟩

/-- A step is one over an undecoded tail, which leaves a comment, or has the effect of its opcode. -/
lemma step_ok (h : step ctx i stack = .ok r) :
    (i.isUndecoded = true ∧ ∃ text, r = { stmts := [.comment text], stack }) ∨
    (i.isUndecoded = false ∧ applyEffect? ctx i (effectOf i.opcode) stack = some r) := by
  unfold step at h
  split at h
  · rename_i hoperand
    cases h
    exact .inl ⟨by simp [Instruction.isUndecoded, hoperand], _, rfl⟩
  · rename_i hoperand
    split at h
    · cases h
      refine .inr ⟨?_, ‹_›⟩
      unfold Instruction.isUndecoded
      split
      · exact absurd ‹_› (hoperand _ _)
      · rfl
    · cases h

lemma proper_of_step (h : step ctx i stack = .ok r) : r.Proper [i] := by
  obtain ⟨-, text, rfl⟩ | ⟨hdecoded, h⟩ := step_ok h
  · exact ⟨by simp [Stmt.isLeaf], nofun, nofun⟩
  · obtain ⟨hleaf, hexit⟩ := cases_of_applyEffect? h
    refine ⟨fun s hs => (hleaf s hs).1, fun hc => (hexit hc).2, fun hc => ⟨i, List.mem_singleton_self i, ?_⟩⟩
    have hrole := (effectOf_fits i.opcode).branch.mp (hexit hc).1
    simp [Instruction.isConditional, Instruction.role, hdecoded, hrole, Role.isConditional]

lemma Recovered.Proper.andThen {first second : Recovered} {insns insns' : List Instruction} (h₁ : first.Proper insns)
    (h₂ : second.Proper insns') : (first.andThen second).Proper (insns ++ insns') := by
  refine ⟨List.forall_mem_append.mpr ⟨h₁.leaf, h₂.leaf⟩, fun hc => ?_, fun hc => ?_⟩
  · rcases Option.or_eq_some_iff.mp hc with hc | ⟨-, hc⟩
    · exact h₂.comparison hc
    · exact h₁.comparison hc
  · rcases Option.or_eq_some_iff.mp hc with hc | ⟨-, hc⟩
    · obtain ⟨i, hi, hcond⟩ := h₂.conditional hc
      exact ⟨i, List.mem_append_right _ hi, hcond⟩
    · obtain ⟨i, hi, hcond⟩ := h₁.conditional hc
      exact ⟨i, List.mem_append_left _ hi, hcond⟩

/-- What a run recovers is proper. -/
lemma proper_of_run : ∀ {insns : List Instruction} {stack : Stack} {r : Recovered}, run ctx insns stack = .ok r →
    r.Proper insns
  | [], _, _, h => by
    cases h
    exact ⟨nofun, nofun, nofun⟩
  | _ :: _, _, _, h => by
    obtain ⟨r₁, r₂, h₁, h₂, rfl⟩ := run_cons_ok h
    exact (proper_of_step h₁).andThen (proper_of_run h₂)

/-! ### Leaving the method -/

lemma exit_of_applyEffect? {effect : Effect} (heffect : effect.leavesMethod = true)
    (h : applyEffect? ctx i effect stack = some r) : ∃ s, r.stmts = [s] ∧ s.isExit = true := by
  cases effect with
  | returnVoid =>
    cases h
    exact ⟨_, rfl, rfl⟩
  | returnValue | throwValue =>
    cases stack with
    | nil => cases h
    | cons v stack =>
      cases h
      exact ⟨_, rfl, rfl⟩
  | _ => cases heffect

lemma exit_of_step (hi : i.role = .methodReturn ∨ i.role = .throw) (h : step ctx i stack = .ok r) :
    ∃ s, r.stmts = [s] ∧ s.isExit = true := by
  obtain ⟨hundecoded, -⟩ | ⟨hdecoded, h⟩ := step_ok h
  · simp [Instruction.role, hundecoded] at hi
  · exact exit_of_applyEffect? ((effectOf_fits i.opcode).leaves.mpr (by simpa [Instruction.role, hdecoded] using hi)) h

/-- The step of the last instruction of a run. -/
lemma last_of_run : ∀ {insns : List Instruction} {stack : Stack} {r : Recovered}, run ctx insns stack = .ok r →
    insns.getLast? = some i → ∃ first below last, step ctx i below = .ok last ∧ r = Recovered.andThen first last
  | [_], stack, _, h, hlast => by
    obtain ⟨r₁, _, h₁, h₂, rfl⟩ := run_cons_ok h
    cases h₂
    cases hlast
    exact ⟨{ stack }, stack, r₁, h₁, by simp [Recovered.andThen]⟩
  | _ :: j :: rest, _, _, h, hlast => by
    obtain ⟨r₁, r₂, -, h₂, rfl⟩ := run_cons_ok h
    obtain ⟨first, below, last, hstep, rfl⟩ := last_of_run h₂ (by simpa using hlast)
    exact ⟨r₁.andThen first, below, last, hstep, by simp [Recovered.andThen, Option.or_assoc]⟩

/-- A run that ends with a return or a throw ends with its statement. -/
lemma exit_of_run (hi : i.role = .methodReturn ∨ i.role = .throw) {insns : List Instruction}
    (h : run ctx insns stack = .ok r) (hlast : insns.getLast? = some i) :
    ∃ s, r.stmts.getLast? = some s ∧ s.isExit = true := by
  obtain ⟨first, below, last, hstep, rfl⟩ := last_of_run h hlast
  obtain ⟨s, hs, hexit⟩ := exit_of_step hi hstep
  exact ⟨s, by simp [Recovered.andThen, hs], hexit⟩

/-! ### Staying in the method -/

/-- A run over instructions none of which leaves the method recovers statements that control gets past. -/
lemma passable_of_run : ∀ {insns : List Instruction} {stack : Stack} {r : Recovered}, run ctx insns stack = .ok r →
    (∀ i ∈ insns, i.isExit = false) → ∀ s ∈ r.stmts, s.isExit = false
  | [], _, _, h, _ => by
    cases h
    exact nofun
  | i :: rest, _, _, h, hinsns => by
    obtain ⟨r₁, r₂, h₁, h₂, rfl⟩ := run_cons_ok h
    obtain ⟨hi, hrest⟩ := List.forall_mem_cons.mp hinsns
    refine List.forall_mem_append.mpr ⟨?_, passable_of_run h₂ hrest⟩
    obtain ⟨-, text, rfl⟩ | ⟨hdecoded, h₁⟩ := step_ok h₁
    · simp [Stmt.isExit]
    · refine fun s hs => ((cases_of_applyEffect? h₁).1 s hs).2 (Bool.eq_false_iff.mpr fun hleaves => ?_)
      obtain hrole | hrole := (effectOf_fits i.opcode).leaves.mp hleaves
      all_goals simp [Instruction.isExit, Instruction.role, hdecoded, hrole, Role.isExit] at hi

lemma switch_of_step (hi : i.isSwitch = true) (h : step ctx i stack = .ok r) :
    ∃ selector, r.exit = some (.switch selector) := by
  obtain ⟨hundecoded, -⟩ | ⟨hdecoded, h⟩ := step_ok h
  · simp [Instruction.isSwitch, Instruction.role, hundecoded, Role.isSwitch] at hi
  · have heffect := (effectOf_fits i.opcode).switch.mpr
      (by simpa [Instruction.isSwitch, Instruction.role, hdecoded] using hi)
    cases hop : effectOf i.opcode with
    | switch =>
      rw [hop] at h
      cases stack with
      | nil => cases h
      | cons v stack =>
        cases h
        exact ⟨v.expr, rfl⟩
    | _ => simp [hop, Effect.isSwitch] at heffect

/-- A run that ends with a multi-way branch takes its selector. -/
lemma switch_of_run (hi : i.isSwitch = true) {insns : List Instruction} (h : run ctx insns stack = .ok r)
    (hlast : insns.getLast? = some i) : ∃ selector, r.exit = some (.switch selector) := by
  obtain ⟨first, below, last, hstep, rfl⟩ := last_of_run h hlast
  obtain ⟨selector, hexit⟩ := switch_of_step hi hstep
  exact ⟨selector, by simp [Recovered.andThen, hexit]⟩

end JvmLift.Recovery
