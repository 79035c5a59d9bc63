import Mathlib
import JvmLift.Proofs.Execution
import JvmLift.Proofs.InstructionFlow
import JvmLift.Proofs.Simplification
import JvmLift.Proofs.StraightLine
import JvmLift.Structure.Walk

/-!
# Code on ints with jumps

The machine on ints, with the instructions that jump. It fetches instructions by their offsets, and it runs until the
method returns or there is a fault. Code that writes to no slot leaves all its results on the operand stack, so that
every symbolic value stays what it was when it was pushed. Through a block of such code the machine goes as the block
was recovered: it faults, it returns what the recovered statement returns, or it goes on to the successor that the
recovered condition tells, with the words of the recovered stack.
-/

namespace JvmLift.IntCode

open Bytecode JvmLift.Flow Recovery Source

/-! ### The machine -/

/-- A comparison of two words. -/
inductive Relation
  | eq | ne | lt | ge | gt | le
  deriving DecidableEq

def Relation.holds : Relation → Int32 → Int32 → Bool
  | eq, a, b => a = b
  | ne, a, b => a ≠ b
  | lt, a, b => a < b
  | ge, a, b => b ≤ a
  | gt, a, b => b < a
  | le, a, b => a ≤ b

/-- The instructions that jump. -/
inductive Jump
  | always
  /-- If the top of the stack compares with zero. -/
  | ifZero (r : Relation)
  /-- If the word below the top of the stack compares with the top. -/
  | ifPair (r : Relation)
  deriving DecidableEq

/-- Whether a jump is taken, and the stack behind it. It fails on a stack that is too short. -/
def Jump.taken? : Jump → List Int32 → Option (Bool × List Int32)
  | always, s => some (true, s)
  | ifZero r, a :: s => some (r.holds a 0, s)
  | ifPair r, b :: a :: s => some (r.holds a b, s)
  | _, _ => none

/-- The jumps, each with its byte. -/
def jumps : List (UInt8 × Jump) :=
  [(0x99, .ifZero .eq), (0x9a, .ifZero .ne), (0x9b, .ifZero .lt), (0x9c, .ifZero .ge), (0x9d, .ifZero .gt),
    (0x9e, .ifZero .le), (0x9f, .ifPair .eq), (0xa0, .ifPair .ne), (0xa1, .ifPair .lt), (0xa2, .ifPair .ge),
    (0xa3, .ifPair .gt), (0xa4, .ifPair .le), (0xa7, .always), (0xc8, .always)]

/-- The jump of an instruction with its target. -/
def jump? (i : Instruction) : Option (Jump × Nat) :=
  match i.operand with
  | .branch target => (jumps.lookup i.opcode.raw).map (·, target)
  | _ => none

/-- Runs the instruction at an offset, and tells the offset of the next one. -/
def codeStep (insns : List Instruction) (pc : Nat) (f : Frame) : Except Fault (Nat × Frame) :=
  match insns.find? (·.offset == pc) with
  | none => .error .malformed
  | some i =>
    match jump? i with
    | some (jump, target) =>
      match jump.taken? f.stack with
      | some (taken, s) => .ok (if taken then target else i.next, { f with stack := s })
      | none => .error .malformed
    | none => (machineStep i f).map (i.next, ·)

/-- What code comes to from an offset in a number of steps: a fault or a return, if it gets there. -/
def codeRun (insns : List Instruction) : Nat → Nat → Frame → Option (Except Fault (Option Int32))
  | 0, _, _ => none
  | n + 1, pc, f =>
    match codeStep insns pc f with
    | .error e => some (.error e)
    | .ok (pc, f) =>
      match f.returned with
      | some v => some (.ok v)
      | none => codeRun insns n pc f

/-- Code comes to a result, when it starts with the given slots and an empty stack. -/
def Results (insns : List Instruction) (locals : UInt16 → Int32) (result : Except Fault (Option Int32)) : Prop :=
  ∃ n, codeRun insns n 0 { locals, stack := [] } = some result

section

variable {insns : List Instruction} {n m pc : Nat} {f : Frame} {locals : UInt16 → Int32}
variable {result result' : Except Fault (Option Int32)}

lemma codeRun_succ (h : codeRun insns n pc f = some result) : codeRun insns (n + 1) pc f = some result := by
  induction n generalizing pc f with
  | zero => cases h
  | succ n ih =>
    rw [codeRun] at h ⊢
    cases hstep : codeStep insns pc f with
    | error e => simpa [hstep] using h
    | ok next =>
      obtain ⟨pc', f'⟩ := next
      simp only [hstep] at h ⊢
      cases hret : f'.returned with
      | some v => simpa [hret] using h
      | none =>
        simp only [hret] at h ⊢
        exact ih h

/-- More steps do not change a result. -/
lemma codeRun_of_le (hnm : n ≤ m) (h : codeRun insns n pc f = some result) : codeRun insns m pc f = some result := by
  induction hnm with
  | refl => exact h
  | step _ ih => exact codeRun_succ ih

lemma Results.unique (h : Results insns locals result) (h' : Results insns locals result') : result = result' := by
  obtain ⟨n, hn⟩ := h
  obtain ⟨m, hm⟩ := h'
  rcases Nat.le_total n m with hnm | hmn
  · exact Option.some.inj ((codeRun_of_le hnm hn).symm.trans hm)
  · exact Option.some.inj (hn.symm.trans (codeRun_of_le hmn hm))

end

/-! ### Words of symbolic values -/

/-- A symbolic value that takes one word and has the given value. -/
def HasWord (σ : Store) (v : StackValue) (n : Int32) : Prop :=
  v.wide = false ∧ Evaluation.ofInts.eval σ v.expr = some (.int n)

/-- The values of a symbolic stack are the words of an operand stack. -/
abbrev HasWords (σ : Store) : Stack → List Int32 → Prop :=
  List.Forall₂ (HasWord σ)

/-- Two symbolic stacks of the same widths and values. -/
def SameWords (σ : Store) (s t : Stack) : Prop :=
  s.map (fun v => (v.wide, Evaluation.ofInts.eval σ v.expr)) = t.map fun v => (v.wide, Evaluation.ofInts.eval σ v.expr)

instance (σ : Store) (s t : Stack) : Decidable (SameWords σ s t) :=
  inferInstanceAs (Decidable (_ = _))

lemma hasWords_iff {σ : Store} {stack : Stack} {ns : List Int32} : HasWords σ stack ns ↔
    stack.map (fun v => (v.wide, Evaluation.ofInts.eval σ v.expr)) = ns.map fun n => (false, some (.int n)) := by
  rw [← List.forall₂_eq_eq_eq, List.forall₂_map_left_iff, List.forall₂_map_right_iff]
  simp only [Prod.mk.injEq]
  exact Iff.rfl

lemma SameWords.hasWords {σ : Store} {s t : Stack} (h : SameWords σ s t) {ns : List Int32} (ht : HasWords σ t ns) :
    HasWords σ s ns :=
  hasWords_iff.mpr (h.trans (hasWords_iff.mp ht))

lemma HasWord.narrow {σ : Store} {v : StackValue} {n : Int32} (h : HasWord σ v n) :
    v.wide = false ∧ v.expr.hasSideEffects = false := by
  refine ⟨h.1, ?_⟩
  have hvalue := h.2
  cases he : v.expr <;> first
    | rfl
    | simp [he, Evaluation.ofInts, Expr.value?] at hvalue

lemma foldInt?_eq_compute? (op : BinOp) (a b : Int32) : op.foldInt? a b = compute? op a b := by
  have hlow : (b &&& 31).toBitVec.toNat = b.toBitVec.toNat % 32 := by
    rw [Int32.toBitVec_and, BitVec.toNat_and]
    exact Nat.and_two_pow_sub_one_eq_mod _ 5
  -- signed and unsigned shifts reduce their distance in different ways
  have hsigned : b.toBitVec.smod 32#32 = (b &&& 31).toBitVec.smod 32#32 := by
    refine BitVec.eq_of_toNat_eq ?_
    rw [BinOp.toNat_smod_of_dvd _ _ (by decide) (by decide) (by decide),
      BinOp.toNat_smod_of_dvd _ _ (by decide) (by decide) (by decide), hlow]
    exact (Nat.mod_mod _ _).symm
  have hunsigned : b.toBitVec % 32#32 = (b &&& 31).toBitVec % 32#32 := by
    refine BitVec.eq_of_toNat_eq ?_
    rw [BitVec.toNat_umod, BitVec.toNat_umod, hlow]
    exact (Nat.mod_mod _ _).symm
  cases op with
  | shl => exact congrArg (fun d => some (Int32.ofBitVec (a.toBitVec <<< d))) hsigned
  | shr => exact congrArg (fun d => some (Int32.ofBitVec (a.toBitVec.sshiftRight' d))) hsigned
  | ushr => exact congrArg (fun d => some (Int32.ofBitVec (a.toBitVec >>> d))) hunsigned
  | _ => rfl

/-- The machine and the expressions compute alike. -/
lemma eval_of_compute? {σ : Store} {op : BinOp} {x y : Expr} {a b c : Int32}
    (ha : Evaluation.ofInts.eval σ x = some (.int a)) (hb : Evaluation.ofInts.eval σ y = some (.int b))
    (h : compute? op a b = some c) : Evaluation.ofInts.eval σ (.binary op x y) = some (.int c) := by
  have hop : op ≠ .and ∧ op ≠ .or := by
    constructor <;> rintro rfl <;> cases h
  refine (Expr.value?_binary hop.1 hop.2).mpr ⟨_, _, ha, hb, Value.binary?_of_foldInt? ?_⟩
  rw [foldInt?_eq_compute?, h]

/-! ### Operations -/

/-- Whether an operation writes to a slot. -/
def IntOp.writes : IntOp → Bool
  | store _ | increment .. => true
  | _ => false

/-- **One operation.** Unless the machine divides by zero, it goes on with the words of the recovered stack, and it
returns what the recovered statement returns. -/
lemma step_of_op {ctx : Context} {i : Instruction} {op : IntOp} (hop : intOp? i = some op) (hwrites : op.writes = false)
    {stack : Stack} {r : Recovered} (hr : step ctx i stack = .ok r) {σ : Store} {locals : UInt16 → Int32}
    (hl : Holds ctx.names σ locals) {ns : List Int32} (hs : HasWords σ stack ns) :
    machineStep i { locals, stack := ns } = .error .arithmetic ∨
    ∃ ns' returned, machineStep i { locals, stack := ns } = .ok ⟨locals, ns', returned⟩ ∧ r.exit = none ∧
      HasWords σ r.stack ns' ∧ (returned = none → r.stmts = []) ∧
      ∀ v, returned = some v →
        Evaluation.ofInts.execEach false r.stmts σ = Run.stop (.returned (v.map .int)) σ := by
  rw [step_of_intOp ctx hop] at hr
  split at hr
  case h_2 => cases hr
  next r' heff =>
  cases hr
  simp only [machineStep, hop]
  cases op with
  | const n =>
    cases heff
    exact .inr ⟨_, _, rfl, rfl, .cons ⟨rfl, rfl⟩ hs, fun _ => rfl, by simp⟩
  | load slot =>
    simp only [IntOp.effect, applyEffect?, operand_of_load hop, Option.some.injEq] at heff
    subst heff
    have hvalue : Evaluation.ofInts.eval σ (.var (ctx.names slot i.offset)) = some (.int (locals slot)) :=
      congrArg (fun n => some (Value.int n)) (hl slot i.offset)
    exact .inr ⟨_, _, rfl, rfl, .cons ⟨rfl, hvalue⟩ hs, fun _ => rfl, by simp⟩
  | store | increment => cases hwrites
  | binary op =>
    rcases hs with _ | @⟨v, b, _, _, hb, _ | @⟨w, a, _, _, ha, hs⟩⟩
    · cases heff
    · cases heff
    · cases heff
      rw [exec_binary]
      cases hc : compute? op a b with
      | none => exact .inl rfl
      | some c => exact .inr ⟨_, _, rfl, rfl, .cons ⟨rfl, eval_of_compute? ha.2 hb.2 hc⟩ hs, fun _ => rfl, by simp⟩
  | negate =>
    rcases hs with _ | @⟨v, a, _, _, ha, hs⟩
    · cases heff
    · cases heff
      have hvalue : Evaluation.ofInts.eval σ (.unary .neg v.expr) = some (.int (-a)) := by
        refine Expr.value?_neg.mpr ⟨_, ha.2, ?_⟩
        simp [Value.negative?, ← Int32.toInt_toBitVec, BitVec.ofInt_neg]
      exact .inr ⟨_, _, rfl, rfl, .cons ⟨rfl, hvalue⟩ hs, fun _ => rfl, by simp⟩
  | returnValue =>
    rcases hs with _ | @⟨v, a, _, _, ha, hs⟩
    · cases heff
    · cases heff
      refine .inr ⟨_, _, rfl, rfl, hs, by simp, ?_⟩
      rintro _ ⟨⟩
      rw [Evaluation.execEach_singleton, Evaluation.exec,
        Run.reading_apply (f := (Evaluation.ofInts.eval · v.expr)) ha.2]
      rfl
  | returnVoid =>
    cases heff
    refine .inr ⟨_, _, rfl, rfl, hs, by simp, ?_⟩
    rintro _ ⟨⟩
    rw [Evaluation.execEach_singleton, Evaluation.exec]
    rfl
  | pop | pop2 | dup | dupX1 | dupX2 | dup2 | dup2X1 | dup2X2 | swap =>
    obtain ⟨ns', hmove, hr, hs'⟩ := move_related HasWord.narrow rfl heff hs
    refine .inr ⟨ns', none, ?_, by rw [hr], hs', fun _ => by rw [hr], by simp⟩
    rw [exec_of_isMove rfl, hmove]
    rfl

/-! ### Tests -/

/-- A condition with the given truth value, and the opposite condition with the other one. -/
def Tells (σ : Store) (c : Condition) (t : Bool) : Prop :=
  Evaluation.ofInts.eval σ c.taken = some (.bool t) ∧ Evaluation.ofInts.eval σ c.fallthrough = some (.bool !t)

def Relation.op : Relation → BinOp
  | eq => .eq
  | ne => .ne
  | lt => .lt
  | ge => .ge
  | gt => .gt
  | le => .le

lemma exists_complement (r : Relation) : ∃ op', r.op.complement? = some op' := by
  cases r <;> exact ⟨_, rfl⟩

lemma relates?_op (r : Relation) (a b : Int32) : r.op.relates? a.toInt b.toInt = some (r.holds a b) := by
  cases r <;>
    simp [Relation.op, Relation.holds, BinOp.relates?, Int32.lt_iff_toInt_lt, Int32.le_iff_toInt_le, ← Int32.toInt_inj]

lemma eval_relation {σ : Store} {x y : Expr} {a b : Int32} (ha : Evaluation.ofInts.eval σ x = some (.int a))
    (hb : Evaluation.ofInts.eval σ y = some (.int b)) (r : Relation) :
    Evaluation.ofInts.eval σ (.binary r.op x y) = some (.bool (r.holds a b)) := by
  obtain ⟨op', hop⟩ := exists_complement r
  have hne : r.op ≠ .and ∧ r.op ≠ .or := by cases r <;> simp [Relation.op]
  refine (Expr.value?_binary hne.1 hne.2).mpr ⟨_, _, ha, hb, ?_⟩
  rw [Value.binary?_eq_bool hop]
  simp [relates?_op]

/-- The three-way comparison of two numbers relates to zero as the numbers relate. -/
lemma relates?_compared (r : Relation) (a b : Int64) : r.op.relates? a.toInt b.toInt =
    some (r.holds (if a < b then -1 else if a = b then 0 else 1) 0) := by
  have hless : r.holds (-1) 0 = [.ne, .lt, .le].contains r := by cases r <;> decide
  have hequal : r.holds 0 0 = [.eq, .ge, .le].contains r := by cases r <;> decide
  have hgreater : r.holds 1 0 = [.ne, .gt, .ge].contains r := by cases r <;> decide
  simp only [Int64.lt_iff_toInt_lt, ← Int64.toInt_inj]
  generalize a.toInt = m, b.toInt = n
  split_ifs with hlt heq
  · rw [hless]
    cases r <;> simp [Relation.op, BinOp.relates?] <;> omega
  · rw [hequal]
    cases r <;> simp [Relation.op, BinOp.relates?, heq]
  · rw [hgreater]
    cases r <;> simp [Relation.op, BinOp.relates?] <;> omega

/-- A comparison with zero. A three-way comparison is replaced by one of its operands. -/
lemma eval_compareToZero {σ : Store} {e : Expr} {a : Int32} (ha : Evaluation.ofInts.eval σ e = some (.int a))
    (r : Relation) : Evaluation.ofInts.eval σ (compareToZero r.op e) = some (.bool (r.holds a 0)) := by
  unfold compareToZero
  split
  · rename_i x y
    obtain ⟨op', hop⟩ := exists_complement r
    have hne : r.op ≠ .and ∧ r.op ≠ .or := by cases r <;> simp [Relation.op]
    obtain ⟨v, w, hv, hw, hcmp⟩ := (Expr.value?_binary (by simp) (by simp)).mp ha
    refine (Expr.value?_binary hne.1 hne.2).mpr ⟨v, w, hv, hw, ?_⟩
    rw [Value.binary?_eq_bool hop]
    cases v <;> cases w <;>
      simp [Value.binary?, BinOp.onWords?, BinOp.shift?, BinOp.relates?] at hcmp
    simp [relates?_compared, hcmp]
  · exact eval_relation ha rfl r

lemma tells_of_eval {σ : Store} {r : Relation} {taken : Expr} (hform : ∃ x y, taken = .binary r.op x y) {t : Bool}
    (h : Evaluation.ofInts.eval σ taken = some (.bool t)) : Tells σ ⟨taken, taken.invert⟩ t := by
  obtain ⟨x, y, rfl⟩ := hform
  obtain ⟨op', hop⟩ := exists_complement r
  refine ⟨h, ?_⟩
  simp only [Expr.invert, hop, Option.getD_some]
  exact Expr.value?_complement hop h

/-! ### Jumps -/

/-- What a jump does to a symbolic stack. -/
def Jump.effect : Jump → Effect
  | always => .nothing
  | _ => .branch

/-- The comparison that a jump makes. -/
def Jump.test? : Jump → Option (BinOp × Comparand)
  | always => none
  | ifZero r => some (r.op, .zero)
  | ifPair r => some (r.op, .pair)

lemma effect_of_jumps : ∀ p ∈ jumps, effectOf ⟨p.1⟩ = p.2.effect ∧ branchTest? ⟨p.1⟩ = p.2.test? := by
  simp only [jumps, List.forall_mem_cons, List.not_mem_nil, false_implies, implies_true, and_true]
  repeat' constructor

lemma jump?_eq_some {i : Instruction} {jump : Jump} {target : Nat} (h : jump? i = some (jump, target)) :
    i.operand = .branch target ∧ (i.opcode.raw, jump) ∈ jumps := by
  unfold jump? at h
  split at h
  · next hoperand =>
    obtain ⟨_, hlookup, heq⟩ := Option.map_eq_some_iff.mp h
    cases heq
    obtain ⟨l, r, heq, -⟩ := List.lookup_eq_some_iff.mp hlookup
    exact ⟨hoperand, by simp [heq]⟩
  · cases h

/-- The condition of a branch whose operands are on the stack. -/
lemma applyEffect?_branch (ctx : Context) {i : Instruction} {test : BinOp × Comparand}
    (htest : branchTest? i.opcode = some test) (operands below : Stack) (hlen : operands.length = test.2.count)
    {taken : Expr} (htaken : takenCondition? test (operands.map StackValue.expr) = some taken) :
    applyEffect? ctx i .branch (operands ++ below) =
      some { stack := below, exit := some (.conditional ⟨taken, taken.invert⟩) } := by
  have hcount : branchOperandCount? i.opcode = some operands.length := by simp [branchOperandCount?, htest, hlen]
  simp [applyEffect?, hcount, takeValues?, condition?, htest, htaken]

/-- **One jump.** The machine takes it if and only if the recovered condition holds, and goes on with the words of the
recovered stack. -/
lemma step_of_jump {ctx : Context} {i : Instruction} {jump : Jump} {target : Nat} (h : jump? i = some (jump, target))
    {stack : Stack} {r : Recovered} (hr : step ctx i stack = .ok r) {σ : Store} {ns : List Int32}
    (hs : HasWords σ stack ns) :
    ∃ t ns', jump.taken? ns = some (t, ns') ∧ r.stmts = [] ∧ HasWords σ r.stack ns' ∧
      (jump = .always ∧ t = true ∨ ∃ c, r.exit = some (.conditional c) ∧ Tells σ c t) := by
  obtain ⟨hoperand, hmem⟩ := jump?_eq_some h
  obtain ⟨heffect, htest⟩ := effect_of_jumps _ hmem
  obtain ⟨hundecoded, -⟩ | ⟨-, heff⟩ := step_ok hr
  · simp [Instruction.isUndecoded, hoperand] at hundecoded
  have hcount {op : BinOp} {against : Comparand} (htest : branchTest? i.opcode = some (op, against))
      (hshort : stack.length < against.count) : applyEffect? ctx i .branch stack = none := by
    simp [applyEffect?, branchOperandCount?, htest, takeValues?, hshort]
  rw [heffect] at heff
  cases jump with
  | always =>
    cases heff
    exact ⟨true, ns, rfl, rfl, hs, .inl ⟨rfl, rfl⟩⟩
  | ifZero rel =>
    rcases hs with _ | @⟨v, a, stack, ns, ha, hs⟩
    · cases (hcount htest Nat.one_pos).symm.trans heff
    · have hbranch := applyEffect?_branch ctx htest [v] stack rfl rfl
      cases hbranch.symm.trans heff
      have hform : ∃ x y, compareToZero rel.op v.expr = .binary rel.op x y := by
        unfold compareToZero
        split <;> exact ⟨_, _, rfl⟩
      exact ⟨_, ns, rfl, rfl, hs, .inr ⟨_, rfl, tells_of_eval hform (eval_compareToZero ha.2 rel)⟩⟩
  | ifPair rel =>
    rcases hs with _ | @⟨v, b, _, _, hb, _ | @⟨w, a, stack, ns, ha, hs⟩⟩
    · cases (hcount htest Nat.two_pos).symm.trans heff
    · cases (hcount htest Nat.one_lt_two).symm.trans heff
    · have hbranch := applyEffect?_branch ctx htest [v, w] stack rfl rfl
      cases hbranch.symm.trans heff
      exact ⟨_, ns, rfl, rfl, hs, .inr ⟨_, rfl, tells_of_eval ⟨_, _, rfl⟩ (eval_relation ha.2 hb.2 rel)⟩⟩

/-! ### Roles -/

/-- Whether an instruction is an operation or a jump on ints that writes to no slot. -/
def isReadOnly (i : Instruction) : Bool :=
  (intOp? i).any (!·.writes) || (jump? i).isSome

lemma role_of_jumps : ∀ p ∈ jumps, Opcode.role ⟨p.1⟩ = if p.2 = .always then .goto else .branch := by
  decide +kernel

lemma role_of_bareOps : ∀ p ∈ bareOps, Opcode.role ⟨p.1⟩ = if p.2.returns then .methodReturn else .plain := by
  decide +kernel

lemma role_of_slotOps : ∀ raw ∈ [0x10, 0x11, 0x15, 0x1a, 0x1b, 0x1c, 0x1d, 0x36, 0x3b, 0x3c, 0x3d, 0x3e, 0x84],
    Opcode.role ⟨raw⟩ = .plain := by
  decide +kernel

lemma role_of_jump {i : Instruction} {jump : Jump} {target : Nat} (h : jump? i = some (jump, target)) :
    i.role = if jump = .always then .goto else .branch := by
  obtain ⟨hoperand, hmem⟩ := jump?_eq_some h
  have hrole := role_of_jumps _ hmem
  rw [Instruction.role, if_neg (by simp [Instruction.isUndecoded, hoperand]), ← hrole]

lemma role_of_intOp {i : Instruction} {op : IntOp} (h : intOp? i = some op) :
    i.role = if op.returns then .methodReturn else .plain := by
  have hdecoded (h : i.isUndecoded = false) : i.role = i.opcode.role := by
    rw [Instruction.role, h, if_neg Bool.false_ne_true]
  have hplain (hraw : i.opcode.raw ∈ [0x10, 0x11, 0x15, 0x1a, 0x1b, 0x1c, 0x1d, 0x36, 0x3b, 0x3c, 0x3d, 0x3e, 0x84]) :
      i.opcode.role = .plain := role_of_slotOps _ hraw
  obtain ⟨hop, hmem⟩ | ⟨n, hop, hraw, rfl⟩ | ⟨slot, hop, hload, rfl⟩ | ⟨slot, hop, hstore, rfl⟩ |
    ⟨slot, amount, hop, hraw, rfl⟩ := intOp_cases h
  all_goals rw [hdecoded (by simp [Instruction.isUndecoded, hop])]
  · have hrole := role_of_bareOps _ hmem
    rw [← hrole]
  · exact hplain (by rcases hraw with hraw | hraw <;> simp [hraw])
  · simp only [isLoad, Bool.or_eq_true, beq_iff_eq, List.contains_iff_mem, List.mem_cons, Prod.mk.injEq,
      List.not_mem_nil, or_false] at hload
    rcases hload with hraw | ⟨hraw, -⟩ | ⟨hraw, -⟩ | ⟨hraw, -⟩ | ⟨hraw, -⟩ <;> exact hplain (by simp [hraw])
  · simp only [isStore, Bool.or_eq_true, beq_iff_eq, List.contains_iff_mem, List.mem_cons, Prod.mk.injEq,
      List.not_mem_nil, or_false] at hstore
    rcases hstore with hraw | ⟨hraw, -⟩ | ⟨hraw, -⟩ | ⟨hraw, -⟩ | ⟨hraw, -⟩ <;> exact hplain (by simp [hraw])
  · exact hplain (by simp [hraw])

lemma jump?_of_intOp {i : Instruction} {op : IntOp} (h : intOp? i = some op) : jump? i = none := by
  cases hjump : jump? i with
  | none => rfl
  | some jump =>
    have hrole := (role_of_jump hjump).symm.trans (role_of_intOp h)
    split_ifs at hrole

lemma returned_of_not_exit {i : Instruction} {op : IntOp} (hop : intOp? i = some op) (hexit : i.isExit = false)
    {f f' : Frame} (h : machineStep i f = .ok f') (hret : f.returned = none) : f'.returned = none := by
  have hreturns := isReturn_of_machineStep h hret
  rw [isReturn, hop, Option.any_some] at hreturns
  rw [Instruction.isExit, role_of_intOp hop, hreturns] at hexit
  cases hreturned : f'.returned with
  | none => rfl
  | some v => simp [hreturned, Role.isExit] at hexit

lemma cases_of_isReadOnly {i : Instruction} (h : isReadOnly i = true) :
    (∃ op, intOp? i = some op ∧ op.writes = false) ∨ ∃ jump target, jump? i = some (jump, target) := by
  rw [isReadOnly, Bool.or_eq_true, Option.any_eq_true, Option.isSome_iff_exists] at h
  obtain ⟨op, hop, hwrites⟩ | ⟨⟨jump, target⟩, hjump⟩ := h
  · exact .inl ⟨op, hop, by simpa using hwrites⟩
  · exact .inr ⟨jump, target, hjump⟩

lemma isSwitch_of_isReadOnly {i : Instruction} (h : isReadOnly i = true) : i.isSwitch = false := by
  obtain ⟨op, hop, -⟩ | ⟨jump, target, hjump⟩ := cases_of_isReadOnly h
  · rw [Instruction.isSwitch, role_of_intOp hop]
    split <;> rfl
  · rw [Instruction.isSwitch, role_of_jump hjump]
    split <;> rfl

/-! ### Steps of the machine -/

section Fetching

variable {insns : List Instruction} {i j : Instruction} {pc : Nat} {f f' : Frame}

lemma find?_of_offset (h : Ascending insns) (hi : i ∈ insns) : insns.find? (·.offset == i.offset) = some i := by
  obtain ⟨j, hj⟩ : ∃ j, insns.find? (·.offset == i.offset) = some j :=
    Option.isSome_iff_exists.mp (List.find?_isSome.mpr ⟨i, hi, beq_self_eq_true _⟩)
  have hoffset : j.offset = i.offset := by simpa using List.find?_some hj
  rw [hj, h.eq_of_offset (List.mem_of_find?_eq_some hj) hi hoffset]

lemma codeStep_of_jump (h : Ascending insns) (hi : i ∈ insns) {jump : Jump} {target : Nat}
    (hjump : jump? i = some (jump, target)) {t : Bool} {s : List Int32} (htaken : jump.taken? f.stack = some (t, s)) :
    codeStep insns i.offset f = .ok (if t then target else i.next, { f with stack := s }) := by
  simp only [codeStep, find?_of_offset h hi, hjump, htaken]

lemma codeStep_of_op (h : Ascending insns) (hi : i ∈ insns) (hjump : jump? i = none) :
    codeStep insns i.offset f = (machineStep i f).map (i.next, ·) := by
  simp only [codeStep, find?_of_offset h hi, hjump]

lemma codeRun_of_error {e : Fault} (h : codeStep insns pc f = .error e) (n : Nat) :
    codeRun insns (n + 1) pc f = some (.error e) := by
  simp only [codeRun, h]

lemma codeRun_of_ok {pc' : Nat} (h : codeStep insns pc f = .ok (pc', f')) (hret : f'.returned = none) (n : Nat) :
    codeRun insns (n + 1) pc f = codeRun insns n pc' f' := by
  simp only [codeRun, h, hret]

lemma codeRun_of_return {pc' : Nat} (h : codeStep insns pc f = .ok (pc', f')) {v : Option Int32}
    (hret : f'.returned = some v) (n : Nat) : codeRun insns (n + 1) pc f = some (.ok v) := by
  simp only [codeRun, h, hret]

/-- Where there is no instruction, the machine stops. -/
lemma codeRun_of_nowhere (h : ∀ i ∈ insns, i.offset ≠ pc) (n : Nat) :
    codeRun insns (n + 1) pc f = some (.error .malformed) := by
  refine codeRun_of_error ?_ n
  have hnone : insns.find? (·.offset == pc) = none := by simpa using h
  simp only [codeStep, hnone]

end Fetching

end JvmLift.IntCode
