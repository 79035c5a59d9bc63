import Mathlib
import JvmLift.Proofs.Blindness
import JvmLift.Proofs.Joins
import JvmLift.Proofs.Partition
import JvmLift.Proofs.Passage
import JvmLift.Proofs.Ways

/-!
# One choice between two returns

Code that is one choice between two returns is written as an `if` at once: the condition is that of its only conditional
branch, and the values are those of the returns in the order of the code. The machine takes one of two ways through such
code. Where the way behind the branch comes to the first return and the way from its target to the second one, and no
jump brings along a stack that contradicts the one of the code order, the `if` returns what the machine returns.
-/

namespace JvmLift.IntCode

open Bytecode JvmLift.Flow Recovery Source Structure

variable {ctx : Context} {insns : List Instruction} {i j k : Instruction} {σ : Store} {locals : UInt16 → Int32}
variable {stack : Stack} {ns : List Int32} {n : Nat} {result : Option Int32}

/-! ### Steps of the machine and of the symbolic run -/

lemma takeWords?_of_narrow (hnarrow : ∀ v ∈ stack, v.wide = false) (hn : n ≤ stack.length) :
    takeWords? n stack = some (stack.take n, stack.drop n) := by
  induction n generalizing stack with
  | zero => simp [takeWords?]
  | succ n ih =>
    cases stack with
    | nil => cases hn
    | cons v stack =>
      rw [List.forall_mem_cons] at hnarrow
      simp [takeWords?, StackValue.words, hnarrow.1, ih hnarrow.2 (Nat.le_of_succ_le_succ hn)]

lemma narrow_of_hasWords (hs : HasWords σ stack ns) : ∀ v ∈ stack, v.wide = false := by
  induction hs with
  | nil => exact List.forall_mem_nil _
  | cons hv _ ih => exact List.forall_mem_cons.mpr ⟨hv.1, ih⟩

/-- Where the machine does not lack a word, the symbolic run does not lack a value. -/
lemma exists_step_of_op (ctx : Context) {op : IntOp} (hop : intOp? i = some op) (hwrites : op.writes = false)
    (hs : HasWords σ stack ns) {f : Frame} (h : machineStep i { locals, stack := ns } = .ok f) :
    ∃ r, step ctx i stack = .ok r := by
  suffices hsome : ∃ r, applyEffect? ctx i op.effect stack = some r by
    obtain ⟨r, hr⟩ := hsome
    exact ⟨r, by rw [step_of_intOp ctx hop, hr]⟩
  have hlength : stack.length = ns.length := hs.length_eq
  have hnarrow := narrow_of_hasWords hs
  have hpop {words : Nat} (hn : words ≤ ns.length) : ∃ r, applyEffect? ctx i (.pop words) stack = some r := by
    simp [applyEffect?, takeWords?_of_narrow hnarrow (hn.trans_eq hlength.symm)]
  have hdup {words skip : Nat} (hn : words + skip ≤ ns.length) :
      ∃ r, applyEffect? ctx i (.dup words skip) stack = some r := by
    have hbelow : ∀ v ∈ stack.drop words, v.wide = false := fun v hv => hnarrow v (List.mem_of_mem_drop hv)
    simp [applyEffect?, takeWords?_of_narrow hnarrow (n := words) (by omega),
      takeWords?_of_narrow hbelow (n := skip) (by simp; omega)]
  simp only [machineStep, hop] at h
  cases op with
  | const | returnVoid => exact ⟨_, rfl⟩
  | load =>
    simp only [IntOp.effect, applyEffect?, operand_of_load hop]
    exact ⟨_, rfl⟩
  | store | increment => cases hwrites
  | negate | returnValue =>
    rcases hs with _ | ⟨hv, hs⟩
    · cases h
    · exact ⟨_, rfl⟩
  | binary | swap =>
    rcases hs with _ | ⟨hv, _ | ⟨hw, hs⟩⟩
    · cases h
    · cases h
    · exact ⟨_, rfl⟩
  | pop | pop2 =>
    refine hpop ?_
    rcases ns with _ | ⟨a, _ | ⟨b, ns⟩⟩ <;> first | (cases h; done) | simp
  | dup | dupX1 | dupX2 | dup2 | dup2X1 | dup2X2 =>
    refine hdup ?_
    rcases ns with _ | ⟨a, _ | ⟨b, _ | ⟨c, _ | ⟨d, ns⟩⟩⟩⟩ <;> first | (cases h; done) | simp

lemma exists_step_of_jump (ctx : Context) {jump : Jump} {target : Nat} (hjump : jump? i = some (jump, target))
    (hs : HasWords σ stack ns) {t : Bool} {ns' : List Int32} (htaken : jump.taken? ns = some (t, ns')) :
    ∃ r, step ctx i stack = .ok r := by
  obtain ⟨hoperand, hmem⟩ := jump?_eq_some hjump
  obtain ⟨heffect, htest⟩ := effect_of_jumps _ hmem
  have hdecoded : i.isUndecoded = false := by simp [Instruction.isUndecoded, hoperand]
  suffices hsome : ∃ r, applyEffect? ctx i jump.effect stack = some r by
    obtain ⟨r, hr⟩ := hsome
    exact ⟨r, step_of_applyEffect? hdecoded (heffect ▸ hr)⟩
  cases jump with
  | always => exact ⟨_, rfl⟩
  | ifZero rel =>
    rcases hs with _ | @⟨v, a, stack, ns, hv, hs⟩
    · cases htaken
    · exact ⟨_, applyEffect?_branch ctx htest [v] stack rfl rfl⟩
  | ifPair rel =>
    rcases hs with _ | @⟨v, b, _, _, hv, _ | @⟨w, a, stack, ns, hw, hs⟩⟩
    · cases htaken
    · cases htaken
    · exact ⟨_, applyEffect?_branch ctx htest [v, w] stack rfl rfl⟩

lemma exists_jump_of_isConditional (hread : isReadOnly i = true) (hconditional : i.isConditional = true) :
    ∃ jump target, jump? i = some (jump, target) ∧ jump ≠ .always := by
  obtain ⟨op, hop, -⟩ | ⟨jump, target, hjump⟩ := cases_of_isReadOnly hread
  · rw [Instruction.isConditional, role_of_intOp hop] at hconditional
    split at hconditional <;> cases hconditional
  · refine ⟨jump, target, hjump, ?_⟩
    rintro rfl
    rw [Instruction.isConditional, role_of_jump hjump] at hconditional
    cases hconditional

/-- The condition of a branch depends on its operands only. -/
lemma exit_of_condition? {jump : Jump} {target : Nat} (hjump : jump? i = some (jump, target)) {top below : Stack}
    {c : Condition} (hc : condition? i.opcode (top.map StackValue.expr) = some c) {r : Recovered}
    (hr : step ctx i (top ++ below) = .ok r) : r.exit = some (.conditional c) := by
  obtain ⟨hoperand, hmem⟩ := jump?_eq_some hjump
  obtain ⟨heffect, htest⟩ := effect_of_jumps _ hmem
  obtain ⟨hundecoded, -⟩ | ⟨-, heff⟩ := step_ok hr
  · simp [Instruction.isUndecoded, hoperand] at hundecoded
  rw [heffect] at heff
  simp only [condition?, htest] at hc
  cases jump with
  | always => cases hc
  | ifZero rel =>
    rcases top with _ | ⟨v, top⟩
    · cases hc
    · cases hc
      cases (applyEffect?_branch ctx htest [v] (top ++ below) rfl rfl).symm.trans heff
      rfl
  | ifPair rel =>
    rcases top with _ | ⟨v, _ | ⟨w, top⟩⟩
    · cases hc
    · cases hc
    · cases hc
      cases (applyEffect?_branch ctx htest [v, w] (top ++ below) rfl rfl).symm.trans heff
      rfl

lemma intOp_of_isExit (hread : isReadOnly i = true) (hexit : i.isExit = true) :
    intOp? i = some .returnValue ∨ intOp? i = some .returnVoid := by
  obtain ⟨op, hop, -⟩ | ⟨jump, target, hjump⟩ := cases_of_isReadOnly hread
  · rw [Instruction.isExit, role_of_intOp hop] at hexit
    cases op with
    | returnValue => exact .inl hop
    | returnVoid => exact .inr hop
    | _ => cases hexit
  · rw [Instruction.isExit, role_of_jump hjump] at hexit
    split at hexit <;> cases hexit

lemma usesPool_of_isReadOnly (h : isReadOnly i = true) : usesPool i = false := by
  have heffect {effect : Effect} (hsame : effectOf i.opcode = effect) (hpool : ∀ use, effect ≠ .pooled use) :
      usesPool i = false := by
    unfold usesPool
    split
    · rename_i use huse
      exact absurd (hsame.symm.trans huse) (hpool use)
    · rfl
  obtain ⟨op, hop, -⟩ | ⟨jump, target, hjump⟩ := cases_of_isReadOnly h
  · obtain ⟨-, hmem⟩ | ⟨n, -, hraw, -⟩ | ⟨slot, -, hload, -⟩ | ⟨slot, -, hstore, -⟩ | ⟨slot, amount, -, hraw, -⟩ :=
      intOp_cases hop
    · exact heffect (effect_of_bareOps _ hmem) (by cases op <;> simp [IntOp.effect])
    · have hpush : effectOf i.opcode = .pushImmediate := by
        simp only [effectOf]
        rcases hraw with hraw | hraw <;> rw [hraw] <;> rfl
      exact heffect hpush (by simp)
    · exact heffect (effect_of_isLoad hload) (by simp)
    · exact heffect (effect_of_isStore hstore) (by simp)
    · have hincrement : effectOf i.opcode = .increment := by
        simp only [effectOf, hraw]
        rfl
      exact heffect hincrement (by simp)
  · exact heffect (effect_of_jumps _ (jump?_eq_some hjump).2).1 (by cases jump <;> simp [Jump.effect])

/-! ### Steps along a way -/

lemma taken_of_codeRun (hasc : Ascending insns) (hi : i ∈ insns) {jump : Jump} {target : Nat}
    (hjump : jump? i = some (jump, target))
    (hrun : codeRun insns n i.offset { locals, stack := ns } = some (.ok result)) :
    ∃ m t ns', jump.taken? ns = some (t, ns') ∧
      codeRun insns m (if t then target else i.next) { locals, stack := ns' } = some (.ok result) := by
  cases n with
  | zero => cases hrun
  | succ m =>
    cases htaken : jump.taken? ns with
    | none =>
      have hstep : codeStep insns i.offset { locals, stack := ns } = .error .malformed := by
        simp only [codeStep, find?_of_offset hasc hi, hjump, htaken]
      cases (codeRun_of_error hstep m).symm.trans hrun
    | some behind =>
      obtain ⟨t, ns'⟩ := behind
      have hstep := codeStep_of_jump (f := { locals, stack := ns }) hasc hi hjump htaken
      exact ⟨m, t, ns', rfl, (codeRun_of_ok hstep rfl m).symm.trans hrun⟩

lemma machineStep_of_codeRun (hasc : Ascending insns) (hi : i ∈ insns) {op : IntOp} (hop : intOp? i = some op)
    (hrun : codeRun insns n i.offset { locals, stack := ns } = some (.ok result)) :
    ∃ m f, machineStep i { locals, stack := ns } = .ok f ∧
      (f.returned = none → codeRun insns m i.next f = some (.ok result)) ∧
      ∀ v, f.returned = some v → result = v := by
  cases n with
  | zero => cases hrun
  | succ m =>
    have hstep := codeStep_of_op (f := { locals, stack := ns }) hasc hi (jump?_of_intOp hop)
    cases hmachine : machineStep i { locals, stack := ns } with
    | error e =>
      rw [hmachine] at hstep
      cases (codeRun_of_error hstep m).symm.trans hrun
    | ok f =>
      rw [hmachine] at hstep
      refine ⟨m, f, rfl, fun hret => (codeRun_of_ok hstep hret m).symm.trans hrun, fun v hret => ?_⟩
      cases (codeRun_of_return hstep hret m).symm.trans hrun
      rfl

section Steps

variable (hinsns : Coherent insns) (hi : i ∈ insns) (hread : isReadOnly i = true) (hs : HasWords σ stack ns)
  (hrun : codeRun insns n i.offset { locals, stack := ns } = some (.ok result))
include hinsns hi hread hs hrun

variable (ctx) in
/-- At a conditional branch the machine goes to the target if and only if the recovered condition holds. -/
lemma branch_of_codeRun (hconditional : i.isConditional = true) :
    ∃ target c t r m ns', i.target? = some target ∧ step ctx i stack = .ok r ∧ r.exit = some (.conditional c) ∧
      Tells σ c t ∧ HasWords σ r.stack ns' ∧
      codeRun insns m (if t then target else i.next) { locals, stack := ns' } = some (.ok result) := by
  obtain ⟨jump, target, hjump, hne⟩ := exists_jump_of_isConditional hread hconditional
  have htarget : i.target? = some target := by simp [Instruction.target?, (jump?_eq_some hjump).1]
  obtain ⟨m, t, ns', htaken, hrun⟩ := taken_of_codeRun hinsns.ascending hi hjump hrun
  obtain ⟨r, hr⟩ := exists_step_of_jump ctx hjump hs htaken
  obtain ⟨t', ns'', htaken', -, hwords, hexit⟩ := step_of_jump hjump hr hs
  cases htaken.symm.trans htaken'
  obtain ⟨c, hc, htells⟩ := hexit.resolve_left fun h => hne h.1
  exact ⟨target, c, t, r, m, ns', htarget, hr, hc, htells, hwords, hrun⟩

/-- From any other instruction that control passes on from, the machine goes on there. -/
lemma next_of_codeRun (hl : Holds ctx.names σ locals) {offset : Nat} (hcontiguous : Contiguous offset insns)
    (hconditional : i.isConditional = false) (hpasses : Passes insns i j) :
    ∃ r m ns', step ctx i stack = .ok r ∧ HasWords σ r.stack ns' ∧
      codeRun insns m j.offset { locals, stack := ns' } = some (.ok result) := by
  obtain ⟨op, hop, hwrites⟩ | ⟨jump, target, hjump⟩ := cases_of_isReadOnly hread
  · have htransfer : i.isTransfer = false := by
      rw [Instruction.isTransfer, role_of_intOp hop]
      split <;> rfl
    obtain ⟨hpair, -, hexit, -, -⟩ | ⟨-, -, hnamed⟩ := hpasses
    · obtain ⟨m, f, hmachine, hnext, -⟩ := machineStep_of_codeRun hinsns.ascending hi hop hrun
      obtain ⟨r, hr⟩ := exists_step_of_op ctx hop hwrites hs hmachine
      obtain hfault | ⟨ns', returned, hmachine', -, hwords, -⟩ := step_of_op hop hwrites hr hl hs
      · cases hmachine.symm.trans hfault
      cases hmachine.symm.trans hmachine'
      obtain rfl : returned = none := returned_of_not_exit hop hexit hmachine' rfl
      exact ⟨r, m, ns', hr, hwords, offset_of_pair_infix hcontiguous hpair ▸ hnext rfl⟩
    · simp [FlowGraph.targets_of_not_transfer (hinsns.wellAimed i hi) htransfer] at hnamed
  · obtain ⟨m, t, ns', htaken, hrun⟩ := taken_of_codeRun hinsns.ascending hi hjump hrun
    obtain ⟨r, hr⟩ := exists_step_of_jump ctx hjump hs htaken
    obtain ⟨t', ns'', htaken', -, hwords, -⟩ := step_of_jump hjump hr hs
    cases htaken.symm.trans htaken'
    have hrole := role_of_jump hjump
    obtain rfl : jump = .always := by
      by_contra hne
      rw [Instruction.isConditional, hrole, if_neg hne] at hconditional
      cases hconditional
    cases htaken
    have htarget : i.target? = some target := by simp [Instruction.target?, (jump?_eq_some hjump).1]
    have htable : i.switchTable? = none := by simp [Instruction.switchTable?, (jump?_eq_some hjump).1]
    obtain ⟨-, hjump', -⟩ | ⟨-, -, hnamed⟩ := hpasses
    · rw [Instruction.isJump, hrole] at hjump'
      cases hjump'
    · obtain rfl : j.offset = target := by simpa [Instruction.targets, htarget, htable] using hnamed
      exact ⟨r, m, ns, hr, hwords, hrun⟩

variable (ctx) in
/-- A return of a value returns the value of the recovered expression. -/
lemma return_of_codeRun (hexit : i.isExit = true) :
    ∃ r, step ctx i stack = .ok r ∧ ∀ e, r.stmts = [.returnValue e] →
      ∃ n, result = some n ∧ Evaluation.ofInts.eval σ e = some (.int n) := by
  obtain hop | hop := intOp_of_isExit hread hexit
  · obtain ⟨m, f, hmachine, -, hreturned⟩ := machineStep_of_codeRun hinsns.ascending hi hop hrun
    simp only [machineStep, hop] at hmachine
    rcases hs with _ | @⟨v, a, stack, ns, ha, hs⟩
    · cases hmachine
    · cases hmachine
      refine ⟨_, step_of_intOp ctx hop (v :: stack), ?_⟩
      rintro e ⟨⟩
      exact ⟨a, hreturned _ rfl, ha.2⟩
  · refine ⟨_, step_of_intOp ctx hop stack, ?_⟩
    rintro e ⟨⟩

end Steps

/-! ### Along a way -/

/-- The machine has come along a way to an instruction, and it will come to a result. It has the words of the symbolic
stack of the way, which has the same top as the one of the code order. -/
def Arrives (ctx : Context) (insns : List Instruction) (σ : Store) (locals : UInt16 → Int32) (result : Option Int32)
    (front : List Instruction) (i : Instruction) : Prop :=
  ∃ n ns r r', codeRun insns n i.offset { locals, stack := ns } = some (.ok result) ∧
    run ctx front [] = .ok r ∧ HasWords σ r.stack ns ∧
    run ctx (before insns i.offset) [] = .ok r' ∧ SameTop r.stack r'.stack

section Ways

variable {code : List UInt8} {all : Recovered} (hcode : ∀ i ∈ decode code, isReadOnly i = true)
  (hall : run ctx (decode code) [] = .ok all)

include hall in
/-- A run in code order goes through every instruction. -/
lemma step_in_order (hi : i ∈ decode code) :
    ∃ r r₁, run ctx (before (decode code) i.offset) [] = .ok r ∧ step ctx i r.stack = .ok r₁ ∧
      ∀ j, j ∈ decode code → i.next = j.offset →
        run ctx (before (decode code) j.offset) [] = .ok (r.andThen r₁) := by
  have hasc := (coherent_decode code).ascending
  obtain ⟨front, back, hsplit⟩ := List.append_of_mem hi
  have hbefore := before_of_split hasc hsplit
  rw [hsplit] at hall
  obtain ⟨r, second, hr, hsecond, -⟩ := run_append_ok hall
  obtain ⟨r₁, r₂, hr₁, -, -⟩ := run_cons_ok hsecond
  refine ⟨r, r₁, hbefore ▸ hr, hr₁, fun j hj hnext => ?_⟩
  obtain ⟨front', back', hpair⟩ := pair_infix_of_offset hi hj hnext.symm
  have hpair : decode code = front' ++ i :: j :: back' := by simp [← hpair]
  have hfront : front' = front := (before_of_split hasc hpair).symm.trans hbefore
  have hassoc : decode code = (front ++ [i]) ++ j :: back' := by simp [hpair, hfront]
  have hbefore' := before_of_split hasc hassoc
  rw [hbefore']
  exact run_append_of_ok hr (run_singleton hr₁)

variable {way front back : List Instruction} (hway : InOrder ctx (decode code) way) (hasc : Ascending way)
include hcode hall hway hasc

lemma arrives_of_step (hsplit : way = front ++ i :: j :: back) {r r₁ r' : Recovered} (hfront : run ctx front [] = .ok r)
    (hstep : step ctx i r.stack = .ok r₁) (hwords : HasWords σ r₁.stack ns)
    (hrun : codeRun (decode code) n j.offset { locals, stack := ns } = some (.ok result))
    (hbefore : run ctx (before (decode code) i.offset) [] = .ok r') (hsame : SameTop r.stack r'.stack) :
    Arrives ctx (decode code) σ locals result (front ++ [i]) j := by
  have hpasses := hway.passes hsplit
  have hfront' := run_append_of_ok hfront (run_singleton hstep)
  obtain ⟨r₀, r₁', hr₀, hstep', hnext⟩ := step_in_order hall hpasses.source_mem
  cases hbefore.symm.trans hr₀
  by_cases hadjacent : i.next = j.offset
  · have hpool := usesPool_of_isReadOnly (hcode i hpasses.source_mem)
    exact ⟨n, ns, _, _, hrun, hfront', hwords, hnext j hpasses.destination_mem hadjacent,
      (hsame.step hpool hstep hstep').2.2⟩
  · -- at a jump the stacks are compared by hypothesis
    obtain ⟨r₂, -, hr₂, -⟩ := step_in_order hall hpasses.destination_mem
    have hassoc : way = (front ++ [i]) ++ j :: back := by simp [hsplit]
    have hjoins := hway.joinsAlike hsplit hadjacent _ _ (before_of_split hasc hassoc ▸ hfront') hr₂
    exact ⟨n, ns, _, _, hrun, hfront', hwords, hr₂, hjoins⟩

/-- Up to the next conditional branch, the machine follows the way. By induction on the instructions up to there. -/
lemma arrives_along (hl : Holds ctx.names σ locals) {piece : List Instruction} (hsplit : way = front ++ piece ++ j :: back)
    (hpiece : ∀ k ∈ piece, k.isConditional = false) (hhead : (piece ++ [j]).head? = some i)
    (h : Arrives ctx (decode code) σ locals result front i) :
    Arrives ctx (decode code) σ locals result (front ++ piece) j := by
  induction piece generalizing front i with
  | nil =>
    cases hhead
    simpa using h
  | cons k piece ih =>
    cases hhead
    rw [List.forall_mem_cons] at hpiece
    obtain ⟨next, rest, hnext⟩ : ∃ next rest, piece ++ [j] = next :: rest := List.exists_cons_of_ne_nil (by simp)
    have hsplit' : way = front ++ k :: next :: (rest ++ back) := by
      have hassoc : way = front ++ k :: (piece ++ [j]) ++ back := by simp [hsplit]
      simpa [hnext] using hassoc
    have hpasses := hway.passes hsplit'
    obtain ⟨n, ns, r, r', hrun, hfront, hwords, hbefore, hsame⟩ := h
    obtain ⟨r₁, m, ns', hstep, hwords', hrun'⟩ := next_of_codeRun (coherent_decode code) hpasses.source_mem
      (hcode k hpasses.source_mem) hwords hrun hl (tiles_decode code).contiguous hpiece.1 hpasses
    have harrives := arrives_of_step hcode hall hway hasc hsplit' hfront hstep hwords' hrun' hbefore hsame
    have hhead' : (piece ++ [j]).head? = some next := by simp [hnext]
    simpa using ih (by simp [hsplit]) hpiece.2 hhead' harrives

end Ways

/-! ### Code with a single branch forward -/

/-- The condition of the first conditional branch comes from what its block leaves on an empty stack. -/
lemma firstCondition?_eq_some_iff {code : List UInt8} {extra : List Nat} {b : Block}
    (hfind : (FlowGraph.withLeaders (decode code) extra).blocks.toList.find? Block.endsInConditional = some b)
    {front : List Instruction} (hbody : b.body = front ++ [i]) {c : Condition} :
    Lift.firstCondition? ctx (FlowGraph.withLeaders (decode code) extra) = some c ↔
      ∃ r, run ctx front [] = .ok r ∧ condition? i.opcode (r.stack.map StackValue.expr) = some c := by
  obtain ⟨id, hb⟩ := Array.mem_iff_getElem?.mp (Array.mem_toList_iff.mp (List.mem_of_find?_eq_some hfind))
  have hlast : b.last? = some i := by simp [Block.last?, hbody]
  have htransfer : i.isTransfer = true := by
    have hconditional : i.isConditional = true := by simpa [Block.endsInConditional, hlast] using List.find?_some hfind
    simp only [Instruction.isTransfer, Role.isTransfer, Bool.or_eq_true]
    exact .inl (.inl hconditional)
  have hplain : ∀ k ∈ front, k.isTransfer = false := by
    intro k hk
    obtain ⟨before, behind, rfl⟩ := List.append_of_mem hk
    obtain ⟨next, rest, hnext⟩ : ∃ next rest, behind ++ [i] = next :: rest := List.exists_cons_of_ne_nil (by simp)
    exact (FlowGraph.plain_of_interior (coherent_decode code) hb (j := next) ⟨before, rest, by simp [hbody, hnext]⟩).1
  have htakeWhile : b.body.takeWhile (fun k => !k.isTransfer) = front := by
    rw [hbody, List.takeWhile_append_of_pos (by simpa using hplain)]
    simp [htransfer]
  simp only [Lift.firstCondition?, hfind, Option.bind_eq_bind, Option.bind_some, hlast, stackBeforeTransfer, htakeWhile]
  cases run ctx front [] with
  | error e => simp [bind, Except.bind]
  | ok r => simp [bind, Except.bind, pure, Except.pure]

section Single

variable {code : List UInt8} {extra : List Nat}
  (hsingle : Lift.hasSingleForwardBranch (FlowGraph.withLeaders (decode code) extra) = true)
include hsingle

/-- Control passes forward only. -/
lemma lt_of_passes (h : Passes (decode code) i j) : i.offset < j.offset := by
  have hinsns := coherent_decode code
  have hcuts := FlowGraph.cuts_withLeaders hinsns extra
  obtain ⟨id, b, hb, hi⟩ := hcuts.exists_block h.source_mem
  rcases getLast?_or_pair_infix hi with hlast | ⟨k, hpair⟩
  · -- from the end of a block control goes to the start of a block further down
    obtain ⟨id', b', hb', hhead, hstart, hsucc⟩ := exists_successor hb hlast h
    simp only [Lift.hasSingleForwardBranch, Bool.and_eq_true, Bool.not_eq_true', List.any_eq_false, List.any_eq_true,
      not_exists, not_and, FlowGraph.isBackEdge, decide_eq_true_eq, Nat.not_le] at hsingle
    have hforward := hsingle.2 b (Array.mem_toList_iff.mpr (Array.mem_of_getElem? hb)) id' hsucc
    rw [(block?_build hb).1, startOf_of_block? hb, startOf_of_block? hb'] at hforward
    have hlt := FlowGraph.lt_of_start_lt hb hb' hforward
    exact hcuts.offset_lt_of_lt hinsns.ascending hb hb' hlt hi (List.mem_of_mem_head? hhead)
  · obtain rfl := (FlowGraph.passes_iff_of_interior hinsns hb hpair j).mp h
    exact hinsns.ascending.lt_of_pair_infix (hcuts.pair_infix_iff.mpr (.inl ⟨id, b, hb, hpair⟩))

/-- There is one conditional branch. -/
lemma eq_of_isConditional (hi : i ∈ decode code) (hj : j ∈ decode code) (hci : i.isConditional = true)
    (hcj : j.isConditional = true) : i = j := by
  have hinsns := coherent_decode code
  have hcuts := FlowGraph.cuts_withLeaders hinsns extra
  simp only [Lift.hasSingleForwardBranch, Bool.and_eq_true, beq_iff_eq, List.length_eq_one_iff] at hsingle
  obtain ⟨⟨only, honly⟩, -⟩ := hsingle
  have hlast {k : Instruction} (hk : k ∈ decode code) (hck : k.isConditional = true) : only.last? = some k := by
    obtain ⟨id, b, hb, hmem⟩ := hcuts.exists_block hk
    have hlast : b.last? = some k := by
      have hends := getLast?_or_pair_infix hmem
      refine hends.resolve_right ?_
      rintro ⟨l, hpair⟩
      have htransfer := (FlowGraph.plain_of_interior hinsns hb hpair).1
      rw [Instruction.isConditional] at hck
      rw [Instruction.isTransfer, Role.isTransfer, hck] at htransfer
      cases htransfer
    have hbranch : b ∈ (FlowGraph.withLeaders (decode code) extra).blocks.toList.filter
        fun b => b.endsInConditional || b.switch.isSome := by
      refine List.mem_filter.mpr ⟨Array.mem_toList_iff.mpr (Array.mem_of_getElem? hb), ?_⟩
      simp [Block.endsInConditional, hlast, hck]
    rw [honly, List.mem_singleton] at hbranch
    exact hbranch ▸ hlast
  exact Option.some.inj ((hlast hi hci).symm.trans (hlast hj hcj))

/-- The condition of the first conditional branch is the one that a run in code order recovers there. -/
lemma exit_in_order (hcode : ∀ i ∈ decode code, isReadOnly i = true) {cond : Condition}
    (hfirst : Lift.firstCondition? ctx (FlowGraph.withLeaders (decode code) extra) = some cond)
    (hi : i ∈ decode code) (hconditional : i.isConditional = true) {r r₁ : Recovered}
    (hbefore : run ctx (before (decode code) i.offset) [] = .ok r) (hstep : step ctx i r.stack = .ok r₁) :
    r₁.exit = some (.conditional cond) := by
  have hinsns := coherent_decode code
  have hcuts := FlowGraph.cuts_withLeaders hinsns extra
  obtain ⟨b, hfind, hlast⟩ := Option.bind_eq_some_iff.mp hfirst
  obtain ⟨branch, hlast, -⟩ := Option.bind_eq_some_iff.mp hlast
  have hbranch : branch.isConditional = true := by simpa [Block.endsInConditional, hlast] using List.find?_some hfind
  obtain ⟨L, R, hblocks⟩ := List.append_of_mem (List.mem_of_find?_eq_some hfind)
  obtain ⟨body, hbody⟩ := List.getLast?_eq_some_iff.mp hlast
  have hsplit : decode code = ((L.map Block.body).flatten ++ body) ++ branch :: (R.map Block.body).flatten := by
    rw [← hcuts.flatten_body, hblocks]
    simp [hbody]
  obtain rfl : branch = i := eq_of_isConditional hsingle (by simp [hsplit]) hi hbranch hconditional
  -- the block runs from an empty stack, the code order brings along what the blocks in front have left
  have hpieces := before_of_split hinsns.ascending hsplit
  have hpool : ∀ k ∈ body, usesPool k = false := fun k hk =>
    usesPool_of_isReadOnly (hcode k (by simp [hsplit, hk]))
  obtain ⟨jump, target, hjump, -⟩ := exists_jump_of_isConditional (hcode branch hi) hconditional
  obtain ⟨r₀, hr₀, hfirst⟩ := (firstCondition?_eq_some_iff hfind hbody).mp hfirst
  rw [hpieces] at hbefore
  obtain ⟨front, back, -, hback, rfl⟩ := run_append_ok hbefore
  cases (run_over hpool hr₀ front.stack).symm.trans hback
  exact exit_of_condition? hjump hfirst hstep

lemma ascending_of_inOrder {way : List Instruction} (h : InOrder ctx (decode code) way) : Ascending way := by
  have hchain := h.chain.imp fun i j hpasses => lt_of_passes hsingle hpasses
  exact List.isChain_iff_pairwise.mp hchain

/-- A way goes through no other conditional branch. -/
lemma not_conditional_of_inOrder {front back : List Instruction} (h : InOrder ctx (decode code) (front ++ i :: back))
    (hi : i.isConditional = true) : (∀ k ∈ front, k.isConditional = false) ∧ ∀ k ∈ back, k.isConditional = false := by
  have hasc := ascending_of_inOrder hsingle h
  obtain ⟨-, hback, hfront⟩ := List.pairwise_append.mp hasc
  have hother {k : Instruction} (hk : k ∈ front ++ i :: back) (hne : k.offset ≠ i.offset) : k.isConditional = false := by
    by_contra hck
    have hsame := eq_of_isConditional hsingle (h.subset hk) (h.subset (by simp)) (by simpa using hck) hi
    exact hne (congrArg Instruction.offset hsame)
  constructor
  · intro k hk
    exact hother (by simp [hk]) (hfront k hk i List.mem_cons_self).ne
  · intro k hk
    exact hother (by simp [hk]) ((List.pairwise_cons.mp hback).1 k hk).ne'

end Single

/-! ### Returns -/

lemma stmts_of_isExit (hread : isReadOnly i = true) (hexit : i.isExit = true) {r : Recovered}
    (hr : step ctx i stack = .ok r) : ∃ s, r.stmts = [s] := by
  obtain hop | hop := intOp_of_isExit hread hexit
  · rw [step_of_intOp ctx hop] at hr
    rcases stack with _ | ⟨v, stack⟩
    · cases hr
    · cases hr
      exact ⟨_, rfl⟩
  · rw [step_of_intOp ctx hop] at hr
    cases hr
    exact ⟨_, rfl⟩

/-- When the statements of the code are two and two instructions leave it, each of these has one of them. -/
lemma stmts_in_order {code : List UInt8} {all : Recovered} (hcode : ∀ i ∈ decode code, isReadOnly i = true)
    (hall : run ctx (decode code) [] = .ok all) {first second : Instruction}
    (hexits : (decode code).filter Instruction.isExit = [first, second]) {s t : Stmt} (hstmts : all.stmts = [s, t]) :
    ∃ r₁ r₁' r₂ r₂', run ctx (before (decode code) first.offset) [] = .ok r₁ ∧ step ctx first r₁.stack = .ok r₁' ∧
      r₁'.stmts = [s] ∧ run ctx (before (decode code) second.offset) [] = .ok r₂ ∧
      step ctx second r₂.stack = .ok r₂' ∧ r₂'.stmts = [t] := by
  obtain ⟨front, rest, hsplit, -, hfirst, hrest⟩ := List.filter_eq_cons_iff.mp hexits
  obtain ⟨mid, back, rfl, -, hsecond, -⟩ := List.filter_eq_cons_iff.mp hrest
  have hasc := (coherent_decode code).ascending
  have hbefore := before_of_split hasc hsplit
  have hassoc : decode code = (front ++ first :: mid) ++ second :: back := by simp [hsplit]
  have hbefore' := before_of_split hasc hassoc
  rw [hsplit] at hall
  obtain ⟨r₁, _, hr₁, hfrom, rfl⟩ := run_append_ok hall
  obtain ⟨r₁', _, hr₁', hbehind, rfl⟩ := run_cons_ok hfrom
  obtain ⟨r, _, hr, hfrom', rfl⟩ := run_append_ok hbehind
  obtain ⟨r₂', last, hr₂', -, rfl⟩ := run_cons_ok hfrom'
  obtain ⟨s', hs'⟩ := stmts_of_isExit (hcode first (by simp [hsplit])) hfirst hr₁'
  obtain ⟨t', ht'⟩ := stmts_of_isExit (hcode second (by simp [hsplit])) hsecond hr₂'
  -- there is no room for other statements
  simp only [Recovered.andThen, hs', ht'] at hstmts
  have hlength := congrArg List.length hstmts
  simp only [List.length_append, List.length_cons, List.length_nil] at hlength
  have hfront : r₁.stmts = [] := List.eq_nil_of_length_eq_zero (by omega)
  have hmid : r.stmts = [] := List.eq_nil_of_length_eq_zero (by omega)
  have hback : last.stmts = [] := List.eq_nil_of_length_eq_zero (by omega)
  rw [hfront, hmid, hback] at hstmts
  cases hstmts
  have hr₂ : run ctx (before (decode code) second.offset) [] = .ok (r₁.andThen (r₁'.andThen r)) := by
    rw [hbefore']
    exact run_append_of_ok hr₁ (run_cons_of_ok hr₁' hr)
  exact ⟨r₁, r₁', _, r₂', hbefore ▸ hr₁, hr₁', hs', hr₂, hr₂', ht'⟩

/-! ### The choice -/

/-- What the machine has to do with the two returns of the code: behind the branch it comes to the first one, and from
the target of the branch to the second one. -/
structure ReturnsInOrder (ctx : Context) (insns lead : List Instruction) (branch : Instruction)
    (fall : List Instruction) (first : Instruction) (taken : List Instruction) (second : Instruction) : Prop where
  conditional : branch.isConditional = true
  exits : insns.filter Instruction.isExit = [first, second]
  fall_head : (fall ++ [first]).head?.map Instruction.offset = some branch.next
  fall_order : InOrder ctx insns (lead ++ branch :: (fall ++ [first]))
  taken_head : (taken ++ [second]).head?.map Instruction.offset = branch.target?
  taken_order : InOrder ctx insns (lead ++ branch :: (taken ++ [second]))

/-- The body that a choice between two returns is written as. -/
def choiceBody (cond v w : Expr) : List Stmt :=
  [.ifElse cond [.returnValue v] [.returnValue w]]

lemma simplifyBody_choiceBody (cond v w : Expr) :
    simplifyBody (choiceBody cond v w) = choiceBody cond.simplify v.simplify w.simplify := by
  simp [simplifyBody, choiceBody, Stmt.mapExprsEach, Stmt.mapExprs]

/-- A method is one choice between two returns: its statements are two returns of a value, and its code branches once
and forward. -/
structure IsTwoReturns (ctx : Context) (shape : CodeShape) (cond : Condition) (v w : Expr) : Prop where
  flat : Lift.flatStatements ctx shape = .ok [.returnValue v, .returnValue w]
  condition : Lift.firstCondition? ctx shape.graph = some cond
  single : Lift.hasSingleForwardBranch shape.graph = true

/-- The two returns are what a run in code order recovers. -/
lemma IsTwoReturns.run_eq {code : Code} (hrows : code.handlers = []) {cond : Condition} {v w : Expr}
    (h : IsTwoReturns ctx (CodeShape.ofCode code) cond v w) :
    ∃ all, run ctx (decode code.bytes) [] = .ok all ∧ all.stmts = [.returnValue v, .returnValue w] := by
  have hflat := h.flat
  rw [flatStatements_eq hrows] at hflat
  cases hrun : run ctx (decode code.bytes) [] with
  | error e =>
    rw [hrun] at hflat
    cases hflat
  | ok all =>
    rw [hrun] at hflat
    exact ⟨all, rfl, Except.ok.inj hflat⟩

lemma IsTwoReturns.lift_eq {m : Method} {code : Code} (hcode : m.code = some code) {pool : Option Pool}
    {options : Options} {cond : Condition} {v w : Expr}
    (h : IsTwoReturns (m.context pool options) (CodeShape.ofCode code) cond v w) :
    m.lift pool options = .ok ⟨⟨m.name, m.descriptor,
      if options.simplify then simplifyBody (choiceBody cond.fallthrough v w) else choiceBody cond.fallthrough v w⟩,
      .structured⟩ := by
  have hbody : Lift.chooseBody m (m.context pool options) options (CodeShape.ofCode code)
      [.returnValue v, .returnValue w] = (choiceBody cond.fallthrough v w, .structured) := by
    have hnarrow : Lift.twoReturns? [.returnValue v, .returnValue w] cond.fallthrough =
        some (choiceBody cond.fallthrough v w) := rfl
    simp only [Lift.chooseBody, h.condition, h.single, hnarrow, Option.bind_some]
    rfl
  have hflat := h.flat
  simp only [Method.context] at hflat hbody
  simp only [Method.lift, hcode, hflat, hbody, bind, Except.bind, pure, Except.pure]

lemma execInts_choiceBody {cond v w : Expr} {t : Bool} {n : Int32}
    (hcond : Evaluation.ofInts.eval σ cond = some (.bool t))
    (hvalue : Evaluation.ofInts.eval σ (if t then v else w) = some (.int n)) :
    execInts (choiceBody cond v w) σ = Run.stop (.returned (some (.int n))) σ := by
  have hreturn {e : Expr} (he : Evaluation.ofInts.eval σ e = some (.int n)) :
      execInts [.returnValue e] σ = Run.stop (.returned (some (.int n))) σ := by
    rw [execInts, Evaluation.execEach_singleton, Evaluation.exec,
      Run.reading_apply (f := (Evaluation.ofInts.eval · e)) he]
    rfl
  rw [execInts, choiceBody, Evaluation.execEach_singleton, Evaluation.exec, Run.branch_apply (test_of_eval hcond)]
  cases t with
  | true => exact hreturn hvalue
  | false => exact hreturn hvalue

section Choice

variable {code : List UInt8} {all : Recovered} (hcode : ∀ i ∈ decode code, isReadOnly i = true)
  (hall : run ctx (decode code) [] = .ok all) {way front back : List Instruction}
  (hway : InOrder ctx (decode code) way) (hl : Holds ctx.names σ locals)
include hcode hall hway hl

/-- From the start the machine comes to the branch. -/
lemma arrives_of_results (hasc : Ascending way) (hsplit : way = front ++ j :: back)
    (hfront : ∀ k ∈ front, k.isConditional = false) (h : Results (decode code) locals (.ok result)) :
    Arrives ctx (decode code) σ locals result front j := by
  obtain ⟨start, rest, hstart⟩ : ∃ start rest, front ++ j :: back = start :: rest :=
    List.exists_cons_of_ne_nil (by simp)
  obtain ⟨rest', hrest'⟩ : ∃ rest', decode code = start :: rest' := by
    have hhead := hway.head
    rw [hsplit, hstart] at hhead
    exact List.head?_eq_some_iff.mp hhead.symm
  have hzero : start.offset = 0 := by
    have hcontiguous := (tiles_decode code).contiguous
    rw [hrest'] at hcontiguous
    exact hcontiguous.1
  have harrives : Arrives ctx (decode code) σ locals result [] start := by
    obtain ⟨n, hn⟩ := h
    refine ⟨n, [], { stack := [] }, { stack := [] }, hzero ▸ hn, rfl, .nil, ?_, .inl (List.prefix_rfl)⟩
    simp [before, hrest', run]
  have hhead : (front ++ [j]).head? = some start := by
    cases front <;> cases hstart <;> rfl
  have hsplit' : way = [] ++ front ++ j :: back := hsplit
  exact arrives_along hcode hall hway hasc hl hsplit' hfront hhead harrives

/-- Behind the branch, an arm returns the value of the return at its end. -/
lemma value_of_arm (hasc : Ascending way) {arm : List Instruction} (hsplit : way = front ++ i :: (arm ++ [j]))
    (harm : ∀ k ∈ arm, k.isConditional = false) (hexit : j.isExit = true) {offset : Nat}
    (hhead : (arm ++ [j]).head?.map Instruction.offset = some offset) {r r₁ r' : Recovered}
    (hfront : run ctx front [] = .ok r) (hstep : step ctx i r.stack = .ok r₁) (hwords : HasWords σ r₁.stack ns)
    (hrun : codeRun (decode code) n offset { locals, stack := ns } = some (.ok result))
    (hbefore : run ctx (before (decode code) i.offset) [] = .ok r') (hsame : SameTop r.stack r'.stack)
    {last last₁ : Recovered} (hlast : run ctx (before (decode code) j.offset) [] = .ok last)
    (hlast₁ : step ctx j last.stack = .ok last₁) {e : Expr} (hstmts : last₁.stmts = [.returnValue e]) :
    ∃ n, result = some n ∧ Evaluation.ofInts.eval σ e = some (.int n) := by
  have hj : j ∈ decode code := hway.subset (by simp [hsplit])
  obtain ⟨next, hnext, rfl⟩ := Option.map_eq_some_iff.mp hhead
  obtain ⟨rest, hrest⟩ := List.head?_eq_some_iff.mp hnext
  have harrives : Arrives ctx (decode code) σ locals result (front ++ [i]) next :=
    arrives_of_step hcode hall hway hasc (hsplit.trans (by rw [hrest])) hfront hstep hwords hrun hbefore hsame
  obtain ⟨n, ns, r₂, r₂', hrun, -, hwords, hr₂', hsame⟩ :=
    arrives_along hcode hall hway hasc hl (by simpa using hsplit) harm hnext harrives
  cases hlast.symm.trans hr₂'
  obtain ⟨r₃, hstep, hvalue⟩ := return_of_codeRun ctx (coherent_decode code) hj (hcode j hj) hwords hrun hexit
  obtain ⟨hstmts', -, -⟩ := hsame.step (usesPool_of_isReadOnly (hcode j hj)) hstep hlast₁
  exact hvalue e (hstmts'.symm.trans hstmts)

end Choice

/-- The machine decides as the recovered condition, and it returns what the recovered value on that side is. -/
lemma value_of_choice {code : Code} (hrows : code.handlers = []) (hread : ∀ i ∈ decode code.bytes, isReadOnly i = true)
    {cond : Condition} {v w : Expr} (hmatch : IsTwoReturns ctx (CodeShape.ofCode code) cond v w)
    {lead fall taken : List Instruction} {branch first second : Instruction}
    (horder : ReturnsInOrder ctx (decode code.bytes) lead branch fall first taken second)
    (hl : Holds ctx.names σ locals) (hresult : Results (decode code.bytes) locals (.ok result)) :
    ∃ t n, Evaluation.ofInts.eval σ cond.fallthrough = some (.bool t) ∧ result = some n ∧
      Evaluation.ofInts.eval σ (if t then v else w) = some (.int n) := by
  obtain ⟨all, hall, hstmts⟩ := hmatch.run_eq hrows
  obtain ⟨r₁, r₁', r₂, r₂', hr₁, hr₁', hv, hr₂, hr₂', hw⟩ := stmts_in_order hread hall horder.exits hstmts
  have hexits : first.isExit = true ∧ second.isExit = true := by
    have hall : ∀ i ∈ [first, second], i.isExit = true := fun i hi => List.of_mem_filter (horder.exits ▸ hi)
    exact ⟨hall first (by simp), hall second (by simp)⟩
  have hsingle := hmatch.single
  have hfall := ascending_of_inOrder hsingle horder.fall_order
  have htaken := ascending_of_inOrder hsingle horder.taken_order
  obtain ⟨hplain, hplainFall⟩ := not_conditional_of_inOrder hsingle horder.fall_order horder.conditional
  obtain ⟨-, hplainTaken⟩ := not_conditional_of_inOrder hsingle horder.taken_order horder.conditional
  have hbranch : branch ∈ decode code.bytes := horder.fall_order.subset (by simp)
  -- up to the branch
  obtain ⟨n, ns, r, r', hrun, hlead, hwords, hbefore, hsame⟩ :=
    arrives_of_results hread hall horder.fall_order hl hfall rfl hplain hresult
  obtain ⟨target, c, t, s, m, ns', htarget, hs, hexit, htells, hwords', hrun'⟩ :=
    branch_of_codeRun ctx (coherent_decode code.bytes) hbranch (hread branch hbranch) hwords hrun horder.conditional
  obtain ⟨r₀, s', hr₀, hs', -⟩ := step_in_order hall hbranch
  cases hbefore.symm.trans hr₀
  obtain ⟨-, hexit', -⟩ := hsame.step (usesPool_of_isReadOnly (hread branch hbranch)) hs hs'
  have hcond := exit_in_order hsingle hread hmatch.condition hbranch horder.conditional hbefore hs'
  cases hexit.symm.trans (hexit'.symm.trans hcond)
  -- behind the branch
  cases t with
  | true =>
    obtain ⟨n, rfl, hn⟩ := value_of_arm hread hall horder.taken_order hl htaken rfl
      (fun k hk => hplainTaken k (by simp [hk])) hexits.2 (horder.taken_head.trans htarget) hlead hs hwords' hrun'
      hbefore hsame hr₂ hr₂' hw
    exact ⟨false, n, htells.2, rfl, hn⟩
  | false =>
    obtain ⟨n, rfl, hn⟩ := value_of_arm hread hall horder.fall_order hl hfall rfl
      (fun k hk => hplainFall k (by simp [hk])) hexits.1 horder.fall_head hlead hs hwords' hrun' hbefore hsame hr₁ hr₁' hv
    exact ⟨true, n, htells.2, rfl, hn⟩

/-! ### Main statement -/

lemma IsTwoReturns.exec_lifted {m : Method} {code : Code} (hcode : m.code = some code) {pool : Option Pool}
    {options : Options} {cond : Condition} {v w : Expr}
    (h : IsTwoReturns (m.context pool options) (CodeShape.ofCode code) cond v w) {t : Bool} {n : Int32}
    (hcond : Evaluation.ofInts.eval σ cond.fallthrough = some (.bool t))
    (hvalue : Evaluation.ofInts.eval σ (if t then v else w) = some (.int n)) :
    ∃ lifted, m.lift pool options = .ok lifted ∧ lifted.outcome = .structured ∧
      ∀ τ o, execInts lifted.tree.body σ τ o ↔ τ = σ ∧ o = .returned (some (.int n)) := by
  refine ⟨_, h.lift_eq hcode, rfl, fun τ o => ?_⟩
  have hexec : execInts (if options.simplify then simplifyBody (choiceBody cond.fallthrough v w)
      else choiceBody cond.fallthrough v w) σ = Run.stop (.returned (some (.int n))) σ := by
    split_ifs
    · rw [simplifyBody_choiceBody]
      refine execInts_choiceBody (Expr.value?_simplify _ _ hcond) ?_
      cases t <;> exact Expr.value?_simplify _ _ hvalue
    · exact execInts_choiceBody hcond hvalue
  rw [hexec]
  rfl

/-- **A choice between two returns is exact in order.** A method without handlers that writes to no slot and is one choice
between two returns is written as an `if` with the two values. When the way behind the branch comes to the return that
stands first in the code, and the way from its target to the other one, the `if` returns what the code returns, and
nothing else. -/
theorem choice_returns_alike {m : Method} {code : Code} (hcode : m.code = some code) (hrows : code.handlers = [])
    (hread : ∀ i ∈ decode code.bytes, isReadOnly i = true) {pool : Option Pool} {options : Options} {cond : Condition}
    {v w : Expr} (hmatch : IsTwoReturns (m.context pool options) (CodeShape.ofCode code) cond v w)
    {lead fall taken : List Instruction} {branch first second : Instruction}
    (horder : ReturnsInOrder (m.context pool options) (decode code.bytes) lead branch fall first taken second)
    {σ : Store} {locals : UInt16 → Int32} (hl : Holds (Naming.ofMethod m) σ locals) {result : Option Int32}
    (hresult : Results (decode code.bytes) locals (.ok result)) :
    ∃ lifted, m.lift pool options = .ok lifted ∧ lifted.outcome = .structured ∧
      ∀ τ o, Evaluation.ofInts.execEach false lifted.tree.body σ τ o ↔ τ = σ ∧ o = .returned (result.map .int) := by
  obtain ⟨t, n, hcond, rfl, hvalue⟩ := value_of_choice hrows hread hmatch horder hl hresult
  exact hmatch.exec_lifted hcode hcond hvalue

/-- A static method of an int that returns an int. -/
def ofOneInt (code : Code) : Method :=
  ⟨"m", "(I)I", ⟨0x0008⟩, some code⟩

/-- `return a != 0 ? 3 : 2`, with 2 on the stack all the time: `0: iconst_2; iload_0; ifeq 12`, `5: goto 10`,
`8: dup; pop`, `10: iconst_3; ireturn`, `12: ireturn`. -/
def leftOnStack : Code :=
  { bytes := [0x05, 0x1a, 0x99, 0x00, 0x0a, 0xa7, 0x00, 0x05, 0x59, 0x57, 0x06, 0xac, 0xac] }

def leftOnStackInsns : List Instruction :=
  [⟨0, ⟨0x05⟩, .none, 1⟩, ⟨1, ⟨0x1a⟩, .slot 0, 1⟩, ⟨2, ⟨0x99⟩, .branch 12, 3⟩, ⟨5, ⟨0xa7⟩, .branch 10, 3⟩,
    ⟨8, ⟨0x59⟩, .none, 1⟩, ⟨9, ⟨0x57⟩, .none, 1⟩, ⟨10, ⟨0x06⟩, .none, 1⟩, ⟨11, ⟨0xac⟩, .none, 1⟩,
    ⟨12, ⟨0xac⟩, .none, 1⟩]

lemma decode_leftOnStack : decode leftOnStack.bytes = leftOnStackInsns := by decide +kernel

lemma leftOnStack_isTwoReturns :
    IsTwoReturns ((ofOneInt leftOnStack).context none {}) (CodeShape.ofCode leftOnStack)
      ⟨.binary .eq (.var "a") (.int 0), .binary .ne (.var "a") (.int 0)⟩ (.int 3) (.int 2) where
  flat := by
    rw [flatStatements_eq rfl, decode_leftOnStack]
    rfl
  condition := by
    have hfind : ((CodeShape.ofCode leftOnStack).graph.blocks.toList.find? Block.endsInConditional).map Block.body =
        some (leftOnStackInsns.take 2 ++ [⟨2, ⟨0x99⟩, .branch 12, 3⟩]) := by decide +kernel
    obtain ⟨b, hb, hbody⟩ := Option.map_eq_some_iff.mp hfind
    exact (firstCondition?_eq_some_iff hb hbody).mpr ⟨_, rfl, rfl⟩
  single := by decide +kernel

lemma leftOnStack_returnsInOrder : ReturnsInOrder ((ofOneInt leftOnStack).context none {}) leftOnStackInsns
    (leftOnStackInsns.take 2) ⟨2, ⟨0x99⟩, .branch 12, 3⟩
    [⟨5, ⟨0xa7⟩, .branch 10, 3⟩, ⟨10, ⟨0x06⟩, .none, 1⟩] ⟨11, ⟨0xac⟩, .none, 1⟩ [] ⟨12, ⟨0xac⟩, .none, 1⟩ where
  conditional := by decide +kernel
  exits := by decide +kernel
  fall_head := by decide +kernel
  fall_order :=
    { head := rfl
      chain := by decide +kernel
      joins := by
        refine .cons_cons (.inl rfl) (.cons_cons (.inl rfl) (.cons_cons (.inl rfl) (.cons_cons (.inr ?_)
          (.cons_cons (.inl rfl) (.singleton _)))))
        rintro r r' ⟨⟩ ⟨⟩
        exact .inl List.prefix_rfl }
  taken_head := by decide +kernel
  taken_order :=
    { head := rfl
      chain := by decide +kernel
      joins := by
        refine .cons_cons (.inl rfl) (.cons_cons (.inl rfl) (.cons_cons (.inr ?_) (.singleton _)))
        rintro r r' ⟨⟩ ⟨⟩
        exact .inl List.prefix_rfl }

/-- The theorem at code with a value left on the stack and a jump over code that is never run, with 1 in all
variables. -/
theorem leftOnStack_returns_alike :
    Results (decode leftOnStack.bytes) (fun _ => 1) (.ok (some 3)) ∧
    ∃ lifted, (ofOneInt leftOnStack).lift none {} = .ok lifted ∧ lifted.outcome = .structured ∧
      ∀ τ o, Evaluation.ofInts.execEach false lifted.tree.body (fun _ => 1) τ o ↔
        τ = (fun _ => 1) ∧ o = .returned (some (.int 3)) := by
  have hresult : Results (decode leftOnStack.bytes) (fun _ => 1) (.ok (some 3)) := by
    rw [decode_leftOnStack]
    exact ⟨20, by decide +kernel⟩
  refine ⟨hresult, ?_⟩
  exact choice_returns_alike rfl rfl (by rw [decode_leftOnStack]; decide +kernel) leftOnStack_isTwoReturns
    (decode_leftOnStack ▸ leftOnStack_returnsInOrder) (fun _ _ => rfl) hresult

/-! ### Returns that change places -/

/-- `return a != 0 ? 3 : 2`, where the returns stand in the other order: `0: iload_0; ifeq 7`, `4: goto 9`,
`7: iconst_2; ireturn`, `9: iconst_3; ireturn`. -/
def crossedReturns : Code :=
  { bytes := [0x1a, 0x99, 0x00, 0x06, 0xa7, 0x00, 0x05, 0x05, 0xac, 0x06, 0xac] }

def crossedReturnsInsns : List Instruction :=
  [⟨0, ⟨0x1a⟩, .slot 0, 1⟩, ⟨1, ⟨0x99⟩, .branch 7, 3⟩, ⟨4, ⟨0xa7⟩, .branch 9, 3⟩, ⟨7, ⟨0x05⟩, .none, 1⟩,
    ⟨8, ⟨0xac⟩, .none, 1⟩, ⟨9, ⟨0x06⟩, .none, 1⟩, ⟨10, ⟨0xac⟩, .none, 1⟩]

lemma decode_crossedReturns : decode crossedReturns.bytes = crossedReturnsInsns := by decide +kernel

/-- The `if` of `crossedReturns` has the values the other way round: with 1 in all variables, the code jumps over the
first return and returns 3, and the `if` returns 2. -/
theorem crossedReturns_not_alike :
    let ctx := (ofOneInt crossedReturns).context none {}
    (∀ i ∈ decode crossedReturns.bytes, isReadOnly i = true) ∧
    IsTwoReturns ctx (CodeShape.ofCode crossedReturns)
      ⟨.binary .eq (.var "a") (.int 0), .binary .ne (.var "a") (.int 0)⟩ (.int 2) (.int 3) ∧
    Holds ctx.names (fun _ => 1) (fun _ => 1) ∧
    Results (decode crossedReturns.bytes) (fun _ => 1) (.ok (some 3)) ∧
    ∃ lifted, (ofOneInt crossedReturns).lift none {} = .ok lifted ∧ lifted.outcome = .structured ∧
      ∀ τ o, Evaluation.ofInts.execEach false lifted.tree.body (fun _ => 1) τ o ↔
        τ = (fun _ => 1) ∧ o = .returned (some (.int 2)) := by
  intro ctx
  have hmatch : IsTwoReturns ctx (CodeShape.ofCode crossedReturns)
      ⟨.binary .eq (.var "a") (.int 0), .binary .ne (.var "a") (.int 0)⟩ (.int 2) (.int 3) := by
    obtain ⟨hsingle, hfind⟩ : Lift.hasSingleForwardBranch (CodeShape.ofCode crossedReturns).graph = true ∧
        ((CodeShape.ofCode crossedReturns).graph.blocks.toList.find? Block.endsInConditional).map Block.body =
          some (crossedReturnsInsns.take 1 ++ [⟨1, ⟨0x99⟩, .branch 7, 3⟩]) := by decide +kernel
    refine ⟨?_, ?_, hsingle⟩
    · rw [flatStatements_eq rfl, decode_crossedReturns]
      rfl
    · obtain ⟨b, hb, hbody⟩ := Option.map_eq_some_iff.mp hfind
      exact (firstCondition?_eq_some_iff hb hbody).mpr ⟨_, rfl, rfl⟩
  rw [decode_crossedReturns]
  refine ⟨by decide +kernel, hmatch, fun _ _ => rfl, ⟨20, by decide +kernel⟩, ?_⟩
  exact hmatch.exec_lifted (t := true) rfl rfl rfl

end JvmLift.IntCode
