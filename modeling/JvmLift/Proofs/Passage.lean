import Mathlib
import JvmLift.Proofs.JumpCode

/-!
# The machine on blocks

The machine seen from the starts of blocks. Inside a block it runs one instruction behind the other, and at the end it
stands in front of a successor. So it goes through a block as the symbolic run over the block says: it comes to a fault,
it returns, or it comes to the start of a successor with the words of the symbolic stack.
-/

namespace JvmLift.IntCode

open Bytecode JvmLift.Flow Recovery Source Structure

/-- A place of the machine in front of a block, with the words on its stack. -/
abbrev Place := BlockId × List Int32

/-- What a machine comes to from a place, in a number of steps. -/
abbrev BlockRun := Nat → Place → Option (Except Fault (Option Int32))

/-- How a machine, of which `outcome` tells what it comes to, goes through a block that was recovered as `r`. -/
inductive Through (M : BlockRun) (σ : Store) (b : Block) (r : Recovered)
    (outcome : Nat → Option (Except Fault (Option Int32))) : Prop
  | faults {n : Nat} {e : Fault} (h : outcome n = some (.error e))
  | returns {n : Nat} {v : Option Int32} (h : outcome n = some (.ok v))
      (hruns : Evaluation.ofInts.execEach false r.stmts σ = Run.stop (.returned (v.map .int)) σ)
  | goesOn {k : Nat} {id : BlockId} {ns : List Int32} (h : ∀ n, outcome (n + (k + 1)) = M n (id, ns))
      (hstmts : r.stmts = []) (hwords : HasWords σ r.stack ns) (hnext : id ∈ b.succs)
      (hfork : ∀ taken fall, b.succs = [taken, fall] →
        ∃ c t, r.exit = some (.conditional c) ∧ Tells σ c t ∧ id = if t then taken else fall)

lemma Through.step {M : BlockRun} {σ : Store} {b : Block} {r : Recovered}
    {outcome outcome' : Nat → Option (Except Fault (Option Int32))} (h : Through M σ b r outcome)
    (hstep : ∀ n, outcome' (n + 1) = outcome n) : Through M σ b r outcome' := by
  cases h with
  | faults h => exact .faults ((hstep _).trans h)
  | returns h hruns => exact .returns ((hstep _).trans h) hruns
  | @goesOn k id ns h hstmts hwords hnext hfork =>
    exact .goesOn (k := k + 1) (fun n => (hstep (n + (k + 1))).trans (h n)) hstmts hwords hnext hfork

/-! ### Neighbours -/

/-- What starts where an instruction ends stands behind it. -/
lemma pair_infix_of_offset {code : List UInt8} {i j : Instruction} (hi : i ∈ decode code) (hj : j ∈ decode code)
    (hnext : j.offset = i.next) : [i, j] <:+: decode code := by
  have hasc := (coherent_decode code).ascending
  have hpos := (tiles_decode code).size_pos i hi
  have hlt : i.offset < j.offset := by
    rw [hnext, Instruction.next]
    omega
  rcases getLast?_or_pair_infix hi with hlast | ⟨k, hpair⟩
  · -- the last instruction has the greatest offset
    obtain ⟨front, hfront⟩ := List.getLast?_eq_some_iff.mp hlast
    rw [hfront] at hj hasc
    rcases List.mem_append.mp hj with hj | hj
    · have := (List.pairwise_append.mp hasc).2.2 j hj i (by simp)
      omega
    · rw [List.mem_singleton.mp hj] at hlt
      omega
  · have hoffset := offset_of_pair_infix (tiles_decode code).contiguous hpair
    rwa [hasc.eq_of_offset hj (hpair.subset (by simp)) (hnext.trans hoffset.symm)]

/-! ### Blocks -/

lemma startOf_of_block? {g : FlowGraph} {id : BlockId} {b : Block} (hb : g.block? id = some b) :
    g.startOf id = b.start := by
  simp [FlowGraph.startOf, hb]

section Blocks

variable {code : List UInt8} {extra : List Nat} {id : BlockId} {b : Block} {i j : Instruction}

/-- The machine at the starts of the blocks of code. -/
def blockRun (code : List UInt8) (extra : List Nat) (locals : UInt16 → Int32) : BlockRun := fun n place =>
  codeRun (decode code) n ((FlowGraph.withLeaders (decode code) extra).startOf place.1) { locals, stack := place.2 }

variable (hb : (FlowGraph.withLeaders (decode code) extra).block? id = some b) (hlast : b.last? = some i)
include hb hlast

/-- Where control passes to from the end of a block, a successor starts. -/
lemma exists_successor (hpasses : Passes (decode code) i j) :
    ∃ id' b', (FlowGraph.withLeaders (decode code) extra).block? id' = some b' ∧ b'.body.head? = some j ∧
      (FlowGraph.withLeaders (decode code) extra).startOf id' = j.offset ∧ id' ∈ b.successors := by
  have hcuts := FlowGraph.cuts_withLeaders (coherent_decode code) extra
  obtain ⟨id', b', hb', hj⟩ := hcuts.exists_block hpasses.destination_mem
  have hhead := FlowGraph.head?_of_passes (coherent_decode code) hb hb' hlast hpasses hj
  obtain ⟨k, hk, hstart⟩ := hcuts.head?_body hb'
  obtain rfl := Option.some.inj (hk.symm.trans hhead)
  refine ⟨id', b', hb', hhead, (startOf_of_block? hb').trans hstart.symm, ?_⟩
  exact (FlowGraph.mem_successors_iff_passes (coherent_decode code) hb hb' hlast hhead).mpr hpasses

/-- The successor that starts at an instruction behind a conditional branch: the first one if the branch jumps there,
and the second one if the instruction stands behind the branch. -/
lemma successor_of_fork {target : Nat} (htarget : i.target? = some target) {id' : BlockId} {b' : Block}
    (hb' : (FlowGraph.withLeaders (decode code) extra).block? id' = some b') (hhead : b'.body.head? = some j) {t : Bool}
    (hj : j.offset = if t then target else i.next) {taken fall : BlockId} (hsuccs : b.succs = [taken, fall]) :
    id' = if t then taken else fall := by
  have hinsns := coherent_decode code
  have hcuts := FlowGraph.cuts_withLeaders hinsns extra
  have hmem : j ∈ decode code := hcuts.mem_of_mem_body hb' (List.mem_of_mem_head? hhead)
  obtain ⟨i', target', taken', b₁, hlast', -, htarget', hb₁, hstart, hsuccs'⟩ :=
    (FlowGraph.succs_withLeaders hinsns hb).2 (by rw [hsuccs]; rfl)
  obtain rfl := Option.some.inj (hlast.symm.trans hlast')
  obtain rfl := Option.some.inj (htarget.symm.trans htarget')
  obtain ⟨rfl, rfl⟩ : taken' = taken ∧ id + 1 = fall := by simpa using hsuccs'.symm.trans hsuccs
  cases t with
  | true =>
    have hhead₁ := FlowGraph.head?_of_start_eq hinsns.ascending hb₁ hmem (hstart.trans hj.symm)
    exact hcuts.id_eq_of_mem hinsns.ascending hb' hb₁ (List.mem_of_mem_head? hhead) (List.mem_of_mem_head? hhead₁)
  | false =>
    have hi : i ∈ decode code := hcuts.mem_of_mem_body hb (List.mem_of_getLast? hlast)
    obtain ⟨b₂, hb₂, hhead₂⟩ := hcuts.exists_next_of_last hinsns.ascending hb hlast (pair_infix_of_offset hi hmem hj)
    exact hcuts.id_eq_of_mem hinsns.ascending hb' hb₂ (List.mem_of_mem_head? hhead) (List.mem_of_mem_head? hhead₂)

/-- Only a conditional branch has two successors. -/
lemma succs_ne_pair (hi : i.isConditional = false) (taken fall : BlockId) : b.succs ≠ [taken, fall] := by
  intro hsuccs
  obtain ⟨i', -, -, -, hlast', hconditional, -⟩ :=
    (FlowGraph.succs_withLeaders (coherent_decode code) hb).2 (by rw [hsuccs]; rfl)
  cases hlast.symm.trans hlast'
  cases hi.symm.trans hconditional

variable {locals : UInt16 → Int32} {σ : Store} {ns : List Int32} {r : Recovered}

/-- The machine leaves a block for a successor, if there is an instruction where it goes on. -/
lemma through_of_last {outcome : Nat → Option (Except Fault (Option Int32))} {pc : Nat}
    (hstep : ∀ n, outcome (n + 1) = codeRun (decode code) n pc { locals, stack := ns }) (hswitch : i.isSwitch = false)
    (hpasses : ∀ j ∈ decode code, j.offset = pc → Passes (decode code) i j) (hstmts : r.stmts = [])
    (hwords : HasWords σ r.stack ns)
    (hfork : ∀ {id' b' j taken fall}, (FlowGraph.withLeaders (decode code) extra).block? id' = some b' →
      b'.body.head? = some j → j.offset = pc → b.succs = [taken, fall] →
        ∃ c t, r.exit = some (.conditional c) ∧ Tells σ c t ∧ id' = if t then taken else fall) :
    Through (blockRun code extra locals) σ b r outcome := by
  by_cases hnowhere : ∀ j ∈ decode code, j.offset ≠ pc
  · exact .faults ((hstep 1).trans (codeRun_of_nowhere hnowhere 0))
  · push Not at hnowhere
    obtain ⟨j, hj, rfl⟩ := hnowhere
    obtain ⟨id', b', hb', hhead, hstart, hnext⟩ := exists_successor hb hlast (hpasses j hj rfl)
    have hsucc : id' ∈ b.succs := by
      refine (FlowGraph.mem_successors_iff.mp hnext).resolve_right ?_
      rintro ⟨edges, hedges, -⟩
      obtain ⟨i', hi', hswitch'⟩ := isSwitch_of_edgesOf ((congrArg Prod.snd (block?_build hb).2.2.1).symm.trans hedges)
      cases hlast.symm.trans hi'
      cases hswitch.symm.trans hswitch'
    refine .goesOn (k := 0) (fun n => ?_) hstmts hwords hsucc fun taken fall => hfork hb' hhead rfl
    rw [blockRun, hstart]
    exact hstep n

variable {ctx : Context} {stack : Stack} (hl : Holds ctx.names σ locals) (hr : step ctx i stack = .ok r)
  (hs : HasWords σ stack ns)
include hl hr hs

lemma through_of_op {op : IntOp} (hop : intOp? i = some op) (hwrites : op.writes = false) :
    Through (blockRun code extra locals) σ b r (codeRun (decode code) · i.offset { locals, stack := ns }) := by
  have hinsns := coherent_decode code
  have hi : i ∈ decode code :=
    (FlowGraph.cuts_withLeaders hinsns extra).mem_of_mem_body hb (List.mem_of_getLast? hlast)
  have hcode := codeStep_of_op (f := { locals, stack := ns }) hinsns.ascending hi (jump?_of_intOp hop)
  obtain hfault | ⟨ns', returned, hmachine, -, hwords, hstmts, hruns⟩ := step_of_op hop hwrites hr hl hs
  · rw [hfault] at hcode
    exact .faults (codeRun_of_error hcode 0)
  have hreturns := isReturn_of_machineStep hmachine rfl
  rw [isReturn, hop, Option.any_some] at hreturns
  rw [hmachine] at hcode
  cases returned with
  | some v => exact .returns (codeRun_of_return hcode rfl 0) (hruns v rfl)
  | none =>
    have hrole : i.role = .plain := by simp [role_of_intOp hop, hreturns]
    have hplain : i.isJump = false ∧ i.isExit = false ∧ i.isSwitch = false ∧ i.isConditional = false := by
      simp [Instruction.isJump, Instruction.isExit, Instruction.isSwitch, Instruction.isConditional, hrole, Role.isJump,
        Role.isExit, Role.isSwitch, Role.isConditional]
    refine through_of_last hb hlast (codeRun_of_ok hcode rfl) hplain.2.2.1 (fun j hj hnext => ?_) (hstmts rfl) hwords ?_
    · have hpair := pair_infix_of_offset hi hj hnext
      exact .next hpair hplain.1 hplain.2.1 hplain.2.2.1 (FlowGraph.not_undecoded_of_followed hinsns hpair)
    · exact fun _ _ _ hsuccs => absurd hsuccs (succs_ne_pair hb hlast hplain.2.2.2 _ _)

omit hl in
lemma through_of_jump {jump : Jump} {target : Nat} (hjump : jump? i = some (jump, target)) :
    Through (blockRun code extra locals) σ b r (codeRun (decode code) · i.offset { locals, stack := ns }) := by
  have hinsns := coherent_decode code
  have hi : i ∈ decode code :=
    (FlowGraph.cuts_withLeaders hinsns extra).mem_of_mem_body hb (List.mem_of_getLast? hlast)
  have htarget : i.target? = some target := by simp [Instruction.target?, (jump?_eq_some hjump).1]
  have hrole := role_of_jump hjump
  have hplain : i.isExit = false ∧ i.isSwitch = false := by
    rw [Instruction.isExit, Instruction.isSwitch, hrole]
    split <;> exact ⟨rfl, rfl⟩
  obtain ⟨t, ns', htaken, hstmts, hwords, hexit⟩ := step_of_jump hjump hr hs
  have hcode := codeStep_of_jump (f := { locals, stack := ns }) hinsns.ascending hi hjump htaken
  refine through_of_last hb hlast (codeRun_of_ok hcode rfl) hplain.2 (fun j hj hnext => ?_) hstmts hwords ?_
  · cases t with
    | true => exact .target hi hj (by simp [Instruction.targets, htarget, hnext])
    | false =>
      have hpair := pair_infix_of_offset hi hj hnext
      have hbranch : i.isJump = false := by
        rw [Instruction.isJump, hrole, if_neg (by rintro rfl; cases htaken)]
        rfl
      exact .next hpair hbranch hplain.1 hplain.2 (FlowGraph.not_undecoded_of_followed hinsns hpair)
  · intro id' b' j taken fall hb' hhead hj hsuccs
    obtain ⟨rfl, -⟩ | ⟨c, hc, htells⟩ := hexit
    · exact absurd hsuccs (succs_ne_pair hb hlast (by rw [Instruction.isConditional, hrole]; rfl) _ _)
    · exact ⟨c, t, hc, htells, successor_of_fork hb hlast htarget hb' hhead hj hsuccs⟩

end Blocks

/-- **Blocks.** The machine goes through a block of code that writes to no slot as the block was recovered. By induction
on the instructions that are left: all but the last one lead on to the next. -/
lemma through_block {ctx : Context} {code : List UInt8} {extra : List Nat}
    (hcode : ∀ i ∈ decode code, isReadOnly i = true) {σ : Store} {locals : UInt16 → Int32}
    (hl : Holds ctx.names σ locals) {id : BlockId} {b : Block}
    (hb : (FlowGraph.withLeaders (decode code) extra).block? id = some b) {i : Instruction} {rest : List Instruction}
    (hsuffix : (i :: rest) <:+ b.body) {stack : Stack} {r : Recovered} (hr : run ctx (i :: rest) stack = .ok r)
    {ns : List Int32} (hs : HasWords σ stack ns) :
    Through (blockRun code extra locals) σ b r (codeRun (decode code) · i.offset { locals, stack := ns }) := by
  have hinsns := coherent_decode code
  have hcuts := FlowGraph.cuts_withLeaders hinsns extra
  induction rest generalizing i stack r ns with
  | nil =>
    obtain ⟨r, _, hstep, ⟨⟩, rfl⟩ := run_cons_ok hr
    have hlast : b.last? = some i := by
      obtain ⟨front, hfront⟩ := hsuffix
      simp [Block.last?, ← hfront]
    have hnil : r.andThen { stack := r.stack } = r := by simp [Recovered.andThen]
    rw [hnil]
    have hi := hcode i (hcuts.mem_of_mem_body hb (List.mem_of_getLast? hlast))
    obtain ⟨op, hop, hwrites⟩ | ⟨jump, target, hjump⟩ := cases_of_isReadOnly hi
    · exact through_of_op hb hlast hl hstep hs hop hwrites
    · exact through_of_jump hb hlast hstep hs hjump
  | cons j rest ih =>
    have hpair : [i, j] <:+: b.body := (List.prefix_append [i, j] rest).isInfix.trans hsuffix.isInfix
    have hmem := hcuts.mem_of_mem_body hb (hpair.subset (List.mem_cons_self ..))
    obtain ⟨htransfer, hexit⟩ := FlowGraph.plain_of_interior hinsns hb hpair
    obtain ⟨op, hop, hwrites⟩ | ⟨jump, target, hjump⟩ := cases_of_isReadOnly (hcode i hmem)
    · obtain ⟨r₁, r₂, hstep, hrest, rfl⟩ := run_cons_ok hr
      have hcodeStep := codeStep_of_op (f := { locals, stack := ns }) hinsns.ascending hmem (jump?_of_intOp hop)
      obtain hfault | ⟨ns', returned, hmachine, hnone, hwords, hstmts, -⟩ :=
        step_of_op hop hwrites hstep hl hs
      · rw [hfault] at hcodeStep
        exact .faults (codeRun_of_error hcodeStep 0)
      obtain rfl : returned = none := returned_of_not_exit hop hexit hmachine rfl
      have hsame : r₁.andThen r₂ = r₂ := by simp [Recovered.andThen, hnone, hstmts rfl]
      have hnext := offset_of_pair_infix (tiles_decode code).contiguous
        (hcuts.pair_infix_iff.mpr (.inl ⟨id, b, hb, hpair⟩))
      rw [hmachine] at hcodeStep
      rw [hsame]
      refine (ih ((List.suffix_cons i _).trans hsuffix) hrest hwords).step fun n => ?_
      rw [hnext]
      exact codeRun_of_ok hcodeStep rfl n
    · rw [Instruction.isTransfer, role_of_jump hjump] at htransfer
      split at htransfer <;> cases htransfer

/-! ### Whole machines -/

/-- The first block starts where code starts. -/
lemma startOf_zero (code : List UInt8) (extra : List Nat) :
    (FlowGraph.withLeaders (decode code) extra).startOf 0 = 0 := by
  have hinsns := coherent_decode code
  have hcuts := FlowGraph.cuts_withLeaders hinsns extra
  cases hb : (FlowGraph.withLeaders (decode code) extra).block? 0 with
  | none => simp [FlowGraph.startOf, hb]
  | some b =>
    obtain ⟨i, hhead, hstart⟩ := hcuts.head?_body hb
    have hi := hcuts.mem_of_mem_body hb (List.mem_of_mem_head? hhead)
    obtain ⟨first, rest, hdecode⟩ := List.exists_cons_of_ne_nil (List.ne_nil_of_mem hi)
    have hfirst : first ∈ decode code := by simp [hdecode]
    have hzero : first.offset = 0 := by
      have hcontiguous := (tiles_decode code).contiguous
      rw [hdecode] at hcontiguous
      exact hcontiguous.1
    -- the first instruction is in the first block, which begins with its least offset
    obtain ⟨id, b', hb', hmem⟩ := hcuts.exists_block hfirst
    obtain rfl := hcuts.id_eq_zero_of_first hinsns.ascending (by simp [hdecode]) hb' hmem
    obtain rfl := Option.some.inj (hb.symm.trans hb')
    have hle := (hcuts.ascending_body hinsns.ascending hb).first_le hhead first hmem
    rw [startOf_of_block? hb, ← hstart]
    omega

/-- A machine that goes through the blocks of a setting as they are recovered. It needs at least one step to come to a
result, and more steps do not change the result. -/
structure BlockRun.Follows (M : BlockRun) (s : Setting) (σ : Store) : Prop where
  zero : ∀ place, M 0 place = none
  more : ∀ {n m place result}, n ≤ m → M n place = some result → M m place = some result
  through : ∀ {id b stack r ns}, s.graph.block? id = some b → run s.context b.body stack = .ok r →
    HasWords σ stack ns → Through M σ b r (M · (id, ns))
  switch : ∀ {id b}, s.graph.block? id = some b → b.switch = none

lemma follows_blockRun {ctx : Context} {code : Code} (hcode : ∀ i ∈ decode code.bytes, isReadOnly i = true) {σ : Store}
    {locals : UInt16 → Int32} (hl : Holds ctx.names σ locals) :
    (blockRun code.bytes (tableLeaders code.handlers) locals).Follows
      (Setting.ofShape ctx (CodeShape.ofCode code)) σ := by
  have hcuts := FlowGraph.cuts_withLeaders (coherent_decode code.bytes) (tableLeaders code.handlers)
  refine ⟨fun _ => rfl, codeRun_of_le, ?_, ?_⟩
  · intro id b stack r ns hb hr hs
    obtain ⟨i, hhead, hstart⟩ := hcuts.head?_body hb
    obtain ⟨rest, hbody⟩ := List.head?_eq_some_iff.mp hhead
    rw [hbody] at hr
    have hthrough := through_block hcode hl hb (hbody ▸ List.suffix_refl _) hr hs
    rwa [hstart, ← startOf_of_block? hb] at hthrough
  · intro id b hb
    rw [Option.eq_none_iff_forall_ne_some]
    intro edges hswitch
    obtain ⟨i, hlast, hi⟩ := isSwitch_of_edgesOf ((congrArg Prod.snd (block?_build hb).2.2.1).symm.trans hswitch)
    have hmem := hcuts.mem_of_mem_body hb (List.mem_of_getLast? hlast)
    cases (isSwitch_of_isReadOnly (hcode i hmem)).symm.trans hi

end JvmLift.IntCode
